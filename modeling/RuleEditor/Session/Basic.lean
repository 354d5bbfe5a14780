import RuleEditor.Expansion
import RuleEditor.Label
import RuleEditor.Rule.Warnings
import RuleEditor.Settings
import RuleEditor.WellFormed

/-!
# Editing sessions

A session owns one rule and all that belongs to its editing: the numbering of labels, the expansion of
nodes, the findings about referenced rules, and the warnings. Each request for a reference holds a
token of its path. A change at or above a path gives its token a new value, so that an answer to an
older request can be told.
-/
namespace RuleEditor

structure Session where
  catalogue : Catalogue
  settings : Settings
  id : String
  /-- The session can ask a rule service. -/
  connected : Bool
  /-- The operators that make a chain a number. -/
  numeric : List String
  document : Option Document
  isNew : Bool
  warnings : Members (List Warning)
  numbering : Numbering
  expansion : Expansion
  memo : Memo
  tokens : Members Nat
  /-- The last value that a token was given. -/
  generation : Nat
  /-- How many rules have been opened or started. -/
  epoch : Nat
  journal : List Event

/-- Operations of a session. What an operation has changed before it fails stays changed. -/
abbrev Editing := ExceptT Fault (StateM Session)

namespace Session

/-- A session without a rule. The catalogue says which operators are numeric, or else the settings. -/
def start (catalogue : Catalogue) (settings : Settings) (id : String) (connected : Bool) : Session where
  catalogue
  settings
  id
  connected
  numeric := if catalogue.markedNumeric.isEmpty then settings.numeric else catalogue.numeric
  document := none
  isNew := true
  warnings := []
  numbering := .fresh
  expansion := .start none true
  memo := .empty settings.memoSize
  tokens := []
  generation := 0
  epoch := 0
  journal := []

/-! ### Journal -/

def note (e : Event) : Editing Unit := modify fun s => { s with journal := s.journal ++ [e] }

/-- Notes an event as one of this session. -/
def noteHere (e : Event) : Editing Unit :=
  modify fun s => { s with journal := s.journal ++ [e.within [("session_id", .text s.id)]] }

/-! ### The rule and its nodes -/

def openDocument : Editing Document := do
  match (← get).document with
  | some d => return d
  | none => throw .noRuleOpen

def definition : Editing Node := do return (← openDocument).definition

def node (path : String) : Editing Node := do (← definition).atPath path

def choice : Editing Choice := do
  match ← definition with
  | .choice branches otherwise label => return ⟨branches, otherwise, label⟩
  | _ => throw .notAChoice

def refreshWarnings : Editing Unit := do
  let warnings ← (← openDocument).warnings
  modify fun s => { s with warnings }

/-- Makes a tree the definition of the rule. -/
def commit (tree : Node) : Editing Unit := do
  let d ← openDocument
  modify fun s => { s with document := some { d with definition := tree } }
  refreshWarnings

end Session

namespace Node

/-- The tree with the type of a chain inferred anew, where there is a chain. -/
def reinferAt (numeric : List String) (steps : List Step) (tree : Node) : Except Fault Node := do
  match ← tree.find steps with
  | .chain type operands operators =>
    let inferred ← Typing.infer numeric operands operators
    if inferred.same type then return tree
    Node.replace (.chain inferred operands operators) steps tree
  | _ => return tree

/-- Infers anew the types of all chains on the way, from the place that is `k` steps down upwards. -/
def reinferUp (numeric : List String) (steps : List Step) : (k : Nat) → Node → Except Fault Node
  | 0, tree => .ok tree
  | k + 1, tree => do reinferUp numeric steps k (← tree.reinferAt numeric (steps.take k))

end Node

namespace Session

/-- Puts a node at a path, and infers the types of the chains around it. -/
def put (path : String) (new : Node) : Editing Unit := do
  let tree ← definition
  let steps ← Address.steps path
  let tree ← Node.replace new steps tree
  commit (← tree.reinferUp (← get).numeric steps steps.length)

/-- Puts an expression at a path. The label of a result slot follows its result. -/
def putExpression (path : String) (e : Node) : Editing Unit := do
  match ← definition with
  | .choice branches otherwise label =>
    match ← Address.steps path with
    | [.result i] => commit (← Choice.setResult i e ⟨branches, otherwise, label⟩).node
    | [.otherwise] => commit (Choice.setOtherwise e ⟨branches, otherwise, label⟩).node
    | _ => put path e
  | _ => put path e

/-- Runs an edit that labels new nodes. -/
def labelled {α : Type} (edit : Labelling α) : Editing α := do
  let (result, numbering) := edit.run (← get).numbering
  modify fun s => { s with numbering }
  result

/-! ### Tokens -/

/-- New values for the tokens at a path and below it, counted on from a generation. -/
def staled (path : String) (generation : Nat) : Members Nat → Members Nat × Nat
  | [] => ([], generation)
  | (key, token) :: rest =>
    if Address.covers path key then
      let (rest, last) := staled path (generation + 1) rest
      ((key, generation + 1) :: rest, last)
    else
      let (rest, last) := staled path generation rest
      ((key, token) :: rest, last)

/-- Makes the requests at a path and below it stale. -/
def invalidate (path : String) : Editing Unit :=
  modify fun s =>
    let (tokens, generation) := staled path s.generation s.tokens
    { s with tokens, generation }

/-- Gives a path a new token; older requests there become stale. -/
def issueToken (path : String) : Editing Nat := do
  modify fun s => { s with generation := s.generation + 1, tokens := s.tokens.set path (s.generation + 1) }
  return (← get).generation

/-- The token of a path, or a new one. -/
def currentToken (path : String) : Editing Nat := do
  match (← get).tokens.get? path with
  | some token => return token
  | none => issueToken path

/-- A request with a token is not stale. -/
def isCurrent (s : Session) (path : String) (token epoch : Nat) : Bool :=
  epoch == s.epoch && s.tokens.get? path == some token

/-! ### Queries -/

def warningsFor (s : Session) (path : String) : List Warning := (s.warnings.get? path).getD []

def hasBlockingWarnings (s : Session) : Bool := s.warnings.any fun m => m.2.any (·.isBlocking)

/-- The comparison operators that may be chosen for the comparison at a path. -/
def availableOperators (path : String) : Editing (List String) := do
  let comparison ← (← node path).asComparison
  (← get).catalogue.comparisonsFor (← comparison.left.type)

def resultLabel (index : Int) : Editing Value := do (← choice).resultLabel index

def otherwiseLabel : Editing Value := do (← choice).otherwiseLabel

/-- The stored form of the rule, which has to be well formed. -/
def output : Editing Value := do
  (← definition).ensureWellFormed none
  (← openDocument).write

/-! ### Starting and loading rules -/

def reset (form : Option Form) (isNew : Bool) : Editing Unit :=
  modify fun s =>
    { s with
      epoch := s.epoch + 1
      tokens := []
      numbering := .fresh
      expansion := .start form isNew
      warnings := []
      isNew }

/-- The definition and the type that a new rule starts with. -/
def initial (form type : Value) : Editing (Node × Value) := do
  let s ← get
  match Form.ofValue? form with
  | some .condition =>
    return (← Fresh.group s.catalogue (.text "Main Condition") [.text "Condition 1"], .text "boolean")
  | some .choice =>
    let type := type.orElse (.text s.settings.defaultType)
    return (← Fresh.choice s.catalogue type, type)
  | some .expression =>
    let type := type.orElse (.text "number")
    return (← Fresh.literal type, type)
  | none => throw (.unknownForm form)

/-- Starts a new rule that is not stored yet. -/
def newRule (form type ruleType id description : Value) : Editing Unit := do
  reset (Form.ofValue? form) true
  let (definition, type) ← initial form type
  let d ← Document.make form type definition ruleType .null (.int 1) id description
  modify fun s => { s with document := some d }
  noteHere ⟨.info, "New rule started", [("structure", form), ("return_type", type)]⟩

/-- Replaces the rule by a stored one. -/
def loadRule (d : Document) : Editing Unit := do
  reset (some d.form) false
  modify fun s => { s with document := some d }
  refreshWarnings
  noteHere ⟨.info, "Rule loaded",
    [("rule_uuid", d.uuid), ("version", d.version), ("structure", .text d.form.text)]⟩

end Session

end RuleEditor
