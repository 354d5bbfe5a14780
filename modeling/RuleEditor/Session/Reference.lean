import RuleEditor.Session.Edit

/-!
# Requests of a session

Searching, loading and storing rules takes time, and the session may be edited meanwhile. An operation
that needs an answer stops with what it asks for and with what it remembers; it goes on when the answer
comes. A rule that has been loaded for a reference is put in place only if the token that the request
was given is still the one of its path.
-/
namespace RuleEditor

/-- What is to be written to the store. -/
inductive Write where
  | create (d : Document)
  | update (uuid : Value) (d : Document)
  | restore (uuid : Value) (version : Int)

/-- A check of all references of a rule, as far as it has come. -/
structure Refresh where
  remaining : List (String × Reference)
  tokens : Members Nat
  epoch : Nat
  checked : List (String × Reference × Finding)

/-- What an operation goes on with when a rule has been loaded. -/
inductive AfterLoad where
  | opening
  | resolving (path : String) (summary : Summary) (token epoch : Nat)
  | refreshing (r : Refresh) (opening : Bool)

/-- What an operation goes on with when a version has been written. -/
inductive AfterWrite where
  | saving
  | restoring (uuid : Value) (version : Int)

/-- The result of an operation. -/
inductive Outcome where
  | opened
  | found (rules : List Summary)
  | resolved (applied : Bool)
  | refreshed (count : Nat)
  | saved (s : Saved)

/-- How far an operation has come: to its end, or to a question. -/
inductive Progress where
  | finished (outcome : Outcome)
  | loading (uuid version : Value) (next : AfterLoad)
  | searching (ruleTypes : List String) (query : Value)
  | writing (write : Write) (next : AfterWrite)
  /-- A version that has been written is read back. -/
  | reading (uuid version : Value) (saved : Saved)

namespace Reference

/-- The reference with what a check of its rule found. -/
def reviewed (f : Finding) (r : Reference) : Reference :=
  { r with
    mismatch := some f.mismatch
    declared := if f.mismatch then f.declared else .null
    evaluated := if f.mismatch then f.evaluated else .null }

end Reference

namespace Node

/-- The node at a path, or none if the path does not lead to one. -/
def atPath? (path : String) (tree : Node) : Except Fault (Option Node) :=
  match tree.atPath path with
  | .ok node => .ok (some node)
  | .error (.noSuchPlace _) | .error (.outOfRange _) => .ok none
  | .error fault => .error fault

/-- The tree with what a check found, if the reference that was checked is still at the path. -/
def writeReview? (path : String) (target : Reference) (f : Finding) (tree : Node) :
    Except Fault (Option Node) := do
  match ← tree.atPath? path with
  | some (.reference live) =>
    if live.sameTarget target then return some (← tree.putAtPath path (.reference (live.reviewed f)))
    return none
  | some (.ruleCheck name live) =>
    if live.sameTarget target then return some (← tree.putAtPath path (.ruleCheck name (live.reviewed f)))
    return none
  | _ => return none

/-- All selected references of a tree, with their paths. -/
def selectedReferences (tree : Node) : List (String × Reference) :=
  tree.entries.filterMap fun (path, node) =>
    match node.target? with
    | some target => if target.isResolved then some (path, target) else none
    | none => none

end Node

namespace Session

def requireService : Editing Unit := do
  unless (← get).connected do throw .noResolver

/-! ### The types of rules to choose from -/

/-- The types of rules that a reference may target: those of the catalogue, else those of the settings.
Without either the fault is reported. -/
def referenceTypes : Editing (Except Fault (List String)) := do
  let s ← get
  match s.catalogue.referenceTypes with
  | .ok types => return .ok types
  | .error fault =>
    if !s.settings.ruleTypes.isEmpty then return .ok s.settings.ruleTypes
    note ⟨.warning, "Reference picker unavailable", [("key", .text "ruleTypes")]⟩
    return .error fault

/-- Searches the rules that a reference may target. -/
def searchReferences (query : Value) : Editing Progress := do
  match ← referenceTypes with
  | .error _ => return .finished (.found [])
  | .ok types =>
    requireService
    return .searching types query

/-- Goes on with the rules that a search has found; a search that fails finds none. -/
def found : Except Fault (List Summary) → Editing Progress
  | .ok rules => return .finished (.found rules)
  | .error (.unavailable ..) => do
    note ⟨.error, "Reference search failed", []⟩
    return .finished (.found [])
  | .error fault => throw fault

/-! ### Findings -/

/-- The finding about a version of a rule; events of the check are noted by `report`. -/
def review (report : Event → Editing Unit) (uuid version : Value) (d : Document) : Editing Finding := do
  let (f, memo, events) ← (← get).memo.review uuid version (Finding.ofDocument d)
  modify fun s => { s with memo }
  events.forM report
  return f

/-! ### References -/

/-- Puts a reference in the place of another one; `false` if there is none at the path. -/
def applyReference (path : String) (target : Reference) : Editing Bool := do
  let tree ← definition
  match ← tree.atPath? path with
  | some (.ruleCheck ..) =>
    put path (← Node.selectRule path target)
    return true
  | some (.reference _) =>
    putExpression path (.reference target)
    return true
  | _ => return false

/-- Selects a rule for the reference at a path; the rule has to be loaded first. -/
def resolveReference (path : String) (summary : Summary) : Editing Progress := do
  requireService
  let token ← issueToken path
  noteHere ⟨.info, "Resolving rule reference",
    [("path", .text path), ("rule_uuid", summary.uuid), ("version", summary.version)]⟩
  return .loading summary.uuid summary.version (.resolving path summary token (← get).epoch)

/-- The reference to a rule that was selected by its summary and has been loaded. -/
def referenceTo (summary : Summary) (d : Document) (version : Value) (f : Finding) : Reference :=
  (Reference.unchecked (d.type.orElse summary.type) (summary.id.orElse d.id) summary.uuid version
    (d.ruleType.orElse summary.ruleType)).reviewed f

/-- Goes on with the rule that was loaded for a reference, unless the request is stale. -/
def resolved (path : String) (summary : Summary) (token epoch : Nat) (loaded : Except Fault Document) :
    Editing Bool := do
  match loaded with
  | .error (.unavailable ..) =>
    noteHere ⟨.error, "Rule reference resolution failed",
      [("path", .text path), ("rule_uuid", summary.uuid), ("version", summary.version)]⟩
    return false
  | .error fault => throw fault
  | .ok d =>
    if (← get).isCurrent path token epoch then
      let version := if d.version.isNull then summary.version else d.version
      let f ← review noteHere summary.uuid version d
      let target := referenceTo summary d version f
      if ← applyReference path target then
        noteHere ⟨.info, "Rule reference applied",
          [("path", .text path), ("rule_id", target.id), ("version", version)]⟩
        return true
      noteHere ⟨.debug, "Discarding rule reference for a node that is no reference", [("path", .text path)]⟩
      return false
    noteHere ⟨.debug, "Discarding stale rule reference resolution",
      [("path", .text path), ("rule_uuid", summary.uuid)]⟩
    return false

/-- Takes the selected rule out of a reference. -/
def clearReference (path : String) : Editing Unit := do
  let _ ← issueToken path
  match ← node path with
  | .ruleCheck _ target => put path (← Node.clearRule path target)
  | .reference target =>
    setExpression path (.reference { Fresh.reference target.type with ruleType := target.ruleType })
  | _ => throw (.noReferenceAt path)
  noteHere ⟨.info, "Rule reference cleared", [("path", .text path)]⟩

/-! ### Checks of all references -/

/-- The tree with a finding written where the reference that was checked still is; none if it is not
there any more. -/
def writeFinding (r : Refresh) (path : String) (target : Reference) (f : Finding) (tree : Node) :
    Editing (Option Node) := do
  if !(← get).isCurrent path ((r.tokens.get? path).getD 0) r.epoch then
    note ⟨.debug, "Discarding stale rule reference check", [("path", .text path)]⟩
    return none
  match ← tree.writeReview? path target f with
  | some tree => return some tree
  | none =>
    note ⟨.debug, "Discarding rule reference check for a changed node", [("path", .text path)]⟩
    return none

/-- Writes the findings of a check into a tree. Returns the tree and how many were written. -/
def writeFindings (r : Refresh) :
    List (String × Reference × Finding) → Node → Editing (Node × Nat)
  | [], tree => return (tree, 0)
  | (path, target, f) :: rest, tree => do
    match ← writeFinding r path target f tree with
    | some tree =>
      let (tree, count) ← writeFindings r rest tree
      return (tree, count + 1)
    | none => writeFindings r rest tree

/-- The end of a check. -/
def finishRefresh (r : Refresh) : Editing Nat := do
  let (tree, count) ← writeFindings r r.checked (← definition)
  if 0 < count then commit tree
  return count

def refreshOutcome (opening : Bool) (count : Nat) : Outcome := if opening then .opened else .refreshed count

/-- Goes through references until a rule has to be loaded. -/
def advance (opening : Bool) (r : Refresh) : List (String × Reference) → Editing Progress
  | [] => do return .finished (refreshOutcome opening (← finishRefresh { r with remaining := [] }))
  | (path, target) :: rest => do
    match ← (← get).memo.lookup target.uuid target.version with
    | some f => advance opening { r with checked := r.checked ++ [(path, target, f)] } rest
    | none =>
      requireService
      return .loading target.uuid target.version
        (.refreshing { r with remaining := (path, target) :: rest } opening)

/-- The tokens of some paths. -/
def tokensOf : List String → Editing (Members Nat)
  | [] => return []
  | path :: paths => do
    let token ← currentToken path
    return (path, token) :: (← tokensOf paths)

/-- Checks every selected reference of the rule. -/
def refresh (opening : Bool) : Editing Progress := do
  let targets := (← definition).selectedReferences
  let tokens ← tokensOf (targets.map (·.1))
  let epoch := (← get).epoch
  advance opening ⟨targets, tokens, epoch, []⟩ targets

/-- Goes on with the rule that was loaded for a check; a rule that is not available is passed over. -/
def refreshed (opening : Bool) (r : Refresh) (loaded : Except Fault Document) : Editing Progress := do
  match r.remaining, loaded with
  | [], _ => advance opening r []
  | (path, target) :: rest, .ok d =>
    let f ← review note target.uuid target.version d
    advance opening { r with checked := r.checked ++ [(path, target, f)] } rest
  | (path, target) :: rest, .error (.unavailable ..) =>
    note ⟨.error, "Rule reference check failed",
      [("path", .text path), ("rule_uuid", target.uuid), ("version", target.version)]⟩
    advance opening r rest
  | _, .error fault => throw fault

def refreshReferences : Editing Progress := refresh false

/-! ### Opening, saving and restoring -/

/-- Loads a rule and checks its references. -/
def openRule (uuid version : Value) : Editing Progress := do
  requireService
  return .loading uuid version .opening

/-- Goes on with a rule that has been loaded. -/
def loaded (next : AfterLoad) (answer : Except Fault Document) : Editing Progress := do
  match next with
  | .opening =>
    loadRule (← answer)
    refresh true
  | .resolving path summary token epoch =>
    return .finished (.resolved (← resolved path summary token epoch answer))
  | .refreshing r opening => refreshed opening r answer

/-- Stores the rule as a new one, or as a new version of the rule that it is. -/
def save : Editing Progress := do
  (← definition).ensureWellFormed none
  let d ← openDocument
  return .writing (if d.isStored then .update d.uuid d else .create d) .saving

/-- Writes an old version forward as a new one and loads it. -/
def restore (version : Int) : Editing Progress := do
  match (← get).document with
  | some d =>
    if d.isStored then return .writing (.restore d.uuid version) (.restoring d.uuid version)
    throw .notSaved
  | none => throw .notSaved

/-- Goes on with a version that has been written. -/
def written (next : AfterWrite) (answer : Except Fault Saved) : Editing Progress := do
  let saved ← answer
  match next with
  | .saving =>
    let d ← openDocument
    modify fun s =>
      { s with document := some { d with uuid := saved.uuid, version := saved.version }, isNew := false }
    noteHere ⟨.info, "Rule saved",
      [("rule_uuid", saved.uuid), ("version", saved.version), ("rule_id", saved.id)]⟩
    return .finished (.saved saved)
  | .restoring uuid version =>
    noteHere ⟨.info, "Rule version restored",
      [("rule_uuid", uuid), ("restored", .int version), ("version", saved.version)]⟩
    return .reading uuid saved.version saved

/-- Goes on with a restored version that has been read back. -/
def reread (saved : Saved) (answer : Except Fault Document) : Editing Progress := do
  loadRule (← answer)
  return .finished (.saved saved)

end Session

end RuleEditor
