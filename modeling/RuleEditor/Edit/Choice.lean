import RuleEditor.Edit.Condition

/-!
# Edits of choices

The branches of a choice and the labels of its results. A result is labelled by what the user typed,
else by the identifier of the rule that it refers to, else by its position. When a result takes up
another rule, a label typed since the last such change survives once.
-/
namespace RuleEditor

namespace Node

/-- The selected rule that a result refers to. -/
def selected? : Node → Option Reference
  | .reference target => if target.isResolved then some target else none
  | _ => none

end Node

namespace ResultLabel

/-- The label of a slot whose result refers to a new rule. -/
def forNewTarget (target : Reference) (l : ResultLabel) : ResultLabel :=
  if l.source = .typed ∧ l.retyped then { l with retyped := false } else ⟨target.id, .target, false⟩

/-- The label of a slot after its result has changed. -/
def afterResult (old new : Node) (l : ResultLabel) : ResultLabel :=
  match new.selected?, old.selected? with
  | none, _ => if l.source = .target then positional else l
  | some target, some previous => if target.sameTarget previous then l else l.forNewTarget target
  | some target, none => l.forNewTarget target

/-- The label that follows from a result alone. -/
def derived (result : Node) : ResultLabel :=
  match result.selected? with
  | some target => ⟨target.id, .target, false⟩
  | none => positional

/-- The label after the user has typed one; a missing text restores the derived label. -/
def typed (text : Value) (result : Node) : ResultLabel :=
  if text.isPresent then ⟨text, .typed, true⟩ else derived result

/-- The text that is shown for the slot at `path`. -/
def shown (path : String) (result : Node) (l : ResultLabel) : Except Fault Value :=
  if l.source = .typed ∧ l.text.isPresent then .ok l.text
  else
    match result.selected? with
    | some target => .ok target.id
    | none => (Label.positional path .expression).map .text

end ResultLabel

namespace Choice

def rootPath : String := "case"

def conditionPath (index : Int) : String := Address.join [rootPath, "when", toString index]

def resultPath (index : Int) : String := Address.join [rootPath, "then", toString index]

def otherwisePath : String := Address.join [rootPath, "else"]

def branch (index : Int) (c : Choice) : Except Fault (Branch Node) :=
  match Index.item? c.branches index with
  | some branch => .ok branch
  | none => .error .noItem

def withBranch (index : Int) (branch : Branch Node) (c : Choice) : Except Fault Choice :=
  match Index.replace? c.branches index branch with
  | some branches => .ok { c with branches }
  | none => .error .noItem

/-- The choice with a new branch at the end. -/
def addBranch (catalogue : Catalogue) (c : Choice) : Labelling Choice := do
  let names ← (c.branches.mapM (·.condition.name) : Except Fault (List Value))
  let label ← Label.next rootPath .comparison names
  let condition ← Fresh.condition catalogue (.text label)
  let result ← Fresh.literal (← c.otherwise.type)
  return { c with branches := c.branches ++ [⟨condition, result, .positional⟩] }

/-- The choice without a branch; the other branches keep their labels. -/
def removeBranch (index : Int) (c : Choice) : Except Fault Choice :=
  match Index.erase? c.branches index with
  | some branches => .ok { c with branches }
  | none => .error .noItem

def setCondition (index : Int) (condition : Node) (c : Choice) : Except Fault Choice := do
  let branch ← c.branch index
  c.withBranch index { branch with condition }

/-- The choice with a condition turned into one of another kind. -/
def changeConditionKind (catalogue : Catalogue) (index : Int) (kind : Kind) (c : Choice) :
    Labelling Choice := do
  let branch ← c.branch index
  let condition ← branch.condition.changeKind catalogue (conditionPath index) kind
  c.setCondition index condition

def setResult (index : Int) (result : Node) (c : Choice) : Except Fault Choice := do
  let branch ← c.branch index
  c.withBranch index { branch with result, label := branch.label.afterResult branch.result result }

def setOtherwise (result : Node) (c : Choice) : Choice :=
  { c with otherwise := result, label := c.label.afterResult c.otherwise result }

def setResultLabel (index : Int) (text : Value) (c : Choice) : Except Fault Choice := do
  let branch ← c.branch index
  c.withBranch index { branch with label := .typed text branch.result }

def setOtherwiseLabel (text : Value) (c : Choice) : Choice := { c with label := .typed text c.otherwise }

/-- The label that is shown for the result of a branch. -/
def resultLabel (index : Int) (c : Choice) : Except Fault Value := do
  let branch ← c.branch index
  branch.label.shown (resultPath index) branch.result

/-- The label that is shown for the final result. -/
def otherwiseLabel (c : Choice) : Except Fault Value := c.label.shown otherwisePath c.otherwise

end Choice

end RuleEditor
