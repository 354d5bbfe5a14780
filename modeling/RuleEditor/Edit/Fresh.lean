import RuleEditor.Catalogue.Basic

/-!
# New nodes

The shapes that edits put in: an empty literal, a comparison of the default field, an empty reference
and a choice with one branch.
-/
namespace RuleEditor.Fresh

/-- The value that a new literal of a type starts with. -/
def value (type : Value) : Except Fault Value :=
  match type.orElse (.text "text") with
  | .text "number" => .ok (.int 0)
  | .text "text" => .ok (.text "")
  | .text "boolean" => .ok (.bool false)
  | .list _ | .record _ => .error .unsuitable
  | _ => .ok .null

/-- A literal with the empty value of a type; without a type it is a text. -/
def literal (type : Value) : Except Fault Node :=
  (value type).map (.literal (type.orElse (.text "text")))

/-- A comparison of the default field with an empty value of a type. -/
def comparison (c : Catalogue) (name type : Value) : Except Fault Node := do
  let operator ← c.defaultComparison type
  let right ← literal type
  return .comparison name (.field type (.text c.defaultField)) (.text operator) right

/-- The comparison that a new condition starts as. -/
def condition (c : Catalogue) (name : Value) : Except Fault Node := comparison c name (.text "number")

def conditions (c : Catalogue) (names : List Value) : Except Fault (List Node) := names.mapM (condition c)

/-- A group of new conditions. -/
def group (c : Catalogue) (name : Value) (children : List Value) : Except Fault Node := do
  return .group name (← conditions c children) .all false

def reference (type : Value) : Reference := .unselected type (.int 1)

def ruleCheck (name : Value) : Node := .ruleCheck name (reference (.text "boolean"))

def branch (c : Catalogue) (name type : Value) : Except Fault (Branch Node) := do
  let condition ← condition c name
  let result ← literal type
  return ⟨condition, result, .positional⟩

/-- A choice with one branch, whose results are empty values of a type. -/
def choice (c : Catalogue) (type : Value) : Except Fault Node := do
  let branch ← branch c (.text "Condition 1") type
  let otherwise ← literal type
  return .choice [branch] otherwise .positional

end RuleEditor.Fresh
