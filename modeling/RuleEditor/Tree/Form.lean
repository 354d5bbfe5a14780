import RuleEditor.Tree.Node

/-!
# Forms of definitions

A rule is a condition, a choice between results or an expression. The form of a rule says how its
definition is read from storage and where its paths start.
-/
namespace RuleEditor

inductive Form where
  | condition
  | choice
  | expression
deriving DecidableEq, Repr

namespace Form

def text : Form → String
  | .condition => "condition"
  | .choice => "case"
  | .expression => "expression"

def ofText? : String → Option Form
  | "condition" => some .condition
  | "case" => some .choice
  | "expression" => some .expression
  | _ => none

/-- The form that plain data names. -/
def ofValue? : Value → Option Form
  | .text s => ofText? s
  | _ => none

theorem ofText?_text (f : Form) : ofText? f.text = some f := by cases f <;> rfl

end Form

namespace Node

/-- The form of the rule that has a node as its definition. -/
def form : Node → Form
  | .choice .. => .choice
  | .comparison .. | .group .. | .ruleCheck .. => .condition
  | _ => .expression

end Node

end RuleEditor
