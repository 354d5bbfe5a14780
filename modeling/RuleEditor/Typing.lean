import RuleEditor.Tree.Form

/-!
# Types of expressions

A chain that holds a numeric operator is a number; any other chain has the type of its first operand.
Which operators are numeric is a parameter: a catalogue may name its own.
-/
namespace RuleEditor.Typing

/-- The numeric operators where nothing else is set up. -/
def arithmetic : List String := ["+", "-", "*", "/"]

/-- Whether one of the operators is numeric. A list or a record among the operators before the first
numeric one cannot be compared. -/
def anyNumeric (numeric : List String) : List Value → Except Fault Bool
  | [] => .ok false
  | .text s :: rest => if s ∈ numeric then .ok true else anyNumeric numeric rest
  | .list _ :: _ | .record _ :: _ => .error .unsuitable
  | _ :: rest => anyNumeric numeric rest

/-- The type of a chain of some operands under some operators. -/
def infer (numeric : List String) (operands : List Node) (operators : List Value) : Except Fault Value := do
  if ← anyNumeric numeric operators then return .text "number"
  match operands with
  | [] => return .text "number"
  | first :: _ => return (← first.type).orElse (.text "number")

/-- The type that an expression evaluates to: the inferred one for a chain, else the declared one. -/
def ofExpression : Node → Except Fault Value
  | .chain _ operands operators => infer arithmetic operands operators
  | node => node.type

/-- The type that a definition evaluates to, null without a definition. -/
def ofDefinition (form : Option Form) (definition : Node) : Except Fault Value :=
  match definition with
  | .absent => .ok .null
  | .comparison .. | .group .. | .ruleCheck .. => .ok (.text "boolean")
  | .choice _ otherwise _ =>
    if form = some .condition then .ok (.text "boolean") else ofExpression otherwise
  | node => if form = some .condition then .ok (.text "boolean") else ofExpression node

end RuleEditor.Typing
