import RuleEditor.Tree.Parts
import RuleEditor.Typing

/-!
# Normal chains

A normal chain has at least two operands and one operator fewer than operands. Normalizing replaces a
chain of one operand by that operand, at every depth, and fits the operators of every other chain to
its operands. Only operands of chains and arguments of calls are entered.
-/
namespace RuleEditor

/-- Looks up the operator that joins operands of a type. -/
abbrev Joining := Value → Except Fault String

namespace Chain

/-- The operator that stands in for a missing one: the one for the type of the first operand if types
can be looked up, else the last one there is. -/
def filler (joining : Option Joining) (operands : List Node) (operators : List Value) :
    Except Fault Value :=
  match joining, operands, operators.getLast? with
  | some joining, first :: _, _ => do
    let operator ← joining (← first.type)
    return .text operator
  | _, _, some operator => .ok operator
  | _, _, none => .error (.noOperators operands.length)

/-- Operators for some operands: surplus ones are cut off, missing ones filled in. -/
def fit (joining : Option Joining) (operands : List Node) (operators : List Value) :
    Except Fault (List Value) := do
  let kept := operators.take (operands.length - 1)
  let missing := operands.length - 1 - kept.length
  if missing = 0 then return kept
  let filler ← filler joining operands kept
  return kept ++ List.replicate missing filler

/-- The chain of operands that are normal themselves; one operand stands for itself. -/
def ofNormal (numeric : List String) (joining : Option Joining) (operands : List Node)
    (operators : List Value) : Except Fault Node :=
  match operands with
  | [] => .error .noOperands
  | [operand] => .ok operand
  | _ => do
    let operators ← fit joining operands operators
    let type ← Typing.infer numeric operands operators
    return .chain type operands operators

end Chain

namespace Node

mutual

/-- An expression with every chain in it in normal form. -/
def normalized (numeric : List String) (joining : Option Joining) : Node → Except Fault Node
  | .chain _ operands operators => do
    let operands ← normalizedOperands numeric joining operands
    Chain.ofNormal numeric joining operands operators
  | .call type name arguments => do
    let arguments ← normalizedArguments numeric joining arguments
    return .call type name arguments
  | .literal type value => .ok (.literal type value)
  | .field type path => .ok (.field type path)
  | .reference target => .ok (.reference target)
  | .absent => .error (.notAnExpression Node.absent.sortName)
  | .several items => .error (.notAnExpression (Node.several items).sortName)
  | .comparison name left operator right =>
    .error (.notAnExpression (Node.comparison name left operator right).sortName)
  | .group name children conjunction negated =>
    .error (.notAnExpression (Node.group name children conjunction negated).sortName)
  | .ruleCheck name target => .error (.notAnExpression (Node.ruleCheck name target).sortName)
  | .choice branches otherwise label =>
    .error (.notAnExpression (Node.choice branches otherwise label).sortName)

def normalizedOperands (numeric : List String) (joining : Option Joining) :
    List Node → Except Fault (List Node)
  | [] => .ok []
  | node :: nodes => do
    let node ← normalized numeric joining node
    let nodes ← normalizedOperands numeric joining nodes
    return node :: nodes

def normalizedArguments (numeric : List String) (joining : Option Joining) :
    List (Argument Node) → Except Fault (List (Argument Node))
  | [] => .ok []
  | ⟨name, value⟩ :: arguments => do
    let value ← normalized numeric joining value
    let arguments ← normalizedArguments numeric joining arguments
    return ⟨name, value⟩ :: arguments

end

mutual

/-- An expression under another declared type, which the operands of chains take on as well. No value
changes. -/
def retyped (type : Value) : Node → Except Fault Node
  | .chain _ operands operators => do
    let operands ← retypedOperands type operands
    return .chain type operands operators
  | .literal _ value => .ok (.literal type value)
  | .field _ path => .ok (.field type path)
  | .call _ name arguments => .ok (.call type name arguments)
  | .reference target => .ok (.reference { target with type })
  | .absent => .error (.notAnExpression Node.absent.sortName)
  | .several items => .error (.notAnExpression (Node.several items).sortName)
  | .comparison name left operator right =>
    .error (.notAnExpression (Node.comparison name left operator right).sortName)
  | .group name children conjunction negated =>
    .error (.notAnExpression (Node.group name children conjunction negated).sortName)
  | .ruleCheck name target => .error (.notAnExpression (Node.ruleCheck name target).sortName)
  | .choice branches otherwise label =>
    .error (.notAnExpression (Node.choice branches otherwise label).sortName)

def retypedOperands (type : Value) : List Node → Except Fault (List Node)
  | [] => .ok []
  | node :: nodes => do
    let node ← retyped type node
    let nodes ← retypedOperands type nodes
    return node :: nodes

end

end Node

end RuleEditor
