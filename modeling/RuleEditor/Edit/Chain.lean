import RuleEditor.Data.Index
import RuleEditor.Edit.Fresh
import RuleEditor.Tree.Normalize

/-!
# Edits of chains

Adding, removing and replacing operands and operators. After each edit the type of the chain is
inferred anew, under the operators that count as numeric.
-/
namespace RuleEditor

namespace Chain

/-- The chain of some operands and operators, with the inferred type. -/
def build (numeric : List String) (operands : List Node) (operators : List Value) : Except Fault Chain := do
  return ⟨← Typing.infer numeric operands operators, operands, operators⟩

/-- The type of the operands that are added to a chain. -/
def operandType (c : Chain) : Except Fault Value :=
  match c.operands with
  | first :: _ => first.type
  | [] => .ok c.type

/-- The chain of an expression and an empty literal of the same type. -/
def wrap (numeric : List String) (operator : Value) (e : Node) : Except Fault Chain := do
  let added ← Fresh.literal (← e.type)
  build numeric [e, added] [operator]

/-- The chain with an empty literal right after an operand, joined by an operator. -/
def insertOperand (numeric : List String) (operator : Value) (after : Int) (c : Chain) :
    Except Fault Chain := do
  if 0 ≤ after ∧ after < c.operands.length then
    let added ← Fresh.literal (← c.operandType)
    build numeric (c.operands.insertIdx (after.toNat + 1) added) (Index.insert c.operators after operator)
  else throw (.noOperandAt after)

def appendOperand (numeric : List String) (operator : Value) (c : Chain) : Except Fault Chain :=
  c.insertOperand numeric operator ((c.operands.length : Int) - 1)

/-- The operators without the one next to an operand: the one before it, the first one for the first
operand. -/
def operatorsWithout (index : Nat) (operators : List Value) : Except Fault (List Value) :=
  if operators.isEmpty then .ok []
  else if index - 1 < operators.length then .ok (operators.eraseIdx (index - 1))
  else .error .noItem

/-- The chain without an operand; of a single operand that is left, its normal form. -/
def removeOperand (numeric : List String) (index : Int) (c : Chain) : Except Fault Node := do
  if 0 ≤ index ∧ index < c.operands.length then
    let operators ← operatorsWithout index.toNat c.operators
    match c.operands.eraseIdx index.toNat with
    | [] => throw .noOperandsLeft
    | [operand] => operand.normalized numeric none
    | operands => return (← build numeric operands operators).node
  else throw (.noOperandAt index)

def updateOperand (numeric : List String) (index : Int) (e : Node) (c : Chain) : Except Fault Chain :=
  match Index.replace? c.operands index e with
  | some operands => build numeric operands c.operators
  | none => .error .noItem

def updateOperator (numeric : List String) (index : Int) (operator : Value) (c : Chain) :
    Except Fault Chain :=
  match Index.replace? c.operators index operator with
  | some operators => build numeric c.operands operators
  | none => .error .noItem

end Chain

/-- What an expression may be turned into. -/
inductive Source where
  | value
  | field
  | function
  | rule
deriving DecidableEq, Repr

namespace Source

def ofText? : String → Option Source
  | "value" => some .value
  | "field" => some .field
  | "function" => some .function
  | "ruleRef" => some .rule
  | _ => none

end Source

namespace Node

/-- The chain to edit at an index of its operands; an index below zero is none of any node. -/
def chainAt (index : Int) (e : Node) : Except Fault Chain :=
  if index < 0 then .error (.noOperandAt index) else e.asChain

/-- An expression of the same type from another source; a field starts as the default one. -/
def fromSource (source : String) (defaultField : Value) (e : Node) : Except Fault Node := do
  let type ← e.type
  match Source.ofText? source with
  | some .value => Fresh.literal type
  | some .field => return .field type defaultField
  | some .function => return .call type .null []
  | some .rule => return .reference (.unselected type .null)
  | none => throw (.unknownSource source)

end Node

end RuleEditor
