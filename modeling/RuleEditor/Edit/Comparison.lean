import RuleEditor.Data.Index
import RuleEditor.Edit.Fresh
import RuleEditor.Tree.Normalize

/-!
# Edits of comparisons

A comparison has as many right operands as its operator takes: none, one, or a list of several. A
change of the operator reshapes the right side and keeps what fits; a change of the left operand gives
the right ones its type.
-/
namespace RuleEditor.Comparison

/-- The type of the left operand; where it has none, text. -/
def leftType (c : Comparison) : Except Fault Value := do
  return (← c.left.type).orElse (.text "text")

def freshOperand (c : Comparison) : Except Fault Node := do Fresh.literal (← c.leftType)

/-- New right operands of the left operand's type. A count below one yields none of them. -/
def freshOperands (c : Comparison) (count : Int) : Except Fault (List Node) := do
  let type ← c.leftType
  (List.replicate count.toNat type).mapM Fresh.literal

/-- The number of right operands that the operator calls for. -/
def arity (count : OperandCount) (c : Comparison) : Int :=
  if count.isOpen then
    match c.right with
    | .several items => items.length
    | _ => count.initial
  else count.initial

/-- The number of right operands after a change between operators. -/
def newArity (old new : OperandCount) (c : Comparison) : Int :=
  match c.right with
  | .several items => if old.isOpen ∧ new.isOpen then new.clamp items.length else new.initial
  | _ => new.initial

/-- The right side with a number of operands; `oldArity` is the number it was made for. -/
def reshaped (oldArity newArity : Int) (c : Comparison) : Except Fault Node :=
  if newArity = 0 then .ok .absent
  else if newArity = 1 then
    match c.right with
    | .several [] => c.freshOperand
    | .several (first :: _) => .ok first
    | .absent => c.freshOperand
    | operand => .ok operand
  else
    match c.right with
    | .several items =>
      if newArity ≤ items.length then .ok (.several (Index.before items newArity))
      else do
        let added ← c.freshOperands (newArity - items.length)
        return .several (items ++ added)
    | .absent => do return .several (← c.freshOperands newArity)
    | operand =>
      if oldArity = 1 then do return .several (operand :: (← c.freshOperands (newArity - 1)))
      else do return .several (← c.freshOperands newArity)

/-- The comparison under another operator. -/
def changeOperator (catalogue : Catalogue) (operator : Value) (c : Comparison) :
    Except Fault Comparison := do
  let old ← catalogue.operandCount c.operator
  let new ← catalogue.operandCount operator
  let right ← c.reshaped (c.arity old) (c.newArity old new)
  return { c with operator, right }

/-- Several right operands of an operator with an open count. -/
def openOperands? (count : OperandCount) (c : Comparison) : Option (List Node) :=
  match c.right with
  | .several items => if count.isOpen then some items else none
  | _ => none

def canAdd (count : OperandCount) (c : Comparison) : Bool :=
  match c.openOperands? count with
  | some items => count.most.all ((items.length : Int) < ·)
  | none => false

def canRemove (count : OperandCount) (c : Comparison) : Bool :=
  match c.openOperands? count with
  | some items => decide (count.floor < items.length)
  | none => false

/-- The comparison with one more right operand, unless the operator takes no more. -/
def addOperand (catalogue : Catalogue) (c : Comparison) : Except Fault Comparison := do
  let count ← catalogue.operandCount c.operator
  match c.openOperands? count with
  | some items =>
    if c.canAdd count then
      let added ← c.freshOperand
      return { c with right := .several (items ++ [added]) }
    else return c
  | none => return c

/-- The comparison without a right operand, unless the operator needs all of them. -/
def removeOperand (catalogue : Catalogue) (index : Int) (c : Comparison) : Except Fault Comparison := do
  let count ← catalogue.operandCount c.operator
  match c.openOperands? count with
  | some items =>
    if c.canRemove count then
      match Index.erase? items index with
      | some items => return { c with right := .several items }
      | none => throw .noItem
    else return c
  | none => return c

/-- A right operand under the type of the left one. A chain is always retyped, since its operands may
differ from it. -/
def followLeft (type : Value) : Node → Except Fault Node
  | .chain t operands operators => (Node.chain t operands operators).retyped type
  | operand => do
    if (← operand.type).same type then return operand
    operand.retyped type

/-- The comparison with another left operand. -/
def changeLeft (left : Node) (c : Comparison) : Except Fault Comparison := do
  let type ← left.type
  match c.right with
  | .absent => return { c with left }
  | .several items => return { c with left, right := .several (← items.mapM (followLeft type)) }
  | operand => return { c with left, right := ← followLeft type operand }

end RuleEditor.Comparison
