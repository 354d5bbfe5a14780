/-!
# Operand counts

How many right operands a comparison operator takes. Either the count is fixed, or it is open: then
it has a usual value, and the user may add and remove operands between two bounds.
-/
namespace RuleEditor

structure OperandCount where
  fixed : Option Int
  usual : Option Int
  least : Option Int
  most : Option Int
deriving DecidableEq, Repr

namespace OperandCount

def exactly (n : Int) : OperandCount := ⟨some n, none, none, none⟩

/-- The user may choose the count. -/
def isOpen (c : OperandCount) : Bool := c.fixed.isNone && c.usual.isSome

def atLeast (bound : Option Int) (n : Int) : Bool := bound.all (· ≤ n)

def atMost (bound : Option Int) (n : Int) : Bool := bound.all (n ≤ ·)

/-- A number of operands that the count permits. -/
def allows (c : OperandCount) (n : Int) : Bool :=
  if c.isOpen then atLeast c.least n && atMost c.most n else c.fixed == some n

/-- The permitted number nearest to `n`; crossed bounds yield the upper one. -/
def clamp (c : OperandCount) (n : Int) : Int :=
  let n := match c.least with | some low => max n low | none => n
  match c.most with | some high => min n high | none => n

/-- The number of operands that an operator starts with. -/
def initial (c : OperandCount) : Int := if c.isOpen then c.usual.getD 0 else c.fixed.getD 0

/-- The number of operands below which none may be removed. -/
def floor (c : OperandCount) : Int := c.least.getD 1

end OperandCount

end RuleEditor
