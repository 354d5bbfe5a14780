import RuleEditor.Catalogue.OperandCount
import RuleEditor.Typing

/-!
# Catalogues

A catalogue tells the editor which operators, types, functions and kinds of rules there are, and what
a new node of a type starts with. A look-up of a value that the catalogue has to provide fails when
the value is missing; nothing is invented in its place.
-/
namespace RuleEditor

structure ComparisonOperator where
  label : Option String
  cardinality : Option Int
  defaultCardinality : Option Int
  minCardinality : Option Int
  maxCardinality : Option Int
  separator : Option String
deriving Repr

/-- An operator that joins the operands of a chain. -/
structure ChainOperator where
  symbol : String
  label : Option String
  numeric : Bool
deriving Repr

/-- What the editor knows about a type. -/
structure TypeEntry where
  comparison : Option String
  joining : Option String
  validComparisons : List String
deriving Repr

structure Parameter where
  name : String
  type : Option String
  label : Option String
  widget : Option String
  options : Option String
deriving Repr

structure FunctionEntry where
  type : String
  label : Option String
  parameters : List Parameter
  editor : Option String
deriving Repr

structure Catalogue where
  comparisons : Members ComparisonOperator
  joinings : Members ChainOperator
  types : Members TypeEntry
  functions : Members FunctionEntry
  ruleTypes : List String
  defaultField : String
deriving Repr

namespace ComparisonOperator

/-- An operator with a default count is open, from one operand on unless another bound is given; every
other operator takes a fixed number of operands, one unless another number is given. -/
def operandCount (op : ComparisonOperator) : OperandCount :=
  match op.defaultCardinality with
  | some usual => ⟨none, some usual, some (op.minCardinality.getD 1), op.maxCardinality⟩
  | none => .exactly (op.cardinality.getD 1)

end ComparisonOperator

namespace Catalogue

/-- The entry of a table under a key; lists and records cannot be keys. -/
def entry? {α : Type} (table : Members α) (key : Value) : Except Fault (Option α) :=
  match key with
  | .text s => .ok (table.get? s)
  | .list _ | .record _ => .error .unsuitable
  | _ => .ok none

/-- The text, unless it is absent or empty. -/
def given? (s : Option String) : Option String := s.filter (· ≠ "")

/-- The operand count of a comparison operator; an unknown one takes one operand. -/
def operandCount (c : Catalogue) (operator : Value) : Except Fault OperandCount := do
  match ← entry? c.comparisons operator with
  | some op => return op.operandCount
  | none => return .exactly 1

/-- The operator that a new comparison of a type starts with. -/
def defaultComparison (c : Catalogue) (type : Value) : Except Fault String := do
  match (← entry? c.types type).bind fun t => given? t.comparison with
  | some op => return op
  | none => throw (.noConditionOperator type)

/-- The symbol that joins a new operand of a type to a chain. -/
def defaultJoining (c : Catalogue) (type : Value) : Except Fault String := do
  match (← entry? c.types type).bind fun t => given? t.joining with
  | some key =>
    match c.joinings.get? key with
    | some op => return op.symbol
    | none => return key
  | none => throw (.noExpressionOperator type)

/-- The comparison operators for a left operand of a type: those that the type lists and the catalogue
knows, or all of them if the type lists none. -/
def comparisonsFor (c : Catalogue) (type : Value) : Except Fault (List String) := do
  if type.isMissing then return c.comparisons.names
  match ← entry? c.types type with
  | some t =>
    if t.validComparisons.isEmpty then return c.comparisons.names
    return t.validComparisons.filter c.comparisons.contains
  | none => return c.comparisons.names

/-- The symbols of the operators marked as numeric. -/
def markedNumeric (c : Catalogue) : List String :=
  ((c.joinings.map (·.2)).filter (·.numeric)).map (·.symbol)

/-- The symbols that make a chain a number; the arithmetic ones if no operator is marked. -/
def numeric (c : Catalogue) : List String :=
  if c.markedNumeric.isEmpty then Typing.arithmetic else c.markedNumeric

def function (c : Catalogue) (name : Value) : Except Fault FunctionEntry := do
  match ← entry? c.functions name with
  | some f => return f
  | none => throw (.unknownFunction name)

/-- The rule types that a reference may target. -/
def referenceTypes (c : Catalogue) : Except Fault (List String) :=
  if c.ruleTypes.isEmpty then .error .noRuleTypes else .ok c.ruleTypes

end Catalogue

end RuleEditor
