import RuleEditor.Fault

/-!
# Trees of rule definitions

A definition is a tree of expressions, conditions and choices between branches. A slot of a tree may
be empty or hold several nodes, and nothing in the type keeps a condition out of the place of an
expression: an editor builds trees step by step, and which of them are sound is a question of its
own. Names, types and the other attributes of a node are plain data, because stored rules may carry
any data there.
-/
namespace RuleEditor

/-- How the children of a group combine. -/
inductive Conjunction where
  | all
  | any
deriving DecidableEq, Repr

namespace Conjunction

def text : Conjunction → String
  | .all => "AND"
  | .any => "OR"

def ofValue (v : Value) : Except Fault Conjunction :=
  match v with
  | .text "AND" => .ok .all
  | .text "OR" => .ok .any
  | _ => .error (.unknownConjunction v)

end Conjunction

/-- The kinds of nodes that labels tell apart. -/
inductive Kind where
  | comparison
  | group
  | reference
  | expression
deriving DecidableEq, Repr

namespace Kind

def text : Kind → String
  | .comparison => "condition"
  | .group => "conditionGroup"
  | .reference => "ruleRef"
  | .expression => "expression"

def ofValue (v : Value) : Except Fault Kind :=
  match v with
  | .text "condition" => .ok .comparison
  | .text "conditionGroup" => .ok .group
  | .text "ruleRef" => .ok .reference
  | .text "expression" => .ok .expression
  | _ => .error (.unknownKind v)

end Kind

/-- Where the label of a result comes from. -/
inductive LabelSource where
  | position
  | target
  | typed
deriving DecidableEq, Repr

namespace LabelSource

def text : LabelSource → String
  | .position => "default"
  | .target => "reference"
  | .typed => "user"

def ofText? : String → Option LabelSource
  | "default" => some .position
  | "reference" => some .target
  | "user" => some .typed
  | _ => none

end LabelSource

/-- The label of a result slot: its text, where it comes from, and whether it was typed since the
slot last took up a new rule. -/
structure ResultLabel where
  text : Value
  source : LabelSource
  retyped : Bool
deriving Repr

/-- The label that follows from the position alone. -/
def ResultLabel.positional : ResultLabel := ⟨.null, .position, false⟩

/-- A reference to another rule. The last three attributes hold what a check of that rule found; they
are advice and never stored. -/
structure Reference where
  type : Value
  id : Value
  uuid : Value
  version : Value
  ruleType : Value
  mismatch : Option Bool
  declared : Value
  evaluated : Value
deriving Repr

namespace Reference

/-- A reference to a rule that has not been checked. -/
def unchecked (type id uuid version ruleType : Value) : Reference :=
  { type, id, uuid, version, ruleType, mismatch := none, declared := .null, evaluated := .null }

/-- A reference that no rule has been selected for. -/
def unselected (type version : Value) : Reference := unchecked type .null .null version .null

/-- A rule has been selected. -/
def isResolved (r : Reference) : Bool := r.id.isPresent && r.uuid.isPresent

/-- The references point at the same version of the same rule. -/
def sameTarget (r s : Reference) : Bool := r.uuid.same s.uuid && r.version.same s.version

end Reference

/-- A named argument of a call. -/
structure Argument (α : Type) where
  name : Value
  value : α

/-- A branch of a choice: where the condition holds, the choice has this result. -/
structure Branch (α : Type) where
  condition : α
  result : α
  label : ResultLabel

inductive Node where
  /-- An empty slot. -/
  | absent
  /-- Several nodes in one slot. -/
  | several (items : List Node)
  | literal (type value : Value)
  | field (type path : Value)
  | call (type name : Value) (arguments : List (Argument Node))
  | reference (target : Reference)
  /-- Operands joined by operators: `operators[i]` stands between `operands[i]` and the next one. -/
  | chain (type : Value) (operands : List Node) (operators : List Value)
  | comparison (name : Value) (left : Node) (operator : Value) (right : Node)
  | group (name : Value) (children : List Node) (conjunction : Conjunction) (negated : Bool)
  /-- A rule used as a condition. -/
  | ruleCheck (name : Value) (target : Reference)
  /-- Branches in order, and the result when none of them applies. -/
  | choice (branches : List (Branch Node)) (otherwise : Node) (label : ResultLabel)

namespace Node

/-- The name of the sort of a node, as messages show it. -/
def sortName : Node → String
  | .absent => "NoneType"
  | .several _ => "list"
  | .literal .. => "Literal"
  | .field .. => "FieldRef"
  | .call .. => "FunctionCall"
  | .reference _ => "RuleRef"
  | .chain .. => "ExpressionGroup"
  | .comparison .. => "Predicate"
  | .group .. => "PredicateGroup"
  | .ruleCheck .. => "RuleRefCondition"
  | .choice .. => "Case"

def isExpression : Node → Bool
  | .literal .. | .field .. | .call .. | .reference _ | .chain .. => true
  | _ => false

def isAbsent : Node → Bool
  | .absent => true
  | _ => false

/-- The type that a node declares. Conditions are boolean and a choice has the type of its last
result; an empty slot and a list declare none. -/
def type : Node → Except Fault Value
  | .absent | .several _ => .error .missingPart
  | .literal t _ | .field t _ | .call t _ _ | .chain t _ _ => .ok t
  | .reference r => .ok r.type
  | .comparison .. | .group .. | .ruleCheck .. => .ok (.text "boolean")
  | .choice _ otherwise _ => otherwise.type

def name : Node → Except Fault Value
  | .call _ n _ | .comparison n _ _ _ | .group n _ _ _ | .ruleCheck n _ => .ok n
  | _ => .error .missingPart

/-- The node under another name. -/
def renamed (name : Value) : Node → Except Fault Node
  | .call t _ args => .ok (.call t name args)
  | .comparison _ left op right => .ok (.comparison name left op right)
  | .group _ children conj neg => .ok (.group name children conj neg)
  | .ruleCheck _ target => .ok (.ruleCheck name target)
  | _ => .error .unsuitable

/-- The kind of a condition. -/
def conditionKind : Node → Except Fault Kind
  | .comparison .. => .ok .comparison
  | .group .. => .ok .group
  | .ruleCheck .. => .ok .reference
  | n => .error (.notACondition n.sortName)

/-- The kind of an expression, as labels see it. -/
def expressionKind : Node → Kind
  | .reference _ => .reference
  | _ => .expression

/-- The reference that a node is or checks. -/
def target? : Node → Option Reference
  | .reference r | .ruleCheck _ r => some r
  | _ => none

end Node

end RuleEditor
