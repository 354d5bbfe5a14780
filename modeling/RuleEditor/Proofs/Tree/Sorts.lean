import RuleEditor.Proofs.Edit.Seated
import RuleEditor.Proofs.Tree.Typed

/-!
# Nodes of the sort that their seats admit

An expression belongs in the place of an expression, a condition in the place of a condition. Each edit that refuses
nodes of another sort, or takes only nodes of the sort that is there already, keeps a tree like that.
-/
namespace RuleEditor

/-- The sort of nodes that may stand at a seat. The right side of a comparison may also be empty or hold several
nodes. -/
def Seat.admits : Seat → Node → Bool
  | .right, .absent | .right, .several _ => true
  | .right, node | .expression, node | .operand, node => node.isExpression
  | .condition, .comparison .. | .condition, .group .. | .condition, .ruleCheck .. | .choice, .choice .. => true
  | .condition, _ | .choice, _ => false

namespace Node

/-- The operators between the operands of a chain. -/
def operators : Node → List Value
  | .chain _ _ operators => operators
  | _ => []

/-- The operators of a chain can be looked up. -/
def Keyed (node : Node) : Prop := ∀ operator ∈ node.operators, operator.isKey = true

/-- The node is of a sort that its seat admits. -/
def Admitted (seat : Seat) (node : Node) : Prop := seat.admits node = true

/-- The node is of a sort that its seat admits, and its operators can be looked up. -/
structure Belongs (seat : Seat) (node : Node) : Prop where
  admitted : node.Admitted seat
  keyed : node.Keyed

variable {seat : Seat} {node old new node' : Node} {numeric : List String} {operands : List Node}
  {operators : List Value}

theorem isExpression_of_expression (h : node.Admitted .expression) : node.isExpression = true := by
  cases node <;> exact h

theorem isExpression_of_operand (h : node.Admitted .operand) : node.isExpression = true := by
  cases node <;> exact h

theorem isExpression_of_operands (h : node.Admitted seat.operands) : node.isExpression = true := by
  cases seat <;> exact isExpression_of_expression h

/-- An expression may stand wherever expressions may stand. -/
theorem admitted_of_isExpression (h : node.isExpression = true) (seat : Seat)
    (hp : seat ≠ .condition ∧ seat ≠ .choice) : node.Admitted seat := by
  cases seat <;> cases node <;> first | rfl | exact h | exact absurd rfl hp.1 | exact absurd rfl hp.2

theorem isCondition_of_admitted (h : node.Admitted .condition) : node.IsCondition := by
  cases node <;> first | exact ⟨_, rfl⟩ | cases h

theorem IsCondition.belongs (h : node.IsCondition) : node.Belongs .condition := by
  obtain ⟨kind, known⟩ := h
  cases node <;> cases known <;> exact ⟨rfl, nofun⟩

theorem Leaf.belongs (h : node.Leaf) : node.Belongs .expression := by
  cases h <;> exact ⟨rfl, nofun⟩

theorem Leaf.inner_eq (h : node.Leaf) : node.inner = [] := by
  cases h <;> rfl

/-- Where a condition stands, no other seat admits it. -/
theorem seat_of_condition (hc : old.Admitted .condition) (h : old.Admitted seat) : seat = .condition := by
  cases old <;> cases hc <;> cases seat <;> first | rfl | cases h

theorem seat_of_right (hs : old.Admitted .right) (h : old.Admitted seat) :
    seat ≠ .condition ∧ seat ≠ .choice := by
  cases seat with
  | condition =>
      obtain ⟨kind, known⟩ := isCondition_of_admitted h
      cases old <;> cases known <;> cases hs
  | choice =>
      cases old <;> cases h
      cases hs
  | expression | right | operand => decide

theorem seat_of_isExpression (he : node.isExpression = true) (h : node.Admitted seat) :
    seat ≠ .condition ∧ seat ≠ .choice :=
  seat_of_right (admitted_of_isExpression he _ (by decide)) h

theorem Belongs.slot {step : Step} (slot : Slot step old new node node') (h : node.Belongs seat) :
    node'.Belongs seat := by
  cases slot <;> cases seat <;> exact ⟨h.admitted, h.keyed⟩

theorem Belongs.settled (hs : node.reinferAt numeric [] = .ok node') (h : node.Belongs seat) :
    node'.Belongs seat := by
  rcases settled_eq hs with rfl | ⟨_, _, _, _, rfl, rfl⟩
  · exact h
  · cases seat <;> exact ⟨h.admitted, h.keyed⟩

/-- Only expressions can be given another type. -/
theorem isExpression_retyped {type : Value} (h : node.retyped type = .ok new) : new.isExpression = true := by
  cases node with
  | chain =>
      obtain ⟨operands, -, made⟩ := bind_eq_ok.mp h
      cases made
      rfl
  | literal | field | call | reference =>
      cases h
      rfl
  | _ => cases h

theorem Keyed.retyped {type : Value} (h : node.Keyed) (hr : node.retyped type = .ok new) : new.Keyed := by
  cases node with
  | chain =>
      obtain ⟨operands, -, made⟩ := bind_eq_ok.mp hr
      cases made
      exact h
  | literal | field | call | reference =>
      cases hr
      exact nofun
  | _ => cases hr

/-- The type of a chain of expressions can be inferred. -/
theorem infer_of_expressions (h : ∀ operand ∈ operands, operand.isExpression = true)
    (hk : ∀ operator ∈ operators, operator.isKey = true) :
    ∃ type, Typing.infer numeric operands operators = .ok type :=
  infer_of_types numeric (fun operand within => type_of_isExpression (h operand within)) hk

end Node

end RuleEditor
