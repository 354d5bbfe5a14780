import RuleEditor.Proofs.Tree.Sorts
import RuleEditor.WellFormed

/-!
# Counts of right operands

An operator permits some numbers of right operands. A comparison that has a permitted number keeps one, whatever is
done to it: it is given another operator or another left operand, one operand more or one less.
-/
namespace RuleEditor

open Violation (rightCount)

/-! ### Bounds -/

namespace OperandCount

variable {c : OperandCount} {n : Int}

theorem allows_open (h : c.isOpen = true) :
    c.allows n = true ↔ (∀ low, c.least = some low → low ≤ n) ∧ ∀ high, c.most = some high → n ≤ high := by
  rw [allows, if_pos h, Bool.and_eq_true]
  exact and_congr (by cases c.least <;> simp [atLeast]) (by cases c.most <;> simp [atMost])

/-- The number of operands to start with is permitted, and no number below zero is. -/
structure Bounded (c : OperandCount) : Prop where
  initial : c.allows c.initial = true
  nonneg : ∀ n, c.allows n = true → 0 ≤ n

theorem bounded_exactly (h : 0 ≤ n) : (exactly n).Bounded where
  initial := beq_self_eq_true _
  nonneg m allowed := by
    cases Option.some.inj (beq_iff_eq.mp allowed)
    exact h

/-- Bounds that a number lies between are not crossed, so the nearest number within them is permitted. -/
theorem Bounded.clamp (h : c.Bounded) (hi : c.isOpen = true) (n : Int) : c.allows (c.clamp n) = true := by
  obtain ⟨above, below⟩ := (allows_open hi).mp h.initial
  rw [allows_open hi]
  unfold OperandCount.clamp
  constructor
  · intro low least
    rw [least]
    cases most : c.most with
    | none => exact Int.le_max_right n low
    | some high =>
        have uncrossed : low ≤ high := Int.le_trans (above low least) (below high most)
        exact Int.le_min.mpr ⟨Int.le_max_right n low, uncrossed⟩
  · intro high most
    rw [most]
    exact Int.min_le_right _ high

end OperandCount

/-- A fixed number of operands is not below zero. An open one starts between its bounds, which are not below zero. -/
def ComparisonOperator.Bounded (op : ComparisonOperator) : Prop :=
  match op.defaultCardinality with
  | some usual => 0 ≤ op.minCardinality.getD 1 ∧ op.minCardinality.getD 1 ≤ usual ∧
      ∀ most, op.maxCardinality = some most → usual ≤ most
  | none => 0 ≤ op.cardinality.getD 1

theorem ComparisonOperator.Bounded.operandCount {op : ComparisonOperator} (h : op.Bounded) :
    op.operandCount.Bounded := by
  unfold Bounded at h
  unfold ComparisonOperator.operandCount
  cases is : op.defaultCardinality with
  | some usual =>
    simp only [is] at h ⊢
    obtain ⟨low, starts, high⟩ := h
    refine ⟨(OperandCount.allows_open rfl).mpr ⟨?_, high⟩, fun n allowed => ?_⟩
    · rintro _ ⟨⟩
      exact starts
    · have above := ((OperandCount.allows_open rfl).mp allowed).1 _ rfl
      exact Int.le_trans low above
  | none =>
    simp only [is] at h ⊢
    exact OperandCount.bounded_exactly h

namespace Catalogue

variable {catalogue : Catalogue} {operator : Value} {count : OperandCount}

/-- The comparison operators of the catalogue have sound bounds. -/
def Bounded (catalogue : Catalogue) : Prop :=
  ∀ key op, catalogue.comparisons.get? key = some op → op.Bounded

theorem Bounded.operandCount (h : catalogue.Bounded) (known : catalogue.operandCount operator = .ok count) :
    count.Bounded := by
  obtain ⟨op?, found, made⟩ := bind_eq_ok.mp known
  cases op? with
  | none =>
      cases made
      exact OperandCount.bounded_exactly (by omega)
  | some op =>
      cases made
      cases operator with
      | text key => exact (h key op (Except.ok.inj found)).operandCount
      | list | record => cases found
      | _ => cases Except.ok.inj found

end Catalogue

/-! ### Right sides -/

namespace Node

variable {node new : Node}

/-- The operands that a right side holds. -/
def sides : Node → List Node
  | .absent => []
  | .several items => items
  | operand => [operand]

theorem rightCount_eq (node : Node) : rightCount node = node.sides.length := by cases node <;> rfl

theorem sides_of_isExpression (h : node.isExpression = true) : node.sides = [node] := by
  cases node <;> first | rfl | cases h

/-- A right side that holds one operand is that operand. -/
theorem isExpression_of_sides (he : ∀ operand ∈ node.sides, operand.isExpression = true)
    (hs : ∀ items, node ≠ .several items) (hp : node ≠ .absent) : node.isExpression = true := by
  cases node with
  | absent => exact absurd rfl hp
  | several items => exact absurd rfl (hs items)
  | _ => exact he _ List.mem_cons_self

/-- The right side holds a number of expressions. -/
structure Amounts (n : Int) (node : Node) : Prop where
  expressions : ∀ operand ∈ node.sides, operand.isExpression = true
  length : (node.sides.length : Int) = n

theorem amounts_absent : Node.absent.Amounts 0 := ⟨fun _ within => absurd within List.not_mem_nil, rfl⟩

theorem amounts_single (h : node.isExpression = true) : node.Amounts 1 := by
  constructor
  · rw [sides_of_isExpression h]
    exact List.forall_mem_singleton.mpr h
  · rw [sides_of_isExpression h]
    rfl

end Node

/-! ### Changes of a comparison -/

namespace Comparison

open Node

variable {catalogue : Catalogue} {c c' : Comparison} {count old new : OperandCount} {oldArity wanted : Int}
  {right : Node}

theorem amounts_freshOperand (h : c.freshOperand = .ok right) : right.Amounts 1 := by
  obtain ⟨t, v, rfl⟩ := freshOperand_eq h
  exact amounts_single rfl

theorem length_freshOperands {n : Int} {operands : List Node} (h : c.freshOperands n = .ok operands) :
    operands.length = n.toNat := by
  obtain ⟨type, -, h⟩ := bind_eq_ok.mp h
  rw [(mapM_eq_ok h).1, List.length_replicate]

/-- New operands are added to those that there are. -/
theorem amounts_append {items operands : List Node} {n : Int} (he : ∀ item ∈ items, item.isExpression = true)
    (hm : c.freshOperands n = .ok operands) (hn : 0 ≤ n) (ht : items.length + n = wanted) :
    (Node.several (items ++ operands)).Amounts wanted := by
  constructor
  · refine List.forall_mem_append.mpr ⟨he, fun operand within => ?_⟩
    obtain ⟨t, v, rfl⟩ := freshOperands_eq hm operand within
    rfl
  · simp only [sides, List.length_append, length_freshOperands hm]
    omega

/-- The right side has as many operands as it is made for, whatever it was before. -/
theorem amounts_reshaped (he : ∀ operand ∈ c.right.sides, operand.isExpression = true)
    (hn : 0 ≤ wanted) (hm : c.reshaped oldArity wanted = .ok right) : right.Amounts wanted := by
  unfold reshaped at hm
  split at hm
  · rename_i none
    cases hm
    exact none ▸ amounts_absent
  · split at hm
    · rename_i one
      subst one
      split at hm
      · exact amounts_freshOperand hm
      · rename_i same
        cases hm
        exact amounts_single (he _ (by rw [same]; exact List.mem_cons_self))
      · exact amounts_freshOperand hm
      · rename_i nothing some absent
        cases hm
        have single : ∀ items, c.right ≠ .several items := by
          rintro (_ | ⟨item, rest⟩) same
          · exact nothing same
          · exact some item rest same
        exact amounts_single (isExpression_of_sides he single absent)
    · have no_items : ∀ item ∈ ([] : List Node), item.isExpression = true :=
        fun _ within => absurd within List.not_mem_nil
      split at hm
      · rename_i items same
        rw [same] at he
        split at hm
        · cases hm
          refine ⟨fun operand within => he operand (List.mem_of_mem_take within), ?_⟩
          simp only [sides, Index.before, Index.gap, List.length_take]
          split <;> omega
        · obtain ⟨added, new, hm⟩ := bind_eq_ok.mp hm
          cases hm
          exact amounts_append he new (by omega) (by omega)
      · obtain ⟨added, new, hm⟩ := bind_eq_ok.mp hm
        cases hm
        exact amounts_append no_items new hn (by simp)
      · rename_i single absent
        split at hm
        · obtain ⟨added, new, hm⟩ := bind_eq_ok.mp hm
          cases hm
          have kept : ∀ operand ∈ [c.right], operand.isExpression = true :=
            List.forall_mem_singleton.mpr (isExpression_of_sides he single absent)
          exact amounts_append kept new (by omega) (by rw [List.length_singleton]; omega)
        · obtain ⟨added, new, hm⟩ := bind_eq_ok.mp hm
          cases hm
          exact amounts_append no_items new hn (by simp)

/-- The number of operands that an operator calls for is one that it permits. -/
theorem allows_newArity (old : OperandCount) (c : Comparison) (bounded : new.Bounded) :
    new.allows (newArity old new c) = true := by
  unfold newArity
  split
  · split
    · rename_i both
      exact bounded.clamp both.2 _
    · exact bounded.initial
  · exact bounded.initial

/-- A comparison of which the operator permits the number of right operands. -/
structure Legal (catalogue : Catalogue) (c : Comparison) : Prop where
  expressions : ∀ operand ∈ c.right.sides, operand.isExpression = true
  permitted : ∃ count, catalogue.operandCount c.operator = .ok count ∧ count.allows (rightCount c.right) = true

theorem Legal.changeOperator (bounded : catalogue.Bounded) (h : Legal catalogue c) {operator : Value}
    (hc : c.changeOperator catalogue operator = .ok c') : Legal catalogue c' := by
  obtain ⟨old, -, hc⟩ := bind_eq_ok.mp hc
  obtain ⟨new, known, hc⟩ := bind_eq_ok.mp hc
  obtain ⟨right, made, hc⟩ := bind_eq_ok.mp hc
  cases hc
  have allowed := allows_newArity old c (bounded.operandCount known)
  have amounts := amounts_reshaped h.expressions ((bounded.operandCount known).nonneg _ allowed) made
  refine ⟨amounts.expressions, new, known, ?_⟩
  rw [rightCount_eq, amounts.length]
  exact allowed

theorem openOperands?_isOpen {items : List Node} (h : openOperands? count c = some items) : count.isOpen = true := by
  unfold openOperands? at h
  split at h
  · split at h
    · assumption
    · cases h
  · cases h

/-- An operand is added where the operands are listed under an open count that permits one more. -/
theorem addOperand_cases (hk : catalogue.operandCount c.operator = .ok count)
    (ha : c.addOperand catalogue = .ok c') :
    c' = c ∨ ∃ items t v, c.right = .several items ∧ count.isOpen = true ∧
      (∀ high, count.most = some high → items.length < high) ∧
      c' = { c with right := .several (items ++ [.literal t v]) } := by
  obtain ⟨count', known', ha⟩ := bind_eq_ok.mp ha
  cases hk.symm.trans known'
  split at ha
  · rename_i items is
    split at ha
    · rename_i free
      obtain ⟨operand, made, ha⟩ := bind_eq_ok.mp ha
      obtain ⟨t, v, rfl⟩ := freshOperand_eq made
      cases ha
      simp only [canAdd, is, Option.all_eq_true, decide_eq_true_eq] at free
      exact .inr ⟨items, t, v, openOperands?_eq is, openOperands?_isOpen is, free, rfl⟩
    · cases ha
      exact .inl rfl
  · cases ha
    exact .inl rfl

/-- An operand is removed where the operands are listed under an open count that permits one less. -/
theorem removeOperand_cases {index : Int} (hk : catalogue.operandCount c.operator = .ok count)
    (hr : c.removeOperand catalogue index = .ok c') :
    c' = c ∨ ∃ items i, c.right = .several items ∧ count.isOpen = true ∧ count.floor < items.length ∧
      Index.place? items.length index = some i ∧ c' = { c with right := .several (items.eraseIdx i) } := by
  obtain ⟨count', known', hr⟩ := bind_eq_ok.mp hr
  cases hk.symm.trans known'
  split at hr
  · rename_i items is
    split at hr
    · rename_i spare
      split at hr
      · rename_i rest erased
        cases hr
        obtain ⟨i, place, rfl⟩ := Option.map_eq_some_iff.mp erased
        simp only [canRemove, is, decide_eq_true_eq] at spare
        exact .inr ⟨items, i, openOperands?_eq is, openOperands?_isOpen is, spare, place, rfl⟩
      · cases hr
    · cases hr
      exact .inl rfl
  · cases hr
    exact .inl rfl

theorem Legal.addOperand (h : Legal catalogue c) (ha : c.addOperand catalogue = .ok c') : Legal catalogue c' := by
  obtain ⟨expressions, count, known, allowed⟩ := h
  rcases addOperand_cases known ha with rfl | ⟨items, t, v, right, isOpen, free, rfl⟩
  · exact ⟨expressions, count, known, allowed⟩
  · rw [right] at expressions allowed
    rw [OperandCount.allows_open isOpen] at allowed
    refine ⟨List.forall_mem_append.mpr ⟨expressions, List.forall_mem_singleton.mpr rfl⟩, count, known, ?_⟩
    rw [OperandCount.allows_open isOpen]
    simp only [rightCount, List.length_append, List.length_singleton] at allowed ⊢
    refine ⟨fun low least => ?_, fun high most => ?_⟩
    · have := allowed.1 low least
      omega
    · have := free high most
      omega

theorem Legal.removeOperand (h : Legal catalogue c) {index : Int} (hr : c.removeOperand catalogue index = .ok c') :
    Legal catalogue c' := by
  obtain ⟨expressions, count, known, allowed⟩ := h
  rcases removeOperand_cases known hr with rfl | ⟨items, i, right, isOpen, spare, place, rfl⟩
  · exact ⟨expressions, count, known, allowed⟩
  · rw [right] at expressions allowed
    rw [OperandCount.allows_open isOpen] at allowed
    refine ⟨fun operand there => expressions operand (List.mem_of_mem_eraseIdx there), count, known, ?_⟩
    rw [OperandCount.allows_open isOpen]
    simp only [rightCount, List.length_eraseIdx, if_pos (Index.place?_lt place)] at allowed ⊢
    refine ⟨fun low least => ?_, fun high most => ?_⟩
    · simp only [OperandCount.floor, least, Option.getD_some] at spare
      omega
    · have := allowed.2 high most
      omega

/-- An operand that follows the left one stays an expression. -/
theorem isExpression_followLeft {type : Value} {operand followed : Node} (h : operand.isExpression = true)
    (hf : followLeft type operand = .ok followed) : followed.isExpression = true := by
  unfold followLeft at hf
  split at hf
  · exact isExpression_retyped hf
  · obtain ⟨own, -, hf⟩ := bind_eq_ok.mp hf
    split at hf
    · cases hf
      exact h
    · exact isExpression_retyped hf

theorem Legal.changeLeft (h : Legal catalogue c) {left : Node} (hc : c.changeLeft left = .ok c') :
    Legal catalogue c' := by
  obtain ⟨count, known, allowed⟩ := h.permitted
  obtain ⟨type, -, hc⟩ := bind_eq_ok.mp hc
  split at hc
  · cases hc
    exact ⟨h.expressions, count, known, allowed⟩
  · rename_i items right
    obtain ⟨items', followed, hc⟩ := bind_eq_ok.mp hc
    cases hc
    obtain ⟨length, all⟩ := mapM_eq_ok followed
    have expressions := h.expressions
    rw [right] at expressions allowed
    refine ⟨fun operand there => ?_, count, known, ?_⟩
    · obtain ⟨item, within, follows⟩ := all operand there
      exact isExpression_followLeft (expressions item within) follows
    · rw [rightCount, length]
      exact allowed
  · rename_i absent single
    obtain ⟨operand, follows, hc⟩ := bind_eq_ok.mp hc
    cases hc
    have before := isExpression_of_sides h.expressions single absent
    have after := isExpression_followLeft before follows
    refine ⟨(amounts_single after).expressions, count, known, ?_⟩
    rw [rightCount_eq, sides_of_isExpression before] at allowed
    rw [rightCount_eq, sides_of_isExpression after]
    exact allowed

/-- What may be done to a comparison. -/
inductive Change where
  | operator (new : Value)
  | left (new : Node)
  | add
  | remove (index : Int)

def Change.perform (catalogue : Catalogue) (c : Comparison) : Change → Except Fault Comparison
  | .operator new => c.changeOperator catalogue new
  | .left new => c.changeLeft new
  | .add => c.addOperand catalogue
  | .remove index => c.removeOperand catalogue index

/-- The comparison after a change; one that fails leaves it as it is. -/
def after (catalogue : Catalogue) (c : Comparison) (change : Change) : Comparison :=
  match change.perform catalogue c with
  | .ok c' => c'
  | .error _ => c

def afterAll (catalogue : Catalogue) (c : Comparison) (changes : List Change) : Comparison :=
  changes.foldl (after catalogue) c

theorem Legal.after (bounded : catalogue.Bounded) (h : Legal catalogue c) (change : Change) :
    Legal catalogue (c.after catalogue change) := by
  unfold Comparison.after
  split
  · rename_i performed
    cases change with
    | operator new => exact h.changeOperator bounded performed
    | left new => exact h.changeLeft performed
    | add => exact h.addOperand performed
    | remove index => exact h.removeOperand performed
  · exact h

theorem Legal.afterAll (bounded : catalogue.Bounded) (h : Legal catalogue c) (changes : List Change) :
    Legal catalogue (c.afterAll catalogue changes) := by
  induction changes generalizing c with
  | nil => exact h
  | cons change rest ih => exact ih (h.after bounded change)

/-- The violations of a legal comparison are those of its operands. -/
theorem Legal.violations (h : Legal catalogue c) (path : String) (side : Bool) :
    Violation.ofNode (some catalogue) path side c.node = (do
      let inLeft ← Violation.ofNode (some catalogue) (Address.render path [.left]) false c.left
      let inRight ← Violation.ofNode (some catalogue) (Address.render path [.right]) true c.right
      return inLeft ++ inRight) := by
  obtain ⟨count, known, allowed⟩ := h.permitted
  have counted : Violation.ofCount (some catalogue) path c.name c.operator c.right = .ok [] := by
    simp only [Violation.ofCount, known, ok_bind, allowed, if_true, pure_eq_ok]
  simp only [node, Violation.ofNode, counted, ok_bind, List.append_nil]

/-- In a catalogue with sound bounds, a comparison whose operator permits its number of right operands has a permitted
number after any changes, and no violation is reported about it. -/
theorem permitted_after_changes (hb : catalogue.Bounded) (h : Legal catalogue c) (changes : List Change) :
    (∃ count, catalogue.operandCount (c.afterAll catalogue changes).operator = .ok count ∧
        count.allows (rightCount (c.afterAll catalogue changes).right) = true) ∧
      ∀ path side, Violation.ofNode (some catalogue) path side (c.afterAll catalogue changes).node = (do
        let inLeft ← Violation.ofNode (some catalogue) (Address.render path [.left]) false
          (c.afterAll catalogue changes).left
        let inRight ← Violation.ofNode (some catalogue) (Address.render path [.right]) true
          (c.afterAll catalogue changes).right
        return inLeft ++ inRight) :=
  ⟨(h.afterAll hb changes).permitted, (h.afterAll hb changes).violations⟩

/-- Operators with a fixed number of operands and with an open one. -/
def ranges : Catalogue where
  comparisons := [("between", ⟨none, some 2, none, none, none, none⟩),
    ("in", ⟨none, none, some 3, some 1, some 4, none⟩), ("is_null", ⟨none, some 0, none, none, none, none⟩)]
  joinings := []
  types := []
  functions := []
  ruleTypes := []
  defaultField := "AGE"

theorem ranges_bounded : ranges.Bounded := by
  intro key op found
  simp only [ranges, Members.get?] at found
  split at found
  · cases found
    exact (by decide : (0 : Int) ≤ 2)
  · split at found
    · cases found
      exact ⟨by decide, by decide, by rintro _ ⟨⟩; decide⟩
    · split at found
      · cases found
        exact (by decide : (0 : Int) ≤ 0)
      · cases found

/-- An age between two numbers. -/
def aged : Comparison where
  name := .text "Condition 1"
  left := .field (.text "number") (.text "AGE")
  operator := .text "between"
  right := .several [.literal (.text "number") (.int 18), .literal (.text "number") (.int 65)]

/-- The age becomes one of several; the last removal is refused, since one operand has to stay. -/
def listing : List Change :=
  [.operator (.text "in"), .add, .add, .remove 0, .left (.field (.text "text") (.text "NAME")), .remove (-1), .remove 0,
    .remove 0]

theorem aged_permitted :
    ranges.Bounded ∧ Legal ranges aged ∧ (aged.afterAll ranges listing).operator = .text "in" ∧
      (aged.afterAll ranges listing).right.sides.length = 1 ∧
      ∃ count, ranges.operandCount (aged.afterAll ranges listing).operator = .ok count ∧
        count.allows (rightCount (aged.afterAll ranges listing).right) = true := by
  have legal : Legal ranges aged := ⟨by decide, .exactly 2, by rfl, by decide⟩
  exact ⟨ranges_bounded, legal, by rfl, by rfl, (permitted_after_changes ranges_bounded legal listing).1⟩

end Comparison

end RuleEditor
