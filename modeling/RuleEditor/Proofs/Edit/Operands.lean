import RuleEditor.Proofs.Edit.Counts
import RuleEditor.Proofs.Tree.Typed

/-!
# Operands that are kept

A change of the operator keeps the operands that fit and makes the missing ones anew, and an open count can be adjusted
afterwards. Both go wrong where an open count has a single operand that is not in a list: it is forgotten when the next
operator takes several, and no operand can be added to it.
-/
namespace RuleEditor

theorem Catalogue.least_of_isOpen {catalogue : Catalogue} {operator : Value} {count : OperandCount}
    (hk : catalogue.operandCount operator = .ok count) (hi : count.isOpen = true) :
    count.least = some count.floor := by
  obtain ⟨op?, -, made⟩ := bind_eq_ok.mp hk
  cases op? with
  | none =>
      cases made
      cases hi
  | some op =>
      cases made
      unfold ComparisonOperator.operandCount at hi ⊢
      cases usual : op.defaultCardinality with
      | none =>
          rw [usual] at hi
          cases hi
      | some _ => rfl

theorem OperandCount.initial_of_allows {count : OperandCount} {n : Int} (hf : ¬ count.isOpen = true)
    (ha : count.allows n = true) : count.initial = n := by
  rw [allows, if_neg hf, beq_iff_eq] at ha
  rw [initial, if_neg hf, ha]
  rfl

theorem Node.ne_several {node : Node} (h : node.isExpression = true) (items : List Node) :
    node ≠ .several items := by
  rintro rfl
  cases h

/-- A number of nodes: the first of the ones that there are, and copies of a new one for those that are missing. -/
def Node.filled (nodes : List Node) (n : Nat) (fresh : Node) : List Node :=
  nodes.take n ++ List.replicate (n - nodes.length) fresh

namespace Comparison

open Node

variable {catalogue : Catalogue} {c c' : Comparison} {count old new : OperandCount} {oldArity wanted : Int}
  {operator : Value} {fresh right : Node} {items : List Node}

/-! ### New operands -/

theorem freshOperand_of_typed (typed : c.left.Typed) : ∃ fresh, c.freshOperand = .ok fresh := by
  obtain ⟨type, declared, textual⟩ := typed
  have known : c.leftType = .ok (type.orElse (.text "text")) := by
    simp only [leftType, declared, ok_bind, pure_eq_ok]
  rw [freshOperand, known, ok_bind, Fresh.literal]
  have default : (Value.text "text").Textual := trivial
  have textual := (textual.orElse default).orElse default
  unfold Fresh.value
  split
  · exact ⟨_, rfl⟩
  · exact ⟨_, rfl⟩
  · exact ⟨_, rfl⟩
  · rename_i is
    rw [is] at textual
    exact textual.elim
  · rename_i is
    rw [is] at textual
    exact textual.elim
  · exact ⟨_, rfl⟩

/-- New operands are all alike. -/
theorem freshOperands_eq_replicate (h : c.freshOperand = .ok fresh) (n : Int) :
    c.freshOperands n = .ok (List.replicate n.toNat fresh) := by
  obtain ⟨type, known, h⟩ := bind_eq_ok.mp h
  rw [freshOperands, known, ok_bind]
  induction n.toNat with
  | zero => rfl
  | succ k ih => rw [List.replicate_succ, List.mapM_cons, h, ok_bind, ih, ok_bind, pure_eq_ok, List.replicate_succ]

/-! ### The right side under another operator -/

theorem reshaped_none (c : Comparison) (oldArity : Int) : c.reshaped oldArity 0 = .ok .absent := rfl

theorem reshaped_one (h : c.freshOperand = .ok fresh) (oldArity : Int) :
    c.reshaped oldArity 1 = .ok (c.right.sides.headD fresh) := by
  unfold reshaped
  rw [if_neg (by decide), if_pos rfl]
  cases c.right with
  | several items =>
      cases items with
      | nil => exact h
      | cons first rest => rfl
  | absent => exact h
  | _ => rfl

/-- Several operands are those that there are and new ones, provided that a single one counts as one. -/
theorem reshaped_several (hm : c.freshOperand = .ok fresh) (ha : 2 ≤ wanted)
    (hc : c.right.isExpression = true → oldArity = 1)
    (he : ∀ operand ∈ c.right.sides, operand.isExpression = true) :
    c.reshaped oldArity wanted = .ok (.several (filled c.right.sides wanted.toNat fresh)) := by
  have anew := freshOperands_eq_replicate hm
  unfold reshaped
  rw [if_neg (by omega), if_neg (by omega)]
  split
  · rename_i items is
    rw [is, sides, filled]
    split
    · have gap : Index.gap items.length wanted = wanted.toNat := by
        rw [Index.gap, if_neg (by omega)]
        omega
      have full : wanted.toNat - items.length = 0 := by omega
      rw [Index.before, gap, full, List.replicate_zero, List.append_nil]
    · have missing : (wanted - items.length).toNat = wanted.toNat - items.length := by omega
      rw [anew, ok_bind, pure_eq_ok, missing, List.take_of_length_le (by omega)]
  · rename_i is
    rw [is, sides, filled, anew, List.take_nil, List.nil_append]
    rfl
  · rename_i single present
    have expression := isExpression_of_sides he single present
    have missing : (wanted - 1).toNat = wanted.toNat - 1 := by omega
    have one : [c.right].take wanted.toNat = [c.right] := List.take_of_length_le (by rw [List.length_singleton]; omega)
    rw [if_pos (hc expression), anew, sides_of_isExpression expression, filled, one, missing]
    rfl

/-- Otherwise a single operand is given up for new ones. -/
theorem reshaped_anew (hm : c.freshOperand = .ok fresh) (ha : 2 ≤ wanted) (hs : c.right.isExpression = true)
    (hu : oldArity ≠ 1) :
    c.reshaped oldArity wanted = .ok (.several (List.replicate wanted.toNat fresh)) := by
  have anew := freshOperands_eq_replicate hm wanted
  unfold reshaped
  rw [if_neg (by omega), if_neg (by omega)]
  split
  · exact absurd ‹_› (ne_several hs _)
  · rename_i is
    rw [is] at hs
    cases hs
  · rw [if_neg hu, anew]
    rfl

theorem changeOperator_of_reshaped (hw : catalogue.operandCount c.operator = .ok old)
    (hk : catalogue.operandCount operator = .ok new)
    (hd : c.reshaped (c.arity old) (newArity old new c) = .ok right) :
    c.changeOperator catalogue operator = .ok { c with operator, right } := by
  rw [changeOperator, hw, ok_bind, hk, ok_bind, hd]
  rfl

/-! ### Keeping operands -/

/-- The right side has the first operands of the comparison, as far as both go, and others that are new. -/
structure Carries (c : Comparison) (right : Node) : Prop where
  kept : right.sides.take (min c.right.sides.length right.sides.length) =
    c.right.sides.take (min c.right.sides.length right.sides.length)
  made : ∀ operand ∈ right.sides.drop (min c.right.sides.length right.sides.length), c.freshOperand = .ok operand

/-- A single operand that is not a new one stands for an open count that does not start with one, and the next operator
starts with several. -/
structure Overlooked (old new : OperandCount) (c : Comparison) : Prop where
  single : c.right.isExpression = true
  given : c.freshOperand ≠ .ok c.right
  isOpen : old.isOpen = true
  uncounted : old.initial ≠ 1
  many : 2 ≤ new.initial

theorem carries_of_filled (hm : c.freshOperand = .ok fresh) {n : Nat}
    (hf : right.sides = filled c.right.sides n fresh) : c.Carries right := by
  have length : right.sides.length = n := by
    rw [hf, Node.filled, List.length_append, List.length_take, List.length_replicate]
    omega
  have first : (c.right.sides.take n).length = min c.right.sides.length n := by
    rw [List.length_take, Nat.min_comm]
  constructor
  · rw [length, hf, Node.filled, List.take_left' first, List.take_eq_take_iff]
    omega
  · rw [length, hf, Node.filled, List.drop_left' first]
    intro operand within
    rw [List.eq_of_mem_replicate within]
    exact hm

/-- A list of new operands keeps a single one only if it is new itself. -/
theorem carries_anew_iff (hm : c.freshOperand = .ok fresh) (hs : c.right.isExpression = true) {n : Nat}
    (ha : 2 ≤ n) : c.Carries (.several (List.replicate n fresh)) ↔ c.freshOperand = .ok c.right := by
  obtain ⟨rest, rfl⟩ : ∃ rest, n = rest + 1 := ⟨n - 1, by omega⟩
  constructor
  · intro carries
    have kept := carries.kept
    have one : min c.right.sides.length (Node.several (List.replicate (rest + 1) fresh)).sides.length = 1 := by
      rw [sides_of_isExpression hs, sides, List.length_singleton, List.length_replicate]
      omega
    rw [one, sides_of_isExpression hs, sides, List.replicate_succ] at kept
    rw [hm, List.singleton_inj.mp kept]
  · intro same
    cases hm.symm.trans same
    apply carries_of_filled hm (n := rest + 1)
    rw [sides_of_isExpression hs, filled, List.length_singleton, Nat.add_sub_cancel, List.take_succ_cons,
      List.take_nil]
    exact List.replicate_succ

theorem newArity_of_single (h : c.right.isExpression = true) : newArity old new c = new.initial := by
  unfold newArity
  split
  · exact absurd ‹_› (ne_several h _)
  · rfl

theorem arity_of_single (h : c.right.isExpression = true) : c.arity old = old.initial := by
  unfold arity
  split
  · split
    · exact absurd ‹_› (ne_several h _)
    · rfl
  · rfl

/-- A fixed count that permits a single operand is one. -/
theorem Legal.isOpen_of_single (legal : Legal catalogue c) (hw : catalogue.operandCount c.operator = .ok old)
    (hs : c.right.isExpression = true) (hu : old.initial ≠ 1) : old.isOpen = true := by
  obtain ⟨count, own, allowed⟩ := legal.permitted
  cases hw.symm.trans own
  rw [rightCount_eq, sides_of_isExpression hs] at allowed
  cases is : old.isOpen with
  | true => rfl
  | false => exact absurd (OperandCount.initial_of_allows (by rw [is]; decide) allowed) hu

/-- The right side is filled up, unless it is a single operand that does not count as one and gives way to a list. -/
theorem reshaped_filled (hm : c.freshOperand = .ok fresh) (hn : 0 ≤ wanted)
    (he : ∀ operand ∈ c.right.sides, operand.isExpression = true)
    (hc : c.right.isExpression = true → 2 ≤ wanted → oldArity = 1) :
    ∃ right, c.reshaped oldArity wanted = .ok right ∧ right.sides = filled c.right.sides wanted.toNat fresh := by
  obtain rfl | rfl | many : wanted = 0 ∨ wanted = 1 ∨ 2 ≤ wanted := by omega
  · refine ⟨.absent, reshaped_none c oldArity, ?_⟩
    rw [filled, sides, Int.toNat_zero, List.take_zero, Nat.zero_sub]
    rfl
  · refine ⟨c.right.sides.headD fresh, reshaped_one hm oldArity, ?_⟩
    obtain ⟨t, v, rfl⟩ := freshOperand_eq hm
    cases is : c.right.sides with
    | nil => rfl
    | cons first rest =>
        rw [is] at he
        rw [List.headD_cons, sides_of_isExpression (he first List.mem_cons_self), filled, List.length_cons,
          Int.toNat_one, Nat.sub_eq_zero_of_le (Nat.succ_pos _)]
        rfl
  · exact ⟨_, reshaped_several hm many (fun single => hc single many) he, rfl⟩

/-- In a catalogue with sound bounds, a comparison with a permitted number of operands can be given any operator. It has
the number of operands that the new one calls for, and keeps those that fit, unless it overlooks a single one. -/
theorem operands_carried_iff (hb : catalogue.Bounded) (hl : Legal catalogue c) (ht : c.left.Typed)
    (hw : catalogue.operandCount c.operator = .ok old) (hk : catalogue.operandCount operator = .ok new) :
    ∃ right, c.changeOperator catalogue operator = .ok { c with operator, right } ∧
      (right.sides.length : Int) = newArity old new c ∧ (c.Carries right ↔ ¬ c.Overlooked old new) := by
  obtain ⟨fresh, made⟩ := freshOperand_of_typed ht
  have nonneg := (hb.operandCount hk).nonneg _ (allows_newArity old c (hb.operandCount hk))
  suffices reshaped : ∃ right, c.reshaped (c.arity old) (newArity old new c) = .ok right ∧
      (c.Carries right ↔ ¬ c.Overlooked old new) by
    obtain ⟨right, done, carries⟩ := reshaped
    have length := (amounts_reshaped hl.expressions nonneg done).length
    exact ⟨right, changeOperator_of_reshaped hw hk done, length, carries⟩
  by_cases anew : c.right.isExpression = true ∧ 2 ≤ newArity old new c ∧ c.arity old ≠ 1
  · obtain ⟨single, many, uncounted⟩ := anew
    refine ⟨_, reshaped_anew made many single uncounted, ?_⟩
    rw [carries_anew_iff made single (by omega)]
    rw [newArity_of_single single] at many
    rw [arity_of_single single] at uncounted
    constructor
    · exact fun same overlooked => overlooked.given same
    · intro seen
      apply Classical.not_not.mp
      exact fun given => seen ⟨single, given, hl.isOpen_of_single hw single uncounted, uncounted, many⟩
  · have counted (single : c.right.isExpression = true) (many : 2 ≤ newArity old new c) : c.arity old = 1 :=
      Classical.not_not.mp fun uncounted => anew ⟨single, many, uncounted⟩
    obtain ⟨right, done, filled⟩ := reshaped_filled made nonneg hl.expressions counted
    refine ⟨right, done, fun _ overlooked => anew ?_, fun _ => carries_of_filled made filled⟩
    rw [newArity_of_single overlooked.single, arity_of_single overlooked.single]
    exact ⟨overlooked.single, overlooked.many, overlooked.uncounted⟩

theorem aged_legal : Legal ranges aged := ⟨by decide, .exactly 2, by rfl, by decide⟩

theorem aged_typed : aged.left.Typed := ⟨.text "number", rfl, trivial⟩

/-- Two ages become three. -/
theorem aged_carries :
    ranges.Bounded ∧ Legal ranges aged ∧ aged.left.Typed ∧ ranges.operandCount aged.operator = .ok (.exactly 2) ∧
      ranges.operandCount (.text "in") = .ok ⟨none, some 3, some 1, some 4⟩ ∧
      ∃ right, aged.changeOperator ranges (.text "in") = .ok { aged with operator := .text "in", right } ∧
        right.sides.length = 3 ∧ aged.Carries right := by
  have known : ranges.operandCount (.text "in") = .ok ⟨none, some 3, some 1, some 4⟩ := rfl
  refine ⟨ranges_bounded, aged_legal, aged_typed, rfl, known, ?_⟩
  obtain ⟨right, changed, length, carries⟩ := operands_carried_iff ranges_bounded aged_legal aged_typed rfl known
  refine ⟨right, changed, Int.ofNat.inj length, carries.mpr fun overlooked => ?_⟩
  cases overlooked.single

/-- The first of the ages, in a list. -/
def youngest : Comparison := aged.afterAll ranges [.operator (.text "in"), .remove 2, .remove 1]

/-- The first of the ages, after the operator for several has been chosen once more. -/
def lone : Comparison := youngest.after ranges (.operator (.text "in"))

theorem youngest_legal : Legal ranges youngest := aged_legal.afterAll ranges_bounded _

theorem lone_legal : Legal ranges lone := youngest_legal.after ranges_bounded _

/-- The age is forgotten when two are asked for. -/
theorem lone_operand_forgotten :
    ranges.Bounded ∧ Legal ranges lone ∧ lone.left.Typed ∧ lone.right = .literal (.text "number") (.int 18) ∧
      ∃ right, lone.changeOperator ranges (.text "between") = .ok { lone with operator := .text "between", right } ∧
        right.sides.length = 2 ∧ ¬ lone.Carries right := by
  refine ⟨ranges_bounded, lone_legal, aged_typed, by rfl, _, by rfl, rfl, ?_⟩
  intro carries
  cases carries.kept

/-! ### Adjusting an open count -/

/-- Adding or removing an operand, of all that may be done to a comparison. -/
def Change.Adjusts : Change → Prop
  | .add | .remove _ => True
  | .operator _ | .left _ => False

/-- As long as one operand more is permitted, a new one can be added after the others; as long as one less is permitted,
any of them can be removed. -/
structure Adjustable (catalogue : Catalogue) (count : OperandCount) (c : Comparison) : Prop where
  grows : (∀ most, count.most = some most → (c.right.sides.length : Int) < most) →
    c.canAdd count = true ∧ ∃ fresh right, c.freshOperand = .ok fresh ∧
      c.addOperand catalogue = .ok { c with right } ∧ right.sides = c.right.sides ++ [fresh]
  shrinks : count.floor < c.right.sides.length →
    c.canRemove count = true ∧ ∀ index i, Index.place? c.right.sides.length index = some i →
      ∃ right, c.removeOperand catalogue index = .ok { c with right } ∧ right.sides = c.right.sides.eraseIdx i

/-- Listed operands of an open count can be adjusted. -/
theorem adjustable_of_several (hk : catalogue.operandCount c.operator = .ok count) (hi : count.isOpen = true)
    (typed : c.left.Typed) (hl : c.right = .several items) : c.Adjustable catalogue count := by
  have operands : c.openOperands? count = some items := by
    rw [openOperands?, hl]
    exact if_pos hi
  constructor
  · intro free
    obtain ⟨fresh, made⟩ := freshOperand_of_typed typed
    have can : c.canAdd count = true := by
      rw [hl] at free
      simp only [canAdd, operands, Option.all_eq_true, decide_eq_true_eq]
      exact free
    refine ⟨can, fresh, .several (items ++ [fresh]), made, ?_, ?_⟩
    · simp only [addOperand, hk, ok_bind, operands, can, if_true, made, pure_eq_ok]
    · rw [hl]
      rfl
  · intro spare
    have can : c.canRemove count = true := by
      rw [hl] at spare
      simp only [canRemove, operands, decide_eq_true_eq]
      exact spare
    refine ⟨can, fun index i place => ⟨.several (items.eraseIdx i), ?_, ?_⟩⟩
    · rw [hl] at place
      have erased : Index.erase? items index = some (items.eraseIdx i) := by
        rw [Index.erase?, show Index.place? items.length index = some i from place]
        rfl
      simp only [removeOperand, hk, ok_bind, operands, can, if_true, erased, pure_eq_ok]
    · rw [hl]
      rfl

/-- Nothing can be adjusted where the operands are not listed, so there had better be nothing to adjust. -/
theorem locked_of_unlisted (hu : ∀ items, c.right ≠ .several items) (adjustable : c.Adjustable catalogue count) :
    (∃ most, count.most = some most ∧ most ≤ c.right.sides.length) ∧ (c.right.sides.length : Int) ≤ count.floor := by
  have operands : c.openOperands? count = none := by
    unfold openOperands?
    split
    · rename_i items is
      exact absurd is (hu items)
    · rfl
  constructor
  · apply Classical.not_not.mp
    intro none
    obtain ⟨can, -⟩ := adjustable.grows fun most is => Int.not_le.mp fun reached => none ⟨most, is, reached⟩
    rw [canAdd, operands] at can
    cases can
  · apply Int.not_lt.mp
    intro spare
    obtain ⟨can, -⟩ := adjustable.shrinks spare
    rw [canRemove, operands] at can
    cases can

/-- An adjustment leaves a comparison as it is or lists other operands. -/
theorem after_adjusts (hk : catalogue.operandCount c.operator = .ok count) {change : Change}
    (adjusts : change.Adjusts) :
    c.after catalogue change = c ∨ ∃ items, c.after catalogue change = { c with right := .several items } := by
  unfold after
  split
  · rename_i performed
    cases change with
    | operator new => exact adjusts.elim
    | left new => exact adjusts.elim
    | add =>
        rcases addOperand_cases hk performed with same | ⟨items, t, v, -, -, -, made⟩
        · exact .inl same
        · exact .inr ⟨_, made⟩
    | remove index =>
        rcases removeOperand_cases hk performed with same | ⟨items, i, -, -, -, -, made⟩
        · exact .inl same
        · exact .inr ⟨_, made⟩
  · exact .inl rfl

theorem afterAll_adjusts (hk : catalogue.operandCount c.operator = .ok count) {changes : List Change}
    (ha : ∀ change ∈ changes, change.Adjusts) :
    c.afterAll catalogue changes = c ∨ ∃ items, c.afterAll catalogue changes = { c with right := .several items } := by
  induction changes generalizing c with
  | nil => exact .inl rfl
  | cons change rest ih =>
      obtain ⟨first, others⟩ := List.forall_mem_cons.mp ha
      have step : c.afterAll catalogue (change :: rest) = (c.after catalogue change).afterAll catalogue rest := rfl
      rw [step]
      rcases after_adjusts hk first with same | ⟨items, made⟩
      · rw [same]
        exact ih hk others
      · rw [made]
        rcases ih (c := { c with right := .several items }) hk others with same | ⟨items', made'⟩
        · exact .inr ⟨items, same⟩
        · exact .inr ⟨items', made'⟩

/-- Listed operands can be adjusted again and again. -/
theorem adjustable_after_adjustments (hk : catalogue.operandCount c.operator = .ok count)
    (hi : count.isOpen = true) (typed : c.left.Typed) (hl : c.right = .several items) {changes : List Change}
    (ha : ∀ change ∈ changes, change.Adjusts) : (c.afterAll catalogue changes).Adjustable catalogue count := by
  rcases afterAll_adjusts hk ha with same | ⟨items', made⟩
  · rw [same]
    exact adjustable_of_several hk hi typed hl
  · rw [made]
    exact adjustable_of_several (c := { c with right := .several items' }) hk hi typed rfl

/-- Under a count that permits one number of operands only, there is nothing to adjust. -/
theorem Legal.adjustable_of_locked (legal : Legal catalogue c) (hk : catalogue.operandCount c.operator = .ok count)
    (hi : count.isOpen = true) (hl : count.most = some count.floor) : c.Adjustable catalogue count := by
  obtain ⟨count', own, allowed⟩ := legal.permitted
  cases hk.symm.trans own
  rw [rightCount_eq, OperandCount.allows_open hi] at allowed
  have low := allowed.1 _ (Catalogue.least_of_isOpen hk hi)
  have high := allowed.2 _ hl
  constructor
  · intro free
    exact absurd (free _ hl) (by omega)
  · intro spare
    exact absurd spare (by omega)

/-- The right side can be made, and it is a list exactly if several operands are called for. -/
theorem reshaped_listed_iff (hm : c.freshOperand = .ok fresh) (oldArity : Int) (hn : 0 ≤ wanted)
    (he : ∀ operand ∈ c.right.sides, operand.isExpression = true) :
    ∃ right, c.reshaped oldArity wanted = .ok right ∧ ((∃ items, right = .several items) ↔ 2 ≤ wanted) := by
  obtain rfl | rfl | many : wanted = 0 ∨ wanted = 1 ∨ 2 ≤ wanted := by omega
  · refine ⟨_, reshaped_none c oldArity, ?_, by omega⟩
    rintro ⟨items, is⟩
    cases is
  · refine ⟨_, reshaped_one hm oldArity, ?_, by omega⟩
    rintro ⟨items, is⟩
    obtain ⟨t, v, rfl⟩ := freshOperand_eq hm
    cases there : c.right.sides with
    | nil =>
        rw [there] at is
        cases is
    | cons first rest =>
        rw [there, List.headD_cons] at is
        rw [there, is] at he
        cases he _ List.mem_cons_self
  · by_cases counted : c.right.isExpression = true → oldArity = 1
    · exact ⟨_, reshaped_several hm many counted he, fun _ => many, fun _ => ⟨_, rfl⟩⟩
    · obtain ⟨single, uncounted⟩ := Classical.not_imp.mp counted
      exact ⟨_, reshaped_anew hm many single uncounted, fun _ => many, fun _ => ⟨_, rfl⟩⟩

/-- In a catalogue with sound bounds, a comparison that has been given an operator with an open count can be adjusted
after any adjustments exactly if the change made several operands, or no other number is permitted. -/
theorem adjustable_throughout_iff (hb : catalogue.Bounded) (hl : Legal catalogue c) (ht : c.left.Typed)
    (hw : catalogue.operandCount c.operator = .ok old) (hk : catalogue.operandCount operator = .ok count)
    (ho : count.isOpen = true) :
    ∃ c', c.changeOperator catalogue operator = .ok c' ∧ c'.operator = operator ∧
      ((∀ changes : List Change, (∀ change ∈ changes, change.Adjusts) →
          (c'.afterAll catalogue changes).Adjustable catalogue count) ↔
        2 ≤ newArity old count c ∨ count.most = some count.floor) := by
  obtain ⟨fresh, made⟩ := freshOperand_of_typed ht
  have nonneg := (hb.operandCount hk).nonneg _ (allows_newArity old c (hb.operandCount hk))
  obtain ⟨right, done, listed⟩ := reshaped_listed_iff made (c.arity old) nonneg hl.expressions
  have changed := changeOperator_of_reshaped hw hk done
  have legal' := hl.changeOperator hb changed
  refine ⟨_, changed, rfl, ?_⟩
  constructor
  · intro adjustable
    by_cases many : 2 ≤ newArity old count c
    · exact .inl many
    · have unlisted (items : List Node) (is : right = .several items) : False := many (listed.mp ⟨items, is⟩)
      obtain ⟨⟨most, upper, reached⟩, lower⟩ := locked_of_unlisted unlisted (adjustable [] (List.forall_mem_nil _))
      obtain ⟨count', own, allowed⟩ := legal'.permitted
      cases hk.symm.trans own
      rw [rightCount_eq, OperandCount.allows_open ho] at allowed
      have low := allowed.1 _ (Catalogue.least_of_isOpen hk ho)
      have high := allowed.2 most upper
      have one : most = count.floor := by omega
      exact .inr (one ▸ upper)
  · rintro (many | locked) changes adjust
    · obtain ⟨items, is⟩ := listed.mpr many
      exact adjustable_after_adjustments (c := { c with operator, right }) hk ho ht is adjust
    · have last := legal'.afterAll hb changes
      rcases afterAll_adjusts (c := { c with operator, right }) hk adjust with same | ⟨items, made⟩
      · rw [same]
        exact legal'.adjustable_of_locked hk ho locked
      · rw [made] at last ⊢
        exact last.adjustable_of_locked hk ho locked

/-- Three ages can be adjusted at will. -/
theorem aged_adjustable :
    ranges.Bounded ∧ Legal ranges aged ∧ aged.left.Typed ∧ ranges.operandCount aged.operator = .ok (.exactly 2) ∧
      ranges.operandCount (.text "in") = .ok ⟨none, some 3, some 1, some 4⟩ ∧
      ∃ c', aged.changeOperator ranges (.text "in") = .ok c' ∧ ∀ changes : List Change,
        (∀ change ∈ changes, change.Adjusts) →
          (c'.afterAll ranges changes).Adjustable ranges ⟨none, some 3, some 1, some 4⟩ := by
  have known : ranges.operandCount (.text "in") = .ok ⟨none, some 3, some 1, some 4⟩ := rfl
  refine ⟨ranges_bounded, aged_legal, aged_typed, rfl, known, ?_⟩
  obtain ⟨c', changed, -, throughout⟩ :=
    adjustable_throughout_iff ranges_bounded aged_legal aged_typed rfl known rfl
  exact ⟨c', changed, throughout.mpr (.inl (by decide))⟩

/-- No other can be added to the first of the ages, although there may be four. -/
theorem lone_operand_stuck :
    ranges.Bounded ∧ Legal ranges youngest ∧ youngest.left.Typed ∧
      ranges.operandCount (.text "in") = .ok ⟨none, some 3, some 1, some 4⟩ ∧
      youngest.changeOperator ranges (.text "in") = .ok lone ∧ lone.right.sides.length = 1 ∧
      lone.canAdd ⟨none, some 3, some 1, some 4⟩ = false ∧ lone.addOperand ranges = .ok lone ∧
      ¬ lone.Adjustable ranges ⟨none, some 3, some 1, some 4⟩ := by
  refine ⟨ranges_bounded, youngest_legal, aged_typed, rfl, by rfl, by rfl, by rfl, by rfl, ?_⟩
  intro adjustable
  have free (most : Int) (is : some 4 = some most) : ((1 : Nat) : Int) < most := by
    cases is
    decide
  cases (adjustable.grows free).1

end Comparison
end RuleEditor
