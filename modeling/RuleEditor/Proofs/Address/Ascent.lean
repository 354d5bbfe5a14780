import RuleEditor.Proofs.Address.Canonical
import RuleEditor.Proofs.Address.Numbered
import Mathlib.Data.List.Induction

/-!
# Paths that are read and climbed

A path that is written from steps is read as these steps, unless an index among them has more digits than numbers are
read with. A path may be spelled in many other ways. Whichever spelling is read, the way up is taken off the end of the
text, and what is left is read as all steps but the last; so a step up at a time leads to the root, and no further.
-/
namespace RuleEditor.Address

variable {root path : String} {steps : List Step} {n : Nat}

/-- No index has more digits than can be read. -/
def Short (steps : List Step) : Prop := ∀ step ∈ steps, ∀ i, step.index? = some i → i < 10 ^ Text.maxDigits

/-! ### Written paths -/

/-- The least number with more than `k` digits. -/
theorem length_toString_pow {k : Nat} (h : 0 < k) : (toString (10 ^ k)).toList.length = k + 1 := by
  apply Nat.le_antisymm
  · exact (length_toString_le_iff (Nat.succ_pos k)).mpr (Nat.pow_lt_pow_succ (by decide))
  · exact Nat.lt_of_not_le fun few => Nat.lt_irrefl _ ((length_toString_le_iff h).mp few)

theorem number_eq_ok_iff : (∃ i, number (toString n) = .ok i) ↔ n < 10 ^ Text.maxDigits := by
  rw [number_toString, ← length_toString_le_iff (by decide), ← Nat.not_lt]
  split
  · rename_i long
    exact iff_of_false (fun ⟨_, read⟩ => nomatch read) (not_not_intro long)
  · rename_i short
    exact iff_of_true ⟨n, rfl⟩ short

theorem readIndex_eq_ok_iff {step : Step} :
    (∃ i, readIndex step = .ok i) ↔ ∀ i, step.index? = some i → i < 10 ^ Text.maxDigits := by
  unfold readIndex
  cases step.index? with
  | none => exact iff_of_true ⟨0, rfl⟩ nofun
  | some n => simpa only [Option.some.injEq, forall_eq'] using number_eq_ok_iff

/-- The segments of steps are read as these steps, if no index is too long. -/
theorem readSteps_segments_iff : readSteps path (steps.flatMap Step.segments) = .ok steps ↔ Short steps := by
  induction steps with
  | nil => exact iff_of_true rfl nofun
  | cons step rest ih =>
      rw [List.flatMap_cons, readSteps_step path step fun _ => not_isNumber_head, Short, List.forall_mem_cons,
        ← readIndex_eq_ok_iff, ← Short, ← ih]
      constructor
      · intro read
        obtain ⟨i, index, read⟩ := bind_eq_ok.mp read
        obtain ⟨tail, below, same⟩ := bind_eq_ok.mp read
        cases same
        exact ⟨⟨i, index⟩, below⟩
      · rintro ⟨⟨i, index⟩, below⟩
        rw [index, ok_bind, below]
        rfl

theorem steps_render_iff (h : IsRoot root) : Address.steps (render root steps) = .ok steps ↔ Short steps := by
  rw [steps_of_segments h (segments_render h)]
  exact readSteps_segments_iff

theorem steps_render (h : IsRoot root) (short : Short steps) : Address.steps (render root steps) = .ok steps :=
  (steps_render_iff h).mpr short

/-- An index that is too long is reported with its length. -/
theorem steps_long_index (h : IsRoot root) (hl : Text.maxDigits < (toString n).toList.length) (below : List Step) :
    Address.steps (render root (.child n :: below)) = .error (.longNumber (toString n).toList.length) := by
  have unread : readIndex (.child n) = .error (.longNumber (toString n).toList.length) := by
    show number (toString n) = _
    rw [number_toString, if_pos hl]
  rw [steps_of_segments h (segments_render h), List.flatMap_cons, readSteps_step _ _ fun _ => not_isNumber_head, unread]
  rfl

/-! ### The way up -/

/-- The path that some calls lead to, each of them a step up. There is none once a call has found no way up. -/
def ascend : (calls : Nat) → (path : String) → Except Fault (Option String)
  | 0, path => .ok (some path)
  | calls + 1, path => do
    match ← parent? path with
    | some above => ascend calls above
    | none => return none

theorem parent?_of_nil (h : Address.steps path = .ok []) : parent? path = .ok none := by
  unfold parent?
  rw [h]
  rfl

theorem ascend_of_parent? {above : String} (h : parent? path = .ok (some above)) (calls : Nat) :
    ascend (calls + 1) path = ascend calls above := by
  rw [ascend, h]
  rfl

/-- There is no way up from the root alone. -/
theorem parent?_eq_none_iff (h : Address.steps path = .ok steps) : parent? path = .ok none ↔ steps = [] := by
  rcases List.eq_nil_or_concat steps with rfl | ⟨before, last, rfl⟩
  · exact iff_of_true (parent?_of_nil h) rfl
  · rw [List.concat_eq_append] at h ⊢
    obtain ⟨above, up, -⟩ := parent?_of_steps h
    rw [up]
    exact iff_of_false nofun (by simp)

/-- Each call takes a step off the end. -/
theorem ascend_of_steps {calls : Nat} (hr : Address.steps path = .ok steps) (hw : calls ≤ steps.length) :
    ∃ above, ascend calls path = .ok (some above) ∧
      Address.steps above = .ok (steps.take (steps.length - calls)) := by
  induction calls generalizing path steps with
  | zero => exact ⟨path, rfl, by rw [Nat.sub_zero, List.take_length, hr]⟩
  | succ calls ih =>
      rcases List.eq_nil_or_concat steps with rfl | ⟨before, last, rfl⟩
      · cases hw
      · rw [List.concat_eq_append] at hr hw ⊢
        rw [List.length_append, List.length_singleton, Nat.add_le_add_iff_right] at hw
        obtain ⟨parent, up, readParent⟩ := parent?_of_steps hr
        obtain ⟨above, leads, readAbove⟩ := ih readParent hw
        refine ⟨above, (ascend_of_parent? up calls).trans leads, ?_⟩
        rw [List.length_append, List.length_singleton, Nat.add_sub_add_right,
          List.take_append_of_le_length (Nat.sub_le _ _), readAbove]

/-- One call more than there are steps finds no way up. -/
theorem ascend_past_root (h : Address.steps path = .ok steps) : ascend (steps.length + 1) path = .ok none := by
  -- from the end of the steps, where the calls take them off
  induction steps using List.reverseRecOn generalizing path with
  | nil =>
      rw [ascend, parent?_of_nil h]
      rfl
  | append_singleton before last ih =>
      obtain ⟨above, up, readAbove⟩ := parent?_of_steps h
      rw [ascend_of_parent? up, List.length_append, List.length_singleton]
      exact ih readAbove

/-- A path that is written from steps is read as these steps if and only if no index among them is too long. However a
path that can be read is spelled, the way up from it is read as all steps but the last; as many calls as there are steps
lead to the root, and one more finds no way up. -/
theorem paths_retraced :
    (∀ root steps, IsRoot root → (Address.steps (render root steps) = .ok steps ↔ Short steps)) ∧
      ∀ path steps, Address.steps path = .ok steps →
        (parent? path = .ok none ↔ steps = []) ∧
        (steps ≠ [] → ∃ above, parent? path = .ok (some above) ∧ Address.steps above = .ok steps.dropLast) ∧
        (∀ calls ≤ steps.length, ∃ above, ascend calls path = .ok (some above) ∧
          Address.steps above = .ok (steps.take (steps.length - calls))) ∧
        ascend (steps.length + 1) path = .ok none := by
  refine ⟨fun root steps h => steps_render_iff h, fun path steps read => ?_⟩
  refine ⟨parent?_eq_none_iff read, fun further => ?_, fun calls => ascend_of_steps read, ascend_past_root read⟩
  rw [← List.dropLast_concat_getLast further] at read
  exact parent?_of_steps read

/-- Steps below a choice. -/
def thirdOnRight : List Step := [.condition 7, .right, .child 3]

/-- A path that is spelled with zeros in front, an empty segment and other digits has a way up as its canonical spelling
has. -/
theorem paths_retraced_spelled :
    IsRoot "case" ∧ Short thirdOnRight ∧ Address.steps (render "case" thirdOnRight) = .ok thirdOnRight ∧
      Address.steps "case-when-007-right--condition-٣" = .ok thirdOnRight ∧
      parent? "case-when-007-right--condition-٣" = .ok (some "case-when-007-right") ∧
      Address.steps "case-when-007-right" = .ok [.condition 7, .right] ∧
      ascend 4 "case-when-007-right--condition-٣" = .ok none := by
  have short : Short thirdOnRight := by
    intro step within i numbered
    have digit : i < 10 := by
      simp only [thirdOnRight, List.mem_cons, List.not_mem_nil, or_false] at within
      rcases within with rfl | rfl | rfl <;> cases numbered <;> decide
    exact Nat.lt_of_lt_of_le digit (Nat.le_self_pow (by decide) 10)
  have read : Address.steps "case-when-007-right--condition-٣" = .ok thirdOnRight := by rfl
  have up : parent? "case-when-007-right--condition-٣" = .ok (some "case-when-007-right") := by rfl
  obtain ⟨-, above, -, past⟩ := paths_retraced.2 _ _ read
  obtain ⟨parent, leads, readParent⟩ := above (by decide)
  cases Option.some.inj (Except.ok.inj (up.symm.trans leads))
  exact ⟨.inr rfl, short, (paths_retraced.1 _ _ (.inr rfl)).mpr short, read, up, readParent, past⟩

/-- An index with one digit more than can be read is not read. -/
theorem long_index_not_read :
    IsRoot "root" ∧
      Address.steps (render "root" [.child (10 ^ Text.maxDigits)]) = .error (.longNumber (Text.maxDigits + 1)) := by
  have digits := length_toString_pow (show 0 < Text.maxDigits by decide)
  have long := steps_long_index (.inl rfl) (Nat.lt_of_lt_of_eq (Nat.lt_succ_self _) digits.symm) []
  rw [digits] at long
  exact ⟨.inl rfl, long⟩

end RuleEditor.Address
