import RuleEditor.Edit.Condition
import RuleEditor.Proofs.Address.Steps

/-!
# Spellings of a path

A path may start at either root, and its indexes may have leading zeros and the digits of any script. Whatever is read
off the end of a path that can be read, its position and its role, depends on its steps alone, and so do positional
labels.
-/
namespace RuleEditor

/-- The slot of a choice that a step leads to. -/
def Step.role? : Step → Option Role
  | .result _ => some .result
  | .otherwise => some .otherwise
  | _ => none

namespace Address

variable {path path' : String} {segments back : List String} {steps : List Step} {step : Step}

/-- Segments that are read as one step. -/
inductive Spells : List String → Step → Prop where
  | plain {word : String} {step : Step} : Step.plain? word = some step → Spells [word] step
  | indexed {word digits : String} {step : Nat → Step} {i : Nat} : Step.indexed? word = some step →
      isNumber digits = true → number digits = .ok i → Spells [word, digits] (step i)
  | item {digits : String} {i : Nat} : isNumber digits = true → number digits = .ok i →
      Spells ["right", digits] (.rightItem i)

theorem eq_right_of_plain {word : String} (h : Step.plain? word = some .right) : word = "right" := by
  unfold Step.plain? at h
  split at h <;> cases h
  rfl

theorem eq_nil_of_readSteps (h : readSteps path segments = .ok []) : segments = [] := by
  rcases readSteps_last h with ⟨-, none⟩ | ⟨before, last, front, back, same, -⟩
  · exact none
  · exact absurd same.symm (List.append_ne_nil_of_right_ne_nil _ (List.cons_ne_nil _ _))

/-- A path that can be read ends in segments for its last step. -/
theorem spells_last (hr : readSteps path segments = .ok steps) (hl : steps.getLast? = some step) :
    ∃ front back, segments = front ++ back ∧ Spells back step := by
  fun_induction readSteps path segments generalizing steps with
  | case1 =>
      cases hr
      cases hl
  | case2 | case4 | case6 | case9 => cases hr
  | case3 word plain known unknown =>
      cases hr
      cases hl
      exact ⟨[], [word], rfl, .plain known⟩
  | case5 word next rest indexed known isIndex ih =>
      obtain ⟨i, here, hr⟩ := bind_eq_ok.mp hr
      obtain ⟨tail, below, hr⟩ := bind_eq_ok.mp hr
      cases hr
      cases tail with
      | nil =>
          cases hl
          cases eq_nil_of_readSteps below
          exact ⟨[], [word, next], rfl, .indexed known isIndex here⟩
      | cons first tail =>
          obtain ⟨front, back, rfl, spells⟩ := ih below hl
          exact ⟨word :: next :: front, back, rfl, spells⟩
  | case7 word next rest plain known unknown isIndex ih =>
      obtain ⟨i, here, hr⟩ := bind_eq_ok.mp hr
      obtain ⟨tail, below, hr⟩ := bind_eq_ok.mp hr
      cases hr
      cases tail with
      | nil =>
          cases hl
          cases eq_nil_of_readSteps below
          cases eq_right_of_plain (isIndex.1 ▸ known)
          exact ⟨[], ["right", next], rfl, .item isIndex.2 here⟩
      | cons first tail =>
          obtain ⟨front, back, rfl, spells⟩ := ih below hl
          exact ⟨word :: next :: front, back, rfl, spells⟩
  | case8 word next rest plain known unknown isPlain ih =>
      obtain ⟨tail, below, hr⟩ := bind_eq_ok.mp hr
      cases hr
      cases tail with
      | nil =>
          cases eq_nil_of_readSteps below
      | cons first tail =>
          obtain ⟨front, back, same, spells⟩ := ih below hl
          exact ⟨word :: front, back, congrArg (word :: ·) same, spells⟩

theorem role?_of_word {word : String} (hs : (Address.segments path).reverse = word :: back)
    (hi : isNumber word = false) : role? path = if word = "else" then some .otherwise else none := by
  unfold role?
  rw [hs]
  split
  · rename_i eq
    rw [if_pos (List.cons.inj eq).1]
  · rename_i number rest eq
    obtain ⟨rfl, -⟩ := List.cons.inj eq
    have other : word ≠ "else" := fun hs => by simp_all
    rw [hi, if_neg Bool.false_ne_true, if_neg other]
  · rename_i unlike _
    rw [if_neg fun hs => unlike _ (congrArg (· :: back) hs)]

theorem role?_of_index {word digits : String} (hs : (Address.segments path).reverse = digits :: word :: back)
    (hi : isNumber digits = true) : role? path = if word = "then" then some .result else none := by
  have other : digits ≠ "else" := fun hs => absurd (hs ▸ hi) (by decide)
  unfold role?
  rw [hs]
  split
  · rename_i eq
    exact absurd (List.cons.inj eq).1 other
  · rename_i eq
    obtain ⟨rfl, below⟩ := List.cons.inj eq
    rw [if_pos hi, if_pos (List.cons.inj below).1]
  · rename_i unlike
    rw [if_neg fun hs => unlike _ _ (congrArg (digits :: · :: back) hs)]

/-- The role and the position that the segments of the last step give a path. -/
theorem Spells.reads (spells : Spells back step) {front : List String} (hs : Address.segments path = front ++ back) :
    role? path = step.role? ∧ position path = .ok ((step.index?.map (· + 1)).getD 1) := by
  cases spells with
  | @plain word _ known =>
      have isPlain := not_isNumber_of_plain known
      rw [position, hs, List.getLast?_concat]
      rw [role?_of_word (by rw [hs, List.reverse_append]; rfl) isPlain]
      unfold Step.plain? at known
      split at known <;> cases known <;> exact ⟨rfl, by simp [isPlain, Step.index?]⟩
  | @indexed word digits make i known isIndex here =>
      rw [position, hs, List.getLast?_append]
      rw [role?_of_index (by rw [hs, List.reverse_append]; rfl) isIndex]
      unfold Step.indexed? at known
      split at known <;> cases known <;> exact ⟨rfl, by simp [isIndex, here, Step.index?, Except.map]⟩
  | @item digits i isIndex here =>
      rw [position, hs, List.getLast?_append]
      rw [role?_of_index (by rw [hs, List.reverse_append]; rfl) isIndex]
      exact ⟨rfl, by simp [isIndex, here, Step.index?, Except.map]⟩

/-- The role and the position of a path are those of its last step. -/
theorem reads_of_steps (h : Address.steps path = .ok steps) :
    role? path = steps.getLast?.bind Step.role? ∧
      position path = .ok (((steps.getLast?.bind Step.index?).map (· + 1)).getD 1) := by
  obtain ⟨root, rest, isRoot, same, below⟩ := steps_eq_ok h
  cases last : steps.getLast? with
  | none =>
      cases List.getLast?_eq_none_iff.mp last
      cases eq_nil_of_readSteps below
      have isWord : isNumber root = false := by rcases isRoot with rfl | rfl <;> decide
      refine ⟨?_, ?_⟩
      · rw [role?_of_word (by rw [same]; rfl) isWord]
        rcases isRoot with rfl | rfl <;> rfl
      · rw [position, same]
        simp [isWord]
  | some step =>
      obtain ⟨front, back, rfl, spells⟩ := spells_last below last
      have whole : segments path = (root :: front) ++ back := same
      exact spells.reads whole

end Address

namespace Label

open Address

variable {path path' : String} {steps : List Step}

/-- A positional label depends on the steps of the path alone. -/
theorem positional_respelled (hr : Address.steps path = .ok steps) (hs : Address.steps path' = .ok steps)
    (kind : Kind) : positional path' kind = positional path kind := by
  unfold positional
  rw [(reads_of_steps hr).1, (reads_of_steps hr).2, (reads_of_steps hs).1, (reads_of_steps hs).2]

theorem afterChange_respelled (hr : Address.steps path = .ok steps) (hs : Address.steps path' = .ok steps)
    (kind : Kind) (target carried : Value) :
    afterChange path' kind target carried = afterChange path kind target carried := by
  unfold afterChange
  rw [positional_respelled hr hs]

end Label

end RuleEditor
