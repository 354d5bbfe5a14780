import RuleEditor.Proofs.Outcome
import RuleEditor.Tree.Address
import Mathlib.Data.List.TakeWhile

/-!
# Segments of paths

A path is cut into segments at its dashes. Segments that are not empty and hold no dash come back from the
path that they make up, and the segment of an index comes back as that index.
-/
namespace RuleEditor

namespace Text

variable {separator : Char} {cs ds : List Char}

theorem pieces_of_not_mem (h : separator ∉ cs) : pieces separator cs = [cs] := by
  induction cs with
  | nil => rfl
  | cons c cs ih =>
      simp only [List.mem_cons, not_or] at h
      simp only [pieces, Ne.symm h.1, if_false, ih h.2]

theorem pieces_append (h : separator ∉ cs) :
    pieces separator (cs ++ separator :: ds) = cs :: pieces separator ds := by
  induction cs with
  | nil => simp only [List.nil_append, pieces, if_true]
  | cons c cs ih =>
      simp only [List.mem_cons, not_or] at h
      simp only [List.cons_append, pieces, Ne.symm h.1, if_false, ih h.2]

theorem not_mem_of_mem_pieces {piece : List Char} (h : piece ∈ pieces separator cs) : separator ∉ piece := by
  induction cs generalizing piece with
  | nil =>
      rw [pieces, List.mem_singleton] at h
      simp [h]
  | cons c cs ih =>
      rw [pieces] at h
      split at h
      · rcases List.mem_cons.mp h with rfl | h
        · exact List.not_mem_nil
        · exact ih h
      · rename_i other
        split at h
        · rw [List.mem_singleton] at h
          simp [h, Ne.symm other]
        · rename_i p ps same
          rcases List.mem_cons.mp h with rfl | h
          · have := ih (same ▸ List.mem_cons_self)
            simp [this, Ne.symm other]
          · exact ih (same ▸ List.mem_cons_of_mem _ h)

/-! ### Decimal digits -/

theorem decimalValue?_of_isDigit {c : Char} (h : c.isDigit) : decimalValue? c = some (c.toNat - '0'.toNat) := by
  have bounds : 0x30 ≤ c.toNat ∧ c.toNat < 0x30 + 10 := by
    simp only [Char.isDigit, Bool.and_eq_true, decide_eq_true_eq, ge_iff_le] at h
    exact ⟨h.1, Nat.lt_succ_of_le h.2⟩
  simp only [decimalValue?, decimalZeros, List.find?_cons, bounds.1, bounds.2, decide_true, Bool.and_self,
    Option.map_some]
  rfl

theorem isDigit_of_mem_toString {n : Nat} {c : Char} (h : c ∈ (toString n).toList) : c.isDigit := by
  rw [Nat.toString_eq_repr, Nat.toList_repr] at h
  exact Nat.isDigit_of_mem_toDigits (by decide) (by decide) h

theorem decimalFrom?_of_isDigit {n : Nat} (h : ∀ c ∈ cs, c.isDigit) :
    decimalFrom? n cs = some (Nat.ofDigitChars 10 cs n) := by
  induction cs generalizing n with
  | nil => simp only [decimalFrom?, Nat.ofDigitChars_nil]
  | cons c cs ih =>
      simp only [decimalFrom?, decimalValue?_of_isDigit (h c List.mem_cons_self), Nat.ofDigitChars_cons]
      exact ih fun d below => h d (List.mem_cons_of_mem _ below)

theorem toString_ne_nil (n : Nat) : (toString n).toList ≠ [] := by
  rw [Nat.toString_eq_repr, Nat.toList_repr]
  exact Nat.toDigits_ne_nil

theorem decimal?_toString (n : Nat) : decimal? (toString n).toList = some n := by
  have digits : decimalFrom? 0 (toString n).toList = some n := by
    rw [decimalFrom?_of_isDigit fun c => isDigit_of_mem_toString, Nat.toString_eq_repr, Nat.toList_repr,
      Nat.ofDigitChars_ten_toDigits]
  simp only [decimal?, List.isEmpty_iff, toString_ne_nil, if_false, digits]

end Text

namespace Address

/-- A segment is not empty and holds no dash. -/
def Segment (s : String) : Prop := s ≠ "" ∧ '-' ∉ s.toList

instance (s : String) : Decidable (Segment s) := inferInstanceAs (Decidable (_ ∧ _))

theorem segment_toString (n : Nat) : Segment (toString n) := by
  refine ⟨fun empty => Text.toString_ne_nil n (by rw [empty]; rfl), fun dash => ?_⟩
  exact absurd (Text.isDigit_of_mem_toString dash) (by decide)

theorem segment_word (s : Step) : Segment s.word := by
  cases s <;> simp only [Step.word] <;> decide

theorem segment_of_mem_segments {s path : String} (h : s ∈ segments path) : Segment s := by
  simp only [segments, List.mem_map, List.mem_filter] at h
  obtain ⟨piece, ⟨within, filled⟩, rfl⟩ := h
  refine ⟨fun empty => ?_, ?_⟩
  · rw [String.ofList_eq_empty_iff] at empty
    simp [empty] at filled
  · rw [String.toList_ofList]
    exact Text.not_mem_of_mem_pieces within

theorem segments_of_step {s : Step} {x : String} (h : x ∈ s.segments) : Segment x := by
  unfold Step.segments at h
  split at h
  · rcases List.mem_cons.mp h with rfl | h
    · exact segment_word s
    · rw [List.mem_singleton] at h
      exact h ▸ segment_toString _
  · rw [List.mem_singleton] at h
    exact h ▸ segment_word s

theorem join_cons {x : String} {xs : List String} (h : ∀ s ∈ x :: xs, Segment s) :
    (join (x :: xs)).toList = x.toList ++ xs.flatMap fun s => '-' :: s.toList := by
  induction xs generalizing x with
  | nil => simp [join, (h x List.mem_cons_self).1]
  | cons y ys ih =>
      have hx := (h x List.mem_cons_self).1
      have hy := (h y (by simp)).1
      have rest := ih fun s below => h s (List.mem_cons_of_mem _ below)
      simp only [join, hx, hy, List.filter_cons, decide_true, ne_eq, not_false_eq_true, if_true,
        String.intercalate_cons_cons, String.toList_append] at rest ⊢
      rw [rest]
      simp

theorem segments_join {xs : List String} (h : ∀ s ∈ xs, Segment s) : segments (join xs) = xs := by
  cases xs with
  | nil => rfl
  | cons x xs =>
      have parts : Text.pieces '-' (join (x :: xs)).toList = (x :: xs).map String.toList := by
        rw [join_cons h]
        induction xs generalizing x with
        | nil => simp [Text.pieces_of_not_mem (h x List.mem_cons_self).2]
        | cons y ys ih =>
            have rest := ih y fun s below => h s (List.mem_cons_of_mem _ below)
            rw [List.flatMap_cons, List.cons_append, Text.pieces_append (h x List.mem_cons_self).2, rest]
            rfl
      have filled : ((x :: xs).map String.toList).filter (!·.isEmpty) = (x :: xs).map String.toList := by
        rw [List.filter_eq_self]
        simp only [List.mem_map]
        rintro _ ⟨s, within, rfl⟩
        have := (h s within).1
        simpa [String.toList_eq_nil_iff] using this
      rw [segments, parts, filled, List.map_map]
      simp

/-! ### Indexes -/

theorem isNumber_toString (n : Nat) : isNumber (toString n) = true := by
  simp only [isNumber, Text.isDigits, Bool.and_eq_true, List.all_eq_true]
  refine ⟨by simp, fun c within => ?_⟩
  simp [Text.isDigit, Text.isDecimal, Text.decimalValue?_of_isDigit (Text.isDigit_of_mem_toString within)]

/-- The segment of an index that is not too long is read as that index. -/
theorem number_toString (n : Nat) :
    number (toString n) =
      if Text.maxDigits < (toString n).toList.length then .error (.longNumber (toString n).toList.length)
      else .ok n := by
  have all : (toString n).toList.takeWhile Text.isDecimal = (toString n).toList := by
    rw [List.takeWhile_eq_self_iff]
    intro c within
    simp [Text.isDecimal, Text.decimalValue?_of_isDigit (Text.isDigit_of_mem_toString within)]
  simp only [number, all, Text.decimal?_toString]

theorem eq_of_number_toString {n m : Nat} (h : number (toString n) = .ok m) : m = n := by
  rw [number_toString] at h
  split at h
  · cases h
  · exact (Except.ok.inj h).symm

theorem not_isNumber_word (s : Step) : isNumber s.word = false := by
  cases s <;> simp only [Step.word] <;> decide

end Address

end RuleEditor
