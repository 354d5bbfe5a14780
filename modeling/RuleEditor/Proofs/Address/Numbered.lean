import RuleEditor.Edit.Choice
import RuleEditor.Proofs.Address.Segments
import Mathlib.Data.Nat.Digits.Defs

/-!
# Numbered places

A place that is numbered among its siblings has a positional label, unless the number is longer than numbers can be.
-/
namespace RuleEditor

namespace Text

variable {separator : Char} {cs ds : List Char}

theorem pieces_append_separator :
    pieces separator (cs ++ separator :: ds) = pieces separator cs ++ pieces separator ds := by
  induction cs with
  | nil => simp only [List.nil_append, pieces, if_true, List.cons_append]
  | cons c cs ih =>
      simp only [List.cons_append, pieces, ih]
      split
      · rfl
      · cases first : pieces separator cs with
        | nil => exact absurd first (pieces_ne_nil separator cs)
        | cons p ps => rfl

end Text

namespace Address

theorem segments_append (path more : String) : segments (path ++ "-" ++ more) = segments path ++ segments more := by
  simp only [segments, String.toList_append, List.append_assoc]
  rw [show "-".toList ++ more.toList = '-' :: more.toList from rfl, Text.pieces_append_separator, List.filter_append,
    List.map_append]

theorem segments_toString (n : Nat) : segments (toString n) = [toString n] := by
  have alone := segments_join (List.forall_mem_singleton.mpr (segment_toString n))
  simpa [join, (segment_toString n).1] using alone

theorem length_toString_le_iff {n k : Nat} (h : 0 < k) : (toString n).toList.length ≤ k ↔ n < 10 ^ k := by
  rw [Nat.toString_eq_repr, Nat.toList_repr]
  exact Nat.length_toDigits_le_iff (by decide) h

/-- A number below the bound has no more digits than can be read. -/
theorem number_of_small {n : Nat} (h : n < 10 ^ Text.maxDigits) : number (toString n) = .ok n := by
  rw [number_toString, if_neg (Nat.not_lt.mpr ((length_toString_le_iff (by decide)).mpr h))]

theorem position_of_last {path : String} {n : Nat} (hl : (segments path).getLast? = some (toString n))
    (hs : n < 10 ^ Text.maxDigits) : position path = .ok (n + 1) := by
  simp only [position, hl, isNumber_toString, if_true, number_of_small hs]
  rfl

end Address

namespace Label

/-- The positional label of a place takes nothing but a position. -/
theorem positional_of_position {path : String} {n : Nat} (h : Address.position path = .ok n) (kind : Kind) :
    ∃ label, positional path kind = .ok label := by
  unfold positional
  rw [h]
  split <;> exact ⟨_, rfl⟩

theorem positional_numbered (path : String) {n : Nat} (h : n < 10 ^ Text.maxDigits) (kind : Kind) :
    ∃ label, positional (path ++ "-" ++ toString n) kind = .ok label := by
  refine positional_of_position (Address.position_of_last ?_ h) kind
  rw [Address.segments_append, Address.segments_toString, List.getLast?_concat]

theorem positional_child (path : String) {i : Nat} (h : i < 10 ^ Text.maxDigits) (kind : Kind) :
    ∃ label, positional s!"{path}-condition-{i}" kind = .ok label := by
  have spelled : s!"{path}-condition-{i}" = path ++ "-condition" ++ "-" ++ toString i := by
    have dash : path ++ "-condition" ++ "-" = path ++ "-condition-" := String.append_assoc
    rw [dash]
    rfl
  rw [spelled]
  exact positional_numbered _ h kind

theorem positional_condition {i : Nat} (h : i < 10 ^ Text.maxDigits) (kind : Kind) :
    ∃ label, positional s!"case-when-{i}" kind = .ok label := by
  have spelled : s!"case-when-{i}" = "case-when" ++ "-" ++ toString i := rfl
  rw [spelled]
  exact positional_numbered _ h kind

theorem segments_resultPath (n : Nat) :
    Address.segments (Choice.resultPath n) = [Choice.rootPath, "then", toString n] := by
  refine Address.segments_join ?_
  simp only [List.forall_mem_cons]
  exact ⟨by decide, by decide, Address.segment_toString n, nofun⟩

theorem role?_resultPath (n : Nat) : Address.role? (Choice.resultPath n) = some .result := by
  have other : toString n ≠ "else" := by
    intro same
    have digits := Address.isNumber_toString n
    rw [same] at digits
    exact absurd digits (by decide)
  have reversed : (Address.segments (Choice.resultPath n)).reverse = [toString n, "then", Choice.rootPath] := by
    rw [segments_resultPath]
    rfl
  unfold Address.role?
  rw [reversed]
  split
  · rename_i same
    exact absurd (List.cons.inj same).1 other
  · rename_i same
    obtain ⟨rfl, -⟩ := List.cons.inj same
    rw [if_pos (Address.isNumber_toString n)]
  · rename_i unmatched
    exact absurd rfl (unmatched _ _)

/-- The results of branches are numbered from one on. -/
theorem positional_result {n : Nat} (h : n < 10 ^ Text.maxDigits) (kind : Kind) :
    positional (Choice.resultPath n) kind = .ok s!"Result {n + 1}" := by
  have last : (Address.segments (Choice.resultPath n)).getLast? = some (toString n) := by
    rw [segments_resultPath]
    rfl
  simp only [positional, role?_resultPath, Address.position_of_last last h]
  rfl

end Label

end RuleEditor
