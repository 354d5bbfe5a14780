import RuleEditor.Proofs.Address.Canonical
import RuleEditor.Proofs.Address.Numbered

/-!
# Positions below a path

Whether a path leads below another one is told from the texts alone: the text of the lower path goes on with a dash
after the text of the upper one. Segments follow each other without marks, so that a text may stop between a word and
its number. In canonical paths it does so only after the word for the right side of a comparison, which stands on its own
too; the operands that are numbered there are below the right side as a whole.
-/
namespace RuleEditor.Address

variable {root root' path key : String} {p q way below : List Step} {i k : Nat}

/-- The second position is the first one or below it: it is reached by further steps, or it is at or below one of several
operands on the right side that the first path leads to as a whole. -/
def Under (p q : List Step) : Prop :=
  p <+: q ∨ ∃ above i beyond, p = above ++ [.right] ∧ q = above ++ .rightItem i :: beyond

theorem Under.cons (step : Step) (h : Under p q) : Under (step :: p) (step :: q) := by
  rcases h with start | ⟨above, i, beyond, rfl, rfl⟩
  · exact .inl (List.cons_prefix_cons.mpr ⟨rfl, start⟩)
  · exact .inr ⟨step :: above, i, beyond, rfl, rfl⟩

/-- A child of a group is under another child if it is the same one. -/
theorem under_child_iff : Under (way ++ [.child i]) (way ++ .child k :: below) ↔ i = k := by
  constructor
  · rintro (start | ⟨above, j, beyond, last, -⟩)
    · rw [List.prefix_append_right_inj] at start
      exact Step.child.inj (List.cons_prefix_cons.mp start).1
    · cases (List.append_inj' last rfl).2
  · rintro rfl
    exact .inl ⟨below, by rw [List.append_assoc]; rfl⟩

/-! ### Texts -/

/-- Covering is told from the texts. -/
theorem covers_iff : covers path key = true ↔ key = path ∨ (path ++ "-").toList <+: key.toList := by
  rw [covers, Bool.or_eq_true, beq_iff_eq, List.isPrefixOf_iff_prefix, String.toList_append]
  rfl

/-- What a path covers begins with its segments. -/
theorem segments_of_covers (h : covers path key = true) : segments path <+: segments key := by
  rcases Bool.or_eq_true_iff.mp h with same | start
  · exact beq_iff_eq.mp same ▸ List.prefix_rfl
  · obtain ⟨rest, text⟩ := List.isPrefixOf_iff_prefix.mp start
    have cut : key.toList = path.toList ++ '-' :: rest := by
      rw [← text, List.append_assoc]
      rfl
    rw [segments, segments, cut, Text.pieces_append_separator, List.filter_append, List.map_append]
    exact List.prefix_append _ _

/-! ### Segments -/

/-- No steps begin with a number. -/
theorem not_number_prefix {rest : List String} : ¬ toString i :: rest <+: p.flatMap Step.segments := by
  rintro ⟨tail, same⟩
  have word : isNumber (toString i) = false := not_isNumber_head (congrArg List.head? same.symm)
  rw [isNumber_toString] at word
  cases word

/-- Only no steps at all go on with a number. -/
theorem eq_nil_of_prefix {rest : List String} (h : p.flatMap Step.segments <+: toString i :: rest) : p = [] := by
  cases p with
  | nil => rfl
  | cons next beyond =>
      obtain ⟨tail, same⟩ := h
      have first := congrArg List.head? same
      rw [List.flatMap_cons, List.append_assoc, head?_segments, List.head?_cons, Option.some.injEq] at first
      have word := not_isNumber_word next
      rw [first, isNumber_toString] at word
      cases word

/-- Where the segments of a first step begin others, the two first steps are the same, or the word for the right side is
followed by a number in one of them alone. -/
theorem first_of_prefix {s s' : Step} {rest rest' : List String} (h : s.segments ++ rest <+: s'.segments ++ rest') :
    (s' = s ∧ rest <+: rest') ∨ (s = .right ∧ ∃ i : Nat, s' = .rightItem i ∧ rest <+: toString i :: rest') ∨
      ∃ i : Nat, toString i :: rest <+: rest' := by
  cases s <;> cases s' <;>
    simp only [Step.segments, Step.index?, Step.word, List.cons_append, List.nil_append, List.cons_prefix_cons,
      String.reduceEq, false_and, true_and] at h
  case right.rightItem i => exact .inr (.inl ⟨rfl, i, rfl, h⟩)
  case rightItem.right i => exact .inr (.inr ⟨i, h⟩)
  case otherwise.otherwise | left.left | right.right => exact .inl ⟨rfl, h⟩
  all_goals exact .inl ⟨by rw [toString_inj h.1], h.2⟩

/-- Segments begin with those of the positions above. -/
theorem under_of_segments (h : p.flatMap Step.segments <+: q.flatMap Step.segments) : Under p q := by
  induction p generalizing q with
  | nil => exact .inl List.nil_prefix
  | cons step rest ih =>
      cases q with
      | nil =>
          have first := head?_segments step (rest.flatMap Step.segments)
          rw [← List.flatMap_cons, List.prefix_nil.mp h] at first
          cases first
      | cons step' rest' =>
          rw [List.flatMap_cons, List.flatMap_cons] at h
          rcases first_of_prefix h with ⟨rfl, further⟩ | ⟨rfl, i, rfl, further⟩ | ⟨i, further⟩
          · exact (ih further).cons _
          · -- the upper path ends in the word that the lower one numbers
            cases eq_nil_of_prefix further
            exact .inr ⟨[], i, rest', rfl, rfl⟩
          · exact absurd further not_number_prefix

/-! ### Canonical paths -/

/-- A canonical path covers the canonical paths of the positions under it, and no others. -/
theorem covers_render_iff (h : IsRoot root) (h' : IsRoot root') :
    covers (render root p) (render root' q) = true ↔ root' = root ∧ Under p q := by
  constructor
  · intro covered
    have start := segments_of_covers covered
    rw [segments_render h, segments_render h'] at start
    obtain ⟨same, start⟩ := List.cons_prefix_cons.mp start
    exact ⟨same.symm, under_of_segments start⟩
  · rintro ⟨rfl, ⟨more, rfl⟩ | ⟨above, i, beyond, rfl, rfl⟩⟩
    · exact covers_render h p more
    · exact covers_render_right h above i beyond

end RuleEditor.Address
