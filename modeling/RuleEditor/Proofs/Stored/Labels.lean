import RuleEditor.Proofs.Edit.ResultLabels
import RuleEditor.Proofs.Stored.Canonical
import RuleEditor.Proofs.Stored.ReadBack

/-!
# Labels of results in storage

Of the label of a result only the text that is shown is stored. From that text a reader tells whether the label was
typed, and shows the same text again. There is one exception: a typed text that is the positional label of its place is
taken for that label, and a rule that is selected there shows through.
-/
namespace RuleEditor

/-- The values are the same, or the same data. -/
def Value.Matches (a b : Value) : Prop := a = b ∨ a.same b = true

namespace ResultLabel

/-- The positional label of the place was typed over a rule with another identifier. -/
def Mistakable (path : String) (result : Node) (l : ResultLabel) : Prop :=
  ∃ default target, Label.positional path .expression = .ok default ∧ l.source = .typed ∧ l.text = .text default ∧
    result.selected? = some target ∧ target.id ≠ .text default

end ResultLabel

namespace Stored

open Node

variable {path default : String} {result result' : Node} {l l' : ResultLabel} {name : Value}

theorem selected?_bare (node : Node) : node.bare.selected? = node.selected?.map Reference.bare := by
  cases node with
  | reference target =>
      have same : target.bare.isResolved = target.isResolved := rfl
      simp only [bare, selected?, same]
      split <;> rfl
  | _ => rfl

/-- A result that has come back selects a rule of the same identifier. -/
theorem selected_id (h : result'.bare = result.bare) :
    result'.selected?.map (·.id) = result.selected?.map (·.id) := by
  have selected := congrArg (fun node : Node => node.selected?.map (·.id)) h
  simp only [selected?_bare, Option.map_map] at selected
  exact selected

theorem same_text_iff {v : Value} {s : String} : v.same (.text s) = true ↔ v = .text s := by
  cases v with
  | text t => simp [Value.same]
  | _ => simp [Value.same, Value.sameAsNumber, Value.number?]

theorem text_matches_iff {v : Value} {s : String} : (Value.text s).Matches v ↔ v = .text s := by
  cases v with
  | text t =>
      simp only [Value.Matches, Value.same, beq_iff_eq, Value.text.injEq, or_self]
      exact eq_comm
  | _ => simp [Value.Matches, Value.same]

/-- What is shown for a result is either the text that was typed, or else the identifier of its rule or the positional
label. -/
theorem shown_cases (hp : Label.positional path .expression = .ok default)
    (hs : l.shown path result = .ok name) :
    (l.source = .typed ∧ l.text = name ∧ name.isPresent = true) ∨
      (∃ target, result.selected? = some target ∧ target.id = name ∧ name.isPresent = true) ∨
      (result.selected? = none ∧ name = .text default) := by
  unfold ResultLabel.shown at hs
  split at hs
  · rename_i typed
    cases hs
    exact .inl ⟨typed.1, rfl, typed.2⟩
  · split at hs
    · rename_i target selected
      cases hs
      have resolved := resolved_of_selected selected
      simp only [Reference.isResolved, Bool.and_eq_true] at resolved
      exact .inr (.inl ⟨target, selected, rfl, resolved.1⟩)
    · rename_i none
      rw [hp] at hs
      cases hs
      exact .inr (.inr ⟨none, rfl⟩)

/-- A name other than the positional label is shown again. -/
theorem shown_of_other (hp : Label.positional path .expression = .ok default) (hr : name.isPresent = true)
    (ho : name ≠ .text default) (he : label path name result' = .ok l') :
    ∃ name', l'.shown path result' = .ok name' ∧ name.Matches name' := by
  have unlike : name.same (.text default) = false := by
    rw [← Bool.not_eq_true, same_text_iff]
    exact ho
  simp only [label, hp, ok_bind, isMissing_of_present hr, unlike, Bool.false_eq_true, or_self, if_false,
    pure_eq_ok] at he
  split at he
  · rename_i target selected
    split at he
    · rename_i same
      cases he
      exact ⟨target.id, shown_of_selected nofun selected, .inr same⟩
    · cases he
      exact ⟨name, shown_of_typed rfl hr, .inl rfl⟩
  · cases he
    exact ⟨name, shown_of_typed rfl hr, .inl rfl⟩

/-- Under the name of its place a result comes back without a label of its own. -/
theorem label_of_positional (hp : Label.positional path .expression = .ok default)
    (hr : label path (.text default) result' = .ok l') : l' = .positional := by
  simp only [label, hp, ok_bind, same_text_iff, or_true, if_true, pure_eq_ok, Except.ok.injEq] at hr
  exact hr.symm

/-- A result without a label of its own shows its rule when it has come back. -/
theorem shown_of_target {target : Reference} (hb : result'.bare = result.bare)
    (hs : result.selected? = some target) :
    ResultLabel.positional.shown path result' = .ok target.id := by
  have ids := selected_id hb
  rw [hs, Option.map_some, Option.map_eq_some_iff] at ids
  obtain ⟨target', selected', id⟩ := ids
  rw [← id]
  exact shown_of_selected nofun selected'

theorem mistakable_iff (h : Label.positional path .expression = .ok default) :
    l.Mistakable path result ↔ l.source = .typed ∧ l.text = .text default ∧
      ∃ target, result.selected? = some target ∧ target.id ≠ .text default := by
  constructor
  · rintro ⟨default', target, positional', typed, text, selected, differs⟩
    cases h.symm.trans positional'
    exact ⟨typed, text, target, selected, differs⟩
  · rintro ⟨typed, text, target, selected, differs⟩
    exact ⟨default, target, h, typed, text, selected, differs⟩

/-- Where the positional label is shown, it is mistaken if there is a rule with another identifier. -/
theorem mistakable_of_shown (hp : Label.positional path .expression = .ok default)
    (hs : l.shown path result = .ok (.text default)) :
    l.Mistakable path result ↔ ∃ target, result.selected? = some target ∧ target.id ≠ .text default := by
  rw [mistakable_iff hp]
  refine ⟨fun mistakable => mistakable.2.2, fun ⟨target, selected, differs⟩ => ?_⟩
  rcases shown_cases hp hs with ⟨typed, text, -⟩ | ⟨target', selected', id, -⟩ | ⟨none, -⟩
  · exact ⟨typed, text, target, selected, differs⟩
  · cases selected.symm.trans selected'
    exact absurd id differs
  · cases selected.symm.trans none

/-- Where something else is shown, there is no positional label that was typed. -/
theorem not_mistakable (hp : Label.positional path .expression = .ok default)
    (hs : l.shown path result = .ok name) (ho : name ≠ .text default) : ¬ l.Mistakable path result := by
  rw [mistakable_iff hp]
  rintro ⟨typed, text, -⟩
  have present : (Value.text default).isPresent = true :=
    positional_present (map_eq_ok.mpr ⟨default, hp, rfl⟩)
  have stands : l.shown path result = .ok l.text := shown_of_typed typed (text ▸ present)
  rw [hs, text] at stands
  exact ho (Except.ok.inj stands)

/-- A name that is shown is not missing, except perhaps a positional label. -/
theorem present_of_shown (hp : Label.positional path .expression = .ok default)
    (hs : l.shown path result = .ok name) (ho : name ≠ .text default) : name.isPresent = true := by
  rcases shown_cases hp hs with ⟨-, -, present⟩ | ⟨-, -, -, present⟩ | ⟨-, is⟩
  · exact present
  · exact present
  · exact absurd is ho

/-- The label that is shown is the same again, unless it is one that is mistaken for the positional one. -/
theorem shown_again_iff (hp : Label.positional path .expression = .ok default)
    (returns : Returns path result result' l l') :
    ∃ name name', l.shown path result = .ok name ∧ l'.shown path result' = .ok name' ∧
      (name.Matches name' ↔ ¬ l.Mistakable path result) := by
  obtain ⟨bare, name, shown, read⟩ := returns
  by_cases same : name = .text default
  · subst same
    cases label_of_positional hp read
    rw [mistakable_of_shown hp shown]
    cases selected : result.selected? with
    | none =>
        have ids := selected_id bare
        rw [selected, Option.map_none, Option.map_eq_none_iff] at ids
        refine ⟨_, .text default, shown, shown_of_unselected nofun ids hp, iff_of_true (.inl rfl) ?_⟩
        rintro ⟨_, some, -⟩
        cases some
    | some target =>
        refine ⟨_, target.id, shown, shown_of_target bare selected, ?_⟩
        simp [text_matches_iff]
  · have present := present_of_shown hp shown same
    obtain ⟨name', again, alike⟩ := shown_of_other hp present same read
    exact ⟨name, name', shown, again, iff_of_true alike (not_mistakable hp shown same)⟩

theorem length_bareBranches (branches : List (Branch Node)) : (bareBranches branches).length = branches.length := by
  induction branches with
  | nil => rfl
  | cons b rest ih => simp only [bareBranches, List.length_cons, ih]

/-- The results of a choice come back in their places. -/
theorem readChoice_returns {c : Choice} (h : c.node.Seated Storable .choice) :
    ∃ v, writeChoice c = .ok v ∧ ∀ joining, ∃ c' : Choice, readChoice joining v = .ok c'.node ∧
      c'.branches.length = c.branches.length ∧
      ∀ slot result l, c.slot? slot = some (result, l) → ∃ result' l' default, c'.slot? slot = some (result', l') ∧
        Label.positional slot.path .expression = .ok default ∧ Returns slot.path result result' l l' := by
  obtain ⟨branches, otherwise, label⟩ := c
  have small : branches.length ≤ 10 ^ Text.maxDigits := h.here.small
  obtain ⟨v, written, reads⟩ := readChoice_recovers h
  refine ⟨v, written, fun joining => ?_⟩
  obtain ⟨backs, otherwise', label', read, same, returns, last⟩ := reads joining
  have length : backs.length = branches.length := by
    rw [← length_bareBranches, same, length_bareBranches]
  refine ⟨⟨backs, otherwise', label'⟩, read, length, fun slot result l found => ?_⟩
  cases slot with
  | branch i =>
      obtain ⟨b, here, is⟩ := Option.map_eq_some_iff.mp found
      cases is
      have inside : i < branches.length := (List.getElem?_eq_some_iff.mp here).1
      obtain ⟨b', back⟩ : ∃ b', backs[i]? = some b' := ⟨_, List.getElem?_eq_getElem (by rwa [length])⟩
      have numbered : i < 10 ^ Text.maxDigits := Nat.lt_of_lt_of_le inside small
      exact ⟨b'.result, b'.label, _, Option.map_eq_some_iff.mpr ⟨_, back, rfl⟩,
        Label.positional_result numbered .expression, returns i b b' here back⟩
  | otherwise =>
      cases found
      exact ⟨otherwise', label', _, rfl, rfl, last⟩

/-- A choice comes back with the labels that were shown, except where one of them is mistaken for a positional one. -/
theorem labels_kept_iff {c : Choice} (h : c.node.Seated Storable .choice) :
    ∃ v, writeChoice c = .ok v ∧ ∀ joining, ∃ c' : Choice, readChoice joining v = .ok c'.node ∧
      c'.branches.length = c.branches.length ∧
      ∀ slot result l, c.slot? slot = some (result, l) → ∃ name name', c.labelAt slot = .ok name ∧
        c'.labelAt slot = .ok name' ∧ (name.Matches name' ↔ ¬ l.Mistakable slot.path result) := by
  obtain ⟨v, written, reads⟩ := readChoice_returns h
  refine ⟨v, written, fun joining => ?_⟩
  obtain ⟨c', read, length, returns⟩ := reads joining
  refine ⟨c', read, length, fun slot result l found => ?_⟩
  obtain ⟨result', l', default, found', positional, returned⟩ := returns slot result l found
  obtain ⟨name, name', shown, again, kept⟩ := shown_again_iff positional returned
  exact ⟨name, name', (Choice.labelAt_eq found).trans shown, (Choice.labelAt_eq found').trans again, kept⟩

/-- Labels for the two results of a new choice, each of which selects a rule. -/
def titled (first last : String) : Choice where
  branches := Choice.premium.branches.map fun b =>
    { b with result := Choice.banded "AGE_BAND", label := ⟨.text first, .typed, true⟩ }
  otherwise := Choice.banded "FALLBACK"
  label := ⟨.text last, .typed, true⟩

theorem titled_storable (first last : String) : (titled first last).node.Seated Storable .choice := by
  have plain {node : Node} {seat : Seat} (admitted : node.Admitted seat) (keyed : node.Keyed)
      (proportioned : node.Proportioned) (few : node.numbered = 0) : Storable seat node :=
    ⟨⟨admitted, keyed⟩, proportioned, few ▸ Nat.zero_le _⟩
  have some : 1 ≤ 10 ^ Text.maxDigits := Nat.one_le_pow _ _ (by decide)
  refine seated_choice.mpr ⟨⟨⟨rfl, nofun⟩, trivial, some⟩, seated_reference.mpr (plain rfl nofun trivial rfl), ?_⟩
  refine List.forall_mem_singleton.mpr ⟨?_, seated_reference.mpr (plain rfl nofun trivial rfl)⟩
  refine seated_comparison.mpr ⟨plain rfl nofun trivial rfl, ?_, ?_⟩
  · exact seated_field.mpr (plain rfl nofun trivial rfl)
  · exact seated_literal.mpr (plain rfl nofun trivial rfl)

theorem positional_first : Label.positional (ResultSlot.branch 0).path .expression = .ok "Result 1" := rfl

theorem titled_kept :
    (titled "High" "Default").node.Seated Storable .choice ∧ ∃ v, ∃ c' : Choice,
      writeChoice (titled "High" "Default") = .ok v ∧ readChoice none v = .ok c'.node ∧
      (∃ name, c'.labelAt (.branch 0) = .ok name ∧ (Value.text "High").Matches name) ∧
      ∃ name, c'.labelAt .otherwise = .ok name ∧ ¬ (Value.text "Default").Matches name := by
  have storable := titled_storable "High" "Default"
  obtain ⟨v, written, reads⟩ := labels_kept_iff storable
  obtain ⟨c', read, -, labels⟩ := reads none
  obtain ⟨high, again, was, is, kept⟩ := labels (.branch 0) _ _ rfl
  obtain ⟨last, again', was', is', lost⟩ := labels .otherwise _ _ rfl
  refine ⟨storable, v, c', written, read, ⟨again, is, ?_⟩, again', is', ?_⟩
  · cases was
    refine kept.mpr ?_
    rw [mistakable_iff positional_first]
    rintro ⟨-, typed, -⟩
    exact absurd (Value.text.inj typed) (by decide)
  · cases was'
    have other : Value.text "FALLBACK" ≠ .text "Default" := fun same => absurd (Value.text.inj same) (by decide)
    exact fun same => lost.mp same ⟨"Default", _, rfl, rfl, rfl, rfl, other⟩

/-- The label "Result 1" that is typed over a rule is not there any more once the choice has been read. -/
theorem positional_label_lost : ∃ c₁ c₂ c' : Choice, ∃ v,
    Choice.premium.fillAll [(.branch 0, Choice.banded "AGE_BAND"), (.otherwise, Choice.banded "FALLBACK")] = .ok c₁ ∧
      c₁.caption (.branch 0) (.text "Result 1") = .ok c₂ ∧
      c₂.caption .otherwise (.text "High") = .ok (titled "Result 1" "High") ∧
      (titled "Result 1" "High").labelAt (.branch 0) = .ok (.text "Result 1") ∧
      writeChoice (titled "Result 1" "High") = .ok v ∧ readChoice none v = .ok c'.node ∧
      c'.labelAt (.branch 0) = .ok (.text "AGE_BAND") := by
  obtain ⟨v, written, reads⟩ := readChoice_returns (titled_storable "Result 1" "High")
  obtain ⟨c', read, -, returns⟩ := reads none
  obtain ⟨result', l', default, found, -, bare, name, shown, back⟩ := returns (.branch 0) _ _ rfl
  cases shown
  cases label_of_positional positional_first back
  refine ⟨_, _, c', v, rfl, rfl, rfl, rfl, written, read, ?_⟩
  exact (Choice.labelAt_eq found).trans (shown_of_target bare rfl)

end Stored

end RuleEditor
