import RuleEditor.Proofs.Session.Flags
import RuleEditor.Proofs.Session.Staleness
import RuleEditor.Proofs.Session.Tokens

/-!
# Tokens and flags below a path

Tokens and flags are kept under the texts of paths, and those of a position and of all that is below it are found by
their texts. For canonical paths that is right: no position below is missed, and none is hit beside it, such as a child
with a longer number that begins in the same way.
-/
namespace RuleEditor

open Address

/-! ### Tokens -/

namespace Session

variable {root root' : String} {p q : List Step} {start s : Session}

/-- Exactly the tokens at a position and below it are others, none of which has been in use since the start, and no two
of which are the same. Nothing else is changed in the session. -/
structure Renews (start : Session) (root : String) (p : List Step) (s s' : Session) : Prop where
  aside : s' = { s with tokens := s'.tokens, generation := s'.generation }
  absent : ∀ key, s.tokens.get? key = none → s'.tokens.get? key = none
  kept : ∀ root' q, IsRoot root' → ¬ (root' = root ∧ Under p q) →
    s'.tokens.get? (render root' q) = s.tokens.get? (render root' q)
  renewed : ∀ q token, Under p q → s.tokens.get? (render root q) = some token →
    ∃ new, s'.tokens.get? (render root q) = some new ∧ Unused start s new
  apart : ∀ q q' new, Under p q → Under p q' → s'.tokens.get? (render root q) = some new →
    s'.tokens.get? (render root q') = some new → q = q'

theorem booked_start (catalogue : Catalogue) (settings : Settings) (id : String) (connected : Bool) :
    (Session.start catalogue settings id connected).Booked := fun _ within => absurd within List.not_mem_nil

theorem covers_of_under (h : IsRoot root) (under : Under p q) : covers (render root p) (render root q) = true :=
  (covers_render_iff h h).mpr ⟨rfl, under⟩

theorem renews_invalidated (booked : start.Booked) (h : IsRoot root) (p : List Step) (s : Session) :
    Renews start root p s (s.invalidated (render root p)) where
  aside := rfl
  absent _ none := staled_get?_eq_none.mpr none
  kept root' q h' outside := by
    refine staled_get? (Bool.eq_false_iff.mpr fun covered => outside ?_) _ _
    exact (covers_render_iff h h').mp covered
  renewed q token under found := by
    cases after : (s.invalidated (render root p)).tokens.get? (render root q) with
    | none => exact absurd (found.symm.trans (staled_get?_eq_none.mp after)) nofun
    | some new => exact ⟨new, rfl, unused_of_lt booked (staled_beyond (covers_of_under h under) after)⟩
  apart q q' new under under' found found' :=
    render_inj h (staled_apart (covers_of_under h under) (covers_of_under h under') found found')

end Session

/-! ### Flags -/

namespace Expansion

/-- Exactly the flags at a position and below it are gone. -/
structure Forgets (root : String) (p : List Step) (e e' : Expansion) : Prop where
  aside : e' = { e with flags := e'.flags }
  dropped : ∀ q, Under p q → e'.flags.get? (render root q) = none
  kept : ∀ root' q, IsRoot root' → ¬ (root' = root ∧ Under p q) →
    e'.flags.get? (render root' q) = e.flags.get? (render root' q)

theorem forgets_forget {root : String} (h : IsRoot root) (p : List Step) (e : Expansion) :
    Forgets root p e (e.forget (render root p)) where
  aside := rfl
  dropped q under := by rw [get?_forget, if_pos ((covers_render_iff h h).mpr ⟨rfl, under⟩)]
  kept root' q h' outside := by
    rw [get?_forget, if_neg fun covered => outside ((covers_render_iff h h').mp covered)]

end Expansion

/-! ### Texts and positions -/

namespace Session

open Conversation

/-- The text of a canonical path is that of another one, or goes on after it with a dash, if and only if it leads to the
same position or below it. So whatever has been done in a session, making requests at a path stale gives new tokens,
which have not been in use before, to exactly that position and those below it, and forgetting a path takes exactly their
flags away. -/
theorem texts_tell_subtrees :
    (∀ root root' p q, IsRoot root → IsRoot root' →
      ((render root' q = render root p ∨ (render root p ++ "-").toList <+: (render root' q).toList) ↔
        root' = root ∧ Under p q)) ∧
    (∀ catalogue settings id connected,
      let start := Session.start catalogue settings id connected
      (∀ before after, Later ((opening start).run before).session ((opening start).run (before ++ after)).session) ∧
      ∀ s, Later start s → ∀ root p, IsRoot root →
        ∃ s', (invalidate (render root p)).run s = (.ok (), s') ∧ Renews start root p s s') ∧
    ∀ root p, IsRoot root → ∀ e : Expansion, e.Forgets root p (e.forget (render root p)) := by
  refine ⟨fun root root' p q h h' => ?_, fun catalogue settings id connected => ⟨fun before after => ?_, ?_⟩, ?_⟩
  · rw [← covers_iff]
    exact covers_render_iff h h'
  · rw [run_append]
    exact later_run _ _
  · intro s _ root p h
    have booked := booked_start catalogue settings id connected
    exact ⟨s.invalidated (render root p), rfl, renews_invalidated booked h p s⟩
  · intro root p h e
    exact e.forgets_forget h p

/-- Rules are requested for a condition, for one inside it, and for one with a longer number. -/
def requesting : List Turn :=
  ["root-condition-1", "root-condition-1-condition-0", "root-condition-10"].map fun path =>
    .start (.resolveReference path selected)

/-- The condition inside and the one with the longer number are collapsed. -/
def collapsed : Expansion :=
  ((Expansion.start (some .condition) true).set "root-condition-1-condition-0" false).set "root-condition-10" false

/-- The condition with the longer number keeps its token and its flag. -/
theorem texts_tell_subtrees_requesting :
    let s := ((opening served).run requesting).session
    let e := collapsed.forget "root-condition-1"
    IsRoot "root" ∧ Later served s ∧ Under [.child 1] [.child 1, .child 0] ∧ ¬ Under [.child 1] [.child 10] ∧
      (∃ s' new, (invalidate "root-condition-1").run s = (.ok (), s') ∧
        s.tokens.get? "root-condition-1-condition-0" = some 2 ∧
        s'.tokens.get? "root-condition-1-condition-0" = some new ∧ Unused served s new ∧
        s'.tokens.get? "root-condition-10" = some 3) ∧
      e.flags.get? "root-condition-1-condition-0" = none ∧ e.flags.get? "root-condition-10" = some false := by
  intro s e
  have root : IsRoot "root" := .inl rfl
  have inside : Under [.child 1] [.child 1, .child 0] := .inl (by decide)
  have outside : ¬ Under ([] ++ [.child 1]) ([] ++ [.child 10]) := mt under_child_iff.mp (by decide)
  obtain ⟨-, tokens, flags⟩ := texts_tell_subtrees
  obtain ⟨runs, renews⟩ := tokens served.catalogue served.settings "es" true
  have later : Later served s := runs [] requesting
  obtain ⟨s', invalidates, renewed⟩ := renews s later "root" [.child 1] root
  obtain ⟨new, found, unused⟩ := renewed.renewed [.child 1, .child 0] 2 inside (by rfl)
  have kept := renewed.kept "root" [.child 10] root fun within => outside within.2
  have forgets := flags "root" [.child 1] root collapsed
  refine ⟨root, later, inside, outside, ⟨s', new, invalidates, by rfl, found, unused, kept.trans (by rfl)⟩, ?_, ?_⟩
  · exact forgets.dropped [.child 1, .child 0] inside
  · exact forgets.kept "root" [.child 10] root fun within => outside within.2

end Session

end RuleEditor
