import RuleEditor.Proofs.Session.Counting
import RuleEditor.Proofs.Session.Pending
import Mathlib.Data.List.Induction

/-!
# Numbers that have been given out

Only edits give out numbers. Over a whole run the last number of a place is greater than none if and only if an edit
has labelled there since the rule that is open was taken up; whether the node that was labelled is still in the rule
makes no difference.
-/
namespace RuleEditor

open Session Editing

namespace Editing

variable {α : Type} {places : Places}

/-- A rule that has been loaded is taken up; if none has been, nothing changes. -/
theorem persists_or_renewing {answer : Except Fault Document} {f : Document → Editing α}
    (taken : ∀ d, Renewing (f d)) : Persists (Counts places) (liftM answer >>= f) ∨ Renewing (liftM answer >>= f) := by
  cases answer with
  | ok d => exact .inr (taken d)
  | error fault => exact .inl fun _ => .refl

end Editing

/-! ### All turns -/

variable {places : Places}

/-- A call that goes on with an answer gives out no number, and it takes up the rule that it has loaded for that. -/
theorem Progress.persists_or_renewing {p : Progress} {a : Answer} {op : Editing Progress} (h : p.resume a = some op) :
    Persists (Counts places) op ∨ Renewing op := by
  unfold Progress.resume at h
  split at h
  · rename_i next answer
    cases h
    cases next with
    | opening => exact Editing.persists_or_renewing fun d => (renewing_loadRule d).bind fun _ => persists_refresh true
    | resolving path summary token epoch =>
        exact .inl ((persists_resolved path summary token epoch answer).bind fun _ => persists_pure _)
    | refreshing r opening => exact .inl (persists_refreshed opening r answer)
  · cases h
    exact .inl (persists_found _)
  · cases h
    exact .inl (persists_written _ _)
  · cases h
    exact Editing.persists_or_renewing fun d => (renewing_loadRule d).bind fun _ => persists_pure _
  · cases h

namespace Conversation

variable {c : Conversation} {t : Turn} {turns : List Turn} {parent word : String}

/-- The turn is an edit that labels there. -/
def Numbers (c : Conversation) (t : Turn) : Places := fun parent word =>
  ∃ e, t = .edit e ∧ e.Numbers c.session parent word

/-- With each turn, numbers are given out where the turn labels, or another rule is taken up. -/
theorem next_counts (c : Conversation) (t : Turn) :
    Counts (c.Numbers t) c.session (c.next t).session ∨ Renewed c.session (c.next t).session := by
  cases t with
  | edit e =>
      by_cases takes : e.Does .takeUp
      · exact .inr (Edit.renewed takes c.session)
      · obtain ⟨epoch, gives⟩ := e.counts c.session takes
        exact .inl ⟨epoch, gives.mono fun parent word labels => ⟨e, rfl, labels⟩⟩
  | query q => exact .inl (q.persists c.session)
  | start errand =>
      show Counts _ _ (proceed _ _ _).1.session ∨ Renewed _ (proceed _ _ _).1.session
      rw [proceed_session]
      exact .inl (errand.persists _)
  | answer call a =>
      unfold next take
      simp only
      split
      · rename_i op resumed
        obtain ⟨p, -, resumed⟩ := Option.bind_eq_some_iff.mp resumed
        rw [proceed_session]
        exact (Progress.persists_or_renewing resumed).imp (fun persists => persists _) fun renewing => renewing _
      · exact .inl .refl

/-- The turn labels there, and it does give out a number. -/
structure GivesOut (c : Conversation) (t : Turn) (parent word : String) : Prop where
  numbers : c.Numbers t parent word
  further : c.session.numbering.last parent word < (c.next t).session.numbering.last parent word

/-- One of the turns has given out a number there since the rule that is open in the end was taken up. -/
def HasGivenOut (c : Conversation) (turns : List Turn) (parent word : String) : Prop :=
  ∃ before t rest, turns = before ++ t :: rest ∧
    (c.run before).session.epoch = (c.run turns).session.epoch ∧ (c.run before).GivesOut t parent word

theorem next_run (c : Conversation) (turns : List Turn) (t : Turn) : c.run (turns ++ [t]) = (c.run turns).next t :=
  run_append turns [t]

/-- What comes before a turn of a longer list is the whole shorter list, or the turn is in that. -/
theorem concat_eq_append_cons {before rest : List Turn} {u : Turn} (h : turns ++ [t] = before ++ u :: rest) :
    (before = turns ∧ u = t) ∨ ∃ rest', turns = before ++ u :: rest' := by
  rcases List.append_eq_append_iff.mp h with ⟨between, rfl, tail⟩ | ⟨between, rfl, tail⟩
  · cases between with
    | nil => exact .inl ⟨List.append_nil _, (List.cons.inj tail).1.symm⟩
    | cons _ _ => simp at tail
  · cases between with
    | nil => exact .inl ⟨(List.append_nil _).symm, (List.cons.inj tail).1⟩
    | cons v rest' =>
        obtain ⟨rfl, -⟩ := List.cons.inj tail
        exact .inr ⟨rest', rfl⟩

/-- While the rule stays open, one more turn may give out a number itself. -/
theorem hasGivenOut_concat (h : ((c.run turns).next t).session.epoch = (c.run turns).session.epoch) :
    c.HasGivenOut (turns ++ [t]) parent word ↔
      (c.run turns).GivesOut t parent word ∨ c.HasGivenOut turns parent word := by
  unfold HasGivenOut
  rw [next_run, h]
  constructor
  · rintro ⟨before, u, rest, split, epoch, gives⟩
    rcases concat_eq_append_cons split with ⟨rfl, rfl⟩ | ⟨rest', earlier⟩
    · exact .inl gives
    · exact .inr ⟨before, u, rest', earlier, epoch, gives⟩
  · rintro (gives | ⟨before, u, rest, rfl, epoch, gives⟩)
    · exact ⟨turns, t, [], rfl, rfl, gives⟩
    · exact ⟨before, u, rest ++ [t], by simp, epoch, gives⟩

/-- Where another rule is taken up, nothing has been given out yet. -/
theorem not_hasGivenOut_renewed (renewed : Renewed (c.run turns).session ((c.run turns).next t).session) :
    ¬ c.HasGivenOut (turns ++ [t]) parent word := by
  rintro ⟨before, u, rest, split, epoch, -⟩
  rw [next_run] at epoch
  have earlier : (c.run before).session.epoch ≤ (c.run turns).session.epoch := by
    rcases concat_eq_append_cons split with ⟨rfl, -⟩ | ⟨rest', rfl⟩
    · exact le_rfl
    · rw [run_append]
      exact (wanes_run _ _).epoch
  exact absurd renewed.epoch (by omega)

/-- The last number is greater than none if and only if one of the turns has given it out. -/
theorem last_pos_iff (h : c.session.numbering.last parent word = 0) (turns : List Turn) :
    0 < (c.run turns).session.numbering.last parent word ↔ c.HasGivenOut turns parent word := by
  induction turns using List.reverseRecOn with
  | nil =>
      constructor
      · intro some
        exact absurd h some.ne'
      · rintro ⟨before, t, rest, none, -⟩
        simp at none
  | append_singleton turns t ih =>
      rw [next_run]
      rcases (c.run turns).next_counts t with counts | renewed
      · rw [hasGivenOut_concat counts.epoch, ← ih]
        have kept := counts.gives.le parent word
        constructor
        · intro some
          by_cases labels : (c.run turns).Numbers t parent word
          · rcases kept.lt_or_eq with further | still
            · exact .inl ⟨labels, further⟩
            · exact .inr (still ▸ some)
          · exact .inr (counts.gives.other parent word labels ▸ some)
        · rintro (gives | earlier)
          · exact Nat.zero_lt_of_lt gives.further
          · exact Nat.lt_of_lt_of_le earlier kept
      · rw [renewed.fresh]
        exact ⟨fun some => absurd some (Nat.lt_irrefl 0), fun given => absurd given (not_hasGivenOut_renewed renewed)⟩

end Conversation

end RuleEditor
