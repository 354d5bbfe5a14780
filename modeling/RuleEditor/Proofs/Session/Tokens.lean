import RuleEditor.Proofs.Session.Parallel
import RuleEditor.Proofs.Session.Pending
import RuleEditor.Proofs.Session.Persistent

/-!
# Tokens in the course of a session

Whatever is done in a session, its tokens change step by step, in one of four ways: those at a path and below it are made
stale, a path is given a new one, all are put away with the rule, or all stay. The values are counted up throughout, so a
value beyond the last one that was given has not been the token of any path before.
-/
namespace RuleEditor

open Relation (ReflTransGen)

namespace Session

/-- One change of a session as far as its tokens go. -/
inductive Tick (s : Session) : Session → Prop where
  | invalidated (path : String) : Tick s (s.invalidated path)
  | issued (path : String) : Tick s (s.issued path)
  | emptied {s' : Session} : s'.tokens = [] → s'.generation = s.generation → Tick s s'
  | aside {s' : Session} : s'.tokens = s.tokens → s'.generation = s.generation → Tick s s'

/-- The session comes to be the later one by changes that follow each other. -/
abbrev Later : Session → Session → Prop := ReflTransGen Tick

/-- In the session that has begun with the first one and come to the second one, no path has had the token so far. -/
def Unused (start s : Session) (token : Nat) : Prop :=
  ∀ earlier, Later start earlier → Later earlier s → ∀ key, earlier.tokens.get? key ≠ some token

variable {s s' start : Session} {path key : String} {tokens : Members Nat} {generation token : Nat}

/-! ### Values are counted up -/

theorem Tick.generation_le (tick : Tick s s') : s.generation ≤ s'.generation := by
  cases tick with
  | invalidated path => exact (staled_spec path s.generation s.tokens).1
  | issued => exact Nat.le_succ _
  | emptied _ same | aside _ same => exact Nat.le_of_eq same.symm

theorem Tick.booked (booked : s.Booked) (tick : Tick s s') : s'.Booked := by
  cases tick with
  | invalidated path => exact booked.invalidated path
  | issued path => exact booked.issued path
  | emptied none _ =>
      unfold Booked
      rw [none]
      nofun
  | aside same generation =>
      unfold Booked
      rw [same, generation]
      exact booked

theorem Later.generation_le (later : Later s s') : s.generation ≤ s'.generation := by
  induction later with
  | refl => exact Nat.le_refl _
  | tail _ tick ih => exact Nat.le_trans ih tick.generation_le

theorem Later.booked (booked : s.Booked) (later : Later s s') : s'.Booked := by
  induction later with
  | refl => exact booked
  | tail _ tick ih => exact tick.booked ih

/-- A value beyond those that have been given is unused. -/
theorem unused_of_lt (booked : start.Booked) (hb : s.generation < token) : Unused start s token := by
  intro earlier begun later key found
  have given := begun.booked booked _ (Members.mem_of_get? found)
  exact Nat.not_le_of_lt hb (Nat.le_trans given later.generation_le)

/-! ### Tokens that are made stale -/

/-- The paths that have tokens are the same as before. -/
theorem staled_get?_eq_none : (staled path generation tokens).1.get? key = none ↔ tokens.get? key = none := by
  induction tokens generalizing generation with
  | nil => rfl
  | cons m rest ih =>
      obtain ⟨name, token⟩ := m
      cases covered : Address.covers path name with
      | true =>
          rw [staled_covered covered, Members.get?, Members.get?]
          split
          · exact iff_of_false (Option.some_ne_none _) (Option.some_ne_none _)
          · exact ih
      | false =>
          rw [staled_missed covered, Members.get?, Members.get?]
          split
          · rfl
          · exact ih

/-- A token at the path or below it is given a value beyond those before. -/
theorem staled_beyond (hc : Address.covers path key = true)
    (hf : (staled path generation tokens).1.get? key = some token) : generation < token := by
  refine Nat.lt_of_not_le fun old => ?_
  have missed := ((staled_spec path generation tokens).2 key token hf old).2
  exact Bool.false_ne_true (missed.symm.trans hc)

/-- No two of them are given the same one. -/
theorem staled_apart {key' : String} (hc : Address.covers path key = true)
    (hc' : Address.covers path key' = true) (hf : (staled path generation tokens).1.get? key = some token)
    (hf' : (staled path generation tokens).1.get? key' = some token) : key = key' := by
  induction tokens generalizing generation with
  | nil => cases hf
  | cons m rest ih =>
      obtain ⟨name, value⟩ := m
      cases inside : Address.covers path name with
      | true =>
          rw [staled_covered inside, Members.get?] at hf hf'
          -- the first one is given the next value, and those behind it are given further ones
          split at hf <;> split at hf' <;> rename_i here here'
          · exact here.symm.trans here'
          · exact absurd (Option.some.inj hf) (Nat.ne_of_lt (staled_beyond hc' hf'))
          · exact absurd (Option.some.inj hf') (Nat.ne_of_lt (staled_beyond hc hf))
          · exact ih hf hf'
      | false =>
          have other {key : String} (hc : Address.covers path key = true) : name ≠ key :=
            fun same => Bool.false_ne_true (inside.symm.trans (same ▸ hc))
          rw [staled_missed inside, Members.get?] at hf hf'
          rw [if_neg (other hc)] at hf
          rw [if_neg (other hc')] at hf'
          exact ih hf hf'

end Session

/-! ### Operations -/

namespace Editing

open Session Labelling

instance : Persistent Later where
  refl _ := .refl
  trans := .trans
  aside same := .single (.aside same.tokens same.generation)
  invalidated path _ := .single (.invalidated path)
  issued path _ := .single (.issued path)

theorem later_labelled {α : Type} (edit : Labelling α) : Persists Later (labelled edit) := by
  intro s
  refine Ends.after (ends_labelled (fun _ _ _ => ?_) fun _ _ _ => ?_)
  · exact .single (.aside rfl rfl)
  · exact .single (.aside rfl rfl)

theorem later_reset (form : Option Form) (isNew : Bool) : Persists Later (reset form isNew) :=
  fun _ => .single (.emptied rfl rfl)

theorem later_newRule (form type ruleType id description : Value) :
    Persists Later (newRule form type ruleType id description) := by
  unfold newRule
  refine (later_reset _ _).bind fun _ => (persists_initial _ _).bind fun _ => (persists_lift _).bind fun _ => ?_
  exact persists_bind_modify (fun _ => ⟨rfl, rfl, rfl, rfl⟩) (persists_noteHere _)

theorem later_loadRule (d : Document) : Persists Later (loadRule d) := by
  unfold loadRule
  refine (later_reset _ _).bind fun _ => persists_bind_modify (fun _ => ⟨rfl, rfl, rfl, rfl⟩) ?_
  exact persists_refreshWarnings.bind fun _ => persists_noteHere _

end Editing

open Session Editing

/-! ### Turns -/

theorem Edit.later (e : Edit) : Persists Later e.perform := by
  by_cases plain : e.Plain
  · exact persists plain
  cases e with
  | newRule form type ruleType id description => exact later_newRule form type ruleType id description
  | loadRule d => exact later_loadRule d
  | addCondition | addConditionGroup =>
      exact (persists_node _).bind fun _ => (persists_lift _).bind fun _ => persists_get.bind fun _ =>
        (later_labelled _).bind fun _ => persists_put _ _
  | changeConditionKind =>
      exact (persists_invalidate _).bind fun _ => (persists_node _).bind fun _ => (persists_lift _).bind fun _ =>
        persists_get.bind fun _ => (later_labelled _).bind fun _ => persists_put _ _
  | addBranch =>
      exact persists_choice.bind fun _ => persists_get.bind fun _ => (later_labelled _).bind fun _ => persists_commit _
  | changeBranchKind =>
      exact (persists_invalidate _).bind fun _ => persists_choice.bind fun _ => (persists_lift _).bind fun _ =>
        persists_get.bind fun _ => (later_labelled _).bind fun _ => persists_commit _
  | _ => exact absurd trivial plain

theorem Progress.later {p : Progress} {a : Answer} {op : Editing Progress} (h : p.resume a = some op) :
    Persists Later op := by
  unfold Progress.resume at h
  split at h
  · rename_i next answer
    cases h
    cases next with
    | opening =>
        exact (persists_lift _).bind fun d => (later_loadRule d).bind fun _ => persists_refresh true
    | resolving path summary token epoch =>
        exact (persists_resolved path summary token epoch answer).bind fun _ => persists_pure _
    | refreshing r opening => exact persists_refreshed opening r answer
  · cases h
    exact persists_found _
  · cases h
    exact persists_written _ _
  · cases h
    exact (persists_lift _).bind fun d => (later_loadRule d).bind fun _ => persists_pure _
  · cases h

namespace Conversation

theorem later_next (c : Conversation) (turn : Turn) : Later c.session (c.next turn).session := by
  cases turn with
  | edit e => exact e.later c.session
  | query q => exact q.persists c.session
  | start errand =>
      rw [session_start]
      exact errand.persists c.session
  | answer call a =>
      unfold next take
      simp only
      split
      · rename_i op resumed
        obtain ⟨p, -, resumed⟩ := Option.bind_eq_some_iff.mp resumed
        rw [proceed_session]
        exact Progress.later resumed _
      · exact .refl

/-- Over a whole run the tokens change in the same ways. -/
theorem later_run (c : Conversation) (turns : List Turn) : Later c.session (c.run turns).session := by
  induction turns generalizing c with
  | nil => exact .refl
  | cons turn rest ih => exact (later_next c turn).trans (ih (c.next turn))

end Conversation

end RuleEditor
