import RuleEditor.Proofs.Session.Pending

/-!
# Taking up rules

A session takes up another rule when a new one is started, when one is loaded, and when a call goes on that has
opened one or has restored a version of one. The session counts these turns; as long as there are none, it stays
with its rule.
-/
namespace RuleEditor

open Session Editing

/-- What stays of a document as long as it is the same rule: all but its definition and what the store gives it. -/
def Document.heading (d : Document) : Document := { d with definition := .absent, uuid := .null, version := .null }

namespace Session

variable {sc : Scope} {s s' : Session}

def heading (s : Session) : Option Document := s.document.map Document.heading

/-- A session that takes up no other rule stays with its rule. -/
theorem Move.stays (hn : ¬ sc.may .takeUp) (move : Move sc s s') : s'.epoch = s.epoch ∧ s'.heading = s.heading := by
  have committed {mark : Mark} {t : Session} {d : Document} (aside : Aside mark s t) (opened : s.document = some d)
      (tree : Node) : (t.committed d tree).epoch = s.epoch ∧ (t.committed d tree).heading = s.heading := by
    refine ⟨aside.epoch, ?_⟩
    rw [heading, heading, opened]
    rfl
  cases move with
  | aside aside => exact ⟨aside.epoch, congrArg (Option.map Document.heading) aside.document⟩
  | remember => exact ⟨rfl, rfl⟩
  | place aside _ opened => exact committed aside opened _
  | recast aside opened => exact committed aside opened _
  | choose aside _ _ opened => exact committed aside opened _
  | recheck aside opened => exact committed aside opened _
  | store aside opened =>
      refine ⟨aside.epoch, ?_⟩
      rw [heading, heading, opened]
      rfl
  | restart may | create _ may | load _ may => exact absurd may hn

theorem Moves.stays (hn : ¬ sc.may .takeUp) (moves : Moves sc s s') :
    s'.epoch = s.epoch ∧ s'.heading = s.heading := by
  induction moves with
  | refl => exact ⟨rfl, rfl⟩
  | tail _ move ih =>
      obtain ⟨epoch, heading⟩ := move.stays hn
      exact ⟨epoch.trans ih.1, heading.trans ih.2⟩

theorem newRule_later (form type ruleType id description : Value) :
    Ends (newRule form type ruleType id description) s (fun _ s' => s.epoch < s'.epoch)
      (fun _ s' => s.epoch < s'.epoch) := by
  have moves : Ends (newRule form type ruleType id description) s (fun _ s' => Moves .any s s' ∧ s.epoch < s'.epoch)
      (fun _ s' => Moves .any s s' ∧ s.epoch < s'.epoch) :=
    newRule_moves trivial form type ruleType id description fun _ _ => trivial
  exact moves.mono (fun _ _ => And.right) fun _ _ => And.right

theorem loadRule_later (d : Document) :
    Ends (loadRule d) s (fun _ s' => s.epoch < s'.epoch) (fun _ s' => s.epoch < s'.epoch) := by
  have given : Scope.any.given d.definition := trivial
  exact (loadRule_moves trivial given trivial).mono (fun _ _ done => done.2.1) fun _ _ done => done.2.1

theorem taken_of_loadRule {α : Type} (d : Document) {next : Unit → Editing α} (hn : ¬ sc.may .takeUp)
    (hg : ∀ s', Ends (next ()) s' (fun _ => Moves sc s') (fun _ => Moves sc s')) :
    Ends (loadRule d >>= next) s (fun _ s' => s.epoch < s'.epoch ∧ s'.heading = some d.heading)
      (fun _ s' => s.epoch < s'.epoch ∧ s'.heading = some d.heading) := by
  have given : Scope.any.given d.definition := trivial
  have taken {s' : Session} (opened : s'.document = some d) : s'.heading = some d.heading :=
    congrArg (Option.map Document.heading) opened
  refine ends_bind ((loadRule_moves trivial given trivial).mono (fun _ s' done => ?_)
    fun _ _ done => ⟨done.2.1, taken done.2.2.1⟩)
  obtain ⟨-, later, opened⟩ := done
  have same := taken opened
  have after {s'' : Session} (moves : Moves sc s' s'') : s.epoch < s''.epoch ∧ s''.heading = some d.heading := by
    obtain ⟨epoch, heading⟩ := moves.stays hn
    exact ⟨epoch ▸ later, heading.trans same⟩
  exact (hg s').mono (fun _ _ => after) fun _ _ => after

/-- The moves of a session that stays with its rule. -/
def staying : Scope := { Scope.any with may := fun deed => deed ≠ .takeUp }

theorem not_may_staying : ¬ staying.may .takeUp := fun differ => differ rfl

theorem loaded_taken (d : Document) :
    Ends (loaded .opening (.ok d)) s (fun _ s' => s.epoch < s'.epoch ∧ s'.heading = some d.heading)
      (fun _ s' => s.epoch < s'.epoch ∧ s'.heading = some d.heading) := by
  refine taken_of_loadRule d not_may_staying fun s' => ?_
  have refreshes : Runs staying (refresh true) s' (·.Rests staying) :=
    refresh_runs (fun _ _ _ _ _ => trivial) (fun _ _ _ _ => trivial) true
  exact refreshes.mono (fun _ _ => And.left) fun _ _ moves => moves

theorem reread_taken (saved : Saved) (d : Document) :
    Ends (reread saved (.ok d)) s (fun _ s' => s.epoch < s'.epoch ∧ s'.heading = some d.heading)
      (fun _ s' => s.epoch < s'.epoch ∧ s'.heading = some d.heading) :=
  taken_of_loadRule d not_may_staying fun _ => ends_pure .refl

end Session

theorem Progress.does_takeUp {p : Progress} {a : Answer} (does : p.Does a .takeUp) :
    ∃ d, a = .rule (.ok d) ∧
      ((∃ uuid version, p = .loading uuid version .opening) ∨
        ∃ uuid version saved, p = .reading uuid version saved) := by
  unfold Does at does
  split at does
  · exact ⟨_, rfl, .inl ⟨_, _, rfl⟩⟩
  · exact ⟨_, rfl, .inr ⟨_, _, _, rfl⟩⟩
  · rename_i other
    cases other
  · cases does

namespace Conversation

variable {c : Conversation} {turn : Turn} {turns : List Turn}

/-- The session takes up another rule with the turn. -/
def TakesUp (c : Conversation) (turn : Turn) : Prop := c.Does turn .takeUp

/-- The session takes up another rule with one of the turns. -/
def TakesUpAmong (c : Conversation) (turns : List Turn) : Prop :=
  ∃ sofar turn, sofar ++ [turn] <+: turns ∧ (c.run sofar).TakesUp turn

theorem taken_of_answer {call : Nat} {a : Answer} (h : c.TakesUp (.answer call a)) :
    ∃ d, a = .rule (.ok d) ∧ c.session.epoch < (c.next (.answer call a)).session.epoch ∧
      (c.next (.answer call a)).session.heading = some d.heading := by
  obtain ⟨p, waits, does⟩ := h
  have ran {d : Document} {op : Editing Progress} (resumed : p.resume a = some op)
      (taken : Ends op c.session
        (fun _ s' => c.session.epoch < s'.epoch ∧ s'.heading = some d.heading)
        (fun _ s' => c.session.epoch < s'.epoch ∧ s'.heading = some d.heading)) :
      c.session.epoch < (c.next (.answer call a)).session.epoch ∧
        (c.next (.answer call a)).session.heading = some d.heading := by
    unfold next take
    simp only [waits, Option.bind_some, resumed]
    rw [proceed_session]
    exact taken.after
  obtain ⟨d, rfl, ⟨uuid, version, rfl⟩ | ⟨uuid, version, saved, rfl⟩⟩ := p.does_takeUp does
  · exact ⟨d, rfl, ran rfl (loaded_taken d)⟩
  · exact ⟨d, rfl, ran rfl (reread_taken saved d)⟩

theorem later_of_takesUp (h : c.TakesUp turn) : c.session.epoch < (c.next turn).session.epoch := by
  cases turn with
  | edit e =>
      cases e with
      | newRule form type ruleType id description => exact (newRule_later form type ruleType id description).after
      | loadRule d => exact (loadRule_later d).after
      | _ => cases h
  | query q => cases h
  | start errand => cases h
  | answer call a =>
      obtain ⟨_, -, later, -⟩ := taken_of_answer h
      exact later

/-- The moves of a turn do no more than the turn does. -/
theorem moves_doing (c : Conversation) (turn : Turn) :
    Moves { Scope.any with may := c.Does turn } c.session (c.next turn).session := by
  have opens : Scope.Open { Scope.any with may := c.Does turn } :=
    ⟨fun _ => trivial, fun _ => trivial, fun _ _ _ => trivial⟩
  exact opens.next_moves (fun _ _ _ _ => trivial) (fun _ _ => trivial) (fun _ _ => trivial)
    (fun _ _ _ _ _ _ _ _ _ => trivial) (fun _ _ _ _ _ _ _ _ _ => trivial) (fun _ does => does) fun _ _ => trivial

theorem stays_next (h : ¬ c.TakesUp turn) :
    (c.next turn).session.epoch = c.session.epoch ∧ (c.next turn).session.heading = c.session.heading :=
  (moves_doing c turn).stays h

theorem takesUpAmong_cons :
    c.TakesUpAmong (turn :: turns) ↔ c.TakesUp turn ∨ (c.next turn).TakesUpAmong turns := by
  constructor
  · rintro ⟨sofar, other, within, takes⟩
    cases sofar with
    | nil =>
        cases (List.cons_prefix_cons.mp within).1
        exact .inl takes
    | cons first sofar =>
        obtain ⟨same, inside⟩ := List.cons_prefix_cons.mp within
        subst same
        exact .inr ⟨sofar, other, inside, takes⟩
  · rintro (takes | ⟨sofar, other, within, takes⟩)
    · exact ⟨[], turn, ⟨turns, rfl⟩, takes⟩
    · exact ⟨turn :: sofar, other, List.cons_prefix_cons.mpr ⟨rfl, within⟩, takes⟩

/-- The session stays with its rule exactly as long as it takes up no other one. -/
theorem epoch_run_eq_iff : (c.run turns).session.epoch = c.session.epoch ↔ ¬ c.TakesUpAmong turns := by
  induction turns generalizing c with
  | nil =>
      refine ⟨fun _ => ?_, fun _ => rfl⟩
      rintro ⟨sofar, turn, within, -⟩
      simpa using within.length_le
  | cons turn rest ih =>
      rw [takesUpAmong_cons, not_or, ← ih]
      have grows := (wanes_run (c.next turn) rest).epoch
      constructor
      · intro same
        have never : ¬ c.TakesUp turn := by
          intro takes
          have later := later_of_takesUp takes
          have : (c.run (turn :: rest)).session.epoch = ((c.next turn).run rest).session.epoch := rfl
          omega
        exact ⟨never, same.trans (stays_next never).1.symm⟩
      · rintro ⟨never, same⟩
        exact same.trans (stays_next never).1

theorem heading_run (h : ¬ c.TakesUpAmong turns) : (c.run turns).session.heading = c.session.heading := by
  induction turns generalizing c with
  | nil => rfl
  | cons turn rest ih =>
      rw [takesUpAmong_cons, not_or] at h
      exact (ih h.2).trans (stays_next h.1).2

end Conversation

end RuleEditor
