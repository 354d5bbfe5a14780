import RuleEditor.Proofs.Session.Errands
import RuleEditor.Proofs.Session.Kept

/-!
# Calls that wait

A call waits under its number until it is answered, and no number is given twice. Only the selection of a rule
for a reference waits with a ticket, and no two tickets have the same token.
-/
namespace RuleEditor

open Session Editing

variable {s : Session}

theorem Progress.ticket?_eq_some {p : Progress} {t : Ticket} (h : p.ticket? = some t) :
    ∃ uuid version summary, p = .loading uuid version (.resolving t.path summary t.token t.epoch) := by
  unfold Progress.ticket? at h
  split at h
  · cases h
    exact ⟨_, _, _, rfl⟩
  · cases h

/-- Only the selection of a rule for a reference leaves a ticket. -/
theorem Errand.start_ticket (errand : Errand) :
    Ends errand.start s
      (fun p s' => ∀ t, p.ticket? = some t → (∃ summary, errand = .resolveReference t.path summary) ∧
        t.token = s.generation + 1 ∧ t.epoch = s.epoch ∧ s'.generation = s.generation + 1 ∧
        Aside (.only t.path) s s') (fun _ _ => True) := by
  have kept := Scope.Open.any.remembers s.memo
  have without {op : Editing Progress} (h : Runs .any op s (·.Rests .any)) :
      Ends op s (fun p s' => ∀ t, p.ticket? = some t → (∃ summary, errand = .resolveReference t.path summary) ∧
        t.token = s.generation + 1 ∧ t.epoch = s.epoch ∧ s'.generation = s.generation + 1 ∧
        Aside (.only t.path) s s') (fun _ _ => True) :=
    h.mono (fun p _ done t has => by rw [done.2.ticket] at has; cases has) fun _ _ _ => trivial
  cases errand with
  | openRule uuid version => exact without (openRule_runs uuid version)
  | searchReferences query => exact without (searchReferences_runs query)
  | resolveReference path summary =>
      refine (resolveReference_moves .any path summary).mono (fun p s' done t has => ?_) fun _ _ _ => trivial
      obtain ⟨aside, generation, ticket, -⟩ := done
      cases ticket.symm.trans has
      exact ⟨⟨summary, rfl⟩, rfl, rfl, generation, aside⟩
  | refreshReferences => exact without (refresh_runs kept (fun _ _ _ _ => trivial) false)
  | save => exact without save_runs
  | restore version => exact without (restore_runs version)

/-- The answer to a call with a ticket ends the call, and tells whether the rule was put in place. -/
theorem Progress.resume_ticket {p : Progress} {t : Ticket} {a : Answer} {op : Editing Progress}
    (has : p.ticket? = some t) (hr : p.resume a = some op) :
    Ends op s (fun q s' => ∃ applied, q = .finished (.resolved applied) ∧
      (applied = true → t.Current s ∧ s.HoldsReference t.path) ∧
      (applied = false → s'.document = s.document ∧ s'.warnings = s.warnings)) (fun _ _ => True) := by
  obtain ⟨uuid, version, summary, rfl⟩ := ticket?_eq_some has
  cases a with
  | rule answer =>
      cases hr
      unfold loaded
      have asked : Scope.any.asked t := trivial
      have selects : Selects .any summary answer :=
        fun _ _ => ⟨fun _ _ => ⟨trivial, fun _ _ _ _ => trivial⟩, fun _ _ => trivial⟩
      refine ends_bind ((resolved_moves asked (Scope.Open.any.remembers _) selects).mono (fun applied s' done => ?_)
        fun _ _ _ => trivial)
      exact ends_pure ⟨applied, rfl, done.2.1, done.2.2⟩
  | _ => cases hr

namespace Conversation

variable {c : Conversation} {turn : Turn} {turns : List Turn} {call n : Nat} {p : Progress} {t : Ticket}

/-! ### The calls that wait after a turn -/

theorem mem_proceed {op : Editing Progress} (h : (n, p) ∈ (proceed call op c).1.waiting) :
    (n, p) ∈ c.waiting ∨ (n = call ∧ (op.run c.session).1 = .ok p ∧ ∀ outcome, p ≠ .finished outcome) := by
  unfold proceed at h
  split at h
  · exact .inl h
  · rename_i q session unfinished run
    rcases List.mem_cons.mp h with same | h
    · cases same
      refine .inr ⟨rfl, congrArg Prod.fst run, ?_⟩
      rintro outcome rfl
      exact unfinished outcome rfl
    · exact .inl h
  · exact .inl h

/-- What waits after a turn waited before, goes on with an answer, or has just been started. -/
inductive Waits (c : Conversation) (n : Nat) (p : Progress) : Turn → Prop where
  | still {taken : Turn} : (n, p) ∈ c.waiting → Waits c n p taken
  | answered {a q op} : c.waiting.lookup n = some q → q.resume a = some op → (op.run c.session).1 = .ok p →
      (∀ outcome, p ≠ .finished outcome) → Waits c n p (.answer n a)
  | begun {errand} : n = c.started → (errand.start.run c.session).1 = .ok p → Waits c n p (.start errand)

theorem mem_of_lookup (h : c.waiting.lookup call = some p) : (call, p) ∈ c.waiting := by
  obtain ⟨before, after, same, -⟩ := List.lookup_eq_some_iff.mp h
  rw [same]
  exact List.mem_append_right _ List.mem_cons_self

theorem waits_of_mem (h : (n, p) ∈ (c.next turn).waiting) : Waits c n p turn := by
  cases turn with
  | edit e => exact .still h
  | query q => exact .still h
  | start errand =>
      rcases mem_proceed h with h | ⟨rfl, started, -⟩
      · exact .still h
      · exact .begun rfl started
  | answer call a =>
      unfold next take at h
      simp only at h
      split at h
      · rename_i op found
        obtain ⟨q, waits, resumed⟩ := Option.bind_eq_some_iff.mp found
        rcases mem_proceed h with h | ⟨rfl, ran, unfinished⟩
        · exact .still (List.mem_filter.mp h).1
        · exact .answered waits resumed ran unfinished
      · exact .still h

/-- Calls ask for what they go on with, after each turn that the scope allows. -/
theorem coherent_next {sc : Scope} (hk : c.session.memo.Remembers sc.found) (allowed : c.Allowed sc turn)
    (h : ∀ n p, (n, p) ∈ c.waiting → p.Coherent sc) : ∀ n p, (n, p) ∈ (c.next turn).waiting → p.Coherent sc := by
  intro n p waits
  cases waits_of_mem waits with
  | still waited => exact h n p waited
  | answered waited resumed ran =>
      exact ((Progress.resume_runs resumed hk (allowed _ _ waited resumed)).ok ran).2.coherent
  | begun _ ran => exact ((Errand.start_moves hk allowed).ok ran).2

/-- A call that is answered does not wait any longer under what it has waited with. -/
theorem not_mem_answered {a : Answer} {q : Progress} {op : Editing Progress} (hw : c.waiting.lookup call = some q)
    (hr : q.resume a = some op) (h : (call, p) ∈ (c.next (.answer call a)).waiting) :
    (op.run c.session).1 = .ok p ∧ ∀ outcome, p ≠ .finished outcome := by
  unfold next take at h
  simp only [hw, Option.bind_some, hr] at h
  rcases mem_proceed h with h | ⟨-, ran⟩
  · simp at h
  · exact ran

theorem session_answer {a : Answer} {op : Editing Progress} (hw : c.waiting.lookup call = some p)
    (hr : p.resume a = some op) : (c.next (.answer call a)).session = (op.run c.session).2 := by
  unfold next take
  simp only [hw, Option.bind_some, hr]
  exact proceed_session _ _ _

theorem session_unasked {a : Answer} (hw : c.waiting.lookup call = some p) (hu : p.resume a = none) :
    c.next (.answer call a) = c := by
  unfold next take
  simp only [hw, Option.bind_some, hu]

theorem lookup_filter_ne {ms : List (Nat × Progress)} {n : Nat} (h : n ≠ call) :
    (ms.filter (·.1 ≠ call)).lookup n = ms.lookup n := by
  induction ms with
  | nil => rfl
  | cons m rest ih =>
      obtain ⟨number, p⟩ := m
      by_cases same : number = call
      · subst same
        rw [List.filter_cons_of_neg (by simp), ih, List.lookup_cons, beq_eq_false_iff_ne.mpr h]
      · rw [List.filter_cons_of_pos (by simpa using same), List.lookup_cons, List.lookup_cons, ih]

theorem started_le (c : Conversation) (turn : Turn) : c.started ≤ (c.next turn).started := by
  have kept (call : Nat) (op : Editing Progress) (c : Conversation) : (proceed call op c).1.started = c.started := by
    unfold proceed
    split <;> rfl
  cases turn with
  | edit e => exact Nat.le_refl _
  | query q => exact Nat.le_refl _
  | start errand =>
      show c.started ≤ (proceed _ _ _).1.started
      rw [kept]
      exact Nat.le_succ _
  | answer call a =>
      unfold next take
      simp only
      split
      · rw [kept]
      · exact Nat.le_refl _

theorem started_next (errand : Errand) : (c.next (.start errand)).started = c.started + 1 := by
  unfold next take proceed
  simp only
  split <;> rfl

theorem session_start (errand : Errand) : (c.next (.start errand)).session = (errand.start.run c.session).2 :=
  proceed_session _ _ _

/-- Calls wait under numbers that were given out. -/
def Numbered (c : Conversation) : Prop := ∀ n p, (n, p) ∈ c.waiting → n < c.started

theorem numbered_opening (s : Session) : (opening s).Numbered := fun _ _ => nofun

theorem Numbered.next (h : c.Numbered) (turn : Turn) : (c.next turn).Numbered := by
  intro n p waits
  cases waits_of_mem waits with
  | still waited => exact Nat.lt_of_lt_of_le (h n p waited) (started_le c turn)
  | answered waited => exact Nat.lt_of_lt_of_le (h n _ (mem_of_lookup waited)) (started_le c _)
  | begun same =>
      rw [started_next, same]
      exact Nat.lt_succ_self _

theorem Numbered.run (h : c.Numbered) (turns : List Turn) : (c.run turns).Numbered := by
  induction turns generalizing c with
  | nil => exact h
  | cons turn rest ih => exact ih (h.next turn)

/-! ### Runs -/

/-- All paths that the turns name are spelled as those of the rule that is open then. -/
def Canonically : Conversation → List Turn → Prop
  | _, [] => True
  | c, turn :: rest => (∀ path ∈ turn.path?, c.session.Canonical path) ∧ Canonically (c.next turn) rest

theorem run_append (before after : List Turn) : c.run (before ++ after) = (c.run before).run after :=
  List.foldl_append

theorem canonically_append {before after : List Turn} :
    Canonically c (before ++ after) ↔ Canonically c before ∧ Canonically (c.run before) after := by
  induction before generalizing c with
  | nil => exact ⟨fun h => ⟨trivial, h⟩, And.right⟩
  | cons turn rest ih => exact (and_congr_right fun _ => ih).trans and_assoc.symm

/-- Whatever a turn is, it is made of moves. -/
theorem moves_next (c : Conversation) (turn : Turn) : Moves .any c.session (c.next turn).session :=
  Scope.Open.any.next_moves (fun _ _ _ _ => trivial) (fun _ _ => trivial) (fun _ _ => trivial)
    (fun _ _ _ _ _ _ _ _ _ => trivial) (fun _ _ _ _ _ _ _ _ _ => trivial) (fun _ _ => trivial) fun _ _ => trivial

theorem wanes_next (c : Conversation) (turn : Turn) : Wanes c.session (c.next turn).session :=
  (moves_next c turn).wanes

theorem connected_next (c : Conversation) (turn : Turn) : (c.next turn).session.connected = c.session.connected :=
  (moves_next c turn).connected

theorem connected_run (c : Conversation) (turns : List Turn) :
    (c.run turns).session.connected = c.session.connected := by
  induction turns generalizing c with
  | nil => rfl
  | cons turn rest ih => exact (ih (c.next turn)).trans (connected_next c turn)

theorem wanes_run (c : Conversation) (turns : List Turn) : Wanes c.session (c.run turns).session := by
  induction turns generalizing c with
  | nil => exact .refl _
  | cons turn rest ih => exact (wanes_next c turn).trans (ih (c.next turn))

/-- What a call waits with, and goes on waiting with after each answer, it waits with at any later time. -/
theorem waits_run {P : Progress → Prop} (hg : call < c.started) (hn : ∀ p, (call, p) ∈ c.waiting → P p)
    (ha : ∀ p a op s q, P p → p.resume a = some op → (op.run s).1 = .ok q → (∀ outcome, q ≠ .finished outcome) → P q)
    (turns : List Turn) : ∀ p, (call, p) ∈ (c.run turns).waiting → P p := by
  induction turns generalizing c with
  | nil => exact hn
  | cons turn rest ih =>
      refine ih (Nat.lt_of_lt_of_le hg (started_le c turn)) fun p waits => ?_
      cases waits_of_mem waits with
      | still waited => exact hn p waited
      | answered waited resumed ran unfinished =>
          exact ha _ _ _ _ p (hn _ (mem_of_lookup waited)) resumed ran unfinished
      | begun same => omega

/-- No call waits again under a number that was given out. -/
theorem absent_run (hg : call < c.started) (ha : ∀ p, (call, p) ∉ c.waiting) (turns : List Turn) :
    ∀ p, (call, p) ∉ (c.run turns).waiting :=
  waits_run (P := fun _ => False) hg ha (fun _ _ _ _ _ none _ _ _ => none) turns

/-! ### The end of a call -/

theorem outcome?_proceed {op : Editing Progress} {outcome : Outcome}
    (h : (proceed call op c).2 = some (.ok outcome)) : (op.run c.session).1 = .ok (.finished outcome) := by
  unfold proceed at h
  split at h
  · rename_i run
    cases h
    rw [run]
  · cases h
  · cases h

/-- An answer that brings a call to its end goes on with what the call has waited with. -/
theorem outcome?_answer {a : Answer} {outcome : Outcome} (h : c.outcome? (.answer call a) = some (.ok outcome)) :
    ∃ p op, (call, p) ∈ c.waiting ∧ p.resume a = some op ∧ (op.run c.session).1 = .ok (.finished outcome) ∧
      (c.next (.answer call a)).session = (op.run c.session).2 := by
  unfold outcome? next take at *
  cases waits : (c.waiting.lookup call).bind (·.resume a) with
  | none =>
      simp only [waits] at h
      cases h
  | some op =>
      simp only [waits] at h ⊢
      obtain ⟨p, found, resumed⟩ := Option.bind_eq_some_iff.mp waits
      have ran := outcome?_proceed h
      exact ⟨p, op, mem_of_lookup found, resumed, ran, proceed_session _ _ _⟩

/-! ### Tickets -/

/-- The moves of a turn that names canonical paths only. -/
def scope (c : Conversation) (straight : Choice → Int → Kind → Prop) (others : Ticket → Prop) : Scope :=
  { Scope.any with here := c.session.Canonical, turned := straight, asked := others }

theorem upward_scope (c : Conversation) (straight : Choice → Int → Kind → Prop) (others : Ticket → Prop) :
    (c.scope straight others).Upward := fun _ _ canonical up d opened =>
  (canonical d opened).parent d.definition.isRoot_root up

theorem open_scope (c : Conversation) (straight : Choice → Int → Kind → Prop) (others : Ticket → Prop) :
    (c.scope straight others).Open := ⟨fun _ => trivial, fun _ => trivial, fun _ _ _ => trivial⟩

theorem known_next (hc : ∀ path ∈ turn.path?, c.session.Canonical path) (known : t.Known c.session) :
    t.Known (c.next turn).session := by
  have moves : Moves (c.scope (fun _ _ _ => True) fun _ => True) c.session (c.next turn).session :=
    (c.open_scope _ _).next_moves (c.upward_scope _ _) hc (fun _ _ => trivial)
      (fun _ _ _ _ _ _ _ _ _ => trivial) (fun _ _ _ _ _ _ _ _ _ => trivial) (fun _ _ => trivial) fun _ _ => trivial
  exact (moves.known (fun _ named => named) known).1

/-- Calls wait under numbers that were given out, with tickets that were given out. -/
structure Sound (c : Conversation) : Prop where
  numbered : c.Numbered
  known : ∀ n p t, (n, p) ∈ c.waiting → p.ticket? = some t → t.Known c.session

theorem sound_opening (s : Session) : (opening s).Sound := ⟨numbered_opening s, fun _ _ _ => nofun⟩

/-- A call that goes on with an answer waits without a ticket. -/
theorem ticket?_answered {a : Answer} {q : Progress} {op : Editing Progress} (hr : q.resume a = some op)
    (ha : (op.run c.session).1 = .ok p) : p.ticket? = none := by
  have runs : Runs .any op c.session (·.Rests .any) :=
    Progress.resume_runs hr (Scope.Open.any.remembers _)
      (Scope.Open.any.allows (fun _ _ => trivial) (fun _ _ => trivial) (fun _ _ => trivial) fun _ _ => trivial)
  exact (runs.ok ha).2.ticket

theorem Sound.next (h : c.Sound) (hc : ∀ path ∈ turn.path?, c.session.Canonical path) :
    (c.next turn).Sound where
  numbered := h.numbered.next turn
  known n p t waits has := by
    cases waits_of_mem waits with
    | still waited => exact known_next hc (h.known n p t waited has)
    | answered _ resumed ran =>
        rw [ticket?_answered resumed ran] at has
        cases has
    | @begun errand _ ran =>
        obtain ⟨⟨summary, rfl⟩, token, epoch, generation, aside⟩ := errand.start_ticket.ok ran t has
        rw [← session_start] at generation aside
        refine ⟨by omega, ?_, fun _ => ?_⟩
        · rw [epoch, aside.epoch]
        · exact (SameRoot.of_document aside.document).canonical (hc t.path rfl)

theorem Sound.run (h : c.Sound) (hc : Canonically c turns) : (c.run turns).Sound := by
  induction turns generalizing c with
  | nil => exact h
  | cons turn rest ih => exact ih (h.next hc.1) hc.2

end Conversation

end RuleEditor
