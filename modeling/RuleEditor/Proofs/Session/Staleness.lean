import RuleEditor.Proofs.Session.TakingUp

/-!
# Stale answers

A rule that was selected for a reference is loaded while the session may be edited. When the call puts it in place,
nothing has superseded the call since its start, and the path has held one and the same reference all the time,
unless the kind of a condition was changed in a branch that was counted from the end. When the call does not put it
in place, it leaves the rule and its warnings.
-/
namespace RuleEditor

open Session Editing

namespace Turn

/-- The turn opens another rule, or it selects or clears the rule for the reference at a path. -/
def Supersedes (path : String) : Turn → Prop
  | .edit (.newRule ..) | .edit (.loadRule _) => True
  | .edit (.clearReference place) | .start (.resolveReference place _) => place = path
  | _ => False

end Turn

namespace Session

variable {s s' : Session} {path : String} {t : Ticket}

/-- A path that leads to a reference holds it. -/
theorem heldAt_of_holdsReference (h : s.HoldsReference path) : ∃ held, s.heldAt path = some held := by
  obtain ⟨node, ⟨d, steps, opened, read, found⟩, target⟩ := h
  have here := Node.heldAt_of_find found []
  rw [List.append_nil] at here
  simp only [heldAt, opened, read, here]
  cases node with
  | reference | ruleCheck => exact ⟨_, rfl⟩
  | _ => cases target

/-- A new token for a path makes all requests for it stale. -/
theorem not_current_issued (known : t.Known s) (hl : Wanes (s.issued t.path) s') : ¬ t.Current s' := by
  intro current
  have before := hl.current t (Nat.le_trans known.token (Nat.le_succ _)) known.epoch current
  have token := (isCurrent_iff.mp before).2
  rw [issued, Members.get?_set_self] at token
  have old := known.token
  have new := Option.some.inj token
  omega

theorem put_wanes {new : Node} (h : Wanes s s') :
    Ends (put path new) s' (fun _ => Wanes s) (fun _ => Wanes s) :=
  ends_put (fun _ => h) fun d _ _ tree _ _ _ _ =>
    ⟨h.committed d tree, fun _ _ => h.committed d tree⟩

theorem putExpression_wanes {new : Node} (h : Wanes s s') :
    Ends (putExpression path new) s' (fun _ => Wanes s) (fun _ => Wanes s) :=
  ends_putExpression (fun _ => h) fun d _ _ tree _ _ _ _ =>
    ⟨h.committed d tree, fun _ _ => h.committed d tree⟩

theorem noteHere_wanes {e : Event} (h : Wanes s s') :
    Ends (noteHere e) s' (fun _ => Wanes s) (fun _ => Wanes s) :=
  ends_modify (h.trans ((Aside.refl s').also _ _ _).wanes)

/-- Clearing a reference gives its path a new token before anything else, also if it fails. -/
theorem clearReference_wanes (path : String) :
    Ends (clearReference path) s (fun _ => Wanes (s.issued path)) (fun _ => Wanes (s.issued path)) := by
  have start : Wanes (s.issued path) (s.issued path) := .refl _
  unfold clearReference
  refine bind_issueToken (bind_node (fun _ => start) fun node _ => ?_)
  split
  · refine bind_lift (fun _ => start) fun new _ => ends_bind ?_
    exact (put_wanes start).mono (fun _ _ => noteHere_wanes) fun _ _ later => later
  · refine ends_bind ?_
    unfold setExpression
    refine bind_invalidate ?_
    exact (putExpression_wanes (Aside.invalidated path _).wanes).mono (fun _ _ => noteHere_wanes) fun _ _ later => later
  · exact ends_bind (ends_throw start)

end Session

namespace Conversation

/-- The turn changes the kind of a condition at the path or above it, and counts the branch from the end. -/
def Slips (c : Conversation) (turn : Turn) (path : String) : Prop :=
  ∃ index kind k d choice, turn = .edit (.changeBranchKind index kind) ∧ Kind.ofValue kind = .ok k ∧
    c.session.document = some d ∧ d.definition = Choice.node choice ∧ choice.Slips index k path

/-- No slip among the turns changes what the path holds. -/
def Steady (c : Conversation) (path : String) (turns : List Turn) : Prop :=
  ∀ sofar turn, sofar ++ [turn] <+: turns → (c.run sofar).Slips turn path →
    ((c.run sofar).next turn).session.heldAt path = (c.run sofar).session.heldAt path

/-- The path holds one and the same reference, before the turns and after each of them. -/
def Holds (c : Conversation) (path : String) (turns : List Turn) : Prop :=
  ∃ held, ∀ sofar, sofar <+: turns → (c.run sofar).session.heldAt path = some held

/-- The conversation is one that a session has come to, with canonical paths only. -/
def Reachable (c : Conversation) : Prop :=
  ∃ catalogue settings id connected turns, Canonically (opening (.start catalogue settings id connected)) turns ∧
    c = (opening (.start catalogue settings id connected)).run turns

/-- A call that was started with a ticket, and that waits with it if it still waits. -/
structure Tracks (c : Conversation) (call : Nat) (p : Progress) (t : Ticket) : Prop where
  sound : c.Sound
  connected : c.session.connected = true
  ticket : p.ticket? = some t
  known : t.Known c.session
  started : call < c.started
  only : ∀ q, (call, q) ∈ c.waiting → q = p
  own : ∀ n q t', (n, q) ∈ c.waiting → q.ticket? = some t' → t'.token = t.token → n = call

variable {c : Conversation} {turn : Turn} {turns between : List Turn} {call : Nat} {p : Progress} {t : Ticket}
  {path : String} {summary : Summary}

/-! ### The call from its start on -/

theorem tracks_start (sound : c.Sound) (canonical : c.session.Canonical path)
    (hw : (c.started, p) ∈ (c.next (.start (.resolveReference path summary))).waiting) :
    Tracks (c.next (.start (.resolveReference path summary))) c.started p
      ⟨path, c.session.generation + 1, c.session.epoch⟩ := by
  have spelled : ∀ place ∈ (Turn.start (.resolveReference path summary)).path?, c.session.Canonical place := by
    rintro place ⟨⟩
    exact canonical
  have ran {q : Progress} (hw : (c.started, q) ∈ (c.next (.start (.resolveReference path summary))).waiting) :
      ((resolveReference path summary).run c.session).1 = .ok q := by
    cases waits_of_mem hw with
    | still waited => exact absurd (sound.numbered _ _ waited) (Nat.lt_irrefl _)
    | begun _ ran => exact ran
  obtain ⟨aside, generation, ticket, connected, -⟩ := (resolveReference_moves .any path summary).ok (ran hw)
  have after := sound.next spelled
  exact {
    sound := after
    connected := (connected_next c _).trans connected
    ticket
    known := after.known _ _ _ hw ticket
    started := by
      rw [started_next]
      exact Nat.lt_succ_self _
    only := fun q other => Except.ok.inj ((ran other).symm.trans (ran hw))
    own := fun n q t' other has same => by
      cases waits_of_mem other with
      | still waited =>
          have := (sound.known n q t' waited has).token
          simp only at same
          omega
      | begun same => exact same }

theorem Tracks.next (h : Tracks c call p t) (hc : ∀ path ∈ turn.path?, c.session.Canonical path) :
    Tracks (c.next turn) call p t where
  sound := h.sound.next hc
  connected := (connected_next c turn).trans h.connected
  ticket := h.ticket
  known := known_next hc h.known
  started := Nat.lt_of_lt_of_le h.started (started_le c turn)
  only q waits := by
    cases waits_of_mem waits with
    | still waited => exact h.only q waited
    | answered waited resumed ran unfinished =>
        obtain ⟨applied, finished, -⟩ := (Progress.resume_ticket (h.only _ (mem_of_lookup waited) ▸ h.ticket) resumed).ok ran
        exact absurd finished (unfinished _)
    | begun same =>
        have := h.started
        omega
  own n q t' waits has same := by
    cases waits_of_mem waits with
    | still waited => exact h.own n q t' waited has same
    | answered waited resumed ran =>
        rw [ticket?_answered resumed ran] at has
        cases has
    | begun _ ran =>
        obtain ⟨-, token, -⟩ := (Errand.start_ticket _).ok ran t' has
        have := h.known.token
        omega

theorem Tracks.run (h : Tracks c call p t) (hc : Canonically c turns) : Tracks (c.run turns) call p t := by
  induction turns generalizing c with
  | nil => exact h
  | cons turn rest ih => exact ih (h.next hc.1) hc.2

/-- What is current at the end was current before. -/
theorem Tracks.current (h : Tracks c call p t) (current : t.Current (c.run turns).session) : t.Current c.session :=
  (wanes_run c turns).current t h.known.token h.known.epoch current

theorem Tracks.waits (h : Tracks c call p t) (hw : ∃ q, (call, q) ∈ (c.run turns).waiting) :
    ∃ q, (call, q) ∈ c.waiting := by
  by_contra absent
  obtain ⟨q, hw⟩ := hw
  exact absent_run h.started (fun q here => absent ⟨q, here⟩) turns q hw

/-- No turn supersedes a call that is current after it. -/
theorem Tracks.not_supersedes (h : Tracks c call p t) (current : t.Current (c.next turn).session) :
    ¬ turn.Supersedes t.path := by
  intro supersedes
  have later {s' : Session} (h' : c.session.epoch < s'.epoch) : ¬ t.Current s' := by
    intro current
    have := (isCurrent_iff.mp current).1
    have := h.known.epoch
    omega
  cases turn with
  | edit e =>
      cases e with
      | newRule form type ruleType id description =>
          exact later (newRule_later form type ruleType id description).after current
      | loadRule d =>
          exact later (loadRule_later d).after current
      | clearReference place =>
          cases supersedes
          exact not_current_issued h.known (clearReference_wanes t.path).after current
      | _ => exact supersedes
  | start errand =>
      cases errand with
      | resolveReference place summary =>
          cases supersedes
          have renewed : Ends (resolveReference t.path summary) c.session
              (fun _ s' => ¬ t.Current s') (fun _ s' => ¬ t.Current s') := by
            apply (resolveReference_moves .any t.path summary).mono
            · intro p s' done current
              have missed := (done.1.current h.known.token current).2
              exact absurd missed (by simp [Mark.renews])
            · intro _ s' failed
              exact absurd (h.connected.symm.trans failed.2) (by simp)
          rw [session_start] at current
          exact renewed.after current
      | _ => exact supersedes
  | _ => exact supersedes

/-- A turn that does not slip leaves what the path holds, if the call waits on and is current. -/
theorem Tracks.heldAt_next (h : Tracks c call p t) (hc : ∀ path ∈ turn.path?, c.session.Canonical path)
    (hw : ∃ q, (call, q) ∈ (c.next turn).waiting) (current : t.Current (c.next turn).session)
    (hs : ¬ c.Slips turn t.path) : (c.next turn).session.heldAt t.path = c.session.heldAt t.path := by
  suffices moves : Moves (c.scope (fun choice index kind => ¬ choice.Slips index kind t.path)
      fun t' => t'.token ≠ t.token ∧ t'.Known c.session) c.session (c.next turn).session from
    moves.heldAt_eq (fun _ named => named) (fun _ _ _ hs => hs) (fun _ asked => asked) h.known current
  refine (c.open_scope _ _).next_moves (c.upward_scope _ _) hc (fun _ _ => trivial) ?_ ?_ (fun _ _ => trivial)
    fun _ _ => trivial
  · intro index kind same d choice k opened is known slips
    exact hs ⟨index, kind, k, d, choice, same, known, opened, is, slips⟩
  · rintro n a rfl q op t' waited resumed has
    refine ⟨fun same => ?_, h.sound.known n q t' (mem_of_lookup waited) has⟩
    -- the answer to the call itself ends the call
    cases h.own n q t' (mem_of_lookup waited) has same
    obtain ⟨q', hw⟩ := hw
    obtain ⟨ran, unfinished⟩ := not_mem_answered waited resumed hw
    obtain ⟨applied, finished, -⟩ := (Progress.resume_ticket has resumed).ok ran
    exact unfinished _ finished

theorem heldAt_run (h : ∀ sofar turn, sofar ++ [turn] <+: turns →
      ((c.run sofar).next turn).session.heldAt path = (c.run sofar).session.heldAt path) :
    ∀ sofar, sofar <+: turns → (c.run sofar).session.heldAt path = c.session.heldAt path := by
  induction turns generalizing c with
  | nil =>
      intro sofar within
      cases List.prefix_nil.mp within
      rfl
  | cons turn rest ih =>
      intro sofar within
      rcases List.prefix_cons_iff.mp within with rfl | ⟨sofar, rfl, inside⟩
      · rfl
      · have below : ∀ sofar other, sofar ++ [other] <+: rest →
            (((c.next turn).run sofar).next other).session.heldAt path =
              ((c.next turn).run sofar).session.heldAt path := by
          intro sofar other later
          exact h (turn :: sofar) other (List.cons_prefix_cons.mpr ⟨rfl, later⟩)
        have first := h [] turn ⟨rest, rfl⟩
        exact (ih below sofar inside).trans first

/-- A call that waits at the end and is current there has waited and been current all the time. -/
theorem Tracks.moment (h : Tracks c call p t) (hc : Canonically c turns)
    (hw : ∃ q, (call, q) ∈ (c.run turns).waiting) (current : t.Current (c.run turns).session)
    {sofar : List Turn} (hi : sofar <+: turns) :
    Tracks (c.run sofar) call p t ∧ (∃ q, (call, q) ∈ (c.run sofar).waiting) ∧ t.Current (c.run sofar).session := by
  obtain ⟨rest, rfl⟩ := hi
  rw [run_append] at hw current
  have tracks := h.run (canonically_append.mp hc).1
  exact ⟨tracks, tracks.waits hw, tracks.current current⟩

theorem Tracks.alone (h : Tracks c call p t) (hc : Canonically c turns)
    (hw : ∃ q, (call, q) ∈ (c.run turns).waiting) (current : t.Current (c.run turns).session) :
    ∀ turn ∈ turns, ¬ turn.Supersedes t.path := by
  intro turn within
  obtain ⟨before, after, rfl⟩ := List.append_of_mem within
  have within : before ++ [turn] <+: before ++ turn :: after := ⟨after, by simp⟩
  have here := h.moment hc hw current (List.prefix_append before _)
  have later := h.moment hc hw current within
  rw [run_append] at later
  exact here.1.not_supersedes later.2.2

theorem Tracks.holds_iff (h : Tracks c call p t) (hc : Canonically c turns)
    (hw : ∃ q, (call, q) ∈ (c.run turns).waiting) (current : t.Current (c.run turns).session) {held : Held}
    (hh : (c.run turns).session.heldAt t.path = some held) : c.Steady t.path turns ↔ c.Holds t.path turns := by
  constructor
  · intro steady
    have kept : ∀ sofar, sofar <+: turns → (c.run sofar).session.heldAt t.path = c.session.heldAt t.path := by
      apply heldAt_run
      intro sofar turn within
      by_cases slips : (c.run sofar).Slips turn t.path
      · exact steady sofar turn within slips
      · have here := h.moment hc hw current ((List.prefix_append sofar _).trans within)
        have later := h.moment hc hw current within
        rw [run_append] at later
        obtain ⟨rest, split⟩ := within
        have spelled : Canonically c (sofar ++ turn :: rest) := by
          have same : sofar ++ turn :: rest = turns := by simpa using split
          exact same ▸ hc
        exact here.1.heldAt_next (canonically_append.mp spelled).2.1 later.2.1 later.2.2 slips
    refine ⟨held, ?_⟩
    intro sofar within
    rw [kept sofar within, ← kept turns (List.prefix_refl _), hh]
  · rintro ⟨held, all⟩ sofar turn within -
    have later := all (sofar ++ [turn]) within
    rw [run_append] at later
    exact later.trans (all sofar ((List.prefix_append _ _).trans within)).symm

/-! ### The end of the call -/

theorem Reachable.sound (h : c.Reachable) : c.Sound := by
  obtain ⟨catalogue, settings, id, connected, turns, canonical, rfl⟩ := h
  exact (sound_opening _).run canonical

/-- The conversation after a call to select a rule for the reference at a path has been started. -/
def asking (path : String) (summary : Summary) (c : Conversation) : Conversation :=
  c.next (.start (.resolveReference path summary))

/-- When a call puts a rule in the place of the reference at a path, then since its start no turn has superseded
it and no other rule has been opened; and the path has held one and the same reference exactly if no slip has
changed what it holds. When the call does not put its rule in place, it leaves the rule and the warnings. -/
theorem resolution_unless_stale (hr : c.Reachable) (path : String) (summary : Summary) (turns : List Turn)
    (a : Answer) {applied : Bool} (hs : c.session.Canonical path)
    (hc : Canonically (c.asking path summary) turns)
    (he : ((c.asking path summary).run turns).outcome? (.answer c.started a) = some (.ok (.resolved applied))) :
    (applied = true →
      (∀ turn ∈ turns, ¬ turn.Supersedes path) ∧
      (∀ sofar, sofar <+: turns → ((c.asking path summary).run sofar).session.epoch = c.session.epoch) ∧
      ((c.asking path summary).Steady path turns ↔ (c.asking path summary).Holds path turns)) ∧
    (applied = false →
      (((c.asking path summary).run turns).next (.answer c.started a)).session.document =
          ((c.asking path summary).run turns).session.document ∧
        (((c.asking path summary).run turns).next (.answer c.started a)).session.warnings =
          ((c.asking path summary).run turns).session.warnings) := by
  obtain ⟨q, op, waits, resumed, ran, session⟩ := outcome?_answer he
  -- the call has waited since its start, with what it was started with
  obtain ⟨p, begun⟩ : ∃ p, (c.started, p) ∈ (c.asking path summary).waiting := by
    by_contra absent
    refine absent_run ?_ (fun p here => absent ⟨p, here⟩) turns q waits
    rw [asking, started_next]
    exact Nat.lt_succ_self _
  have tracks : Tracks (c.asking path summary) c.started p _ := tracks_start hr.sound hs begun
  have last : Tracks ((c.asking path summary).run turns) c.started p _ := tracks.run hc
  cases last.only q waits
  obtain ⟨applied', finished, yes, no⟩ := (Progress.resume_ticket last.ticket resumed).ok ran
  cases finished
  rw [session]
  constructor
  · intro done
    obtain ⟨current, holds⟩ := yes done
    obtain ⟨held, last⟩ := heldAt_of_holdsReference holds
    have alone := tracks.alone hc ⟨q, waits⟩ current
    have exactly := tracks.holds_iff hc ⟨q, waits⟩ current last
    refine ⟨alone, ?_, exactly⟩
    intro sofar within
    have current := (tracks.moment hc ⟨q, waits⟩ current within).2.2
    exact (isCurrent_iff.mp current).1.symm
  · exact no

/-! ### A choice with a check of a rule -/

def catalogue : Catalogue where
  comparisons := []
  joinings := []
  types := [("number", ⟨some "equal", none, []⟩)]
  functions := []
  ruleTypes := []
  defaultField := "AGE"

/-- A session that can ask a rule service. -/
def served : Session :=
  .start catalogue ⟨"", "", "testing", "", .ofInt 10, "AGE", "number", ["+", "-"], [], 8, "INFO", "json"⟩ "es" true

/-- The rule that is selected for the check. -/
def adult : Document where
  form := .condition
  type := .text "boolean"
  definition := .comparison (.text "Condition 1") (.field (.text "number") (.text "AGE")) (.text "equal")
    (.literal (.text "number") (.int 18))
  ruleType := .text "Reporting"
  uuid := .text "u-adult"
  version := .int 2
  id := .text "IS_ADULT"
  description := .null

def selected : Summary := ⟨adult.id, adult.uuid, adult.version, adult.type, adult.ruleType, .null⟩

/-- A new choice, with the condition of its branch turned into a check of a rule. -/
def drafting : List Turn :=
  [.edit (.newRule (.text "case") .null .null .null .null), .edit (.changeBranchKind 0 (.text "ruleRef"))]

def drafted : Conversation := (opening served).run drafting

theorem drafted_reachable : drafted.Reachable :=
  ⟨catalogue, _, "es", true, drafting, ⟨fun _ => nofun, fun _ => nofun, trivial⟩, rfl⟩

theorem canonical_of_root {s : Session} (root : String) (hr : s.document.map (·.definition.root) = some root)
    (canonical : Address.Canonical root path) : s.Canonical path := by
  intro d opened
  rw [opened] at hr
  cases hr
  exact canonical

/-- Another branch is added and turned into a check too, and a rule is selected for that one as well. -/
def branching : List Turn :=
  [.edit .addBranch, .edit (.changeBranchKind (-1) (.text "ruleRef")), .start (.resolveReference "case-when-1" selected)]

theorem drafted_canonical : drafted.session.Canonical "case-when-0" :=
  canonical_of_root "case" (by rfl) ⟨[.condition 0], by rfl⟩

theorem resolution_while_branching :
    drafted.Reachable ∧ drafted.session.Canonical "case-when-0" ∧
      Canonically (drafted.asking "case-when-0" selected) branching ∧
      ((drafted.asking "case-when-0" selected).run branching).outcome? (.answer drafted.started (.rule (.ok adult))) =
        some (.ok (.resolved true)) ∧
      (∀ turn ∈ branching, ¬ turn.Supersedes "case-when-0") ∧
      ((drafted.asking "case-when-0" selected).Steady "case-when-0" branching ↔
        (drafted.asking "case-when-0" selected).Holds "case-when-0" branching) := by
  have canonical : Canonically (drafted.asking "case-when-0" selected) branching := by
    refine ⟨fun _ => nofun, fun _ => nofun, ?_, trivial⟩
    rintro _ ⟨⟩
    exact canonical_of_root "case" (by rfl) ⟨[.condition 1], by rfl⟩
  have ended : ((drafted.asking "case-when-0" selected).run branching).outcome?
      (.answer drafted.started (.rule (.ok adult))) = some (.ok (.resolved true)) := by rfl
  obtain ⟨alone, -, steady⟩ :=
    (resolution_unless_stale drafted_reachable "case-when-0" selected branching _ drafted_canonical canonical ended).1 rfl
  exact ⟨drafted_reachable, drafted_canonical, canonical, ended, alone, steady⟩

/-- The check is turned into a comparison and back, in the branch that is the last one. -/
def slipping : List Turn :=
  [.edit (.changeBranchKind (-1) (.text "condition")), .edit (.changeBranchKind (-1) (.text "ruleRef"))]

/-- The rule is put in place although the path has held no reference in between. -/
theorem resolution_while_slipping :
    drafted.Reachable ∧ drafted.session.Canonical "case-when-0" ∧
      Canonically (drafted.asking "case-when-0" selected) slipping ∧
      ((drafted.asking "case-when-0" selected).run slipping).outcome? (.answer drafted.started (.rule (.ok adult))) =
        some (.ok (.resolved true)) ∧
      ¬ (drafted.asking "case-when-0" selected).Holds "case-when-0" slipping := by
  refine ⟨drafted_reachable, drafted_canonical, ⟨fun _ => nofun, fun _ => nofun, trivial⟩, by rfl, ?_⟩
  rintro ⟨held, all⟩
  have once := all (slipping.take 1) (List.take_prefix 1 slipping)
  have gone : ((drafted.asking "case-when-0" selected).run (slipping.take 1)).session.heldAt "case-when-0" = none := by
    rfl
  rw [gone] at once
  cases once

end Conversation

end RuleEditor
