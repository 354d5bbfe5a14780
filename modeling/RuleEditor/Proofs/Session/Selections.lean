import RuleEditor.Proofs.Session.Resolving
import RuleEditor.Proofs.Session.Reviewing
import RuleEditor.Proofs.Session.Seated
import RuleEditor.Proofs.Session.Staleness
import Mathlib.Data.List.Induction

/-!
# Selections at the same time

Rules are selected for several references, or for the same one again, before the first of them is loaded. Each request
waits with a token for its path, of which the last one counts. Completed one after another, in any order, the requests
graft the rules that have been loaded onto the rule that is edited.
-/
namespace RuleEditor

open Session Editing

/-- A rule is selected for the reference at a path, and the load of it is going to be answered. -/
structure Selection where
  path : String
  summary : Summary
  loaded : Except Fault Document

namespace Selection

variable {requests : List Selection} {r : Selection} {e : Selection × Nat}

def turn (r : Selection) : Turn := .start (.resolveReference r.path r.summary)

/-- The load gives a typed rule of the library, or the rule is not available. -/
structure Drawn (lib : Library) (r : Selection) : Prop where
  key : r.summary.uuid.isKey = true
  textual : r.summary.type.Textual
  loaded : (∃ text uuid version, r.loaded = .error (.unavailable text uuid version)) ∨
    ∃ d, r.loaded = .ok d ∧ lib.Keeps r.summary.uuid d ∧ d.version.isKey = true ∧ d.WellTyped

/-- What the completion of a request does to a tree: it grafts the rule onto it, unless the rule is not available or
the request is not current. -/
inductive Settles (tree : Node) (current : Bool) (r : Selection) : Option Graft → Prop where
  | missed : ((∃ text uuid version, r.loaded = .error (.unavailable text uuid version)) ∨
      (∃ d, r.loaded = .ok d) ∧ current = false) → Settles tree current r none
  | met {d f steps old new} : current = true → r.loaded = .ok d → Finding.ofDocument d = .ok f →
      Address.steps r.path = .ok steps → tree.find steps = .ok old →
      Chosen r.path (referenceTo r.summary d d.version f) old new → Settles tree current r (some ⟨steps, new⟩)

theorem Settles.apart {tree tree' : Node} {current : Bool} {graft? : Option Graft}
    (settles : r.Settles tree current graft?) (hs : ∀ g, graft? = some g → tree'.find g.steps = tree.find g.steps) :
    r.Settles tree' current graft? := by
  cases settles with
  | missed why => exact .missed why
  | met now loaded checked read found chosen =>
      exact .met now loaded checked read ((hs _ rfl).trans found) chosen

theorem Settles.isSome_iff {tree : Node} {current : Bool} {graft? : Option Graft}
    (settles : r.Settles tree current graft?) :
    graft?.isSome = true ↔ current = true ∧ ∃ d, r.loaded = .ok d := by
  cases settles with
  | missed why =>
      refine ⟨fun some => (by cases some), ?_⟩
      rintro ⟨rfl, d, loaded⟩
      rcases why with ⟨text, uuid, version, missing⟩ | ⟨-, no⟩
      · cases missing.symm.trans loaded
      · cases no
  | met now loaded => exact ⟨fun _ => ⟨now, _, loaded⟩, fun _ => rfl⟩

/-- No later one of the requests is for the same path. -/
def Last (requests : List Selection) (e : Selection × Nat) : Prop :=
  ∀ e' ∈ requests.zipIdx, e'.1.path = e.1.path → e'.2 ≤ e.2

theorem mem_zipIdx_concat : e ∈ (requests ++ [r]).zipIdx ↔ e ∈ requests.zipIdx ∨ e = (r, requests.length) := by
  rw [List.zipIdx_append, List.mem_append, Nat.zero_add, List.zipIdx_singleton, List.mem_singleton]

theorem lt_of_mem_zipIdx (h : e ∈ requests.zipIdx) : e.2 < requests.length :=
  (List.getElem?_eq_some_iff.mp (List.mem_zipIdx_iff_getElem?.mp h)).1

theorem zipIdx_ordered (requests : List Selection) : requests.zipIdx.Pairwise fun e e' => e.2 < e'.2 := by
  rw [List.pairwise_iff_getElem]
  intro i j _ _ less
  simpa only [List.getElem_zipIdx, Nat.zero_add] using less

theorem last_concat : Last (requests ++ [r]) (r, requests.length) := by
  intro e within _
  rcases mem_zipIdx_concat.mp within with earlier | rfl
  · exact Nat.le_of_lt (lt_of_mem_zipIdx earlier)
  · exact Nat.le_refl _

theorem last_append (h : e ∈ requests.zipIdx) :
    Last (requests ++ [r]) e ↔ r.path ≠ e.1.path ∧ Last requests e := by
  have before := lt_of_mem_zipIdx h
  constructor
  · intro last
    refine ⟨fun same => ?_, fun e' earlier same => last e' (mem_zipIdx_concat.mpr (.inl earlier)) same⟩
    have := last (r, requests.length) (mem_zipIdx_concat.mpr (.inr rfl)) same
    simp only at this
    omega
  · rintro ⟨differ, last⟩ e' within' same
    rcases mem_zipIdx_concat.mp within' with earlier | rfl
    · exact last e' earlier same
    · exact absurd same differ

end Selection

namespace Library

/-- The scope in which findings are those of versions. -/
def recalling (lib : Library) : Scope := { Scope.any with found := lib.Recalled }

end Library

namespace Conversation

variable {lib : Library} {c c' : Conversation} {t : Turn} {turns : List Turn} {requests : List Selection}
  {e : Selection × Nat} {call : Nat}

/-! ### What is remembered -/

/-- Whatever a load is answered with is a rule of the library, so that no version of a rule is two different ones. -/
def Loads (lib : Library) (c : Conversation) : Turn → Prop
  | .answer call (.rule (.ok d)) =>
    ∀ uuid version next, c.waiting.lookup call = some (.loading uuid version next) → lib.Keeps uuid d
  | _ => True

/-- What a check of a version is answered with is that version. -/
def Matches (c : Conversation) : Turn → Prop
  | .answer call (.rule (.ok d)) =>
    ∀ uuid version r opening, c.waiting.lookup call = some (.loading uuid version (.refreshing r opening)) →
      version.isNull = false → d.version.same version = true
  | _ => True

/-- All findings that are remembered, or are going to be, are those of versions. -/
structure Recalls (lib : Library) (c : Conversation) : Prop where
  memo : c.session.memo.Remembers lib.Recalled
  waiting : ∀ n p, (n, p) ∈ c.waiting → p.Coherent lib.recalling

theorem Recalls.allowed (h : c.Recalls lib) (hl : c.Loads lib t) (hm : c.Matches t) :
    c.Allowed lib.recalling t := by
  cases t with
  | edit e =>
      exact ⟨fun _ _ => trivial, fun _ _ => trivial, fun _ _ _ _ _ _ _ _ _ => trivial, fun _ _ => trivial,
        fun _ _ => trivial⟩
  | query q => trivial
  | start errand => exact fun _ _ _ _ _ => trivial
  | answer call a =>
      intro p op waits resumed
      have coherent := h.waiting call p (mem_of_lookup waits)
      refine ⟨fun _ _ _ => trivial, fun _ _ => trivial, fun _ _ => trivial, fun _ _ => trivial,
        fun _ _ _ _ _ => trivial, ?_, ?_, ?_⟩
      · intro uuid version path summary token epoch answer same rule
        subst same
        obtain ⟨rfl, rfl⟩ := coherent
        rintro d rfl
        subst rule
        have keeps := hl _ _ _ waits
        rw [keeps.carried]
        exact ⟨Library.recalls keeps.answers, fun _ _ => trivial⟩
      · intro uuid version r opening same
        subst same
        exact coherent.1
      · rintro uuid version r opening answer same rule d path target rest rfl come
        subst same rule
        obtain ⟨-, path', target', rest', first, rfl, rfl⟩ := coherent
        cases first.symm.trans come
        exact Library.recalls ⟨hl _ _ _ waits, hm _ _ _ _ waits⟩

theorem Recalls.next (h : c.Recalls lib) (hl : c.Loads lib t) (hm : c.Matches t) : (c.next t).Recalls lib := by
  have upward : lib.recalling.Upward := fun _ _ _ _ => trivial
  have allowed := h.allowed hl hm
  exact ⟨(next_moves upward h.memo allowed).remembers h.memo, coherent_next h.memo allowed h.waiting⟩

theorem Recalls.run (h : c.Recalls lib) (hl : Throughout (Loads lib) c turns) (hm : Throughout Matches c turns) :
    (c.run turns).Recalls lib := by
  induction turns generalizing c with
  | nil => exact h
  | cons t rest ih => exact ih (h.next hl.1 hm.1) hl.2 hm.2

theorem recalls_opening (s : Session) (h : s.memo.entries = []) : (opening s).Recalls lib where
  memo entry within := by
    rw [show (opening s).session.memo.entries = [] from h] at within
    cases within
  waiting := nofun

/-! ### The requests -/

/-- The conversation after rules have been selected, and before any of them is loaded. -/
def requesting (c : Conversation) (requests : List Selection) : Conversation := c.run (requests.map Selection.turn)

def pending (c : Conversation) (e : Selection × Nat) : Progress :=
  .loading e.1.summary.uuid e.1.summary.version
    (.resolving e.1.path e.1.summary (c.session.generation + e.2 + 1) c.session.epoch)

/-- A request issues a token for its path, and waits for the rule. -/
theorem take_request (h : c.session.connected = true) (path : String) (summary : Summary) :
    ∃ journal, c.take (.start (.resolveReference path summary)) =
      (⟨{ c.session.issued path with journal },
        (c.started, .loading summary.uuid summary.version
          (.resolving path summary (c.session.generation + 1) c.session.epoch)) :: c.waiting, c.started + 1⟩, none) := by
  obtain ⟨p, run, rfl, journal, session⟩ := (gives_resolveReference h path summary).run
  refine ⟨journal, ?_⟩
  have ran := Prod.ext (y := (_, { c.session.issued path with journal })) run session
  unfold take Errand.start proceed
  simp only [ran]

theorem next_request (h : c.session.connected = true) (r : Selection) :
    ∃ journal, c.next r.turn = ⟨{ c.session.issued r.path with journal },
      (c.started, c.pending (r, 0)) :: c.waiting, c.started + 1⟩ := by
  obtain ⟨journal, taken⟩ := take_request h r.path r.summary
  exact ⟨journal, congrArg Prod.fst taken⟩

/-- What has changed after some requests, and what waits then. -/
structure Requested (requests : List Selection) (c c' : Conversation) : Prop where
  started : c'.started = c.started + requests.length
  session : ∃ tokens journal, c'.session =
    { c.session with generation := c.session.generation + requests.length, tokens, journal }
  waits : ∀ e ∈ requests.zipIdx, c'.waiting.lookup (c.started + e.2) = some (c.pending e)
  token : ∀ e ∈ requests.zipIdx,
    c'.session.tokens.get? e.1.path = some (c.session.generation + e.2 + 1) ↔ Selection.Last requests e

theorem requested (h : c.session.connected = true) (requests : List Selection) :
    Requested requests c (c.requesting requests) := by
  -- from the last request on: the one that is made last may take the place of an earlier one for its path
  induction requests using List.reverseRecOn with
  | nil => exact ⟨rfl, ⟨_, _, rfl⟩, fun _ => nofun, fun _ => nofun⟩
  | append_singleton requests r ih =>
      obtain ⟨started, ⟨tokens, journal, session⟩, waits, token⟩ := ih
      have connected' : (c.requesting requests).session.connected = true := by
        rw [session]
        exact h
      obtain ⟨journal', next⟩ := next_request connected' r
      have same : c.requesting (requests ++ [r]) = (c.requesting requests).next r.turn := by
        rw [requesting, List.map_append, run_append]
        rfl
      rw [same, next]
      have generation : (c.requesting requests).session.generation = c.session.generation + requests.length := by
        rw [session]
      have epoch : (c.requesting requests).session.epoch = c.session.epoch := by
        rw [session]
      refine ⟨?_, ?_, fun e within => ?_, fun e within => ?_⟩
      · simp only [started, List.length_append, List.length_singleton, Nat.add_assoc]
      · refine ⟨tokens.set r.path (c.session.generation + requests.length + 1), journal', ?_⟩
        rw [session, List.length_append]
        rfl
      · simp only [started]
        rcases Selection.mem_zipIdx_concat.mp within with earlier | rfl
        · have before := Selection.lt_of_mem_zipIdx earlier
          have other : (c.started + e.2 == c.started + requests.length) = false := beq_eq_false_iff_ne.mpr (by omega)
          rw [List.lookup_cons, other]
          exact waits e earlier
        · rw [List.lookup_cons_self]
          simp only [pending, generation, epoch, Nat.add_zero]
      · simp only [issued, generation]
        rcases Selection.mem_zipIdx_concat.mp within with earlier | rfl
        · have before := Selection.lt_of_mem_zipIdx earlier
          rw [Selection.last_append earlier]
          by_cases same : r.path = e.1.path
          · rw [same, Members.get?_set_self]
            simp only [Option.some.injEq, ne_eq, not_true_eq_false, false_and, iff_false]
            omega
          · rw [Members.get?_set_of_ne (Ne.symm same), token e earlier]
            exact ⟨fun last => ⟨same, last⟩, And.right⟩
        · rw [Members.get?_set_self]
          exact ⟨fun _ => Selection.last_concat, fun _ => rfl⟩

/-! ### The answers -/

variable {base : Conversation} {graft : Selection × Nat → Option Graft} {todo : List (Selection × Nat)} {d : Document}

def completion (c : Conversation) (e : Selection × Nat) : Turn := .answer (c.started + e.2) (.rule e.1.loaded)

theorem take_answer {p : Progress} {a : Answer} {op : Editing Progress} {outcome : Outcome} {s : Session}
    (hw : c.waiting.lookup call = some p) (hr : p.resume a = some op)
    (ha : op.run c.session = (.ok (.finished outcome), s)) :
    c.take (.answer call a) =
      (⟨s, c.waiting.filter (·.1 ≠ call), c.started⟩, some (.ok outcome)) := by
  unfold take proceed
  simp only [hw, Option.bind_some, hr, ha]

/-- While some requests are still to be completed, each of them waits and is going to settle with its graft. -/
structure Completing (lib : Library) (base : Conversation) (graft : Selection × Nat → Option Graft)
    (todo : List (Selection × Nat)) (d : Document) (c : Conversation) : Prop where
  opened : c.session.document = some d
  memo : c.session.memo.Remembers lib.Recalled
  drawn : ∀ e ∈ todo, e.1.Drawn lib
  waits : ∀ e ∈ todo, c.waiting.lookup (base.started + e.2) = some (base.pending e)
  settles : ∀ e ∈ todo, e.1.Settles d.definition
    (c.session.isCurrent e.1.path (base.session.generation + e.2 + 1) base.session.epoch) (graft e)
  ready : Graft.Ready d.definition (todo.filterMap graft)
  differ : todo.Pairwise fun e e' => e.2 ≠ e'.2

/-- The rule has been changed by some grafts, and the warnings are told of it if there were any. -/
structure Grafted (gs : List Graft) (d d' : Document) (s s' : Session) : Prop where
  document : ∃ tree, Graft.all s.numeric gs d.definition = .ok tree ∧ d' = { d with definition := tree }
  numeric : s'.numeric = s.numeric
  opened : s'.document = some d'
  kept : gs = [] → s'.warnings = s.warnings
  told : gs ≠ [] → d'.warnings = .ok s'.warnings

theorem Grafted.trans {gs hs : List Graft} {d₁ d' : Document} {s s₁ s' : Session} (h : Grafted gs d d₁ s s₁)
    (h' : Grafted hs d₁ d' s₁ s') : Grafted (gs ++ hs) d d' s s' := by
  obtain ⟨⟨tree, first, rfl⟩, numeric, opened, kept, told⟩ := h
  obtain ⟨⟨tree', second, rfl⟩, numeric', opened', kept', told'⟩ := h'
  refine ⟨⟨tree', ?_, rfl⟩, numeric'.trans numeric, opened', fun none => ?_, fun some => ?_⟩
  · rw [Graft.all_append, first, ok_bind, ← numeric, second]
  · obtain ⟨rfl, rfl⟩ := List.append_eq_nil_iff.mp none
    rw [kept' rfl, kept rfl]
  · by_cases last : hs = []
    · subst last
      cases second
      rw [kept' rfl]
      exact told fun none => some (by rw [none, List.append_nil])
    · exact told' last

/-- What is left to be completed after the session has gone on with the first answer. -/
theorem Completing.rest (h : Completing lib base graft (e :: todo) d c) (d' : Document) (s' : Session)
    (hr : (loaded (.resolving e.1.path e.1.summary (base.session.generation + e.2 + 1) base.session.epoch)
      e.1.loaded).run c.session = (.ok (.finished (.resolved (graft e).isSome)), s'))
    (grafted : Grafted (graft e).toList d d' c.session s') (hm : s'.memo.Remembers lib.Recalled)
    (hc : ∀ path token epoch, s'.isCurrent path token epoch = c.session.isCurrent path token epoch)
    (ready : Graft.Ready d'.definition (todo.filterMap graft))
    (hs : ∀ e' ∈ todo, e'.1.Settles d'.definition
      (c.session.isCurrent e'.1.path (base.session.generation + e'.2 + 1) base.session.epoch) (graft e')) :
    c.outcome? (base.completion e) = some (.ok (.resolved (graft e).isSome)) ∧
      ∃ d', Grafted (graft e).toList d d' c.session (c.next (base.completion e)).session ∧
        Completing lib base graft todo d' (c.next (base.completion e)) := by
  have taken := take_answer (a := .rule e.1.loaded) (h.waits e List.mem_cons_self) rfl hr
  have next : c.next (base.completion e) = ⟨s', c.waiting.filter (·.1 ≠ base.started + e.2), c.started⟩ :=
    congrArg Prod.fst taken
  refine ⟨congrArg Prod.snd taken, d', ?_⟩
  rw [next]
  refine ⟨grafted, grafted.opened, hm, fun e' within => h.drawn e' (List.mem_cons_of_mem _ within),
    fun e' within => ?_, fun e' within => ?_, ready, (List.pairwise_cons.mp h.differ).2⟩
  · have differ : base.started + e'.2 ≠ base.started + e.2 := by
      have := (List.pairwise_cons.mp h.differ).1 e' within
      omega
    exact (lookup_filter_ne differ).trans (h.waits e' (List.mem_cons_of_mem _ within))
  · simp only [hc]
    exact hs e' within

theorem Completing.next (h : Completing lib base graft (e :: todo) d c) :
    c.outcome? (base.completion e) = some (.ok (.resolved (graft e).isSome)) ∧
      ∃ d', Grafted (graft e).toList d d' c.session (c.next (base.completion e)).session ∧
        Completing lib base graft todo d' (c.next (base.completion e)) := by
  obtain ⟨settled, settles⟩ := List.forall_mem_cons.mp h.settles
  obtain ⟨key, textual, loads⟩ := h.drawn e List.mem_cons_self
  have ready := h.ready
  obtain ⟨graft?, same⟩ : ∃ graft?, graft e = graft? := ⟨_, rfl⟩
  rw [same] at settled
  cases settled with
  | missed why =>
      -- nothing is grafted, and only the journal changes
      rw [List.filterMap_cons_none same] at ready
      have ends := gives_resolved_not e.1.summary why
      obtain ⟨p, ran, _, rfl, applied, rfl, rfl, journal, session⟩ := Gives.run (ends_loaded ends)
      refine h.rest d { c.session with journal } ?_ ?_ h.memo (fun _ _ _ => rfl) ready settles
      · rw [same]
        exact Prod.ext ran session
      · rw [same]
        exact ⟨⟨d.definition, rfl, rfl⟩, rfl, h.opened, fun _ => rfl, fun some => absurd rfl some⟩
  | @met rule f steps old new current answered checked read found chosen =>
      rw [List.filterMap_cons_some same] at ready
      rcases loads with ⟨text, uuid, version, missing⟩ | ⟨rule', loads, keeps, version, -⟩
      · cases missing.symm.trans answered
      · cases loads.symm.trans answered
        obtain ⟨tree, grafted, ready'⟩ := ready.next c.session.numeric
        obtain ⟨warnings, told⟩ := Document.warnings_eq_ok (d := { d with definition := tree }) ready'.well.leftsDeclared
        have ends := gives_resolved current h.memo keeps key version checked h.opened read found chosen grafted told
        obtain ⟨p, ran, _, rfl, applied, rfl, rfl, memo, journal, kept, session⟩ := Gives.run (ends_loaded ends)
        rw [← answered] at ran session
        refine h.rest { d with definition := tree }
          { c.session with document := some { d with definition := tree }, warnings, memo, journal }
          ?_ ?_ kept (fun _ _ _ => rfl) ready' fun e' within => ?_
        · rw [same]
          exact Prod.ext ran session
        · rw [same]
          refine ⟨⟨tree, ?_, rfl⟩, rfl, rfl, fun none => (by cases none), fun _ => told⟩
          show Graft.all c.session.numeric [⟨steps, new⟩] d.definition = .ok tree
          simp only [Graft.all, grafted, ok_bind]
        -- what the other requests are about stands apart from the place of this one
        · refine (settles e' within).apart fun g is => ?_
          have among : g ∈ todo.filterMap graft := List.mem_filterMap.mpr ⟨e', within, is⟩
          exact Graft.find_apart ((List.pairwise_cons.mp ready.apart).1 g among) grafted

/-- In whichever order requests are completed, all of their grafts come to the tree, one after another. -/
theorem Completing.run (h : Completing lib base graft todo d c) :
    (∃ d', Grafted (todo.filterMap graft) d d' c.session (c.run (todo.map base.completion)).session) ∧
      ∀ sofar e, sofar ++ [e] <+: todo →
        (c.run (sofar.map base.completion)).outcome? (base.completion e) =
          some (.ok (.resolved (graft e).isSome)) := by
  induction todo generalizing c d with
  | nil =>
      refine ⟨⟨d, ⟨d.definition, rfl, rfl⟩, rfl, h.opened, fun _ => rfl, fun some => absurd rfl some⟩, ?_⟩
      intro sofar e within
      simpa using within.length_le
  | cons first todo ih =>
      obtain ⟨outcome, d₁, once, h'⟩ := h.next
      obtain ⟨⟨d', later⟩, outcomes⟩ := ih h'
      refine ⟨⟨d', ?_⟩, fun sofar e within => ?_⟩
      · have split : (first :: todo).filterMap graft = (graft first).toList ++ todo.filterMap graft := by
          rw [List.filterMap_cons]
          cases graft first <;> rfl
        rw [split]
        exact once.trans later
      · cases sofar with
        | nil =>
            cases (List.cons_prefix_cons.mp within).1
            exact outcome
        | cons other sofar =>
            obtain ⟨same, inside⟩ := List.cons_prefix_cons.mp within
            subst same
            exact outcomes sofar e inside

end Conversation

end RuleEditor
