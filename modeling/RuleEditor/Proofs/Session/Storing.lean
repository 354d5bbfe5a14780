import RuleEditor.Proofs.Session.Saving
import RuleEditor.Proofs.Session.Seated

/-!
# Storing a new rule

A save decides when it starts whether it creates the rule or writes another version of it. While a rule is being
created it still counts as unsaved, so a save that starts then creates it once more. As long as no save does, a rule
is created once, and all that is written afterwards are versions of it.
-/
namespace RuleEditor

open Session Editing

/-- The rule that a version is written of; none if a rule is created. -/
def Write.onto? : Write → Option Value
  | .create _ => none
  | .update uuid _ | .restore uuid _ => some uuid

/-- The store may give this answer: it creates a rule and gives it an identity, and what is written of a rule is a
version of that rule. -/
def Write.Answered : Write → Except Fault Saved → Prop
  | .create _, answer => ∃ saved, answer = .ok saved ∧ saved.uuid.isPresent = true
  | .update uuid _, answer | .restore uuid _, answer => ∀ saved, answer = .ok saved → saved.uuid = uuid

/-- What a call asks the store to write. -/
def Progress.write? : Progress → Option Write
  | .writing write _ => some write
  | _ => none

/-! ### Calls that ask the store for nothing -/

/-- Whatever becomes of the call, it asks the store to write nothing. -/
def Silent (op : Editing Progress) : Prop :=
  ∀ s, Ends op s (fun p _ => p.write? = none) (fun _ _ => True)

theorem silent_pure {p : Progress} (h : p.write? = none) : Silent (pure p) := fun _ => ends_pure h

theorem silent_throw (fault : Fault) : Silent (throw fault) := fun _ => ends_throw trivial

theorem silent_bind {α : Type} {op : Editing α} {f : α → Editing Progress} (h : ∀ a, Silent (f a)) :
    Silent (op >>= f) :=
  fun s => ends_bind ((ends_trivially op s).mono (fun a s' _ => h a s') fun _ _ _ => trivial)

namespace Session

theorem silent_openRule (uuid version : Value) : Silent (openRule uuid version) :=
  silent_bind fun _ => silent_pure rfl

theorem silent_searchReferences (query : Value) : Silent (searchReferences query) := by
  refine silent_bind fun types => ?_
  cases types with
  | error fault => exact silent_pure rfl
  | ok types => exact silent_bind fun _ => silent_pure rfl

theorem silent_resolveReference (path : String) (summary : Summary) : Silent (resolveReference path summary) :=
  silent_bind fun _ => silent_bind fun _ => silent_bind fun _ => silent_bind fun _ => silent_pure rfl

theorem silent_advance (opening : Bool) (r : Refresh) (targets : List (String × Reference)) :
    Silent (advance opening r targets) := by
  induction targets generalizing r with
  | nil => exact silent_bind fun _ => silent_pure (by unfold refreshOutcome; split <;> rfl)
  | cons target rest ih =>
      unfold advance
      refine silent_bind fun s => silent_bind fun found => ?_
      split
      · exact ih _
      · exact silent_bind fun _ => silent_pure rfl

theorem silent_refresh (opening : Bool) : Silent (refresh opening) :=
  silent_bind fun _ => silent_bind fun _ => silent_bind fun _ => silent_advance opening _ _

theorem silent_refreshed (opening : Bool) (r : Refresh) (answer : Except Fault Document) :
    Silent (refreshed opening r answer) := by
  unfold refreshed
  split
  · exact silent_advance opening r []
  · exact silent_bind fun _ => silent_advance opening _ _
  · exact silent_bind fun _ => silent_advance opening r _
  · exact silent_throw _

theorem silent_loaded (next : AfterLoad) (answer : Except Fault Document) : Silent (loaded next answer) := by
  unfold loaded
  split
  · exact silent_bind fun _ => silent_bind fun _ => silent_refresh true
  · exact silent_bind fun _ => silent_pure rfl
  · exact silent_refreshed _ _ answer

theorem silent_found (answer : Except Fault (List Summary)) : Silent (found answer) := by
  unfold found
  split
  · exact silent_pure rfl
  · exact silent_bind fun _ => silent_pure rfl
  · exact silent_throw _

theorem silent_written (next : AfterWrite) (answer : Except Fault Saved) : Silent (written next answer) := by
  refine silent_bind fun saved => ?_
  cases next with
  | saving => exact silent_bind fun _ => silent_bind fun _ => silent_bind fun _ => silent_pure rfl
  | restoring uuid version => exact silent_bind fun _ => silent_pure rfl

/-- A version is restored of a rule that is stored. -/
theorem restore_spec {s : Session} (version : Int) : Ends (restore version) s
    (fun p _ => ∃ d, s.document = some d ∧ d.isStored = true ∧
      p = .writing (.restore d.uuid version) (.restoring d.uuid version)) (fun _ _ => True) := by
  unfold restore
  refine bind_get ?_
  cases opened : s.document with
  | none => exact ends_throw trivial
  | some d =>
      cases stored : d.isStored with
      | false => simpa only [stored, Bool.false_eq_true, if_false] using ends_throw trivial
      | true => simpa only [stored, if_true] using ends_pure ⟨d, rfl, stored, rfl⟩

theorem silent_reread (saved : Saved) (answer : Except Fault Document) : Silent (reread saved answer) :=
  silent_bind fun _ => silent_bind fun _ => silent_pure rfl

end Session

/-- A call that goes on with an answer asks the store to write nothing more. -/
theorem Progress.silent_resume {p : Progress} {a : Answer} {op : Editing Progress} (h : p.resume a = some op) :
    Silent op := by
  unfold resume at h
  split at h <;> cases h
  · exact silent_loaded _ _
  · exact silent_found _
  · exact silent_written _ _
  · exact silent_reread _ _

/-! ### The identity of the rule -/

namespace Session

variable {sc : Scope} {s s' : Session}

def uuid? (s : Session) : Option Value := s.document.map (·.uuid)

/-- A session that takes up no other rule, and that the store answers nothing, keeps the identity of its rule. -/
theorem Move.keeps_uuid (hn : ¬ sc.may .takeUp) (hu : ¬ sc.may .store) (move : Move sc s s') :
    s'.uuid? = s.uuid? := by
  have committed {t : Session} {d : Document} (opened : s.document = some d) (tree : Node) :
      (t.committed d tree).uuid? = s.uuid? := by
    rw [uuid?, uuid?, opened]
    rfl
  cases move with
  | aside aside => exact congrArg (Option.map Document.uuid) aside.document
  | remember => rfl
  | place _ _ opened => exact committed opened _
  | recast _ opened => exact committed opened _
  | choose _ _ _ opened => exact committed opened _
  | recheck _ opened => exact committed opened _
  | store _ _ may => exact absurd may hu
  | restart may | create _ may | load _ may => exact absurd may hn

theorem Moves.keeps_uuid (hn : ¬ sc.may .takeUp) (hu : ¬ sc.may .store) (moves : Moves sc s s') :
    s'.uuid? = s.uuid? := by
  induction moves with
  | refl => rfl
  | tail _ move ih => exact (move.keeps_uuid hn hu).trans ih

end Session

namespace Conversation

variable {c : Conversation} {turn : Turn} {turns : List Turn} {n : Nat} {p : Progress} {write : Write} {uuid : Value}

/-! ### What the store is asked and what it answers -/

/-- What the store is asked to write when a call goes on. -/
def asks (op : Editing Progress) (s : Session) : Option Write :=
  match (op.run s).1 with
  | .ok p => p.write?
  | .error _ => none

/-- What the store is asked to write with a turn. -/
def write? (c : Conversation) : Turn → Option Write
  | .start errand => asks errand.start c.session
  | .answer call a => ((c.waiting.lookup call).bind (·.resume a)).bind fun op => asks op c.session
  | .edit _ | .query _ => none

/-- All that the store is asked to write, in order. -/
def writes (c : Conversation) : List Turn → List Write
  | [] => []
  | turn :: rest => (c.write? turn).toList ++ (c.next turn).writes rest

/-- The identity that the store gives the rule with a turn, if it answers a save that the rule has been created. -/
def created? (c : Conversation) : Turn → Option Value
  | .answer call (.version (.ok saved)) =>
    match c.waiting.lookup call with
    | some (.writing (.create _) .saving) => some saved.uuid
    | _ => none
  | _ => none

/-- The identities of all rules that the store creates, in order. -/
def created (c : Conversation) : List Turn → List Value
  | [] => []
  | turn :: rest => (c.created? turn).toList ++ (c.next turn).created rest

/-- A call saves the rule and waits until this has been written. -/
def Saves (c : Conversation) (call : Nat) (write : Write) : Prop := (call, .writing write .saving) ∈ c.waiting

/-- A save is started and asks the store for a write while the creation of a rule has not been answered. -/
def Overlaps (c : Conversation) (turn : Turn) : Prop :=
  turn = .start .save ∧ (c.write? turn).isSome = true ∧ ∃ call d, c.Saves call (.create d)

/-- The store answers with the turn as it may. -/
def Faithful (c : Conversation) (turn : Turn) : Prop :=
  ∀ call answer write next, turn = .answer call (.version answer) →
    c.waiting.lookup call = some (.writing write next) → write.Answered answer

theorem asks_eq_some {op : Editing Progress} {s : Session} (h : asks op s = some write) :
    ∃ next, (op.run s).1 = .ok (.writing write next) := by
  unfold asks at h
  split at h
  · rename_i p ran
    cases p <;> cases h
    exact ⟨_, ran⟩
  · cases h

theorem not_asks_of_silent {op : Editing Progress} (silent : Silent op) (s : Session) : asks op s = none := by
  cases asked : asks op s with
  | none => rfl
  | some write =>
      obtain ⟨next, ran⟩ := asks_eq_some asked
      cases (silent s).ok ran

theorem asks_of_ran {op : Editing Progress} {s : Session} {next : AfterWrite}
    (h : (op.run s).1 = .ok (.writing write next)) : asks op s = some write := by
  rw [asks, h]
  rfl

/-- Only saves and restorations ask for writes, and only a save of an unsaved rule asks to create it. -/
theorem write?_eq_some (asked : c.write? turn = some write) : ∃ d, c.session.document = some d ∧
    ((turn = .start .save ∧ write = if d.isStored then .update d.uuid d else .create d) ∨
      (d.isStored = true ∧ ∃ version, turn = .start (.restore version) ∧ write = .restore d.uuid version)) := by
  have silently {op : Editing Progress} (silent : Silent op) (asked : asks op c.session = some write) : False := by
    cases (not_asks_of_silent silent c.session).symm.trans asked
  cases turn with
  | edit e => cases asked
  | query q => cases asked
  | answer call a =>
      obtain ⟨op, resumes, asked⟩ := Option.bind_eq_some_iff.mp asked
      obtain ⟨p, -, resumed⟩ := Option.bind_eq_some_iff.mp resumes
      exact (silently (p.silent_resume resumed) asked).elim
  | start errand =>
      cases errand with
      | openRule uuid version => exact (silently (silent_openRule uuid version) asked).elim
      | searchReferences query => exact (silently (silent_searchReferences query) asked).elim
      | resolveReference path summary => exact (silently (silent_resolveReference path summary) asked).elim
      | refreshReferences => exact (silently (silent_refresh false) asked).elim
      | save =>
          obtain ⟨next, ran⟩ := asks_eq_some asked
          obtain ⟨-, d, opened, same⟩ := save_spec.ok ran
          cases same
          exact ⟨d, opened, .inl ⟨rfl, rfl⟩⟩
      | restore version =>
          obtain ⟨next, ran⟩ := asks_eq_some asked
          obtain ⟨d, opened, stored, same⟩ := (restore_spec version).ok ran
          cases same
          exact ⟨d, opened, .inr ⟨stored, version, rfl, rfl⟩⟩

/-- A save waits with what it has asked the store for when it was started. -/
theorem saves_of_next (saves : (c.next turn).Saves n write) :
    c.Saves n write ∨ (n = c.started ∧ turn = .start .save ∧ c.write? turn = some write) := by
  cases waits_of_mem saves with
  | still waits => exact .inl waits
  | answered _ resumed ran => cases (Progress.silent_resume resumed c.session).ok ran
  | @begun errand same ran =>
      cases errand with
      | save => exact .inr ⟨same, rfl, asks_of_ran ran⟩
      | restore version =>
          obtain ⟨_, _, _, other⟩ := (restore_spec version).ok ran
          cases other
      | openRule _ _ => cases (silent_openRule _ _ c.session).ok ran
      | searchReferences _ => cases (silent_searchReferences _ c.session).ok ran
      | resolveReference _ _ => cases (silent_resolveReference _ _ c.session).ok ran
      | refreshReferences => cases (silent_refresh _ c.session).ok ran

theorem lookup_proceed {call : Nat} (h : n ≠ call) (op : Editing Progress) (c : Conversation) :
    (proceed call op c).1.waiting.lookup n = c.waiting.lookup n := by
  unfold proceed
  split
  · rfl
  · rw [List.lookup_cons, beq_eq_false_iff_ne.mpr h]
  · rfl

/-- A call waits with the same until it goes on with an answer. -/
theorem lookup_next (hg : n < c.started)
    (hu : ∀ a, turn = .answer n a → (c.waiting.lookup n).bind (·.resume a) = none) :
    (c.next turn).waiting.lookup n = c.waiting.lookup n := by
  cases turn with
  | edit e => rfl
  | query q => rfl
  | start errand => exact lookup_proceed (Nat.ne_of_lt hg) errand.start { c with started := c.started + 1 }
  | answer call a =>
      unfold next take
      simp only
      split
      · rename_i op resumes
        have differ : n ≠ call := by
          rintro rfl
          cases resumes.symm.trans (hu a rfl)
        rw [lookup_proceed differ]
        exact lookup_filter_ne differ
      · rfl

/-- As long as no other rule is taken up, only the answer to a save can change the identity of the rule. -/
theorem uuid?_next (hn : ¬ c.TakesUp turn) (hu : ¬ c.Does turn .store) :
    (c.next turn).session.uuid? = c.session.uuid? := (moves_doing c turn).keeps_uuid hn hu

theorem does_store_iff : c.Does turn .store ↔ ∃ call saved write, turn = .answer call (.version (.ok saved)) ∧
    c.waiting.lookup call = some (.writing write .saving) := by
  constructor
  · intro does
    cases turn with
    | edit e => cases e <;> cases does
    | query q => cases does
    | start errand => cases does
    | answer call a =>
        obtain ⟨p, waits, does⟩ := does
        unfold Progress.Does at does
        split at does
        · rename_i deed
          cases deed
        · rename_i deed
          cases deed
        · exact ⟨_, _, _, rfl, waits⟩
        · cases does
  · rintro ⟨call, saved, write, rfl, waits⟩
    exact ⟨_, waits, trivial⟩

/-- The answer to a save gives the rule its identity. -/
theorem document_saved {call : Nat} {saved : Saved} {d : Document}
    (hw : c.waiting.lookup call = some (.writing write .saving)) (ho : c.session.document = some d) :
    (c.next (.answer call (.version (.ok saved)))).session.document =
      some { d with uuid := saved.uuid, version := saved.version } := by
  have ran : ((written .saving (.ok saved)).run c.session).2 = c.session.stored saved d := by
    obtain ⟨s, _, _⟩ := c
    cases s
    cases ho
    rfl
  rw [session_answer hw rfl, ran]
  rfl

theorem created?_eq_some (h : c.created? turn = some uuid) :
    ∃ call saved d, turn = .answer call (.version (.ok saved)) ∧
      c.waiting.lookup call = some (.writing (.create d) .saving) ∧ saved.uuid = uuid := by
  unfold created? at h
  split at h
  · rename_i call saved
    split at h
    · rename_i d waits
      exact ⟨call, saved, d, rfl, waits, Option.some.inj h⟩
    · cases h
  · cases h

theorem created?_of_not_does (h : ¬ c.Does turn .store) : c.created? turn = none := by
  cases created : c.created? turn with
  | none => rfl
  | some uuid =>
      obtain ⟨call, saved, d, same, waits, -⟩ := created?_eq_some created
      exact absurd (does_store_iff.mpr ⟨call, saved, _, same, waits⟩) h

/-- A save waits with the write that it asks for. -/
theorem lookup_saving (h : c.write? (.start .save) = some write) :
    c.saving.waiting.lookup c.started = some (.writing write .saving) := by
  obtain ⟨next, ran⟩ := asks_eq_some h
  obtain ⟨-, d, -, same⟩ := save_spec.ok ran
  cases same
  unfold saving Conversation.next take proceed
  simp only
  split <;> rename_i same <;> cases ran.symm.trans (congrArg Prod.fst same)
  exact List.lookup_cons_self

/-! ### How far the rule has come -/

/-- The open rule has no identity yet. -/
def Unsaved (c : Conversation) : Prop := ∃ uuid, c.session.uuid? = some uuid ∧ uuid.isPresent = false

/-- How far the storing of a rule has come: it is unsaved, a call waits until it is created, or it has an identity. -/
inductive Stage where
  | unsaved
  | creating (call : Nat)
  | stored (uuid : Value)

/-- The conversation has come to a stage, and no save waits that belongs to another one. -/
def At (c : Conversation) : Stage → Prop
  | .unsaved => c.Unsaved ∧ ∀ call write, ¬ c.Saves call write
  | .creating n => c.Unsaved ∧ n < c.started ∧ (∃ d, c.waiting.lookup n = some (.writing (.create d) .saving)) ∧
      ∀ call write, c.Saves call write → call = n
  | .stored uuid => c.session.uuid? = some uuid ∧ uuid.isPresent = true ∧
      ∀ call write, c.Saves call write → ∃ d, write = .update uuid d

theorem Unsaved.next (unsaved : c.Unsaved) (hs : ¬ c.TakesUp turn) (hu : ¬ c.Does turn .store) :
    (c.next turn).Unsaved := by
  obtain ⟨uuid, has, missing⟩ := unsaved
  exact ⟨uuid, (uuid?_next hs hu).trans has, missing⟩

/-- Only a save asks for a write of an unsaved rule, and it asks to create it. -/
theorem Unsaved.write?_eq_some (unsaved : c.Unsaved) (ha : c.write? turn = some write) :
    turn = .start .save ∧ ∃ d, write = .create d := by
  obtain ⟨uuid, has, missing⟩ := unsaved
  obtain ⟨d, opened, ⟨start, same⟩ | ⟨stored, -⟩⟩ := Conversation.write?_eq_some ha <;>
    rw [uuid?, opened] at has <;> cases has
  · rw [Document.isStored, missing, if_neg Bool.false_ne_true] at same
    exact ⟨start, d, same⟩
  · cases missing.symm.trans stored

/-- All that is asked to be written of a stored rule are versions of it. -/
theorem write?_stored (has : c.session.uuid? = some uuid) (hp : uuid.isPresent = true)
    (ha : c.write? turn = some write) :
    write.onto? = some uuid ∧ (turn = .start .save → ∃ d, write = .update uuid d) := by
  obtain ⟨d, opened, ⟨start, same⟩ | ⟨stored, version, start, rfl⟩⟩ := write?_eq_some ha <;>
    rw [uuid?, opened] at has <;> cases has
  · rw [Document.isStored, hp, if_pos rfl] at same
    subst same
    exact ⟨rfl, fun _ => ⟨d, rfl⟩⟩
  · exact ⟨rfl, fun save => nomatch start.symm.trans save⟩

/-! ### One turn -/

/-- The session stays with its rule, and the store answers as it may. -/
structure Keeps (c : Conversation) (turn : Turn) : Prop where
  stays : ¬ c.TakesUp turn
  faithful : c.Faithful turn

/-- Nothing is created of a rule that is unsaved, unless it is to be created from now on. -/
theorem unsaved_next (ha : c.At .unsaved) (keeps : c.Keeps turn) : ¬ c.Overlaps turn ∧ c.created? turn = none ∧
    ((c.write? turn = none ∧ (c.next turn).At .unsaved) ∨
      ∃ d, c.write? turn = some (.create d) ∧ (c.next turn).At (.creating c.started)) := by
  obtain ⟨unsaved, idle⟩ := ha
  have unanswered : ¬ c.Does turn .store := by
    intro does
    obtain ⟨call, saved, write, -, waits⟩ := does_store_iff.mp does
    exact idle call write (mem_of_lookup waits)
  have still := unsaved.next keeps.stays unanswered
  refine ⟨fun ⟨_, _, call, d, saves⟩ => idle call _ saves, created?_of_not_does unanswered, ?_⟩
  · cases asked : c.write? turn with
    | none =>
        refine .inl ⟨rfl, still, fun call write saves => ?_⟩
        rcases saves_of_next saves with saves | ⟨-, -, asks⟩
        · exact idle call write saves
        · cases asked.symm.trans asks
    | some write =>
        obtain ⟨rfl, d, rfl⟩ := unsaved.write?_eq_some asked
        refine .inr ⟨d, rfl, still, ?_, ⟨d, ?_⟩, fun call write saves => ?_⟩
        · rw [started_next]
          exact Nat.lt_succ_self _
        · exact lookup_saving asked
        · rcases saves_of_next saves with saves | ⟨same, -⟩
          · exact absurd saves (idle call write)
          · exact same

/-- While the rule is being created, it is either created with the turn, or it is still being created afterwards. A
save that starts then asks to create it once more. -/
theorem creating_next (ha : c.At (.creating n)) (keeps : c.Keeps turn) :
    (c.Overlaps turn → ∃ d, c.write? turn = some (.create d)) ∧
      (¬ c.Overlaps turn → c.write? turn = none ∧
        ((c.created? turn = none ∧ (c.next turn).At (.creating n)) ∨
          ∃ uuid, c.created? turn = some uuid ∧ (c.next turn).At (.stored uuid))) := by
  obtain ⟨unsaved, given, ⟨d, waits⟩, alone⟩ := ha
  constructor
  · rintro ⟨-, asks, -⟩
    obtain ⟨write, asked⟩ := Option.isSome_iff_exists.mp asks
    obtain ⟨-, d, rfl⟩ := unsaved.write?_eq_some asked
    exact ⟨d, asked⟩
  intro apart
  have silent : c.write? turn = none := by
    cases asked : c.write? turn with
    | none => rfl
    | some write =>
        refine absurd ⟨(unsaved.write?_eq_some asked).1, ?_, n, d, mem_of_lookup waits⟩ apart
        rw [asked]
        rfl
  have further {call : Nat} {write : Write} (saves : (c.next turn).Saves call write) : c.Saves call write := by
    rcases saves_of_next saves with saves | ⟨-, -, asks⟩
    · exact saves
    · cases silent.symm.trans asks
  refine ⟨silent, ?_⟩
  by_cases does : c.Does turn .store
  · obtain ⟨call, saved, write, rfl, waits'⟩ := does_store_iff.mp does
    cases alone call write (mem_of_lookup waits')
    cases waits.symm.trans waits'
    obtain ⟨_, same, present⟩ := keeps.faithful n (.ok saved) _ _ rfl waits
    cases same
    obtain ⟨uuid, has, -⟩ := unsaved
    obtain ⟨first, opened, -⟩ := Option.map_eq_some_iff.mp has
    refine .inr ⟨saved.uuid, ?_, ?_, present, fun call write saves => ?_⟩
    · simp only [created?, waits]
    · rw [uuid?, document_saved waits opened]
      rfl
    · -- the call that was answered has come to its end, and no other one saves
      cases alone call write (further saves)
      have ran := (not_mem_answered waits rfl saves).1
      cases (silent_written .saving (.ok saved) c.session).ok ran
  · refine .inl ⟨created?_of_not_does does, unsaved.next keeps.stays does,
      Nat.lt_of_lt_of_le given (started_le c turn), ⟨d, ?_⟩, fun call write saves => alone call write (further saves)⟩
    rw [lookup_next given ?_, waits]
    rintro a rfl
    rw [waits]
    cases a with
    | version answer =>
        obtain ⟨saved, rfl, -⟩ := keeps.faithful n answer _ _ rfl waits
        exact absurd (does_store_iff.mpr ⟨n, saved, _, rfl, waits⟩) does
    | _ => rfl

/-- Once the rule has been created it stays the same rule, and all that is written are versions of it. -/
theorem stored_next (ha : c.At (.stored uuid)) (keeps : c.Keeps turn) : ¬ c.Overlaps turn ∧ c.created? turn = none ∧
    (∀ write, c.write? turn = some write → write.onto? = some uuid) ∧ (c.next turn).At (.stored uuid) := by
  obtain ⟨has, present, versions⟩ := ha
  refine ⟨?_, ?_, fun write asked => (write?_stored has present asked).1, ?_, present, fun call write saves => ?_⟩
  · rintro ⟨-, -, call, d, saves⟩
    obtain ⟨_, no⟩ := versions call _ saves
    cases no
  · cases created : c.created? turn with
    | none => rfl
    | some uuid =>
        obtain ⟨call, saved, d, -, waits, -⟩ := created?_eq_some created
        obtain ⟨_, no⟩ := versions call _ (mem_of_lookup waits)
        cases no
  · by_cases does : c.Does turn .store
    · obtain ⟨call, saved, write, rfl, waits⟩ := does_store_iff.mp does
      obtain ⟨d, rfl⟩ := versions call write (mem_of_lookup waits)
      obtain ⟨live, opened, -⟩ := Option.map_eq_some_iff.mp has
      rw [uuid?, document_saved waits opened, ← keeps.faithful call (.ok saved) _ _ rfl waits saved rfl]
      rfl
    · rw [uuid?_next keeps.stays does, has]
  · rcases saves_of_next saves with saves | ⟨-, start, asked⟩
    · exact versions call write saves
    · exact (write?_stored has present asked).2 start

/-! ### Whole runs -/

/-- No save is started that asks for a write while the creation of a rule has not been answered. -/
abbrev Apart : Conversation → List Turn → Prop := Throughout fun c turn => ¬ c.Overlaps turn

/-- The store is asked to create so many rules at most, and whatever else it is asked to write are versions of the one
rule that it has created. -/
structure Stores (c : Conversation) (rules : Nat) (turns : List Turn) : Prop where
  creations : (c.writes turns).countP (·.onto?.isNone) ≤ rules
  versions : ∀ write ∈ c.writes turns, ∀ uuid, write.onto? = some uuid → c.created turns = [uuid]

theorem stores_silent {rules : Nat} (hs : c.write? turn = none) (hn : c.created? turn = none) :
    c.Stores rules (turn :: turns) ↔ (c.next turn).Stores rules turns := by
  have same : c.writes (turn :: turns) = (c.next turn).writes turns := by rw [writes, hs]; rfl
  have alike : c.created (turn :: turns) = (c.next turn).created turns := by rw [created, hn]; rfl
  constructor
  · rintro ⟨creations, versions⟩
    exact ⟨same ▸ creations, fun write within => alike ▸ versions write (same ▸ within)⟩
  · rintro ⟨creations, versions⟩
    exact ⟨same ▸ creations, fun write within => alike ▸ versions write (same ▸ within)⟩

theorem stores_create {rules : Nat} {d : Document} (ha : c.write? turn = some (.create d))
    (hn : c.created? turn = none) : c.Stores (rules + 1) (turn :: turns) ↔ (c.next turn).Stores rules turns := by
  have same : c.writes (turn :: turns) = .create d :: (c.next turn).writes turns := by rw [writes, ha]; rfl
  have alike : c.created (turn :: turns) = (c.next turn).created turns := by rw [created, hn]; rfl
  have count : (c.writes (turn :: turns)).countP (·.onto?.isNone) =
      ((c.next turn).writes turns).countP (·.onto?.isNone) + 1 := by
    rw [same, List.countP_cons_of_pos rfl]
  constructor
  · rintro ⟨creations, versions⟩
    refine ⟨by omega, fun write within => alike ▸ versions write ?_⟩
    rw [same]
    exact List.mem_cons_of_mem _ within
  · rintro ⟨creations, versions⟩
    refine ⟨by omega, fun write within uuid onto => ?_⟩
    rw [same] at within
    rcases List.mem_cons.mp within with rfl | within
    · cases onto
    · exact alike.trans (versions write within uuid onto)

theorem stored_run (ha : c.At (.stored uuid)) (hk : Throughout Keeps c turns) :
    c.Apart turns ∧ c.created turns = [] ∧ ∀ write ∈ c.writes turns, write.onto? = some uuid := by
  induction turns generalizing c with
  | nil => exact ⟨trivial, rfl, nofun⟩
  | cons turn rest ih =>
      obtain ⟨apart, none, version, after⟩ := stored_next ha hk.1
      obtain ⟨further, nothing, versions⟩ := ih after hk.2
      refine ⟨⟨apart, further⟩, ?_, fun write within => ?_⟩
      · rw [created, none, nothing]
        rfl
      · rcases List.mem_append.mp within with here | there
        · exact version write (Option.mem_toList.mp here)
        · exact versions write there

/-- While a rule is being created, no other one is created exactly if no save overlaps. -/
theorem creating_run (ha : c.At (.creating n)) (hk : Throughout Keeps c turns) :
    c.Stores 0 turns ↔ c.Apart turns := by
  induction turns generalizing c with
  | nil => exact iff_of_true ⟨Nat.le_refl 0, nofun⟩ trivial
  | cons turn rest ih =>
      obtain ⟨again, once⟩ := creating_next ha hk.1
      by_cases overlaps : c.Overlaps turn
      · obtain ⟨d, asked⟩ := again overlaps
        refine iff_of_false (fun stores => ?_) fun apart => apart.1 overlaps
        have none := stores.creations
        rw [writes, asked, Option.toList_some, List.singleton_append, List.countP_cons_of_pos rfl] at none
        exact Nat.not_succ_le_zero _ none
      · obtain ⟨silent, ⟨none, after⟩ | ⟨uuid, gives, after⟩⟩ := once overlaps
        · exact (stores_silent silent none).trans ((ih after hk.2).trans (and_iff_right overlaps).symm)
        · obtain ⟨apart, nothing, versions⟩ := stored_run after hk.2
          have same : c.writes (turn :: rest) = (c.next turn).writes rest := by rw [writes, silent]; rfl
          have alone : c.created (turn :: rest) = [uuid] := by rw [created, gives, nothing]; rfl
          refine iff_of_true ⟨?_, fun write within other onto => ?_⟩ ⟨overlaps, apart⟩
          · rw [same, Nat.le_zero, List.countP_eq_zero]
            intro write within
            rw [versions write within]
            exact Bool.false_ne_true
          · rw [same] at within
            cases (versions write within).symm.trans onto
            exact alone

/-- Of an unsaved rule one is created at most, exactly if no save overlaps with the creation. -/
theorem unsaved_run (ha : c.At .unsaved) (hk : Throughout Keeps c turns) : c.Stores 1 turns ↔ c.Apart turns := by
  induction turns generalizing c with
  | nil => exact iff_of_true ⟨Nat.zero_le 1, nofun⟩ trivial
  | cons turn rest ih =>
      obtain ⟨apart, none, ⟨silent, after⟩ | ⟨d, asked, after⟩⟩ := unsaved_next ha hk.1
      · exact (stores_silent silent none).trans ((ih after hk.2).trans (and_iff_right apart).symm)
      · exact (stores_create asked none).trans ((creating_run after hk.2).trans (and_iff_right apart).symm)

/-- An unsaved rule is stored once, and all that is saved are versions of what has been created, exactly if no save is
started while the creation of the rule has not been answered. -/
theorem stored_once_iff (c : Conversation) (turns : List Turn) {d : Document} (ho : c.session.document = some d)
    (hu : d.isStored = false) (hi : ∀ call write, ¬ c.Saves call write) (hk : Throughout Keeps c turns) :
    c.Stores 1 turns ↔ c.Apart turns := by
  have at? : c.At .unsaved := ⟨⟨d.uuid, by rw [uuid?, ho]; rfl, hu⟩, hi⟩
  exact unsaved_run at? hk

/-- A new rule. -/
def begun : Conversation := (opening plain).run [.edit (.newRule (.text "expression") .null .null .null .null)]

/-- The store answers a call with a version of a rule. -/
def storing (call : Nat) (uuid : String) (version : Int) : Turn :=
  .answer call (.version (.ok ⟨.text uuid, .int version, .null⟩))

theorem keeps_start (c : Conversation) (errand : Errand) : c.Keeps (.start errand) := ⟨nofun, nofun⟩

theorem keeps_storing {call : Nat} {uuid : String} {version : Int} {next : AfterWrite}
    (hw : c.waiting.lookup call = some (.writing write next))
    (answered : write.Answered (.ok ⟨.text uuid, .int version, .null⟩)) : c.Keeps (storing call uuid version) := by
  constructor
  · rintro ⟨p, waits', takes⟩
    obtain ⟨d, no, -⟩ := p.does_takeUp takes
    cases no
  · intro call' answer write' next' same waits'
    cases same
    cases hw.symm.trans waits'
    exact answered

/-- The new rule is saved and changed while that is under way, and then it is saved again. -/
def savingInTurn : List Turn :=
  [.start .save, .edit (.setExpression "root" (.field (.text "number") (.text "AGE"))), storing 0 "s-1" 1, .start .save,
    storing 1 "s-1" 2]

theorem saving_in_turn :
    begun.session.document.map (·.isStored) = some false ∧ Throughout Keeps begun savingInTurn ∧
      (begun.writes savingInTurn).map (·.onto?) = [none, some (.text "s-1")] ∧ begun.Stores 1 savingInTurn := by
  have keeps : Throughout Keeps begun savingInTurn := by
    refine ⟨keeps_start _ _, ⟨fun takes => takes, nofun⟩, keeps_storing rfl ⟨_, rfl, rfl⟩, keeps_start _ _,
      keeps_storing rfl ?_, trivial⟩
    rintro _ ⟨⟩
    rfl
  have apart : begun.Apart savingInTurn := by
    refine ⟨?_, nofun, nofun, ?_, nofun, trivial⟩ <;> rintro ⟨-, -, call, d, saves⟩ <;> exact List.not_mem_nil saves
  exact ⟨rfl, keeps, rfl, (stored_once_iff begun savingInTurn rfl rfl nofun keeps).mpr apart⟩

/-- The new rule is saved again before it has been created. -/
def savingTwice : List Turn := [.start .save, .start .save, storing 0 "s-1" 1, storing 1 "s-2" 1]

/-- Two rules are created, and the open rule is the second one of them. -/
theorem saving_twice_creates_two :
    begun.session.document.map (·.isStored) = some false ∧ (∀ call write, ¬ begun.Saves call write) ∧
      Throughout Keeps begun savingTwice ∧ begun.created savingTwice = [.text "s-1", .text "s-2"] ∧
      (begun.run savingTwice).session.uuid? = some (.text "s-2") ∧ ¬ begun.Stores 1 savingTwice := by
  refine ⟨rfl, nofun, ?_, rfl, rfl, fun stores => ?_⟩
  · exact ⟨keeps_start _ _, keeps_start _ _, keeps_storing rfl ⟨_, rfl, rfl⟩, keeps_storing rfl ⟨_, rfl, rfl⟩, trivial⟩
  · have two : (begun.writes savingTwice).countP (·.onto?.isNone) = 2 := rfl
    have one := stores.creations
    omega

end Conversation

end RuleEditor
