import RuleEditor.Proofs.Session.ParallelCalls
import RuleEditor.Proofs.Session.Staleness
import Mathlib.Data.List.Pairwise

/-!
# Conversations under other spellings

A path may be spelled in several ways. Which node it leads to is a matter of its steps, but its text is a key: requests
become stale by the texts of their paths, and labels are counted under them. Two conversations in which the same places
are named agree if their spellings are consistent. Whether they are is told by the first conversation and by the texts
of the second: a turn names a text that covers the path of a request, or one under which labels are counted in another
turn, under both of its spellings or under neither.
-/
namespace RuleEditor

open Session Editing

/-- The children of a group are told apart by their paths. -/
theorem Address.join_child_inj {path : String} {i k : Nat} :
    Address.join [path, "condition", toString i] = Address.join [path, "condition", toString k] ↔ i = k := by
  refine ⟨fun same => Address.toString_inj ?_, fun same => same ▸ rfl⟩
  by_cases empty : path = ""
  · simpa [Address.join, empty] using same
  · simpa [Address.join, empty] using same

theorem Address.covers_self (path : String) : Address.covers path path = true := by simp [Address.covers]

/-! ### What is told in a turn -/

/-- What a query finds. -/
inductive Query.Result where
  | node (n : Node)
  | operators (names : List String)
  | label (text : Value)
  | types (names : Except Fault (List String))
  | output (stored : Value)

namespace Query

/-- Looks something up, and tells what is there. -/
def reply : Query → Editing Query.Result
  | .node path => do return .node (← Session.node path)
  | .availableOperators path => do return .operators (← Session.availableOperators path)
  | .resultLabel index => do return .label (← Session.resultLabel index)
  | .otherwiseLabel => do return .label (← Session.otherwiseLabel)
  | .referenceTypes => do return .types (← Session.referenceTypes)
  | .output => do return .output (← Session.output)

/-- The query with its path spelled in another way. -/
def spelled (spelling : String → String) : Query → Query
  | .node path => .node (spelling path)
  | .availableOperators path => .availableOperators (spelling path)
  | q => q

end Query

/-- What a turn tells the user: how an edit went, what was looked up, or how a call ended, if one did. -/
inductive Told where
  | edited (result : Except Fault Unit)
  | replied (result : Except Fault Query.Result)
  | called (outcome : Option (Except Fault Outcome))

namespace Told

inductive Alike : Told → Told → Prop where
  | edited {result result' : Except Fault Unit} : SameResult result result' → Alike (.edited result) (.edited result')
  | replied {result result' : Except Fault Query.Result} : SameResult result result' →
      Alike (.replied result) (.replied result')
  | waits : Alike (.called none) (.called none)
  | ended {outcome outcome' : Except Fault Outcome} : SameResult outcome outcome' →
      Alike (.called (some outcome)) (.called (some outcome'))

end Told

namespace Turn

/-- The turn with its path spelled in another way. -/
def spelled (spelling : String → String) : Turn → Turn
  | .edit e => .edit (e.spelled spelling)
  | .query q => .query (q.spelled spelling)
  | .start errand => .start (errand.spelled spelling)
  | .answer call a => .answer call a

/-- The turns name the same place, if they name one. -/
def Respelled (turn turn' : Turn) : Prop :=
  ∃ spelling, (∀ path, Address.steps (spelling path) = Address.steps path) ∧ turn' = turn.spelled spelling

/-- The requests that a turn may make stale, by the texts of their paths. -/
def marks : Turn → List Mark
  | .edit e => e.marks
  | .start errand => errand.marks
  | _ => []

/-- The texts under which a turn may count labels, by the words of the labels. -/
def counters (place : Nat) : Turn → List (String × String)
  | .edit e => e.counters place
  | _ => []

/-- Two turns count the labels of a word under the same text in both conversations or in neither. -/
def CountsAlike (first second : Turn × Turn) : Prop :=
  ∀ place place', ∀ m ∈ (first.1.counters place).zip (first.2.counters place),
    ∀ n ∈ (second.1.counters place').zip (second.2.counters place'), n.1.1 = m.1.1 → (n.2.2 = m.2.2 ↔ n.1.2 = m.1.2)

/-- The requests that two turns may make belong together, by the texts of their paths. -/
def Asks : Turn → Turn → String → String → Prop
  | .start errand, .start errand' => errand.Asks errand'
  | _, _ => fun _ _ => False

/-- A later turn hits the requests that an earlier one may make under both of its spellings or under neither. -/
def HitsAlike (earlier later : Turn × Turn) : Prop :=
  ∀ path path', earlier.1.Asks earlier.2 path path' →
    ∀ mark ∈ later.1.marks.zip later.2.marks, mark.2.renews path' = mark.1.renews path

/-- How the paths of requests are spelled in another conversation, by the numbers of the calls, when a turn there has
started a call. A call that is not sent for a path finds out about paths by itself, and spells them alike. -/
def spellings (call : Nat) (texts : Nat → String → String) : Turn → Nat → String → String
  | .start (.resolveReference path _) => Function.update texts call fun _ => path
  | _ => texts

instance : Std.Symm CountsAlike where
  symm _ _ h place place' m hm n hn same := by
    rw [eq_comm, h place' place n hn m hm same.symm, eq_comm]

theorem counters_words (turn : Turn) (spelling : String → String) (place : Nat) :
    List.Forall₂ (fun m m' => m'.1 = m.1) (turn.counters place) ((turn.spelled spelling).counters place) := by
  cases turn with
  | edit e => exact e.counters_words spelling place
  | _ => exact .nil

/-- A turn counts the labels of a word under one text for each place. -/
theorem countsAlike_self (turn : Turn) (spelling : String → String) :
    CountsAlike (turn, turn.spelled spelling) (turn, turn.spelled spelling) := by
  have single {x x' : String × String} {m n : (String × String) × String × String} (hm : m ∈ [x].zip [x'])
      (hn : n ∈ [x].zip [x']) : n.2.2 = m.2.2 ↔ n.1.2 = m.1.2 := by
    rw [List.mem_singleton.mp hm, List.mem_singleton.mp hn]
    exact iff_of_true rfl rfl
  intro place place' m hm n hn same
  cases turn with
  | edit e =>
      cases e with
      | addCondition path => exact single hm hn
      | addBranch => exact single hm hn
      | changeConditionKind path kind | changeBranchKind index kind =>
          simp only [spelled, Edit.spelled, counters, Edit.counters] at hm hn
          revert hm hn
          split
          · exact single
          · exact fun hm => absurd hm List.not_mem_nil
      | addConditionGroup path =>
          have words : Kind.group.word ≠ Kind.comparison.word := by decide
          simp only [spelled, Edit.spelled, counters, Edit.counters, List.zip_cons_cons, List.zip_nil_right,
            List.mem_cons, List.not_mem_nil, or_false] at hm hn
          rcases hm with rfl | rfl <;> rcases hn with rfl | rfl
          · exact iff_of_true rfl rfl
          · exact absurd same words.symm
          · exact absurd same words
          · rw [Address.join_child_inj, Address.join_child_inj]
      | _ => cases hm
  | _ => cases hm

/-- In turns that correspond, labels are counted under texts that belong together. -/
def bond (turns : List (Turn × Turn)) (h : ∀ ⦃x⦄, x ∈ turns → ∀ ⦃y⦄, y ∈ turns → CountsAlike x y) : Bond where
  kept _ _ := False
  counted word text text' :=
    ∃ x ∈ turns, ∃ place, ((word, text), (word, text')) ∈ (x.1.counters place).zip (x.2.counters place)
  single := by
    rintro word p p' q q' ⟨x, hx, place, hp⟩ ⟨y, hy, place', hq⟩
    exact h hx hy place place' _ hp _ hq rfl

/-- A turn without labels counts them like any other turn. -/
theorem CountsAlike.of_free {first second : Turn × Turn} (h : ∀ place, first.1.counters place = []) :
    CountsAlike first second := by
  intro place place' m hm
  rw [h, List.zip_nil_left] at hm
  cases hm

theorem spellings_of_ne {texts : Nat → String → String} {call n : Nat} (turn : Turn) (h : n ≠ call) :
    turn.spellings call texts n = texts n := by
  unfold spellings
  split
  · exact Function.update_of_ne h _ _
  · rfl

end Turn

namespace Conversation

def told (c : Conversation) : Turn → Told
  | .edit e => .edited (e.perform.run c.session).1
  | .query q => .replied (q.reply.run c.session).1
  | t => .called (c.outcome? t)

/-- A turn hits the requests that wait and are current under both of its spellings or under neither. The requests are
those of the first conversation; their paths are spelled as `texts` tells in the second. -/
def HitsAlike (texts : Nat → String → String) (c : Conversation) (turn turn' : Turn) : Prop :=
  ∀ w ∈ c.waiting, ∀ t ∈ w.2.tickets, t.Current c.session →
    ∀ mark ∈ turn.marks.zip turn'.marks, mark.2.renews (texts w.1 t.path) = mark.1.renews t.path

/-- All turns of the conversation hit the same requests under both of their spellings. -/
def Consistent : (Nat → String → String) → Conversation → List Turn → List Turn → Prop
  | texts, c, turn :: rest, turn' :: rest' =>
    c.HitsAlike texts turn turn' ∧ Consistent (turn'.spellings c.started texts) (c.next turn) rest rest'
  | _, _, _, _ => True

/-- The conversations have the same rule open, with the same warnings, and the same calls wait in them with the same
questions. The same of their requests are current. -/
structure Alike (b : Bond) (texts : Nat → String → String → Prop) (c c' : Conversation) : Prop where
  session : Twin (b.keeping fun _ _ => False) c.session c'.session
  waiting : List.Forall₂
    (fun w w' => w'.1 = w.1 ∧ Progress.Level (texts w.1) c.session c'.session w.2 w'.2) c.waiting c'.waiting
  started : c'.started = c.started

/-- Two conversations are alike before and after each turn, and every turn tells the same in both. -/
def Agree : Conversation → Conversation → List Turn → List Turn → Prop
  | c, c', [], [] => Alike .loose (fun _ _ _ => True) c c'
  | c, c', turn :: rest, turn' :: rest' =>
    Alike .loose (fun _ _ _ => True) c c' ∧ (c.told turn).Alike (c'.told turn') ∧
      Agree (c.next turn) (c'.next turn') rest rest'
  | _, _, _, _ => False

end Conversation

/-! ### Queries -/

namespace Editing

variable {b : Bond} {path path' : String}

theorem parallel_node (h : Address.steps path' = Address.steps path) :
    Parallel b (Session.node path) (Session.node path') := by
  intro s s' twin
  unfold Session.node
  refine paired_definition twin fun d opened => ?_
  rw [atPath_respelled h]
  exact parallel_lift _ s s' twin

theorem parallel_choice : Parallel b choice choice := by
  intro s s' twin
  unfold choice
  refine paired_definition twin fun d opened => ?_
  split
  · exact parallel_pure _ s s' twin
  · exact ⟨.same _, twin⟩

theorem parallel_availableOperators (h : Address.steps path' = Address.steps path) :
    Parallel b (availableOperators path) (availableOperators path') := by
  intro s s' twin
  unfold availableOperators
  refine paired_node twin h fun node leads => paired_lift twin fun c known => paired_get ?_
  rw [twin.catalogue]
  exact paired_lift twin fun type typed => parallel_lift _ s s' twin

theorem parallel_output : Parallel b output output := by
  intro s s' twin
  unfold output
  refine paired_definition twin fun d opened => paired_lift twin fun _ formed => ?_
  exact paired_openDocument twin fun d opened => parallel_lift _ s s' twin

end Editing

namespace Query

variable {b : Bond} {spelling : String → String}

/-- The same is found under two spellings of a path, and nothing is changed that counts. -/
theorem parallel (q : Query) (hs : ∀ path, Address.steps (spelling path) = Address.steps path) :
    Parallel b q.reply (q.spelled spelling).reply ∧ Parallel b q.perform (q.spelled spelling).perform := by
  have both {α : Type} {op op' : Editing α} (h : Parallel b op op') (reply : α → Query.Result) :
      Parallel b (op >>= fun a => pure (reply a)) (op' >>= fun a => pure (reply a)) ∧
        Parallel b (op >>= fun _ => pure ()) (op' >>= fun _ => pure ()) :=
    ⟨h.then fun _ => parallel_pure _, h.then fun _ => parallel_pure _⟩
  cases q with
  | node path => exact both (parallel_node (hs path)) .node
  | availableOperators path => exact both (parallel_availableOperators (hs path)) .operators
  | resultLabel index => exact both (parallel_choice.then fun c => parallel_lift _) .label
  | otherwiseLabel => exact both (parallel_choice.then fun c => parallel_lift _) .label
  | referenceTypes => exact both parallel_referenceTypes .types
  | output => exact both parallel_output .output

end Query

/-- The two calls have ended, or both of them wait. -/
theorem Progress.Alike.finished_or {p p' : Progress} (alike : p.Alike p') :
    (∃ outcome, p = .finished outcome ∧ p' = .finished outcome) ∨
      ((∀ outcome, p ≠ .finished outcome) ∧ ∀ outcome, p' ≠ .finished outcome) := by
  cases alike with
  | same =>
      cases p with
      | finished outcome => exact .inl ⟨outcome, rfl, rfl⟩
      | _ => exact .inr ⟨nofun, nofun⟩
  | resolving => exact .inr ⟨nofun, nofun⟩
  | refreshing => exact .inr ⟨nofun, nofun⟩

/-! ### One turn -/

namespace Conversation

variable {b : Bond} {texts : Nat → String → String} {related related' : Nat → String → String → Prop}
  {c c' : Conversation} {turn turn' : Turn} {call : Nat} {spelling : String → String}

/-- The current requests that wait in the first conversation are hit alike in the second, under whichever texts belong
together. -/
def Hits (related : Nat → String → String → Prop) (c : Conversation) (turn turn' : Turn) : Prop :=
  ∀ w ∈ c.waiting, ∀ t ∈ w.2.tickets, t.Current c.session → ∀ path', related w.1 t.path path' →
    ∀ mark ∈ turn.marks.zip turn'.marks, mark.2.renews path' = mark.1.renews t.path

/-- After a turn the same texts belong together as before, and those for which the turn asks. -/
structure Extends (c : Conversation) (turn turn' : Turn) (related related' : Nat → String → String → Prop) : Prop where
  kept : ∀ n < c.started, ∀ path path', related n path path' → related' n path path'
  asked : ∀ path path', turn.Asks turn' path path' → related' c.started path path'

/-- The bond of a turn keeps the requests that are level before it, and that it hits under both of its spellings or
under neither. -/
def bond (b : Bond) (c c' : Conversation) (turn turn' : Turn) : Bond :=
  b.keeping fun t t' => t.Level c.session c'.session t' ∧
    ∀ mark ∈ turn.marks.zip turn'.marks, mark.2.renews t'.path = mark.1.renews t.path

theorem bond_agrees (h : turn'.marks.length = turn.marks.length) :
    List.Forall₂ (bond b c c' turn turn').Agrees turn.marks turn'.marks :=
  List.forall₂_iff_zip.mpr ⟨h.symm, fun among _ _ kept => kept.2 _ among⟩

theorem Alike.kept (alike : Alike b related c c') : Twin (bond b c c' turn turn') c.session c'.session :=
  alike.session.rebind (fun _ _ kept => kept.1) alike.session.counts

theorem Alike.loosen (alike : Alike b related c c') : Alike .loose (fun _ _ _ => True) c c' where
  session := alike.session.rebind nofun nofun
  started := alike.started
  waiting := alike.waiting.imp fun _ _ h => ⟨h.1, h.2.mono fun _ _ _ => trivial⟩

/-- What is related place by place is related in another way, if that holds for all of the first list. -/
theorem forall₂_imp_mem {α β : Type} {P Q : α → β → Prop} {xs : List α} {ys : List β} (h : List.Forall₂ P xs ys)
    (hn : ∀ x ∈ xs, ∀ y, P x y → Q x y) : List.Forall₂ Q xs ys := by
  induction h with
  | nil => exact .nil
  | cons first _ ih =>
      obtain ⟨here, below⟩ := List.forall_mem_cons.mp hn
      exact .cons (here _ first) (ih below)

/-- The calls that wait stay level in the sessions that are left by a turn. -/
theorem Alike.waiting_after {s s' : Session} (alike : Alike b related c c') (hn : c.Numbered)
    (he : c.Extends turn turn' related related') (hits : c.Hits related turn turn')
    (twin : Twin (bond b c c' turn turn') s s') (wanes : Wanes c.session s) (wanes' : Wanes c'.session s') :
    List.Forall₂ (fun w w' => w'.1 = w.1 ∧ Progress.Level (related' w.1) s s' w.2 w'.2) c.waiting c'.waiting := by
  refine forall₂_imp_mem alike.waiting fun w waits w' h => ⟨h.1, Progress.Level.mono ?_ (he.kept _ (hn _ _ waits))⟩
  refine ⟨h.2.alike, forall₂_imp_mem h.2.tickets fun t asked t' ticket => ⟨ticket.1, ?_⟩, h.2.opening⟩
  exact Ticket.Level.after (b := bond b c c' turn turn') ticket.2
    (fun current => ⟨ticket.2, hits w waits t asked current _ ticket.1⟩) twin wanes wanes'

theorem proceed_failed {op : Editing Progress} {fault : Fault} {t : Session}
    (h : op.run c.session = (.error fault, t)) :
    proceed call op c = ({ c with session := t }, some (.error fault)) := by
  unfold proceed
  rw [h]

theorem proceed_finished {op : Editing Progress} {outcome : Outcome} {t : Session}
    (h : op.run c.session = (.ok (.finished outcome), t)) :
    proceed call op c = ({ c with session := t }, some (.ok outcome)) := by
  unfold proceed
  rw [h]

theorem proceed_going {op : Editing Progress} {p : Progress} {t : Session} (hr : op.run c.session = (.ok p, t))
    (hg : ∀ outcome, p ≠ .finished outcome) :
    proceed call op c = ({ c with session := t, waiting := (call, p) :: c.waiting }, none) := by
  unfold proceed
  rw [hr]
  cases p with
  | finished outcome => exact absurd rfl (hg outcome)
  | _ => rfl

/-- Calls that are paired go on alike. -/
theorem Alike.proceed {op op' : Editing Progress} {r r' : Conversation} (hs : r.session = c.session)
    (hs' : r'.session = c'.session)
    (h : Proceeds (bond b c c' turn turn') (related call) op op' c.session c'.session)
    (hw : List.Forall₂
      (fun w w' => w'.1 = w.1 ∧ Progress.Level (related w.1) (op.run c.session).2 (op'.run c'.session).2 w.2 w'.2)
      r.waiting r'.waiting) (ht : r'.started = r.started) :
    Alike b related (proceed call op r).1 (proceed call op' r').1 ∧
      (Told.called (proceed call op r).2).Alike (.called (proceed call op' r').2) := by
  unfold Proceeds Paired at h
  rw [← hs, ← hs'] at h hw
  cases ran : op.run r.session with
  | mk result t =>
      cases ran' : op'.run r'.session with
      | mk result' t' =>
          rw [ran, ran'] at h hw
          cases result with
          | error fault =>
              cases result' with
              | error fault' =>
                  rw [proceed_failed ran, proceed_failed ran']
                  exact ⟨⟨h.2.rebind nofun h.2.counts, hw, ht⟩, .ended h.1⟩
              | ok p' => exact h.elim
          | ok p =>
              cases result' with
              | error fault' => exact h.elim
              | ok p' =>
                  obtain ⟨level, twin⟩ := h
                  have loose : Twin (b.keeping fun _ _ => False) t t' := twin.rebind nofun twin.counts
                  rcases level.alike.finished_or with ⟨outcome, rfl, rfl⟩ | ⟨going, going'⟩
                  · rw [proceed_finished ran, proceed_finished ran']
                    exact ⟨⟨loose, hw, ht⟩, .ended rfl⟩
                  · rw [proceed_going ran going, proceed_going ran' going']
                    exact ⟨⟨loose, .cons ⟨rfl, level⟩ hw, ht⟩, .waits⟩

/-! ### Each sort of turn -/

/-- Labels are counted under texts that belong together. -/
def Counts (b : Bond) (turn turn' : Turn) : Prop :=
  ∀ place, ∀ m ∈ (turn.counters place).zip (turn'.counters place), b.counted m.1.1 m.1.2 m.2.2

/-- The conversations are alike after a turn, and the turn tells the same in both. -/
def AlikeAfter (b : Bond) (related : Nat → String → String → Prop) (c c' : Conversation) (turn turn' : Turn) : Prop :=
  Alike b related (c.next turn) (c'.next turn') ∧ (c.told turn).Alike (c'.told turn')

theorem Alike.edit (alike : Alike b related c c') (hn : c.Numbered)
    (hs : ∀ path, Address.steps (spelling path) = Address.steps path) (e : Edit)
    (he : c.Extends (.edit e) (.edit (e.spelled spelling)) related related')
    (hits : c.Hits related (.edit e) (.edit (e.spelled spelling)))
    (counts : Counts b (.edit e) (.edit (e.spelled spelling))) :
    AlikeAfter b related' c c' (.edit e) (.edit (e.spelled spelling)) := by
  have decides : e.Decides (bond b c c' (.edit e) (.edit (e.spelled spelling))) (e.spelled spelling) := by
    refine ⟨bond_agrees (e.length_marks hs), fun place => ?_⟩
    have words := List.forall₂_iff_zip.mp (e.counters_words spelling place)
    exact List.forall₂_iff_zip.mpr ⟨words.1, fun among => ⟨words.2 among, counts place _ among⟩⟩
  have together := e.paired hs alike.kept decides
  have twin := together.twin fun _ _ _ _ good => good.2
  have waiting := alike.waiting_after hn he hits twin (wanes_next c (.edit e)) (wanes_next c' (.edit _))
  exact ⟨⟨twin.rebind nofun twin.counts, waiting, alike.started⟩, .edited together.result⟩

theorem Alike.query (alike : Alike b related c c') (hn : c.Numbered)
    (hs : ∀ path, Address.steps (spelling path) = Address.steps path) (q : Query)
    (he : c.Extends (.query q) (.query (q.spelled spelling)) related related')
    (hits : c.Hits related (.query q) (.query (q.spelled spelling))) :
    AlikeAfter b related' c c' (.query q) (.query (q.spelled spelling)) := by
  obtain ⟨replies, performs⟩ := q.parallel (b := bond b c c' (.query q) (.query (q.spelled spelling))) hs
  have twin := (performs _ _ alike.kept).twin fun _ _ _ _ good => good.2
  have waiting := alike.waiting_after hn he hits twin (wanes_next c (.query q)) (wanes_next c' (.query _))
  exact ⟨⟨twin.rebind nofun twin.counts, waiting, alike.started⟩, .replied (replies _ _ alike.kept).result⟩

theorem Alike.start (alike : Alike b related c c') (hn : c.Numbered)
    (hs : ∀ path, Address.steps (spelling path) = Address.steps path) (errand : Errand)
    (he : c.Extends (.start errand) (.start (errand.spelled spelling)) related related')
    (hits : c.Hits related (.start errand) (.start (errand.spelled spelling))) :
    AlikeAfter b related' c c' (.start errand) (.start (errand.spelled spelling)) := by
  have length : (errand.spelled spelling).marks.length = errand.marks.length := by cases errand <;> rfl
  have proceeds : Proceeds (bond b c c' (.start errand) (.start (errand.spelled spelling))) (related' c.started)
      errand.start (errand.spelled spelling).start c.session c'.session :=
    errand.proceeds hs (bond_agrees length) he.asked alike.kept
  have wanes := session_start errand ▸ wanes_next c (.start errand)
  have wanes' := session_start (errand.spelled spelling) ▸ wanes_next c' (.start (errand.spelled spelling))
  have waiting := alike.waiting_after hn he hits proceeds.twin wanes wanes'
  show Alike _ _ (Conversation.proceed c.started _ _).1 (Conversation.proceed c'.started _ _).1 ∧
    (Told.called (Conversation.proceed c.started _ _).2).Alike (.called (Conversation.proceed c'.started _ _).2)
  rw [alike.started]
  exact Alike.proceed rfl rfl proceeds waiting rfl

theorem lookup_level {P : Nat → Progress → Progress → Prop} {ws ws' : List (Nat × Progress)}
    (h : List.Forall₂ (fun w w' => w'.1 = w.1 ∧ P w.1 w.2 w'.2) ws ws') (call : Nat) :
    Option.Rel (P call) (ws.lookup call) (ws'.lookup call) := by
  induction h with
  | nil => exact .none
  | @cons w w' rest rest' first below ih =>
      rw [List.lookup_cons, List.lookup_cons, first.1]
      split
      · rename_i here
        exact .some (beq_iff_eq.mp here ▸ first.2)
      · exact ih

/-- An answer that is not waited for changes nothing. -/
theorem take_unwaited {a : Answer} (h : (c.waiting.lookup call).bind (·.resume a) = none) :
    c.take (.answer call a) = (c, none) := by
  unfold take
  simp only [h]

theorem take_waited {a : Answer} {op : Editing Progress}
    (h : (c.waiting.lookup call).bind (·.resume a) = some op) :
    c.take (.answer call a) = proceed call op { c with waiting := c.waiting.filter (·.1 ≠ call) } := by
  unfold take
  simp only [h]

theorem Alike.answer (alike : Alike b related c c') (hn : c.Numbered) (call : Nat) (a : Answer)
    (he : c.Extends (.answer call a) (.answer call a) related related')
    (hits : c.Hits related (.answer call a) (.answer call a)) :
    AlikeAfter b related' c c' (.answer call a) (.answer call a) := by
  have kept : Twin (bond b c c' (.answer call a) (.answer call a)) c.session c'.session := alike.kept
  have level : List.Forall₂ (fun w w' => w'.1 = w.1 ∧ Progress.Level (related' w.1) c.session c'.session w.2 w'.2)
      c.waiting c'.waiting := alike.waiting_after hn he hits kept (.refl _) (.refl _)
  have resumed : Option.Rel
      (fun op op' => Proceeds (bond b c c' (.answer call a) (.answer call a)) (related' call) op op' c.session
        c'.session)
      ((c.waiting.lookup call).bind (·.resume a)) ((c'.waiting.lookup call).bind (·.resume a)) := by
    have waits := lookup_level (P := fun n => Progress.Level (related' n) c.session c'.session) level call
    generalize c.waiting.lookup call = found, c'.waiting.lookup call = found' at waits ⊢
    cases waits with
    | none => exact .none
    | some level =>
        -- an answer hits nothing, so that all requests are kept
        exact level.alike.resume (level.tickets.imp fun _ _ ticket => ⟨ticket.1, ticket.2, nofun⟩) level.opening kept a
  simp only [AlikeAfter, told, outcome?]
  generalize waited : (c.waiting.lookup call).bind (·.resume a) = goes,
    waited' : (c'.waiting.lookup call).bind (·.resume a) = goes' at resumed
  cases resumed with
  | none =>
      rw [next, next, take_unwaited waited, take_unwaited waited']
      exact ⟨⟨alike.session, level, alike.started⟩, .waits⟩
  | @some op op' proceeds =>
      have wanes := wanes_next c (.answer call a)
      have wanes' := wanes_next c' (.answer call a)
      rw [next, take_waited waited, proceed_session] at wanes
      rw [next, take_waited waited', proceed_session] at wanes'
      have waiting := alike.waiting_after hn he hits proceeds.twin wanes wanes'
      rw [next, next, take_waited waited, take_waited waited']
      refine Alike.proceed rfl rfl proceeds (List.rel_filter (fun {w w'} same => ?_) waiting) alike.started
      simp only [same.1]

/-- A turn that names the same place, spelled in another way, goes alike if its texts hit the same requests, and labels
are counted under texts that belong together. -/
theorem Alike.next (alike : Alike b related c c') (hn : c.Numbered)
    (hs : ∀ path, Address.steps (spelling path) = Address.steps path)
    (he : c.Extends turn (turn.spelled spelling) related related')
    (hits : c.Hits related turn (turn.spelled spelling)) (counts : Counts b turn (turn.spelled spelling)) :
    AlikeAfter b related' c c' turn (turn.spelled spelling) := by
  cases turn with
  | edit e => exact alike.edit hn hs e he hits counts
  | query q => exact alike.query hn hs q he hits
  | start errand => exact alike.start hn hs errand he hits
  | answer call a => exact alike.answer hn call a he hits

/-! ### Whole conversations -/

/-- A path is spelled in the second conversation as `texts` tells. -/
def Spelt (texts : Nat → String → String) (call : Nat) (path path' : String) : Prop := path' = texts call path

/-- A call that has not been started yet is not spelled in another way. -/
def Unspelt (texts : Nat → String → String) (c : Conversation) : Prop :=
  ∀ n, c.started ≤ n → ∀ path, texts n path = path

theorem Unspelt.next (h : Unspelt texts c) (turn : Turn) :
    Unspelt ((turn.spelled spelling).spellings c.started texts) (c.next turn) := by
  intro n later path
  cases turn with
  | start errand =>
      rw [started_next] at later
      rw [Turn.spellings_of_ne _ (Nat.ne_of_gt later)]
      exact h n (Nat.le_of_succ_le later) path
  | _ => exact h n (Nat.le_trans (started_le c _) later) path

/-- The texts of the second conversation that belong to requests are those that its turns name. -/
theorem Unspelt.extends (h : Unspelt texts c) (turn : Turn) :
    c.Extends turn (turn.spelled spelling) (Spelt texts)
      (Spelt ((turn.spelled spelling).spellings c.started texts)) where
  kept n before path path' spelt := by
    rw [Spelt, Turn.spellings_of_ne _ (Nat.ne_of_lt before)]
    exact spelt
  asked path path' asks := by
    cases turn with
    | start errand =>
        cases errand with
        | resolveReference place summary =>
            cases asks
            exact congrFun (Function.update_self c.started (fun _ => spelling path) texts).symm path
        | openRule | refreshReferences =>
            cases asks
            exact (h c.started (Nat.le_refl _) path).symm
        | _ => cases asks
    | _ => exact asks.elim

theorem HitsAlike.hits (h : c.HitsAlike texts turn turn') : c.Hits (Spelt texts) turn turn' := by
  rintro w waits t asked current _ rfl
  exact h w waits t asked current

theorem Alike.agree {turns turns' : List Turn} (alike : Alike b (Spelt texts) c c') (hn : c.Numbered)
    (hf : Unspelt texts c) (hr : List.Forall₂ Turn.Respelled turns turns') (hh : c.Consistent texts turns turns')
    (hc : ∀ t ∈ turns.zip turns', Counts b t.1 t.2) : Agree c c' turns turns' := by
  induction hr generalizing texts c c' with
  | nil => exact alike.loosen
  | cons respelled hr ih =>
      obtain ⟨spelling, spells, rfl⟩ := respelled
      obtain ⟨hits, hh⟩ := hh
      obtain ⟨counts, hc⟩ := List.forall_mem_cons.mp hc
      obtain ⟨after, told⟩ := alike.next hn spells (hf.extends _) hits.hits counts
      exact ⟨alike.loosen, told, ih after (hn.next _) (hf.next _) hh hc⟩

theorem Alike.agree_of_texts {asked : String → String → Prop} {turns turns' : List Turn}
    (alike : Alike b (fun _ => asked) c c') (hn : c.Numbered) (hr : List.Forall₂ Turn.Respelled turns turns')
    (ha : ∀ t ∈ turns.zip turns', ∀ path path', asked path path' → ∀ mark ∈ t.1.marks.zip t.2.marks,
      mark.2.renews path' = mark.1.renews path)
    (hh : (turns.zip turns').Pairwise Turn.HitsAlike) (hc : ∀ t ∈ turns.zip turns', Counts b t.1 t.2) :
    Agree c c' turns turns' := by
  -- the requests that are asked for grow with every turn, and later turns hit all of them alike
  induction hr generalizing asked c c' with
  | nil => exact alike.loosen
  | @cons turn turn' rest rest' respelled hr ih =>
      obtain ⟨spelling, spells, rfl⟩ := respelled
      rw [List.zip_cons_cons] at ha hh hc
      obtain ⟨here, ha⟩ := List.forall_mem_cons.mp ha
      obtain ⟨first, hh⟩ := List.pairwise_cons.mp hh
      obtain ⟨counts, hc⟩ := List.forall_mem_cons.mp hc
      have grows : c.Extends turn (turn.spelled spelling) (fun _ => asked)
          fun _ path path' => asked path path' ∨ turn.Asks (turn.spelled spelling) path path' :=
        ⟨fun _ _ _ _ => .inl, fun _ _ => .inr⟩
      obtain ⟨after, told⟩ := alike.next hn spells grows (fun _ _ t _ _ path' => here t.path path') counts
      refine ⟨alike.loosen, told, ih after (hn.next _) (fun t among path path' asks => ?_) hh hc⟩
      exact asks.elim (ha t among path path') (first t among path path')

theorem Agree.last {turns turns' : List Turn} (agree : Agree c c' turns turns') :
    Alike .loose (fun _ _ _ => True) (c.run turns) (c'.run turns') := by
  induction turns generalizing c c' turns' with
  | nil =>
      cases turns' with
      | nil => exact agree
      | cons turn' rest' => exact agree.elim
  | cons turn rest ih =>
      cases turns' with
      | nil => exact agree.elim
      | cons turn' rest' =>
          show Alike .loose _ ((c.next turn).run rest) ((c'.next turn').run rest')
          exact ih agree.2.2

theorem alike_opening (b : Bond) (related : Nat → String → String → Prop) (catalogue : Catalogue) (settings : Settings)
    (id : String) (connected : Bool) : Alike b related (opening (.start catalogue settings id connected))
      (opening (.start catalogue settings id connected)) where
  waiting := .nil
  started := rfl
  session :=
    { catalogue := rfl, settings := rfl, id := rfl, connected := rfl, numeric := rfl, document := rfl, isNew := rfl,
      warnings := rfl, memo := rfl, epoch := rfl, booked := nofun, booked' := nofun, level := nofun,
      counts := fun _ _ _ _ => rfl }

/-- Turns that name the same places count labels under texts that belong together, if any two of them do. -/
theorem exists_bond {turns turns' : List Turn} (hr : List.Forall₂ Turn.Respelled turns turns')
    (hc : (turns.zip turns').Pairwise Turn.CountsAlike) :
    ∃ b : Bond, ∀ t ∈ turns.zip turns', Counts b t.1 t.2 := by
  have self : ∀ x ∈ turns.zip turns', Turn.CountsAlike x x := by
    rintro ⟨turn, turn'⟩ among
    obtain ⟨spelling, -, rfl⟩ := (List.forall₂_iff_zip.mp hr).2 among
    exact turn.countsAlike_self spelling
  have all : ∀ ⦃x⦄, x ∈ turns.zip turns' → ∀ ⦃y⦄, y ∈ turns.zip turns' → Turn.CountsAlike x y :=
    List.Pairwise.forall_of_forall self hc
  refine ⟨Turn.bond _ all, ?_⟩
  rintro ⟨turn, turn'⟩ among place m within
  obtain ⟨spelling, -, rfl⟩ := (List.forall₂_iff_zip.mp hr).2 among
  have word := (List.forall₂_iff_zip.mp (turn.counters_words spelling place)).2 within
  refine ⟨_, among, place, ?_⟩
  rwa [Prod.eta, ← word]

/-- How paths are spelled does not matter if it is consistent. In every session, two runs of turns that name the same
places tell the same in every turn, have the same rule open, with the same warnings, and wait with the same questions
throughout, if every turn hits the same of the requests that wait in the first run under both of its spellings, by the
texts of their paths, and if any two turns count labels under the same text in both runs or in neither. -/
theorem agree_of_consistent (catalogue : Catalogue) (settings : Settings) (id : String) (connected : Bool)
    (turns turns' : List Turn) (hr : List.Forall₂ Turn.Respelled turns turns')
    (hh : (opening (.start catalogue settings id connected)).Consistent (fun _ path => path) turns turns')
    (hc : (turns.zip turns').Pairwise Turn.CountsAlike) :
    Agree (opening (.start catalogue settings id connected)) (opening (.start catalogue settings id connected))
      turns turns' := by
  obtain ⟨b, counts⟩ := exists_bond hr hc
  exact (alike_opening b _ catalogue settings id connected).agree (numbered_opening _) (fun _ _ _ => rfl) hr hh counts

/-- The spellings are consistent if the turns alone tell so: any later one of them hits the requests that an earlier
one may make under both of its spellings or under neither. -/
theorem agree_of_texts (catalogue : Catalogue) (settings : Settings) (id : String) (connected : Bool)
    (turns turns' : List Turn) (hr : List.Forall₂ Turn.Respelled turns turns')
    (hh : (turns.zip turns').Pairwise Turn.HitsAlike) (hc : (turns.zip turns').Pairwise Turn.CountsAlike) :
    Agree (opening (.start catalogue settings id connected)) (opening (.start catalogue settings id connected))
      turns turns' := by
  obtain ⟨b, counts⟩ := exists_bond hr hc
  exact (alike_opening b (fun _ _ _ => False) catalogue settings id connected).agree_of_texts (numbered_opening _) hr
    (fun _ _ _ _ none => none.elim) hh counts

/-! ### Texts that decide -/

/-- What the node at a path is called. -/
def nameAt (c : Conversation) (path : String) : Except Fault Value := (c.session.tree.atPath path).bind Node.name

theorem Alike.nameAt (alike : Alike b related c c') (path : String) : c'.nameAt path = c.nameAt path := by
  unfold Conversation.nameAt
  rw [alike.session.tree]

/-- One text is replaced by another. -/
def respell (text text' path : String) : String := if path = text then text' else path

theorem steps_respell {text text' : String} (h : Address.steps text' = Address.steps text) (path : String) :
    Address.steps (respell text text' path) = Address.steps path := by
  unfold respell
  split
  · rename_i here
    rw [here, h]
  · rfl

/-- A condition is added, removed, and added again. -/
def growing (text text' : String) : List Turn :=
  [.edit (.newRule (.text "condition") .null .null .null .null), .edit (.addCondition text),
    .edit (.removeCondition (text ++ "-condition-1")), .edit (.addCondition text')]

/-- While the rule for a check is being loaded, the check is turned into a comparison and back. -/
def reverting (text text' : String) : List Turn :=
  [.edit (.newRule (.text "case") .null .null .null .null), .edit (.changeBranchKind 0 (.text "ruleRef")),
    .start (.resolveReference text selected), .edit (.changeConditionKind text' (.text "condition")),
    .edit (.changeConditionKind text' (.text "ruleRef")), .answer 0 (.rule (.ok adult))]

theorem respelled_refl (turn : Turn) : turn.Respelled turn := by
  refine ⟨id, fun _ => rfl, ?_⟩
  cases turn with
  | edit e => cases e <;> rfl
  | query q => cases q <;> rfl
  | start errand => cases errand <;> rfl
  | answer call a => rfl

/-- A turn that names a path is spelled in another way if that path is. -/
theorem respelled_at {text text' : String} (h : Address.steps text' = Address.steps text) (turn : String → Turn)
    (ht : ∀ spelling, (turn text).spelled spelling = turn (spelling text)) : (turn text).Respelled (turn text') := by
  refine ⟨respell text text', steps_respell h, ?_⟩
  rw [ht, respell, if_pos rfl]

theorem growing_respelled {text other other' : String} (h : Address.steps other' = Address.steps other) :
    List.Forall₂ Turn.Respelled (growing text other) (growing text other') :=
  .cons (respelled_refl _) (.cons (respelled_refl _) (.cons (respelled_refl _)
    (.cons (respelled_at h (fun path => .edit (.addCondition path)) fun _ => rfl) .nil)))

theorem HitsAlike.of_nil (h : c.waiting = []) : c.HitsAlike texts turn turn' := by
  intro w waits
  rw [h] at waits
  cases waits

theorem HitsAlike.of_single {p : Progress} {t : Ticket} {mark mark' : Mark} (h : c.waiting = [(call, p)])
    (ht : p.tickets = [t]) (hm : turn.marks = [mark]) (hm' : turn'.marks = [mark'])
    (hs : mark'.renews (texts call t.path) = mark.renews t.path) : c.HitsAlike texts turn turn' := by
  intro w waits r asked current
  rw [h] at waits
  cases List.mem_singleton.mp waits
  rw [ht] at asked
  cases List.mem_singleton.mp asked
  rw [hm, hm']
  exact List.forall_mem_singleton.mpr hs

theorem reverting_respelled {text other text' other' : String} (h : Address.steps text' = Address.steps text)
    (h' : Address.steps other' = Address.steps other) :
    List.Forall₂ Turn.Respelled (reverting text other) (reverting text' other') := by
  have changed (kind : String) :=
    respelled_at h' (fun path => .edit (.changeConditionKind path (.text kind))) fun _ => rfl
  exact .cons (respelled_refl _) (.cons (respelled_refl _)
    (.cons (respelled_at h (fun path => .start (.resolveReference path selected)) fun _ => rfl)
    (.cons (changed _) (.cons (changed _) (.cons (respelled_refl _) .nil)))))

theorem reverting_counts (text text' : String) :
    ((reverting text text).zip (reverting text' text')).Pairwise Turn.CountsAlike := by
  have free : ∀ x ∈ (reverting text text).zip (reverting text' text'), ∀ place, x.1.counters place = [] := by
    simp only [reverting, List.zip_cons_cons, List.zip_nil_right, List.forall_mem_cons]
    exact ⟨fun _ => rfl, fun _ => rfl, fun _ => rfl, fun _ => rfl, fun _ => rfl, fun _ => rfl,
      List.forall_mem_nil _⟩
  exact List.pairwise_of_forall_mem_list fun x hx y _ => .of_free (free x hx)

theorem reverting_consistent :
    (opening served).Consistent (fun _ path => path) (reverting "case-when-0" "case-when-0")
      (reverting "root-when-0" "root-when-0") := by
  have one {c : Conversation} (h : c.waiting = [(0, .loading (.text "u-adult") (.int 2)
      (.resolving "case-when-0" selected 1 1))]) (kind : String) :
      c.HitsAlike (Function.update (fun _ path => path) 0 fun _ => "root-when-0")
        (.edit (.changeConditionKind "case-when-0" (.text kind)))
        (.edit (.changeConditionKind "root-when-0" (.text kind))) := by
    refine .of_single h rfl rfl rfl ?_
    rw [Function.update_self]
    exact (Address.covers_self _).trans (Address.covers_self _).symm
  exact ⟨.of_nil rfl, .of_nil (by rfl), .of_nil (by rfl), one (by rfl) _, one (by rfl) _,
    fun _ _ _ _ _ => List.forall_mem_nil _, trivial⟩

/-- The request is discarded under each of the roots. -/
theorem reverting_agrees :
    List.Forall₂ Turn.Respelled (reverting "case-when-0" "case-when-0") (reverting "root-when-0" "root-when-0") ∧
      (opening served).Consistent (fun _ path => path) (reverting "case-when-0" "case-when-0")
        (reverting "root-when-0" "root-when-0") ∧
      ((reverting "case-when-0" "case-when-0").zip (reverting "root-when-0" "root-when-0")).Pairwise
        Turn.CountsAlike ∧
      Agree (opening served) (opening served) (reverting "case-when-0" "case-when-0")
        (reverting "root-when-0" "root-when-0") ∧
      ((opening served).run (reverting "root-when-0" "root-when-0")).nameAt "case-when-0" =
        .ok (.text "Condition 1") := by
  have respelled : List.Forall₂ Turn.Respelled (reverting "case-when-0" "case-when-0")
      (reverting "root-when-0" "root-when-0") := reverting_respelled (by rfl) (by rfl)
  have consistent := reverting_consistent
  have counts := reverting_counts "case-when-0" "root-when-0"
  have fresh : served = .start catalogue _ "es" true := rfl
  rw [fresh] at consistent ⊢
  have agree := agree_of_consistent catalogue _ "es" true _ _ respelled consistent counts
  exact ⟨respelled, consistent, counts, agree, by rfl⟩

/-- A request becomes stale by its text, and labels are counted on under the text of the path of their group. -/
theorem texts_decide :
    List.Forall₂ Turn.Respelled (reverting "case-when-0" "case-when-0") (reverting "case-when-0" "root-when-0") ∧
      ((opening served).run (reverting "case-when-0" "case-when-0")).nameAt "case-when-0" =
        .ok (.text "Condition 1") ∧
      ((opening served).run (reverting "case-when-0" "root-when-0")).nameAt "case-when-0" = .ok (.text "IS_ADULT") ∧
      ¬ Agree (opening served) (opening served) (reverting "case-when-0" "case-when-0")
        (reverting "case-when-0" "root-when-0") ∧
      List.Forall₂ Turn.Respelled (growing "root" "root") (growing "root" "case") ∧
      ((opening served).run (growing "root" "root")).nameAt "root-condition-1" = .ok (.text "Condition 3") ∧
      ((opening served).run (growing "root" "case")).nameAt "root-condition-1" = .ok (.text "Condition 2") ∧
      ¬ Agree (opening served) (opening served) (growing "root" "root") (growing "root" "case") := by
  have discarded : ((opening served).run (reverting "case-when-0" "case-when-0")).nameAt "case-when-0" =
      .ok (.text "Condition 1") := by rfl
  have applied : ((opening served).run (reverting "case-when-0" "root-when-0")).nameAt "case-when-0" =
      .ok (.text "IS_ADULT") := by rfl
  have counted : ((opening served).run (growing "root" "root")).nameAt "root-condition-1" =
      .ok (.text "Condition 3") := by rfl
  have afresh : ((opening served).run (growing "root" "case")).nameAt "root-condition-1" =
      .ok (.text "Condition 2") := by rfl
  refine ⟨reverting_respelled rfl (by rfl), discarded, applied, fun agree => ?_, growing_respelled (by rfl), counted,
    afresh, fun agree => ?_⟩
  · have same := agree.last.nameAt "case-when-0"
    rw [discarded, applied] at same
    simp at same
  · have same := agree.last.nameAt "root-condition-1"
    rw [counted, afresh] at same
    simp at same

end Conversation

end RuleEditor
