import RuleEditor.Proofs.Session.Edits
import RuleEditor.Session.Conversation

/-!
# Errands as moves

Errands are made of moves as well, up to each question and from each answer on. Only the selection of a rule for
a reference leaves a request for a path behind, its ticket; an answer to it is put in place while the ticket is
current, and otherwise nothing about the rule changes.
-/
namespace RuleEditor

/-- The check has found what is known, and references are still to come that are looked up. -/
structure Refresh.Sound (sc : Scope) (r : Refresh) : Prop where
  remaining : ∀ entry ∈ r.remaining, sc.listed entry.2
  checked : ∀ entry ∈ r.checked, sc.found entry.2.1.uuid entry.2.1.version entry.2.2

namespace Progress

/-- The request for a path that a call waits with. -/
def ticket? : Progress → Option Ticket
  | .loading _ _ (.resolving path _ token epoch) => some ⟨path, token, epoch⟩
  | _ => none

/-- A call asks for what it goes on with: the rule that was selected, or the one of the reference that a check
has come to. -/
def Coherent (sc : Scope) : Progress → Prop
  | .loading uuid version (.resolving _ summary _ _) => uuid = summary.uuid ∧ version = summary.version
  | .loading uuid version (.refreshing r _) =>
    r.Sound sc ∧
      ∃ path target rest, r.remaining = (path, target) :: rest ∧ uuid = target.uuid ∧ version = target.version
  | _ => True

/-- The call has no ticket, and it asks for what it goes on with. -/
structure Rests (sc : Scope) (p : Progress) : Prop where
  ticket : p.ticket? = none
  coherent : p.Coherent sc

end Progress

namespace Session

open Editing

variable {α β : Type} {sc : Scope} {s s' : Session}

/-- An operation is made of moves, and its result satisfies `P` if it has one. -/
def Runs (sc : Scope) (op : Editing α) (s : Session) (P : α → Prop) : Prop :=
  Ends op s (fun a s' => Moves sc s s' ∧ P a) (fun _ s' => Moves sc s s')

theorem runs_bind {op : Editing α} {f : α → Editing β} {P : α → Prop} {R : β → Prop} (h : Runs sc op s P)
    (hn : ∀ a s', Moves sc s s' → P a → Runs sc (f a) s' R) : Runs sc (op >>= f) s R :=
  ends_bind (h.mono
    (fun a s' first => (hn a s' first.1 first.2).mono (fun _ _ later => ⟨first.1.trans later.1, later.2⟩)
      (fun _ _ => first.1.trans))
    (fun _ _ failed => failed))

theorem runs_pure {a : α} {P : α → Prop} (h : P a) : Runs sc (pure a) s P := ends_pure ⟨.refl, h⟩

theorem runs_of_moves {op : Editing Unit} (h : Ends op s (fun _ => Moves sc s) (fun _ => Moves sc s)) :
    Runs sc op s fun _ => True :=
  h.mono (fun _ _ moved => ⟨moved, trivial⟩) (fun _ _ moved => moved)

theorem runs_note (e : Event) : Runs sc (note e) s fun _ => True := runs_of_moves (note_moves .refl)

theorem runs_noteHere (e : Event) : Runs sc (noteHere e) s fun _ => True := runs_of_moves (noteHere_moves .refl)

theorem bind_requireService {f : Unit → Editing β} {Q : β → Session → Prop} {E : Fault → Session → Prop}
    (hb : s.connected = false → ∀ fault, E fault s) (hg : s.connected = true → Ends (f ()) s Q E) :
    Ends (requireService >>= f) s Q E := by
  refine ends_bind ?_
  unfold requireService
  refine bind_get ?_
  cases served : s.connected with
  | true => exact ends_pure (hg served)
  | false => exact ends_throw (hb served _)

/-! ### Searching -/

theorem referenceTypes_aside : Ends referenceTypes s (fun _ => Aside .none s) (fun _ => Aside .none s) := by
  unfold referenceTypes
  refine bind_get ?_
  split
  · exact ends_pure (.refl s)
  · split
    · exact ends_pure (.refl s)
    · exact bind_note (ends_pure ((Aside.refl s).also s.numbering s.expansion _))

theorem referenceTypes_runs : Runs sc referenceTypes s fun _ => True :=
  referenceTypes_aside.mono (fun _ _ aside => ⟨aside.moves, trivial⟩) fun _ _ aside => aside.moves

theorem searchReferences_runs (query : Value) : Runs sc (searchReferences query) s (·.Rests sc) := by
  unfold searchReferences
  refine runs_bind referenceTypes_runs fun types s' _ _ => ?_
  split
  · exact runs_pure ⟨rfl, trivial⟩
  · exact bind_requireService (fun _ _ => .refl) fun _ => runs_pure ⟨rfl, trivial⟩

theorem found_runs (answer : Except Fault (List Summary)) : Runs sc (found answer) s (·.Rests sc) := by
  unfold found
  split
  · exact runs_pure ⟨rfl, trivial⟩
  · exact runs_bind (runs_note _) fun _ _ _ _ => runs_pure ⟨rfl, trivial⟩
  · exact ends_throw .refl

/-! ### Findings -/

/-- Another finding may be kept, and events may be noted. -/
def Checks (sc : Scope) (s s' : Session) : Prop :=
  ∃ memo, memo.Remembers sc.found ∧ Aside .none { s with memo } s'

theorem Checks.moves (h : Checks sc s s') : Moves sc s s' := by
  obtain ⟨memo, kept, aside⟩ := h
  exact .head (.remember kept) aside.moves

/-- A finding that is looked up has been found about the version. -/
theorem review_checks {report : Event → Editing Unit} {uuid version : Value} {d : Document}
    (hq : ∀ e s, Ends (report e) s (fun _ s' => Aside .none s s') (fun _ s' => Aside .none s s'))
    (hk : s.memo.Remembers sc.found) (settles : d.Settles sc.found uuid version) :
    Ends (review report uuid version d) s (fun f s' => sc.found uuid version f ∧ Checks sc s s')
      (fun _ s' => Checks sc s s') := by
  have reports (events : List Event) (s : Session) :
      Ends (events.forM report) s (fun _ s' => Aside .none s s') (fun _ s' => Aside .none s s') := by
    induction events generalizing s with
    | nil => exact ends_pure (.refl s)
    | cons e rest ih =>
        refine ends_bind ((hq e s).mono (fun _ s' first => ?_) fun _ _ failed => failed)
        exact (ih s').mono (fun _ _ => first.trans) (fun _ _ => first.trans)
  unfold review
  refine bind_get (bind_lift (fun _ => ⟨s.memo, hk, .refl s⟩) fun out reviewed => ?_)
  obtain ⟨f, memo, events⟩ := out
  obtain ⟨here, keeps⟩ := hk.review settles reviewed
  refine bind_modify (ends_bind ((reports events _).mono (fun _ s' noted => ?_) fun _ _ noted => ?_))
  · exact ends_pure ⟨here, memo, keeps, noted⟩
  · exact ⟨memo, keeps, noted⟩

theorem noteHere_aside (e : Event) (s : Session) :
    Ends (noteHere e) s (fun _ s' => Aside .none s s') (fun _ s' => Aside .none s s') :=
  ends_modify ((Aside.refl s).also _ _ _)

theorem note_aside (e : Event) (s : Session) :
    Ends (note e) s (fun _ s' => Aside .none s s') (fun _ s' => Aside .none s s') :=
  ends_modify ((Aside.refl s).also _ _ _)

/-! ### References -/

/-- The path leads to a reference of the open rule. -/
def HoldsReference (s : Session) (path : String) : Prop := ∃ node, s.LeadsTo path node ∧ node.target?.isSome

theorem leadsTo_of_atPath? {path : String} {d : Document} {node : Node} (ho : s.document = some d)
    (h : d.definition.atPath? path = .ok (some node)) : s.LeadsTo path node := by
  obtain ⟨steps, read, found⟩ := Node.atPath?_eq_some h
  exact ⟨d, steps, ho, read, found⟩

/-- A reference is replaced by the selected one while the ticket of the request is current. -/
theorem Aside.choose {ticket : Ticket} {target : Reference} {new : Node} (hs : Aside .none s s')
    (asked : sc.asked ticket) (hc : s.isCurrent ticket.path ticket.token ticket.epoch = true)
    (hk : sc.chosen target) (hh : ∀ old, s'.LeadsTo ticket.path old → Chosen ticket.path target old new)
    {d : Document}
    {steps : List Step} {old tree : Node} (ho : s'.document = some d)
    (hr : Address.steps ticket.path = .ok steps) (hf : d.definition.find steps = .ok old)
    (placed : Placed s'.numeric new steps d.definition tree) : Moves sc s (s'.committed d tree) := by
  rw [hs.numeric] at placed
  exact .single (.choose hs asked hc (hs.document ▸ ho) hr hf
    (hh old ⟨d, steps, ho, hr, hf⟩) placed hk)

theorem applyReference_moves {ticket : Ticket} {target : Reference} (hs : Aside .none s s')
    (asked : sc.asked ticket) (hc : s.isCurrent ticket.path ticket.token ticket.epoch = true)
    (hk : sc.chosen target) :
    Ends (applyReference ticket.path target) s'
      (fun applied s'' => Moves sc s s'' ∧ (applied = true → s'.HoldsReference ticket.path) ∧
        (applied = false → s'' = s')) (fun _ => Moves sc s) := by
  unfold applyReference
  refine bind_definition (fun _ => hs.moves) fun d opened => bind_lift (fun _ => hs.moves) fun node? at? => ?_
  split
  · have leads := leadsTo_of_atPath? opened at?
    refine bind_lift (fun _ => hs.moves) fun new selected => ends_bind ?_
    refine ends_put (fun _ => hs.moves) fun d' steps old tree opened' read found placed => ?_
    have chosen : ∀ old, s'.LeadsTo ticket.path old → Chosen ticket.path target old new := by
      intro old leads'
      cases leads.unique leads'
      exact .check selected
    have moved := hs.choose asked hc hk chosen opened' read found placed
    exact ⟨ends_pure ⟨moved, fun _ => ⟨_, leads, rfl⟩, fun no => by cases no⟩, fun _ _ => moved⟩
  · have leads := leadsTo_of_atPath? opened at?
    refine ends_bind (ends_putExpression (fun _ => hs.moves) fun d' steps old tree opened' read found placed => ?_)
    have chosen : ∀ old, s'.LeadsTo ticket.path old → Chosen ticket.path target old (.reference target) := by
      intro old leads'
      cases leads.unique leads'
      exact .reference
    have moved := hs.choose asked hc hk chosen opened' read found placed
    exact ⟨ends_pure ⟨moved, fun _ => ⟨_, leads, rfl⟩, fun no => by cases no⟩, fun _ _ => moved⟩
  · exact ends_pure ⟨hs.moves, (fun yes => by cases yes), fun _ => rfl⟩

/-- What a scope has to allow for a selected rule to be put in place. -/
def Selects (sc : Scope) (summary : Summary) (answer : Except Fault Document) : Prop :=
  ∀ d, answer = .ok d →
    d.Settles sc.found summary.uuid (if d.version.isNull then summary.version else d.version) ∧
    ∀ f, sc.found summary.uuid (if d.version.isNull then summary.version else d.version) f →
      sc.chosen (referenceTo summary d (if d.version.isNull then summary.version else d.version) f)

/-- A rule that was loaded for a reference is put in place only if the request is current and there is a
reference at its path; otherwise the rule that is edited and its warnings stay. -/
theorem resolved_moves {ticket : Ticket} {summary : Summary} {answer : Except Fault Document}
    (asked : sc.asked ticket) (hk : s.memo.Remembers sc.found) (selects : Selects sc summary answer) :
    Ends (resolved ticket.path summary ticket.token ticket.epoch answer) s
      (fun applied s' => Moves sc s s' ∧
        (applied = true → s.isCurrent ticket.path ticket.token ticket.epoch = true ∧ s.HoldsReference ticket.path) ∧
        (applied = false → s'.document = s.document ∧ s'.warnings = s.warnings)) (fun _ => Moves sc s) := by
  have untouched {s' : Session} (checks : Checks sc s s') (e : Event) :
      Ends (do noteHere e; return false) s'
        (fun applied s' => Moves sc s s' ∧
          (applied = true → s.isCurrent ticket.path ticket.token ticket.epoch = true ∧ s.HoldsReference ticket.path) ∧
          (applied = false → s'.document = s.document ∧ s'.warnings = s.warnings)) (fun _ => Moves sc s) := by
    obtain ⟨memo, keeps, aside⟩ := checks
    have noted := aside.also s'.numbering s'.expansion (s'.journal ++ [e.within [("session_id", .text s'.id)]])
    have checks : Checks sc s _ := ⟨memo, keeps, noted⟩
    exact bind_noteHere (ends_pure ⟨checks.moves, (fun yes => by cases yes), fun _ => ⟨noted.document, noted.warnings⟩⟩)
  have start : Checks sc s s := ⟨s.memo, hk, .refl s⟩
  unfold resolved
  split
  · exact untouched start _
  · exact ends_throw .refl
  · rename_i d
    obtain ⟨settles, chosen⟩ := selects d rfl
    refine bind_get ?_
    split
    · rename_i current
      refine ends_bind ((review_checks noteHere_aside hk settles).mono (fun f s' checked => ?_)
        fun _ _ checks => checks.moves)
      obtain ⟨here, memo, keeps, aside⟩ := checked
      have remembered : Moves sc s { s with memo } := .single (.remember keeps)
      refine ends_bind ((applyReference_moves aside asked current (chosen f here)).mono (fun applied s'' done => ?_)
        fun _ _ => remembered.trans)
      obtain ⟨moved, holds, stays⟩ := done
      cases applied with
      | true =>
          obtain ⟨node, ⟨d', steps, opened, read, found⟩, target⟩ := holds rfl
          have noted := (Aside.refl s'').also s''.numbering s''.expansion
          refine bind_noteHere (ends_pure ⟨(remembered.trans moved).tail (.aside (noted _)), fun _ => ?_, ?_⟩)
          · exact ⟨current, node, ⟨d', steps, aside.document ▸ opened, read, found⟩, target⟩
          · intro no
            cases no
      | false =>
          cases stays rfl
          exact untouched ⟨memo, keeps, aside⟩ _
    · exact untouched start _

theorem resolveReference_moves (sc : Scope) (path : String) (summary : Summary) :
    Ends (resolveReference path summary) s
      (fun p s' => Aside (.only path) s s' ∧ s'.generation = s.generation + 1 ∧
        p.ticket? = some ⟨path, s.generation + 1, s.epoch⟩ ∧ s.connected = true ∧ p.Coherent sc)
      (fun _ s' => s' = s ∧ s.connected = false) := by
  unfold resolveReference
  refine bind_requireService (fun alone _ => ⟨rfl, alone⟩) fun served => ?_
  refine bind_issueToken (bind_noteHere (bind_get ?_))
  exact ends_pure ⟨(Aside.issued path s).also _ _ _, rfl, rfl, served, rfl, rfl⟩

/-! ### Checks of all references -/

/-- Writing findings into a tree notes what it discards, and changes nothing else in the session. -/
theorem writeFindings_spec (r : Refresh) {checks : List (String × Reference × Finding)}
    (h : ∀ entry ∈ checks, sc.found entry.2.1.uuid entry.2.1.version entry.2.2) (tree : Node) :
    Ends (writeFindings r checks tree) s (fun out s' => Aside .none s s' ∧ Rechecked sc.found tree out.1)
      (fun _ s' => Aside .none s s') := by
  induction checks generalizing tree s with
  | nil => exact ends_pure ⟨.refl s, .refl⟩
  | cons check rest ih =>
      obtain ⟨path, target, f⟩ := check
      obtain ⟨known, others⟩ := List.forall_mem_cons.mp h
      have written : Ends (writeFinding r path target f tree) s
          (fun tree? s' => Aside .none s s' ∧
            ∀ tree', tree? = some tree' → tree.writeReview? path target f = .ok (some tree'))
          (fun _ s' => Aside .none s s') := by
        unfold writeFinding
        have noted (e : Event) : Ends (do note e; return (none : Option Node)) s
            (fun tree? s' => Aside .none s s' ∧
              ∀ tree', tree? = some tree' → tree.writeReview? path target f = .ok (some tree'))
            (fun _ s' => Aside .none s s') :=
          bind_note (ends_pure ⟨(Aside.refl s).also _ _ _, fun tree' no => by cases no⟩)
        refine bind_get ?_
        split
        · exact noted _
        · refine bind_lift (fun _ => .refl s) fun tree? wrote => ?_
          split
          · exact ends_pure ⟨.refl s, fun tree' same => by
              cases same
              exact wrote⟩
          · exact noted _
      unfold writeFindings
      refine ends_bind (written.mono (fun tree? s' done => ?_) fun _ _ aside => aside)
      obtain ⟨aside, wrote⟩ := done
      split
      · rename_i tree'
        refine ends_bind (ih others tree' |>.mono (fun out s'' done => ?_) fun _ _ => aside.trans)
        exact ends_pure ⟨aside.trans done.1, .step known (wrote tree' rfl) done.2⟩
      · exact (ih others tree).mono (fun _ _ done => ⟨aside.trans done.1, done.2⟩) fun _ _ => aside.trans

theorem finishRefresh_runs {r : Refresh}
    (h : ∀ entry ∈ r.checked, sc.found entry.2.1.uuid entry.2.1.version entry.2.2) :
    Runs sc (finishRefresh r) s fun _ => True := by
  unfold finishRefresh
  refine bind_definition (fun _ => .refl) fun d opened => ?_
  refine ends_bind ((writeFindings_spec r h d.definition).mono (fun out s' done => ?_)
    fun _ _ aside => aside.moves)
  obtain ⟨tree, count⟩ := out
  obtain ⟨aside, rechecked⟩ := done
  show Ends (if 0 < count then _ else _) _ _ _
  split
  · refine ends_bind (ends_commit (fun _ => aside.moves) fun d' opened' => ?_)
    cases opened.symm.trans (aside.document ▸ opened')
    have moved : Moves sc s (s'.committed d tree) := .single (.recheck aside opened rechecked)
    exact ⟨ends_pure ⟨moved, trivial⟩, fun _ _ => moved⟩
  · exact ends_pure ⟨aside.moves, trivial⟩

theorem advance_runs (hk : s.memo.Remembers sc.found) (opening : Bool) {r : Refresh}
    {remaining : List (String × Reference)} (hl : ∀ entry ∈ remaining, sc.listed entry.2)
    (hc : ∀ entry ∈ r.checked, sc.found entry.2.1.uuid entry.2.1.version entry.2.2) :
    Runs sc (advance opening r remaining) s (·.Rests sc) := by
  induction remaining generalizing r with
  | nil => exact runs_bind (finishRefresh_runs hc) fun _ _ _ _ => runs_pure ⟨rfl, trivial⟩
  | cons next rest ih =>
      obtain ⟨path, target⟩ := next
      unfold advance
      refine bind_get (bind_lift (fun _ => .refl) fun known? looked => ?_)
      split
      · rename_i f
        refine ih (List.forall_mem_cons.mp hl).2 ?_
        refine List.forall_mem_append.mpr ⟨hc, List.forall_mem_singleton.mpr ?_⟩
        exact hk.lookup looked
      · exact bind_requireService (fun _ _ => .refl) fun _ =>
          runs_pure ⟨rfl, ⟨hl, hc⟩, path, target, rest, rfl, rfl, rfl⟩

theorem tokensOf_runs (paths : List String) : Runs sc (tokensOf paths) s fun _ => True := by
  induction paths generalizing s with
  | nil => exact runs_pure trivial
  | cons path rest ih =>
      have token : Runs sc (currentToken path) s fun _ => True := by
        unfold currentToken
        refine bind_get ?_
        split
        · exact runs_pure trivial
        · exact ends_issueToken ⟨(Aside.issued path s).moves, trivial⟩
      exact runs_bind token fun _ _ _ _ => runs_bind ih fun _ _ _ _ => runs_pure trivial

/-- The selected references of the rule that is open are looked up. -/
def Lists (sc : Scope) (s : Session) : Prop :=
  ∀ d, s.document = some d → ∀ entry ∈ d.definition.selectedReferences, sc.listed entry.2

theorem refresh_runs (hk : s.memo.Remembers sc.found) (lists : Lists sc s) (opening : Bool) :
    Runs sc (refresh opening) s (·.Rests sc) := by
  unfold refresh
  refine bind_definition (fun _ => .refl) fun d opened => runs_bind (tokensOf_runs _) fun tokens s' moved _ => ?_
  exact bind_get (advance_runs (moved.remembers hk) opening (lists d opened) fun _ none => by cases none)

/-- What a check of the rule that was loaded finds is known of the reference that the check has come to. -/
def Answered (sc : Scope) (r : Refresh) (answer : Except Fault Document) : Prop :=
  ∀ d path target rest, answer = .ok d → r.remaining = (path, target) :: rest →
    d.Settles sc.found target.uuid target.version

theorem refreshed_runs (hk : s.memo.Remembers sc.found) (opening : Bool) {r : Refresh}
    {answer : Except Fault Document} (sound : r.Sound sc) (answered : Answered sc r answer) :
    Runs sc (refreshed opening r answer) s (·.Rests sc) := by
  unfold refreshed
  split
  · exact advance_runs hk opening (fun _ none => by cases none) sound.checked
  · rename_i path target rest d come
    have settles := answered d path target rest rfl come
    have others := sound.remaining
    rw [come] at others
    refine ends_bind ((review_checks note_aside hk settles).mono (fun f s' done => ?_) fun _ _ checks => checks.moves)
    obtain ⟨here, checks⟩ := done
    have next : Runs sc (advance opening { r with checked := r.checked ++ [(path, target, f)] } rest) s' (·.Rests sc) :=
      advance_runs (checks.moves.remembers hk) opening (List.forall_mem_cons.mp others).2
        (List.forall_mem_append.mpr ⟨sound.checked, List.forall_mem_singleton.mpr here⟩)
    exact next.mono (fun _ _ done => ⟨checks.moves.trans done.1, done.2⟩) fun _ _ => checks.moves.trans
  · rename_i path target rest _ _ come
    have others := sound.remaining
    rw [come] at others
    exact runs_bind (runs_note _) fun _ _ moved _ =>
      advance_runs (moved.remembers hk) opening (List.forall_mem_cons.mp others).2 sound.checked
  · exact ends_throw .refl

/-! ### Opening, saving and restoring -/

theorem loadRule_runs {d : Document} (may : sc.may .takeUp) (given : sc.given d.definition)
    (hl : sc.dares (.load d)) : Runs sc (loadRule d) s fun _ => True :=
  (loadRule_moves may given hl).mono (fun _ _ moved => ⟨moved.1, trivial⟩) fun _ _ => And.left

theorem openRule_runs (uuid version : Value) : Runs sc (openRule uuid version) s (·.Rests sc) := by
  unfold openRule
  exact bind_requireService (fun _ _ => .refl) fun _ => runs_pure ⟨rfl, trivial⟩

theorem opened_runs (hk : s.memo.Remembers sc.found) {answer : Except Fault Document}
    (ht : ∀ d, answer = .ok d → sc.may .takeUp ∧ sc.given d.definition ∧ sc.dares (.load d) ∧
      ∀ entry ∈ d.definition.selectedReferences, sc.listed entry.2) :
    Runs sc (loaded .opening answer) s (·.Rests sc) := by
  unfold loaded
  refine bind_lift (fun _ => .refl) fun d answered => ?_
  obtain ⟨may, given, loads, listed⟩ := ht d answered
  refine ends_bind ((loadRule_moves may given loads).mono (fun _ s' done => ?_) fun _ _ => And.left)
  obtain ⟨moved, -, opened⟩ := done
  have lists : Lists sc s' := by
    intro d' opened'
    cases opened.symm.trans opened'
    exact listed
  exact (refresh_runs (moved.remembers hk) lists true).mono
    (fun _ _ done => ⟨moved.trans done.1, done.2⟩) fun _ _ => moved.trans

theorem save_runs : Runs sc save s (·.Rests sc) := by
  unfold save
  refine bind_definition (fun _ => .refl) fun d _ => bind_lift (fun _ => .refl) fun _ _ => ?_
  exact bind_openDocument (fun _ => .refl) fun d _ => runs_pure ⟨rfl, trivial⟩

theorem restore_runs (version : Int) : Runs sc (restore version) s (·.Rests sc) := by
  unfold restore
  refine bind_get ?_
  split
  · split
    · exact runs_pure ⟨rfl, trivial⟩
    · exact ends_throw .refl
  · exact ends_throw .refl

theorem written_runs {next : AfterWrite} (h : next = .saving → sc.may .store) (answer : Except Fault Saved) :
    Runs sc (written next answer) s (·.Rests sc) := by
  unfold written
  refine bind_lift (fun _ => .refl) fun saved _ => ?_
  cases next with
  | saving =>
      refine bind_openDocument (fun _ => .refl) fun d opened => bind_modify ?_
      have stored : Moves sc s { s with
          document := some { d with uuid := saved.uuid, version := saved.version }, isNew := false } :=
        .single (.store (.refl s) opened (h rfl))
      exact bind_noteHere (ends_pure ⟨stored.tail (.aside ((Aside.refl _).also _ _ _)), rfl, trivial⟩)
  | restoring uuid version => exact runs_bind (runs_noteHere _) fun _ _ _ _ => runs_pure ⟨rfl, trivial⟩

theorem reread_runs {saved : Saved} {answer : Except Fault Document}
    (h : ∀ d, answer = .ok d → sc.may .takeUp ∧ sc.given d.definition ∧ sc.dares (.load d)) :
    Runs sc (reread saved answer) s (·.Rests sc) := by
  unfold reread
  refine bind_lift (fun _ => .refl) fun d answered => ?_
  obtain ⟨may, given, loads⟩ := h d answered
  exact runs_bind (loadRule_runs may given loads) fun _ _ _ _ => runs_pure ⟨rfl, trivial⟩

end Session

/-! ### All turns -/

open Session Editing

variable {sc : Scope} {s : Session}

/-- What is looked up changes nothing but the journal. -/
theorem Query.aside (q : Query) : Aside .none s (q.perform.run s).2 := by
  have only {α : Type} {op : Editing α} (h : Ends op s (fun _ => Aside .none s) (fun _ => Aside .none s)) :
      Aside .none s ((op >>= fun _ => pure () : Editing Unit).run s).2 :=
    Ends.after (ends_bind (h.mono (fun _ _ aside => ends_pure aside) fun _ _ aside => aside))
  have here {α : Type} {x : Except Fault α} :
      Ends (liftM x : Editing α) s (fun _ => Aside .none s) (fun _ => Aside .none s) :=
    ends_lift (fun _ _ => .refl s) fun _ _ => .refl s
  cases q with
  | node path => exact only (bind_definition (fun _ => .refl s) fun _ _ => here)
  | availableOperators path =>
      refine only (bind_node (fun _ => .refl s) fun _ _ => bind_lift (fun _ => .refl s) fun c _ => bind_get ?_)
      exact bind_lift (fun _ => .refl s) fun _ _ => here
  | resultLabel index => exact only (bind_choice (fun _ => .refl s) fun _ _ _ _ => here)
  | otherwiseLabel => exact only (bind_choice (fun _ => .refl s) fun _ _ _ _ => here)
  | referenceTypes => exact only referenceTypes_aside
  | output =>
      refine only (bind_definition (fun _ => .refl s) fun _ _ => bind_lift (fun _ => .refl s) fun _ _ => ?_)
      exact bind_openDocument (fun _ => .refl s) fun _ _ => here

/-- The nodes that an answer supplies. -/
def Answer.supplied : Answer → List Node
  | .rule (.ok d) => [d.definition]
  | _ => []

namespace Turn

/-- The path that a turn may change something at. -/
def path? : Turn → Option String
  | .edit e => e.path?
  | .start (.resolveReference path _) => some path
  | _ => none

/-- The nodes that a turn supplies. -/
def supplied : Turn → List Node
  | .edit e => e.supplied
  | .answer _ a => a.supplied
  | _ => []

end Turn

namespace Errand

/-- The moves that the start of an errand makes are in the scope. -/
def Allowed (sc : Scope) (s : Session) (errand : Errand) : Prop := errand = .refreshReferences → Lists sc s

/-- An errand is made of moves, and it asks for what it goes on with. -/
theorem start_moves {errand : Errand} (hk : s.memo.Remembers sc.found) (allowed : errand.Allowed sc s) :
    Ends errand.start s (fun p s' => Moves sc s s' ∧ p.Coherent sc) (fun _ s' => Moves sc s s') := by
  have forget {op : Editing Progress} (h : Runs sc op s (·.Rests sc)) :
      Ends op s (fun p s' => Moves sc s s' ∧ p.Coherent sc) (fun _ s' => Moves sc s s') :=
    h.mono (fun _ _ done => ⟨done.1, done.2.coherent⟩) fun _ _ moved => moved
  cases errand with
  | openRule uuid version => exact forget (openRule_runs uuid version)
  | searchReferences query => exact forget (searchReferences_runs query)
  | resolveReference path summary =>
      exact (resolveReference_moves sc path summary).mono (fun _ _ done => ⟨done.1.moves, done.2.2.2.2⟩)
        fun _ _ failed => failed.1 ▸ .refl
  | refreshReferences => exact forget (refresh_runs hk (allowed rfl) false)
  | save => exact forget save_runs
  | restore version => exact forget (restore_runs version)

end Errand

namespace Progress

/-- What a call does, besides the writing of references, when it goes on with an answer. -/
def Does : Progress → Answer → Deed → Prop
  | .loading _ _ .opening, .rule (.ok _), .takeUp | .reading .., .rule (.ok _), .takeUp => True
  | .writing _ .saving, .version (.ok _), .store => True
  | _, _, _ => False

/-- The stored rules that a call takes up when it goes on with an answer. -/
def Dares (p : Progress) (a : Answer) (feat : Feat) : Prop :=
  ∃ d, feat = .load d ∧ a = .rule (.ok d) ∧ p.Does a .takeUp

/-- The moves that a call makes are in the scope when it goes on with an answer. -/
structure Allowed (sc : Scope) (p : Progress) (a : Answer) : Prop where
  given : p.Does a .takeUp → ∀ node ∈ a.supplied, sc.given node
  asked : ∀ ticket, p.ticket? = some ticket → sc.asked ticket
  may : ∀ deed, p.Does a deed → sc.may deed
  dares : ∀ feat, p.Dares a feat → sc.dares feat
  lists : p.Does a .takeUp → ∀ d, a = .rule (.ok d) → ∀ entry ∈ d.definition.selectedReferences, sc.listed entry.2
  selects : ∀ uuid version path summary token epoch answer,
    p = .loading uuid version (.resolving path summary token epoch) → a = .rule answer → Selects sc summary answer
  sound : ∀ uuid version r opening, p = .loading uuid version (.refreshing r opening) → r.Sound sc
  answered : ∀ uuid version r opening answer, p = .loading uuid version (.refreshing r opening) →
    a = .rule answer → Answered sc r answer

theorem resume_runs {p : Progress} {a : Answer} {op : Editing Progress} (h : p.resume a = some op)
    (hk : s.memo.Remembers sc.found) (allowed : p.Allowed sc a) : Runs sc op s (·.Rests sc) := by
  obtain ⟨given, asked, may, dares, lists, selects, sound, answered⟩ := allowed
  unfold resume at h
  split at h
  · rename_i uuid version next answer
    cases h
    cases next with
    | opening =>
        refine opened_runs hk fun d answered => ?_
        subst answered
        have loads : sc.dares (.load d) := dares _ ⟨d, rfl, rfl, trivial⟩
        exact ⟨may .takeUp trivial, given trivial _ List.mem_cons_self, loads, lists trivial d rfl⟩
    | resolving path summary token epoch =>
        unfold loaded
        refine ends_bind ((resolved_moves (asked _ rfl) hk (selects _ _ _ _ _ _ _ rfl rfl)).mono
          (fun applied s' done => ?_) fun _ _ moved => moved)
        exact ends_pure ⟨done.1, rfl, trivial⟩
    | refreshing r opening =>
        exact refreshed_runs hk opening (sound _ _ _ _ rfl) (answered _ _ _ _ _ rfl rfl)
  · cases h
    exact found_runs _
  · rename_i write next answer
    cases h
    cases answer with
    | error fault => exact bind_lift (fun _ => .refl) fun _ no => by cases no
    | ok saved =>
        refine written_runs (fun same => ?_) _
        subst same
        exact may .store trivial
  · cases h
    refine reread_runs fun d answered => ?_
    subst answered
    exact ⟨may .takeUp trivial, given trivial _ List.mem_cons_self, dares _ ⟨d, rfl, rfl, trivial⟩⟩
  · cases h

end Progress

namespace Conversation

variable {c : Conversation} {t : Turn}

theorem proceed_session (call : Nat) (op : Editing Progress) (c : Conversation) :
    (proceed call op c).1.session = (op.run c.session).2 := by
  unfold proceed
  split <;> rename_i run <;> rw [run]

/-- The turn makes a move that names no path. -/
def Does (c : Conversation) : Turn → Deed → Prop
  | .edit e, deed => e.Does deed
  | .answer call a, deed => ∃ p, c.waiting.lookup call = some p ∧ p.Does a deed
  | _, _ => False

/-- What a turn does to the data that it comes upon. -/
def Dares (c : Conversation) : Turn → Feat → Prop
  | .edit e, feat => e.Dares c.session feat
  | .answer call a, feat => ∃ p, c.waiting.lookup call = some p ∧ p.Dares a feat
  | _, _ => False

/-- The moves that a turn makes are in the scope. -/
def Allowed (sc : Scope) (c : Conversation) : Turn → Prop
  | .edit e => e.Allowed sc c.session
  | .query _ => True
  | .start errand => errand.Allowed sc c.session
  | .answer call a => ∀ p op, c.waiting.lookup call = some p → p.resume a = some op → p.Allowed sc a

/-- A turn is made of moves. -/
theorem next_moves (upward : sc.Upward) (kept : c.session.memo.Remembers sc.found) (allowed : c.Allowed sc t) :
    Moves sc c.session (c.next t).session := by
  cases t with
  | edit e => exact e.moves upward allowed
  | query q => exact q.aside.moves
  | start errand =>
      show Moves sc c.session (proceed _ _ _).1.session
      rw [proceed_session]
      exact ((Errand.start_moves kept allowed).mono (fun _ _ => And.left) fun _ _ moved => moved).after
  | answer call a =>
      unfold next take
      simp only
      split
      · rename_i op resumed
        obtain ⟨p, waits, resumed⟩ := Option.bind_eq_some_iff.mp resumed
        rw [proceed_session]
        exact (Progress.resume_runs resumed kept (allowed p op waits resumed)).mono
          (fun _ _ => And.left) (fun _ _ moved => moved) |>.after
      · exact .refl

end Conversation

/-! ### Scopes that do not tell references and findings apart -/

/-- The scope leaves open which rules are selected and checked, and what is found about them. -/
structure Scope.Open (sc : Scope) : Prop where
  chosen : ∀ r, sc.chosen r
  listed : ∀ r, sc.listed r
  found : ∀ uuid version f, sc.found uuid version f

namespace Scope.Open

theorem any : Scope.any.Open := ⟨fun _ => trivial, fun _ => trivial, fun _ _ _ => trivial⟩

variable {c : Conversation} {t : Turn}

theorem remembers (h : sc.Open) (m : Memo) : m.Remembers sc.found := fun _ _ _ _ _ => h.found _ _ _

theorem allows (h : sc.Open) {p : Progress} {a : Answer} (hg : ∀ node ∈ a.supplied, sc.given node)
    (ha : ∀ ticket, p.ticket? = some ticket → sc.asked ticket) (hm : ∀ deed, p.Does a deed → sc.may deed)
    (hd : ∀ feat, p.Dares a feat → sc.dares feat) : p.Allowed sc a where
  given _ := hg
  asked := ha
  may := hm
  dares := hd
  lists _ _ _ _ _ := h.listed _
  selects _ _ _ _ _ _ _ _ _ :=
    fun _ _ => ⟨fun _ _ => ⟨h.found _ _ _, fun _ _ _ _ => h.found _ _ _⟩, fun _ _ => h.chosen _⟩
  sound _ _ _ _ _ := ⟨fun _ _ => h.listed _, fun _ _ => h.found _ _ _⟩
  answered _ _ _ _ _ _ _ := fun _ _ _ _ _ _ _ _ => ⟨h.found _ _ _, fun _ _ _ _ => h.found _ _ _⟩

/-- Only the paths, the nodes, the kinds and the tickets of a turn matter then, and the sorts of its moves. -/
theorem next_moves (h : sc.Open) (upward : sc.Upward) (here : ∀ path ∈ t.path?, sc.here path)
    (given : ∀ node ∈ t.supplied, sc.given node)
    (turned : ∀ index kind, t = .edit (.changeBranchKind index kind) → ∀ d c' k, c.session.document = some d →
      d.definition = c'.node → Kind.ofValue kind = .ok k → sc.turned c' index k)
    (asked : ∀ call a, t = .answer call a → ∀ p op ticket, c.waiting.lookup call = some p → p.resume a = some op →
      p.ticket? = some ticket → sc.asked ticket)
    (may : ∀ deed, c.Does t deed → sc.may deed) (dares : ∀ feat, c.Dares t feat → sc.dares feat) :
    Moves sc c.session (c.next t).session := by
  apply Conversation.next_moves upward (h.remembers _)
  cases t with
  | edit e =>
      exact ⟨here, given, fun index kind same => turned index kind (congrArg _ same), may, dares⟩
  | query q => trivial
  | start errand => exact fun _ _ _ _ _ => h.listed _
  | answer call a =>
      intro p op waits resumed
      refine h.allows given (fun ticket has => asked call a rfl p op ticket waits resumed has) (fun deed does => ?_)
        fun feat does => ?_
      · exact may deed ⟨p, waits, does⟩
      · exact dares feat ⟨p, waits, does⟩

end Scope.Open

end RuleEditor
