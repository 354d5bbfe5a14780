import RuleEditor.Proofs.Address.Spelling
import RuleEditor.Proofs.Label.Issued
import RuleEditor.Proofs.Session.Kept

/-!
# Two sessions side by side

Two sessions that differ in nothing but what they keep under the texts of paths are edited in parallel, with paths that
lead the same way. As long as the texts decide alike, which requests become stale and which number comes next, the
sessions keep going in parallel: every operation ends alike in both. There is a rule for each way of putting operations
together, and one for each operation that the others are made of.
-/
namespace RuleEditor

namespace Members

variable {α : Type} {key : String} {value : α} {ms : Members α} {m : String × α}

theorem mem_set (h : m ∈ ms.set key value) : m = (key, value) ∨ m ∈ ms := by
  induction ms with
  | nil => exact .inl (List.mem_singleton.mp h)
  | cons first rest ih =>
      obtain ⟨name, old⟩ := first
      by_cases here : name = key
      · rw [set, if_pos here] at h
        rcases List.mem_cons.mp h with rfl | h
        · exact .inl (congrArg (·, value) here)
        · exact .inr (List.mem_cons_of_mem _ h)
      · rw [set, if_neg here] at h
        rcases List.mem_cons.mp h with rfl | h
        · exact .inr List.mem_cons_self
        · exact (ih h).imp_right (List.mem_cons_of_mem _)

theorem mem_of_get? (h : ms.get? key = some value) : (key, value) ∈ ms := by
  induction ms with
  | nil => cases h
  | cons first rest ih =>
      obtain ⟨name, old⟩ := first
      by_cases here : name = key
      · rw [get?, if_pos here] at h
        cases h
        exact here ▸ List.mem_cons_self
      · rw [get?, if_neg here] at h
        exact List.mem_cons_of_mem _ (ih h)

end Members

/-- The same fault, up to the spelling of the path that it cites. -/
inductive Fault.Alike : Fault → Fault → Prop where
  | same (fault : Fault) : Alike fault fault
  | group {path path' : String} : Address.steps path' = Address.steps path →
      Alike (.noGroupHolds path) (.noGroupHolds path')
  | reference {path path' : String} : Address.steps path' = Address.steps path →
      Alike (.noReferenceAt path) (.noReferenceAt path')

/-- Results that are the same, up to the spelling of a path that a fault cites. -/
def SameResult {α : Type} : Except Fault α → Except Fault α → Prop
  | .ok a, .ok a' => a' = a
  | .error fault, .error fault' => fault.Alike fault'
  | _, _ => False

/-- Two requests are both current in their sessions, or both stale. Their sessions have given them out. -/
structure Ticket.Level (s s' : Session) (t t' : Ticket) : Prop where
  token : t.token ≤ s.generation
  token' : t'.token ≤ s'.generation
  epoch : t.epoch ≤ s.epoch
  epoch' : t'.epoch ≤ s'.epoch
  current : t.Current s ↔ t'.Current s'

/-- Nothing else counts but the tokens, how many there are, and the epoch. -/
theorem Ticket.Level.elsewhere {s s' r r' : Session} {t t' : Ticket} (h : t.Level s s' t')
    (ht : r.tokens = s.tokens) (hg : r.generation = s.generation) (he : r.epoch = s.epoch)
    (ht' : r'.tokens = s'.tokens) (hg' : r'.generation = s'.generation) (he' : r'.epoch = s'.epoch) :
    t.Level r r' t' where
  token := hg ▸ h.token
  token' := hg' ▸ h.token'
  epoch := he ▸ h.epoch
  epoch' := he' ▸ h.epoch'
  current := by
    have current := h.current
    simp only [Ticket.Current, Session.isCurrent_iff] at current ⊢
    rw [ht, he, ht', he', current]

/-- What connects two sessions: requests of the one that belong to requests of the other, and texts that belong together
under which the labels of a word are counted, each to one of the other session. -/
structure Bond where
  kept : Ticket → Ticket → Prop
  counted : String → String → String → Prop
  single : ∀ {word p p' q q'}, counted word p p' → counted word q q' → (q' = p' ↔ q = p)

namespace Bond

/-- Two marks are set for requests that belong together. -/
def Agrees (b : Bond) (m m' : Mark) : Prop := ∀ t t', b.kept t t' → m'.renews t'.path = m.renews t.path

/-- The next label of a word has the same number, as far as that depends on the numbers given out. -/
def Counts (b : Bond) (n n' : Numbering) : Prop :=
  ∀ word parent parent', b.counted word parent parent' → n'.last parent' word = n.last parent word

/-- The bond of requests besides. -/
def keeping (b : Bond) (kept : Ticket → Ticket → Prop) : Bond := { b with kept }

/-- Nothing connects the sessions. -/
def loose : Bond := ⟨fun _ _ => False, fun _ _ _ => False, False.elim⟩

end Bond

namespace Session

/-- No path has a token that has not been given out. -/
def Booked (s : Session) : Prop := ∀ m ∈ s.tokens, m.2 ≤ s.generation

/-- The sessions differ in nothing but what they keep under the texts of paths, and in their journals. -/
structure Twin (b : Bond) (s s' : Session) : Prop extends SameSetUp s s' where
  document : s'.document = s.document
  isNew : s'.isNew = s.isNew
  warnings : s'.warnings = s.warnings
  memo : s'.memo = s.memo
  epoch : s'.epoch = s.epoch
  booked : s.Booked
  booked' : s'.Booked
  level : ∀ t t', b.kept t t' → t.Level s s' t'
  counts : b.Counts s.numbering s'.numbering

/-! ### Tokens -/

theorem staled_get? {path key : String} (h : Address.covers path key = false) (generation : Nat)
    (tokens : Members Nat) : (staled path generation tokens).1.get? key = tokens.get? key := by
  induction tokens generalizing generation with
  | nil => rfl
  | cons m rest ih =>
      obtain ⟨name, token⟩ := m
      cases covered : Address.covers path name with
      | true =>
          have other : name ≠ key := fun same => Bool.false_ne_true (h.symm.trans (same ▸ covered))
          rw [staled_covered covered, Members.get?, Members.get?, if_neg other, if_neg other, ih]
      | false => rw [staled_missed covered, Members.get?, Members.get?, ih]

theorem staled_booked {path : String} {generation : Nat} {tokens : Members Nat}
    (h : ∀ m ∈ tokens, m.2 ≤ generation) :
    ∀ m ∈ (staled path generation tokens).1, m.2 ≤ (staled path generation tokens).2 := by
  induction tokens generalizing generation with
  | nil => nofun
  | cons m rest ih =>
      obtain ⟨name, token⟩ := m
      obtain ⟨here, below⟩ := List.forall_mem_cons.mp h
      cases covered : Address.covers path name with
      | true =>
          rw [staled_covered covered]
          have later := (staled_spec path (generation + 1) rest).1
          exact List.forall_mem_cons.mpr ⟨later, ih fun m within => Nat.le_succ_of_le (below m within)⟩
      | false =>
          rw [staled_missed covered]
          have later := (staled_spec path generation rest).1
          exact List.forall_mem_cons.mpr ⟨Nat.le_trans here later, ih below⟩

variable {s s' : Session} {t t' : Ticket} {path path' : String} {b : Bond}

theorem Booked.invalidated (h : s.Booked) (path : String) : (s.invalidated path).Booked := staled_booked h

theorem Booked.issued (h : s.Booked) (path : String) : (s.issued path).Booked := by
  intro m within
  rcases Members.mem_set within with rfl | within
  · exact Nat.le_refl _
  · exact Nat.le_succ_of_le (h m within)

/-- Exactly the requests at a path and below it become stale. -/
theorem current_invalidated (h : t.token ≤ s.generation) :
    t.Current (s.invalidated path) ↔ t.Current s ∧ (Mark.below path).renews t.path = false := by
  constructor
  · exact (Aside.invalidated path s).current h
  · rintro ⟨current, missed⟩
    rw [Ticket.Current, isCurrent_iff] at current ⊢
    exact ⟨current.1, (staled_get? missed _ _).trans current.2⟩

/-- Exactly the requests for a path itself become stale with a new token for it. -/
theorem current_issued (h : t.token ≤ s.generation) :
    t.Current (s.issued path) ↔ t.Current s ∧ (Mark.only path).renews t.path = false := by
  constructor
  · exact (Aside.issued path s).current h
  · rintro ⟨current, missed⟩
    have other : t.path ≠ path := beq_eq_false_iff_ne.mp missed
    rw [Ticket.Current, isCurrent_iff] at current ⊢
    exact ⟨current.1, (Members.get?_set_of_ne other _ _).trans current.2⟩

namespace Twin

theorem level_elsewhere {r r' : Session} (twin : Twin b s s') (ht : r.tokens = s.tokens)
    (hg : r.generation = s.generation) (he : r.epoch = s.epoch) (ht' : r'.tokens = s'.tokens)
    (hg' : r'.generation = s'.generation) (he' : r'.epoch = s'.epoch) :
    ∀ t t', b.kept t t' → t.Level r r' t' := fun t t' kept =>
  (twin.level t t' kept).elsewhere ht hg he ht' hg' he'

theorem invalidated (twin : Twin b s s') (agree : b.Agrees (.below path) (.below path')) :
    Twin b (s.invalidated path) (s'.invalidated path') where
  catalogue := twin.catalogue
  settings := twin.settings
  id := twin.id
  connected := twin.connected
  numeric := twin.numeric
  document := twin.document
  isNew := twin.isNew
  warnings := twin.warnings
  memo := twin.memo
  epoch := twin.epoch
  booked := twin.booked.invalidated path
  booked' := twin.booked'.invalidated path'
  counts := twin.counts
  level t t' kept := by
    have level := twin.level t t' kept
    refine ⟨Nat.le_trans level.token (staled_spec path _ _).1, Nat.le_trans level.token' (staled_spec path' _ _).1,
      level.epoch, level.epoch', ?_⟩
    rw [current_invalidated level.token, current_invalidated level.token', level.current, agree t t' kept]

theorem issued (twin : Twin b s s') (agree : b.Agrees (.only path) (.only path')) :
    Twin b (s.issued path) (s'.issued path') where
  catalogue := twin.catalogue
  settings := twin.settings
  id := twin.id
  connected := twin.connected
  numeric := twin.numeric
  document := twin.document
  isNew := twin.isNew
  warnings := twin.warnings
  memo := twin.memo
  epoch := twin.epoch
  booked := twin.booked.issued path
  booked' := twin.booked'.issued path'
  counts := twin.counts
  level t t' kept := by
    have level := twin.level t t' kept
    refine ⟨Nat.le_succ_of_le level.token, Nat.le_succ_of_le level.token', level.epoch, level.epoch', ?_⟩
    rw [current_issued level.token, current_issued level.token', level.current, agree t t' kept]

/-- What is level, and counted alike, can be kept from then on. -/
theorem rebind {b' : Bond} (twin : Twin b s s') (level : ∀ t t', b'.kept t t' → t.Level s s' t')
    (counts : b'.Counts s.numbering s'.numbering) : Twin b' s s' := { twin with level, counts }

/-- Expansions are kept under the texts of paths. -/
theorem forgotten (twin : Twin b s s') (path path' : String) :
    Twin b { s with expansion := s.expansion.forget path } { s' with expansion := s'.expansion.forget path' } :=
  { twin with level := twin.level_elsewhere rfl rfl rfl rfl rfl rfl }

theorem noted (twin : Twin b s s') (events events' : List Event) :
    Twin b { s with journal := s.journal ++ events } { s' with journal := s'.journal ++ events' } :=
  { twin with level := twin.level_elsewhere rfl rfl rfl rfl rfl rfl }

end Twin

end Session

/-- Requests stay level, as stale ones stay stale and the others are kept. -/
theorem Ticket.Level.after {b : Bond} {s s' r r' : Session} {t t' : Ticket} (level : t.Level s s' t')
    (hk : t.Current s → b.kept t t') (twin : Session.Twin b r r') (wanes : Session.Wanes s r)
    (wanes' : Session.Wanes s' r') : t.Level r r' t' := by
  by_cases current : t.Current s
  · exact twin.level t t' (hk current)
  · refine ⟨Nat.le_trans level.token wanes.generation, Nat.le_trans level.token' wanes'.generation,
      Nat.le_trans level.epoch wanes.epoch, Nat.le_trans level.epoch' wanes'.epoch, iff_of_false ?_ ?_⟩
    · exact fun later => current (wanes.current t level.token level.epoch later)
    · exact fun later => current (level.current.mpr (wanes'.current t' level.token' level.epoch' later))

namespace Labelling

open Label

variable {α β : Type} {b : Bond} {edit edit' : Labelling α} {f f' : α → Labelling β} {kind : Kind}
  {parent parent' : String}

/-- Two edits give the same labels, and go on counting alike. -/
def Parallel (b : Bond) (edit edit' : Labelling α) : Prop :=
  ∀ n n', b.Counts n n' → (edit'.run n').1 = (edit.run n).1 ∧ b.Counts (edit.run n).2 (edit'.run n').2

theorem Parallel.bind (h : Parallel b edit edit') (next : ∀ a, Parallel b (f a) (f' a)) :
    Parallel b (edit >>= f) (edit' >>= f') := by
  intro n n' counts
  obtain ⟨same, counts⟩ := h n n' counts
  rw [run_bind_eq, run_bind_eq, same]
  cases (edit.run n).1 with
  | ok a => exact next a _ _ counts
  | error fault => exact ⟨rfl, counts⟩

theorem parallel_pure (a : α) : Parallel b (pure a) (pure a) := fun _ _ counts => ⟨rfl, counts⟩

theorem parallel_throw (fault : Fault) : Parallel b (throw fault : Labelling α) (throw fault) :=
  fun _ _ counts => ⟨rfl, counts⟩

theorem parallel_lift (x : Except Fault α) : Parallel b (liftM x : Labelling α) (liftM x) := by
  intro n n' counts
  cases x <;> exact ⟨rfl, counts⟩

/-- Two edits that count on under one word and texts that belong together give the same labels. -/
theorem parallel_of_word (h : b.counted kind.word parent parent')
    (hs : ∀ n n', n'.last parent' kind.word = n.last parent kind.word →
      (edit'.run n').1 = (edit.run n).1 ∧ (edit'.run n').2.last parent' kind.word = (edit.run n).2.last parent kind.word)
    (ho : ∀ n p word, ¬ (p = parent ∧ word = kind.word) → (edit.run n).2.last p word = n.last p word)
    (ho' : ∀ n p word, ¬ (p = parent' ∧ word = kind.word) → (edit'.run n).2.last p word = n.last p word) :
    Parallel b edit edit' := by
  intro n n' counts
  obtain ⟨result, last⟩ := hs n n' (counts _ _ _ h)
  refine ⟨result, fun word p p' hp => ?_⟩
  by_cases here : p = parent ∧ word = kind.word
  · obtain ⟨rfl, rfl⟩ := here
    rw [(b.single h hp).mpr rfl]
    exact last
  · have there : ¬ (p' = parent' ∧ word = kind.word) := by
      rintro ⟨hs, rfl⟩
      exact here ⟨(b.single h hp).mp hs, rfl⟩
    rw [ho n p word here, ho' n' p' word there]
    exact counts word p p' hp

theorem parallel_children (h : b.counted kind.word parent parent') (siblings : List Value) (count : Nat) :
    Parallel b (forChildrenAfter parent kind siblings count) (forChildrenAfter parent' kind siblings count) :=
  parallel_of_word h (fun _ _ same => forChildrenAfter_congr same siblings count)
    (fun _ _ _ other => forChildrenAfter_other other siblings count _)
    fun _ _ _ other => forChildrenAfter_other other siblings count _

theorem parallel_next (h : b.counted kind.word parent parent') (siblings : List Value) :
    Parallel b (next parent kind siblings) (next parent' kind siblings) :=
  parallel_of_word h (fun _ _ same => next_congr same siblings) (fun _ _ _ other => next_other other siblings _)
    fun _ _ _ other => next_other other siblings _

end Labelling

namespace Editing

open Session

variable {α β : Type} {b : Bond} {s s' : Session}

/-- Two operations both succeed, in `Q`, or both fail, with the same fault. -/
def Paired (b : Bond) (op op' : Editing α) (s s' : Session) (Q : α → α → Session → Session → Prop) : Prop :=
  match (op.run s).1, (op'.run s').1 with
  | .ok a, .ok a' => Q a a' (op.run s).2 (op'.run s').2
  | .error fault, .error fault' => fault.Alike fault' ∧ Twin b (op.run s).2 (op'.run s').2
  | _, _ => False

/-- Two operations have the same result, and the sessions go in parallel then. -/
abbrev Together (b : Bond) (op op' : Editing α) (s s' : Session) : Prop :=
  Paired b op op' s s' fun a a' t t' => a' = a ∧ Twin b t t'

/-- Sessions that go in parallel go on so, with the same result. -/
def Parallel (b : Bond) (op op' : Editing α) : Prop := ∀ s s', Twin b s s' → Together b op op' s s'

variable {op op' : Editing α} {f f' : α → Editing β} {Q : α → α → Session → Session → Prop}
  {R : β → β → Session → Session → Prop}

/-! ### Putting operations together -/

theorem run_bind_eq (op : Editing α) (f : α → Editing β) (s : Session) :
    (op >>= f).run s = match (op.run s).1 with
      | .ok a => (f a).run (op.run s).2
      | .error fault => (.error fault, (op.run s).2) := by
  show (ExceptT.bindCont f (op.run s).1) (op.run s).2 = _
  cases (op.run s).1 <;> rfl

theorem Paired.bind (h : Paired b op op' s s' fun a a' t t' => Paired b (f a) (f' a') t t' R) :
    Paired b (op >>= f) (op' >>= f') s s' R := by
  unfold Paired at h ⊢
  rw [run_bind_eq, run_bind_eq]
  cases result : (op.run s).1 <;> cases result' : (op'.run s').1 <;> simp only [result, result'] at h ⊢
  · exact h
  · exact h

theorem paired_ok {a a' : α} (hr : (op.run s).1 = .ok a) (hr' : (op'.run s').1 = .ok a')
    (hg : Q a a' (op.run s).2 (op'.run s').2) : Paired b op op' s s' Q := by
  unfold Paired
  rw [hr, hr']
  exact hg

theorem Paired.mono {Q' : α → α → Session → Session → Prop} (h : Paired b op op' s s' Q)
    (hw : ∀ a a' t t', Q a a' t t' → Q' a a' t t') : Paired b op op' s s' Q' := by
  unfold Paired at h ⊢
  cases result : (op.run s).1 <;> cases result' : (op'.run s').1 <;> simp only [result, result'] at h ⊢
  · exact h
  · exact hw _ _ _ _ h

theorem Paired.twin (h : Paired b op op' s s' Q) (hk : ∀ a a' t t', Q a a' t t' → Twin b t t') :
    Twin b (op.run s).2 (op'.run s').2 := by
  unfold Paired at h
  cases result : (op.run s).1 <;> cases result' : (op'.run s').1 <;> simp only [result, result'] at h
  · exact h.2
  · exact hk _ _ _ _ h

theorem Together.result (h : Together b op op' s s') : SameResult (op.run s).1 (op'.run s').1 := by
  unfold Together Paired at h
  cases result : (op.run s).1 <;> cases result' : (op'.run s').1 <;> simp only [result, result'] at h
  · exact h.1
  · exact h.1

theorem Parallel.bind (h : Parallel b op op') (twin : Twin b s s')
    (next : ∀ a t t', Twin b t t' → Paired b (f a) (f' a) t t' R) : Paired b (op >>= f) (op' >>= f') s s' R := by
  refine Paired.bind ((h s s' twin).mono ?_)
  rintro a a' t t' ⟨rfl, twin⟩
  exact next a' t t' twin

/-- What goes on in parallel can be tried in parallel. -/
theorem Parallel.then (h : Parallel b op op') (hn : ∀ a, Parallel b (f a) (f' a)) :
    Parallel b (op >>= f) (op' >>= f') := fun _ _ twin => h.bind twin fun a t t' twin => hn a t t' twin

theorem parallel_pure (a : α) : Parallel b (pure a) (pure a) := fun _ _ twin => ⟨rfl, twin⟩

theorem parallel_lift (x : Except Fault α) : Parallel b (liftM x : Editing α) (liftM x) := by
  intro s s' twin
  cases x with
  | ok a => exact ⟨rfl, twin⟩
  | error fault => exact ⟨.same fault, twin⟩

theorem parallel_modify {change change' : Session → Session}
    (h : ∀ s s', Twin b s s' → Twin b (change s) (change' s')) :
    Parallel b (modify change : Editing Unit) (modify change') := fun s s' twin => ⟨rfl, h s s' twin⟩

theorem paired_lift {x : Except Fault α} (twin : Twin b s s') (hn : ∀ a, x = .ok a → Paired b (f a) (f' a) s s' R) :
    Paired b ((liftM x : Editing α) >>= f) (liftM x >>= f') s s' R := by
  cases x with
  | ok a => exact hn a rfl
  | error fault => exact ⟨.same fault, twin⟩

theorem paired_known {x x' : Except Fault α} {a a' : α} (hk : x = .ok a) (hk' : x' = .ok a')
    (hn : Paired b (f a) (f' a') s s' R) :
    Paired b ((liftM x : Editing α) >>= f) (liftM x' >>= f') s s' R := by
  subst hk hk'
  exact hn

theorem paired_get {f f' : Session → Editing β} (h : Paired b (f s) (f' s') s s' R) :
    Paired b ((get : Editing Session) >>= f) (get >>= f') s s' R := h

theorem paired_modify {change change' : Session → Session} {f f' : Unit → Editing β}
    (h : Paired b (f ()) (f' ()) (change s) (change' s') R) :
    Paired b (modify change >>= f) (modify change' >>= f') s s' R := Paired.bind h

/-! ### Reading the rule -/

theorem paired_openDocument {f f' : Document → Editing β} (twin : Twin b s s')
    (hn : ∀ d, s.document = some d → Paired b (f d) (f' d) s s' R) :
    Paired b (openDocument >>= f) (openDocument >>= f') s s' R := by
  have same := twin.document
  refine Paired.bind ?_
  unfold openDocument
  refine paired_get ?_
  rw [same]
  cases opened : s.document with
  | some d => exact hn d opened
  | none => exact ⟨.same _, twin⟩

theorem paired_definition {f f' : Node → Editing β} (twin : Twin b s s')
    (hn : ∀ d, s.document = some d → Paired b (f d.definition) (f' d.definition) s s' R) :
    Paired b (definition >>= f) (definition >>= f') s s' R := by
  refine Paired.bind ?_
  unfold definition
  exact paired_openDocument twin hn

theorem paired_steps {path path' : String} {f f' : List Step → Editing β} (twin : Twin b s s')
    (hs : Address.steps path' = Address.steps path)
    (hn : ∀ steps, Address.steps path = .ok steps → Paired b (f steps) (f' steps) s s' R) :
    Paired b ((liftM (Address.steps path) : Editing _) >>= f) (liftM (Address.steps path') >>= f') s s' R := by
  rw [hs]
  exact paired_lift twin hn

theorem atPath_respelled {path path' : String} (h : Address.steps path' = Address.steps path) (tree : Node) :
    tree.atPath path' = tree.atPath path := by
  unfold Node.atPath
  rw [h]

theorem paired_node {path path' : String} {f f' : Node → Editing β} (twin : Twin b s s')
    (hs : Address.steps path' = Address.steps path)
    (hn : ∀ node, s.LeadsTo path node → Paired b (f node) (f' node) s s' R) :
    Paired b (Session.node path >>= f) (Session.node path' >>= f') s s' R := by
  refine Paired.bind ?_
  unfold Session.node
  refine paired_definition twin fun d opened => ?_
  rw [atPath_respelled hs]
  cases there : d.definition.atPath path with
  | ok node =>
      obtain ⟨steps, read, found⟩ := bind_eq_ok.mp there
      exact hn node ⟨d, steps, opened, read, found⟩
  | error fault => exact ⟨.same fault, twin⟩

theorem paired_choice {f f' : Choice → Editing β} (twin : Twin b s s')
    (hn : ∀ d c, s.document = some d → d.definition = c.node → Paired b (f c) (f' c) s s' R) :
    Paired b (choice >>= f) (choice >>= f') s s' R := by
  refine Paired.bind ?_
  unfold choice
  refine paired_definition twin fun d opened => ?_
  split
  · rename_i branches otherwise label same
    exact hn d ⟨branches, otherwise, label⟩ opened same
  · exact ⟨.same _, twin⟩

/-! ### Changing the session -/

theorem parallel_note (e e' : Event) : Parallel b (note e) (note e') :=
  parallel_modify fun _ _ twin => twin.noted [e] [e']

theorem paired_note {e e' : Event} {f f' : Unit → Editing β} (twin : Twin b s s')
    (hn : Twin b { s with journal := s.journal ++ [e] } { s' with journal := s'.journal ++ [e'] } →
      Paired b (f ()) (f' ()) { s with journal := s.journal ++ [e] } { s' with journal := s'.journal ++ [e'] } R) :
    Paired b (note e >>= f) (note e' >>= f') s s' R := Paired.bind (hn (twin.noted [e] [e']))

theorem parallel_noteHere (e e' : Event) : Parallel b (noteHere e) (noteHere e') :=
  parallel_modify fun _ _ twin => twin.noted _ _

theorem parallel_refreshWarnings : Parallel b refreshWarnings refreshWarnings := by
  intro s s' twin
  unfold refreshWarnings
  refine paired_openDocument twin fun d opened => paired_lift twin fun warnings told => ?_
  refine parallel_modify (fun _ _ twin => ?_) s s' twin
  exact { twin with warnings := rfl, level := twin.level_elsewhere rfl rfl rfl rfl rfl rfl }

theorem parallel_commit (tree : Node) : Parallel b (commit tree) (commit tree) := by
  intro s s' twin
  unfold commit
  refine paired_openDocument twin fun d opened => ?_
  refine Parallel.bind (parallel_modify fun _ _ twin => ?_) twin fun _ t t' twin => parallel_refreshWarnings t t' twin
  exact { twin with document := rfl, level := twin.level_elsewhere rfl rfl rfl rfl rfl rfl }

theorem parallel_put {path path' : String} (h : Address.steps path' = Address.steps path) (new : Node) :
    Parallel b (put path new) (put path' new) := by
  intro s s' twin
  unfold put
  refine paired_definition twin fun d opened => paired_steps twin h fun steps read => ?_
  refine paired_lift twin fun tree placed => paired_get ?_
  rw [twin.numeric]
  exact paired_lift twin fun tree settled => parallel_commit tree s s' twin

theorem parallel_putExpression {path path' : String} (h : Address.steps path' = Address.steps path) (e : Node) :
    Parallel b (putExpression path e) (putExpression path' e) := by
  intro s s' twin
  unfold putExpression
  refine paired_definition twin fun d opened => ?_
  split
  · refine paired_steps twin h fun steps read => ?_
    split
    · exact paired_lift twin fun c set => parallel_commit _ s s' twin
    · exact parallel_commit _ s s' twin
    · exact parallel_put h e s s' twin
  · exact parallel_put h e s s' twin

theorem paired_invalidate {path path' : String} {f f' : Unit → Editing β} (twin : Twin b s s')
    (ha : b.Agrees (.below path) (.below path'))
    (hn : Twin b (s.invalidated path) (s'.invalidated path') →
      Paired b (f ()) (f' ()) (s.invalidated path) (s'.invalidated path') R) :
    Paired b (invalidate path >>= f) (invalidate path' >>= f') s s' R := Paired.bind (hn (twin.invalidated ha))

theorem parallel_invalidate {path path' : String} (h : b.Agrees (.below path) (.below path')) :
    Parallel b (invalidate path) (invalidate path') := parallel_modify fun _ _ twin => twin.invalidated h

/-- Both sessions give a path a new token. Which ones that are makes no difference to the other requests. -/
theorem paired_issueToken {path path' : String} {f f' : Nat → Editing β} (twin : Twin b s s')
    (ha : b.Agrees (.only path) (.only path'))
    (hn : Twin b (s.issued path) (s'.issued path') →
      Paired b (f (s.generation + 1)) (f' (s'.generation + 1)) (s.issued path) (s'.issued path') R) :
    Paired b (issueToken path >>= f) (issueToken path' >>= f') s s' R := Paired.bind (hn (twin.issued ha))

theorem parallel_labelled {edit edit' : Labelling α} (h : Labelling.Parallel b edit edit') :
    Parallel b (labelled edit) (labelled edit') := by
  intro s s' twin
  obtain ⟨same, counts⟩ := h s.numbering s'.numbering twin.counts
  have numbered : Twin b { s with numbering := (edit.run s.numbering).2 }
      { s' with numbering := (edit'.run s'.numbering).2 } :=
    { twin with counts, level := twin.level_elsewhere rfl rfl rfl rfl rfl rfl }
  unfold labelled
  refine paired_get (paired_modify ?_)
  show Paired b (liftM (edit.run s.numbering).1) (liftM (edit'.run s'.numbering).1) _ _ _
  rw [same]
  exact parallel_lift _ _ _ numbered

theorem parallel_reset (form : Option Form) (isNew : Bool) : Parallel b (reset form isNew) (reset form isNew) := by
  refine parallel_modify fun s s' twin => ?_
  refine { twin with
    isNew := rfl, warnings := rfl, epoch := congrArg (· + 1) twin.epoch, booked := nofun, booked' := nofun,
    level := ?_, counts := ?_ }
  · intro t t' kept
    have level := twin.level t t' kept
    refine ⟨level.token, level.token', Nat.le_succ_of_le level.epoch, Nat.le_succ_of_le level.epoch', ?_⟩
    exact iff_of_false (not_current_restarted level.epoch rfl) (not_current_restarted level.epoch' rfl)
  · exact fun _ _ _ _ => rfl

end Editing

end RuleEditor
