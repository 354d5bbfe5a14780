import RuleEditor.Proofs.Outcome
import RuleEditor.Session.Command

/-!
# Running operations of a session

`Ends` says how an operation ends that is run in a session: what holds of its result, or of its fault, and
of the session that is left. There is a rule for each way of putting operations together, and one for each
operation that the others are made of.
-/
namespace RuleEditor

namespace Editing

/-- An operation ends in `Q` if it succeeds and in `E` if it fails. -/
def Ends {α : Type} (op : Editing α) (s : Session) (Q : α → Session → Prop) (E : Fault → Session → Prop) :
    Prop :=
  match (op.run s).1 with
  | .ok a => Q a (op.run s).2
  | .error fault => E fault (op.run s).2

variable {α β : Type} {s : Session} {Q Q' : α → Session → Prop} {R : β → Session → Prop}
  {E E' : Fault → Session → Prop}

theorem Ends.mono {op : Editing α} (h : Ends op s Q E) (hg : ∀ a s', Q a s' → Q' a s')
    (hb : ∀ fault s', E fault s' → E' fault s') : Ends op s Q' E' := by
  simp only [Ends] at h ⊢
  cases result : (op.run s).1 with
  | ok a =>
      rw [result] at h
      exact hg a _ h
  | error fault =>
      rw [result] at h
      exact hb fault _ h

theorem Ends.error {op : Editing α} {fault : Fault} (h : Ends op s Q E) (hs : (op.run s).1 = .error fault) :
    E fault (op.run s).2 := by
  simp only [Ends, hs] at h
  exact h

theorem Ends.ok {op : Editing α} {a : α} (h : Ends op s Q E) (hs : (op.run s).1 = .ok a) : Q a (op.run s).2 := by
  simp only [Ends, hs] at h
  exact h

/-- Whatever an operation does, it ends. -/
theorem ends_trivially (op : Editing α) (s : Session) : Ends op s (fun _ _ => True) (fun _ _ => True) := by
  unfold Ends
  split <;> trivial

/-- What holds however an operation ends holds of the session after it. -/
theorem Ends.after {op : Editing α} {P : Session → Prop} (h : Ends op s (fun _ => P) (fun _ => P)) :
    P (op.run s).2 := by
  simp only [Ends] at h
  cases result : (op.run s).1 <;> simpa only [result] using h

/-! ### Putting operations together -/

theorem ends_pure {a : α} (h : Q a s) : Ends (pure a) s Q E := h

theorem ends_throw {fault : Fault} (h : E fault s) : Ends (throw fault : Editing α) s Q E := h

theorem ends_bind {op : Editing α} {f : α → Editing β} (h : Ends op s (fun a s' => Ends (f a) s' R E) E) :
    Ends (op >>= f) s R E := by
  simp only [Ends] at h ⊢
  have run : (op >>= f).run s =
      match (op.run s).1 with
      | .ok a => (f a).run (op.run s).2
      | .error fault => (.error fault, (op.run s).2) := by
    show (ExceptT.bindCont f (op.run s).1) (op.run s).2 = _
    cases (op.run s).1 <;> rfl
  rw [run]
  cases result : (op.run s).1 with
  | ok a => simpa only [result] using h
  | error fault => simpa only [result] using h

theorem ends_lift {x : Except Fault α} (hg : ∀ a, x = .ok a → Q a s) (hb : ∀ fault, x = .error fault → E fault s) :
    Ends (liftM x : Editing α) s Q E := by
  cases x with
  | ok a => exact hg a rfl
  | error fault => exact hb fault rfl

theorem ends_modify {f : Session → Session} {P : Unit → Session → Prop} (h : P () (f s)) :
    Ends (modify f : Editing Unit) s P E := h

theorem bind_lift {x : Except Fault α} {f : α → Editing β} (hb : ∀ fault, E fault s)
    (hg : ∀ a, x = .ok a → Ends (f a) s R E) : Ends ((liftM x : Editing α) >>= f) s R E :=
  ends_bind (ends_lift hg fun fault _ => hb fault)

theorem bind_known {x : Except Fault α} {a : α} {f : α → Editing β} (hk : x = .ok a) (h : Ends (f a) s R E) :
    Ends ((liftM x : Editing α) >>= f) s R E := by
  subst hk
  exact ends_bind h

theorem bind_get {f : Session → Editing β} (h : Ends (f s) s R E) : Ends ((get : Editing Session) >>= f) s R E :=
  ends_bind h

theorem bind_modify {change : Session → Session} {f : Unit → Editing β} (h : Ends (f ()) (change s) R E) :
    Ends ((modify change : Editing Unit) >>= f) s R E := ends_bind h

theorem bind_note {e : Event} {f : Unit → Editing β}
    (h : Ends (f ()) { s with journal := s.journal ++ [e] } R E) : Ends (Session.note e >>= f) s R E :=
  ends_bind h

theorem bind_noteHere {e : Event} {f : Unit → Editing β}
    (h : Ends (f ()) { s with journal := s.journal ++ [e.within [("session_id", .text s.id)]] } R E) :
    Ends (Session.noteHere e >>= f) s R E := ends_bind h

end Editing

namespace Session

/-- The path leads to a node of the open rule. -/
def LeadsTo (s : Session) (path : String) (node : Node) : Prop :=
  ∃ d steps, s.document = some d ∧ Address.steps path = .ok steps ∧ d.definition.find steps = .ok node

/-- The session with a tree as the definition of its rule. The warnings stay as they are if none can be
told of the new definition. -/
def committed (d : Document) (tree : Node) (s : Session) : Session :=
  let d := { d with definition := tree }
  { s with
    document := some d
    warnings := match d.warnings with
      | .ok warnings => warnings
      | .error _ => s.warnings }

/-- The session with all requests at a path and below it made stale. -/
def invalidated (path : String) (s : Session) : Session :=
  { s with tokens := (staled path s.generation s.tokens).1, generation := (staled path s.generation s.tokens).2 }

/-- The session with a new token for a path. -/
def issued (path : String) (s : Session) : Session :=
  { s with generation := s.generation + 1, tokens := s.tokens.set path (s.generation + 1) }

end Session

namespace Editing

open Session

variable {α β : Type} {s : Session} {R : β → Session → Prop} {E : Fault → Session → Prop}

/-! ### Reading the rule -/

theorem bind_opened {d : Document} {f : Document → Editing β} (ho : s.document = some d)
    (h : Ends (f d) s R E) : Ends (openDocument >>= f) s R E := by
  refine ends_bind ?_
  unfold openDocument
  refine bind_get ?_
  rw [ho]
  exact h

theorem bind_defined {d : Document} {f : Node → Editing β} (ho : s.document = some d)
    (h : Ends (f d.definition) s R E) : Ends (definition >>= f) s R E := by
  refine ends_bind ?_
  unfold definition
  exact bind_opened ho h

theorem bind_openDocument {f : Document → Editing β} (hb : ∀ fault, E fault s)
    (hg : ∀ d, s.document = some d → Ends (f d) s R E) : Ends (openDocument >>= f) s R E := by
  cases opened : s.document with
  | some d => exact bind_opened opened (hg d opened)
  | none =>
      refine ends_bind ?_
      unfold openDocument
      refine bind_get ?_
      rw [opened]
      exact hb _

theorem bind_definition {f : Node → Editing β} (hb : ∀ fault, E fault s)
    (hg : ∀ d, s.document = some d → Ends (f d.definition) s R E) : Ends (definition >>= f) s R E := by
  refine ends_bind ?_
  unfold definition
  exact bind_openDocument hb hg

theorem bind_node {path : String} {f : Node → Editing β} (hb : ∀ fault, E fault s)
    (hg : ∀ node, s.LeadsTo path node → Ends (f node) s R E) : Ends (Session.node path >>= f) s R E := by
  refine ends_bind ?_
  unfold Session.node
  refine bind_definition hb fun d opened => ends_lift (fun node found => ?_) fun fault _ => hb fault
  obtain ⟨steps, read, found⟩ := bind_eq_ok.mp found
  exact hg node ⟨d, steps, opened, read, found⟩

theorem bind_choice {f : Choice → Editing β} (hb : ∀ fault, E fault s)
    (hg : ∀ d c, s.document = some d → d.definition = c.node → Ends (f c) s R E) :
    Ends (choice >>= f) s R E := by
  refine ends_bind ?_
  unfold choice
  refine bind_definition hb fun d opened => ?_
  split
  · rename_i branches otherwise label same
    exact hg d ⟨branches, otherwise, label⟩ opened same
  · exact hb _

/-! ### Changing the session -/

theorem bind_invalidate {path : String} {f : Unit → Editing β} (h : Ends (f ()) (s.invalidated path) R E) :
    Ends (invalidate path >>= f) s R E := ends_bind h

theorem ends_issueToken {path : String} {Q : Nat → Session → Prop} (h : Q (s.generation + 1) (s.issued path)) :
    Ends (issueToken path) s Q E := h

theorem bind_issueToken {path : String} {f : Nat → Editing β}
    (h : Ends (f (s.generation + 1)) (s.issued path) R E) : Ends (issueToken path >>= f) s R E :=
  ends_bind (ends_issueToken h)

/-- Labelling keeps the numbers that it gave out, also if it fails. -/
theorem ends_labelled {edit : Labelling α}
    (hg : ∀ a numbering, edit.run s.numbering = (.ok a, numbering) → Q a { s with numbering })
    (hb : ∀ fault numbering, edit.run s.numbering = (.error fault, numbering) → E fault { s with numbering }) :
    Ends (labelled edit) s Q E := by
  unfold labelled
  refine bind_get ?_
  cases made : edit.run s.numbering with
  | mk result numbering =>
      refine bind_modify (ends_lift (fun a same => ?_) fun fault same => ?_)
      · subst same
        exact hg a numbering made
      · subst same
        exact hb fault numbering made

theorem bind_labelled {edit : Labelling α} {f : α → Editing β}
    (hb : ∀ fault numbering, E fault { s with numbering })
    (hg : ∀ a numbering, edit.run s.numbering = (.ok a, numbering) → Ends (f a) { s with numbering } R E) :
    Ends (labelled edit >>= f) s R E :=
  ends_bind (ends_labelled hg fun fault numbering _ => hb fault numbering)

theorem bind_refreshWarnings {d : Document} {f : Unit → Editing β} (ho : s.document = some d)
    (hb : ∀ fault, d.warnings = .error fault → E fault s)
    (hg : ∀ warnings, d.warnings = .ok warnings → Ends (f ()) { s with warnings } R E) :
    Ends (refreshWarnings >>= f) s R E := by
  refine ends_bind ?_
  unfold refreshWarnings
  refine bind_opened ho (ends_bind (ends_lift (fun warnings told => ?_) hb))
  exact ends_modify (hg warnings told)

/-- A tree that is put in place stays there, also if no warnings can be told of it. -/
theorem ends_commit {tree : Node} {Q : Unit → Session → Prop} (hb : ∀ fault, E fault s)
    (hg : ∀ d, s.document = some d → Q () (s.committed d tree) ∧
      ∀ fault, Document.warnings { d with definition := tree } = .error fault → E fault (s.committed d tree)) :
    Ends (commit tree) s Q E := by
  unfold commit
  refine bind_openDocument hb fun d opened => bind_modify ?_
  obtain ⟨done, failed⟩ := hg d opened
  unfold refreshWarnings
  refine bind_opened rfl ?_
  simp only [committed] at done failed
  cases found : Document.warnings { d with definition := tree } with
  | ok warnings =>
      rw [found] at done
      exact done
  | error fault =>
      rw [found] at failed
      exact failed fault rfl

end Editing

end RuleEditor
