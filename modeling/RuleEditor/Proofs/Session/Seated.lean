import RuleEditor.Proofs.Edit.Seated
import RuleEditor.Proofs.Session.Errands

/-!
# The rule of a session stays seated

A property of nodes at their seats that every change of a definition keeps holds throughout the rule of a session.
The definition as a whole has the seat that the form of the rule asks for.
-/
namespace RuleEditor

/-- The definition of the rule is seated at the seat that its form gives. -/
def Document.Seated (P : Seat → Node → Prop) (d : Document) : Prop := d.definition.Seated P (.ofForm d.form)

/-- What the moves of a scope put at a seat may stand there, and so may the rules that they take up. -/
structure Scope.Seating (sc : Scope) (numeric : List String) (P : Seat → Node → Prop) : Prop
    extends sc.Seats numeric P where
  begun : ∀ {branch otherwise label}, P .choice (.choice [branch] otherwise label)
  loaded : ∀ {d}, sc.dares (.load d) → d.Seated P

namespace Session

open Editing

variable {P : Seat → Node → Prop} {sc : Scope} {s s' : Session} {numeric : List String}

/-- The rule that is edited, if there is one, is seated. -/
def Seated (P : Seat → Node → Prop) (s : Session) : Prop := ∀ d, s.document = some d → d.Seated P

/-- A new rule starts with a definition of its form. -/
theorem seated_initial (h : sc.Seating numeric P) (form type : Value) :
    Ends (initial form type) s
      (fun start _ => ∀ f, Form.ofValue? form = some f → start.1.Seated P (.ofForm f)) (fun _ _ => True) := by
  have alone (t v : Value) : (Node.literal t v).Seated P .expression := Node.seated_leaf .literal (h.leaf .literal)
  unfold initial
  refine bind_get ?_
  split
  · rename_i known
    refine bind_lift (fun _ => trivial) fun node made => ends_pure fun f same => ?_
    cases known.symm.trans same
    obtain ⟨children, rfl, -, all⟩ := Fresh.group_eq made
    exact Node.seated_group.mpr
      ⟨h.condition Node.isCondition_group, Node.seated_conditions h.toSeats all⟩
  · rename_i known
    refine bind_lift (fun _ => trivial) fun node made => ends_pure fun f same => ?_
    cases known.symm.trans same
    obtain ⟨name, condition, t, v, t', v', first, rfl⟩ := Fresh.choice_eq made
    refine Node.seated_choice.mpr ⟨h.begun, alone t' v', List.forall_mem_singleton.mpr ⟨?_, alone t v⟩⟩
    exact Node.seated_condition h.toSeats first
  · rename_i known
    refine bind_lift (fun _ => trivial) fun node made => ends_pure fun f same => ?_
    cases known.symm.trans same
    obtain ⟨t, v, rfl⟩ := Fresh.literal_eq made
    exact alone t v
  · exact ends_throw trivial

theorem seated_committed {d : Document} {tree : Node} (h : tree.Seated P (.ofForm d.form)) :
    (s.committed d tree).Seated P := by
  intro d' same
  cases same
  exact h

theorem Move.seated (hs : sc.Seating s.numeric P) (h : s.Seated P) (move : Move sc s s') : s'.Seated P := by
  cases move with
  | aside aside =>
      intro d opened
      exact h d (aside.document ▸ opened)
  | remember => exact h
  | place _ _ opened _ found rewrite placed =>
      have old := Node.Seated.find (h _ opened) found
      have new := Node.seated_rewrite hs.toSeats old rewrite
      exact seated_committed (Node.seated_placed hs.toSeats (h _ opened) new placed)
  | @recast _ _ d c _ _ opened same recast =>
      have own : c.node.Seated P (.ofForm d.form) := same ▸ h d opened
      exact seated_committed (Node.seated_recast hs.toSeats own recast)
  | choose _ _ _ opened _ found chosen placed =>
      have old := Node.Seated.find (h _ opened) found
      have new := Node.seated_chosen hs.toSeats old chosen
      exact seated_committed (Node.seated_placed hs.toSeats (h _ opened) new placed)
  | recheck _ opened rechecked =>
      exact seated_committed (Node.seated_rechecked hs.toSeats (h _ opened) rechecked)
  | @store _ d _ _ _ opened =>
      intro d' same
      cases same
      exact h d opened
  | restart => exact h
  | create started _ known =>
      intro d same
      cases same
      exact (seated_initial hs _ _).ok started _ known
  | load _ _ loads =>
      intro d same
      cases same
      exact hs.loaded loads

theorem Move.sameSetUp (move : Move sc s s') : SameSetUp s s' := by
  cases move with
  | aside aside => exact aside.toSameSetUp
  | place aside | recast aside | choose aside | recheck aside | store aside =>
      exact ⟨aside.catalogue, aside.settings, aside.id, aside.connected, aside.numeric⟩
  | remember | restart | create | load => exact ⟨rfl, rfl, rfl, rfl, rfl⟩

theorem Moves.sameSetUp (moves : Moves sc s s') : SameSetUp s s' := by
  induction moves with
  | refl => exact .refl _
  | tail _ move ih => exact ih.trans move.sameSetUp

theorem Moves.seated (hs : sc.Seating s.numeric P) (h : s.Seated P) (moves : Moves sc s s') : s'.Seated P := by
  induction moves with
  | refl => exact h
  | tail earlier move ih =>
      have same := (Moves.sameSetUp earlier).numeric
      exact move.seated (same ▸ hs) ih

end Session

/-! ### What turns do to the data that they come upon -/

/-- The scope of moves that draw on anything, and do certain things only. -/
def Scope.daring (dares : Feat → Prop) : Scope := { Scope.any with dares }

/-- The expressions that a turn puts into a rule. -/
def Turn.expressions : Turn → List Node
  | .edit (.changeLeft _ left) => [left]
  | .edit (.setExpression _ e) => [e]
  | _ => []

namespace Conversation

variable {c : Conversation} {t : Turn} {turns : List Turn} {dares : Feat → Prop} {P : Seat → Node → Prop}

/-- Each of the turns is as it should be when its time comes. -/
def Throughout (C : Conversation → Turn → Prop) : Conversation → List Turn → Prop
  | _, [] => True
  | c, t :: rest => C c t ∧ Throughout C (c.next t) rest

theorem Throughout.and {C D : Conversation → Turn → Prop} (h : Throughout C c turns) (h' : Throughout D c turns) :
    Throughout (fun c t => C c t ∧ D c t) c turns := by
  induction turns generalizing c with
  | nil => trivial
  | cons t rest ih => exact ⟨⟨h.1, h'.1⟩, ih h.2 h'.2⟩

theorem Throughout.mono {C D : Conversation → Turn → Prop} (hw : ∀ t ∈ turns, ∀ c, C c t → D c t)
    (h : Throughout C c turns) : Throughout D c turns := by
  induction turns generalizing c with
  | nil => trivial
  | cons t rest ih =>
      obtain ⟨first, others⟩ := List.forall_mem_cons.mp hw
      exact ⟨first c h.1, ih others h.2⟩

/-- The turn does certain things only to the data that it comes upon. -/
def Within (dares : Feat → Prop) (c : Conversation) (t : Turn) : Prop := ∀ feat, c.Dares t feat → dares feat

theorem expression_of_supply {e : Node} (h : c.Dares t (.supply e)) : e ∈ t.expressions := by
  cases t with
  | edit e' =>
      obtain ⟨path, rfl⟩ := h
      exact List.mem_cons_self
  | query | start => exact h.elim
  | answer call a =>
      obtain ⟨p, -, d, no, -⟩ := h
      cases no

theorem led_of_dares {c' : Comparison} {left : Node} (h : c.Dares t (.lead c' left)) :
    ∃ path, t = .edit (.changeLeft path left) ∧ c.session.LeadsTo path c'.node := by
  cases t with
  | edit e =>
      obtain ⟨path, rfl, leads⟩ := h
      exact ⟨path, rfl, leads⟩
  | query | start => exact h.elim
  | answer call a =>
      obtain ⟨p, -, d, no, -⟩ := h
      cases no

theorem expression_of_lead {c' : Comparison} {left : Node} (h : c.Dares t (.lead c' left)) : left ∈ t.expressions := by
  obtain ⟨path, rfl, -⟩ := led_of_dares h
  exact List.mem_cons_self

/-- The turn puts only such expressions into a rule, and takes up only such rules. -/
structure Brings (E : Node → Prop) (D : Document → Prop) (c : Conversation) (t : Turn) : Prop where
  expressions : ∀ e ∈ t.expressions, E e
  rules : ∀ d, c.Dares t (.load d) → D d

theorem moves_of_within (h : c.Within dares t) : Session.Moves (.daring dares) c.session (c.next t).session := by
  have all : (Scope.daring dares).Open := ⟨fun _ => trivial, fun _ => trivial, fun _ _ _ => trivial⟩
  exact all.next_moves (fun _ _ _ _ => trivial) (fun _ _ => trivial) (fun _ _ => trivial)
    (fun _ _ _ _ _ _ _ _ _ => trivial) (fun _ _ _ _ _ _ _ _ _ => trivial) (fun _ _ => trivial) h

theorem moves_run (h : Throughout (Within dares) c turns) :
    Session.Moves (.daring dares) c.session (c.run turns).session := by
  induction turns generalizing c with
  | nil => exact .refl
  | cons t rest ih => exact (moves_of_within h.1).trans (ih h.2)

/-- The rule stays seated as long as the turns put at each seat what may stand there. -/
theorem seated_run (seating : (Scope.daring dares).Seating c.session.numeric P) (h : c.session.Seated P)
    (hw : Throughout (Within dares) c turns) : (c.run turns).session.Seated P :=
  (moves_run hw).seated seating h

end Conversation

end RuleEditor
