import RuleEditor.Proofs.Tree.Lens
import RuleEditor.Session.Basic

/-!
# References in a tree

Which reference a place of a tree holds: how it is used, and which version of which rule it is to. Two trees
that hold the same references in the same places are alike, whatever else tells them apart.
-/
namespace RuleEditor

/-- A reference as it stands in a place: as a condition or as an expression, and to which version of which rule. -/
structure Held where
  asCondition : Bool
  uuid : Value
  version : Value

namespace Node

def held? : Node → Option Held
  | .reference r => some ⟨false, r.uuid, r.version⟩
  | .ruleCheck _ r => some ⟨true, r.uuid, r.version⟩
  | _ => none

/-- The reference in the place that some steps lead to. -/
def heldAt : List Step → Node → Option Held
  | [], node => node.held?
  | step :: rest, node =>
    match node.child step with
    | .ok child => heldAt rest child
    | .error _ => none

/-- The reference in a place below a child, if there is the child. -/
def heldBelow (rest : List Step) (child : Except Fault Node) : Option Held :=
  match child with
  | .ok child => child.heldAt rest
  | .error _ => none

/-- The trees hold the same references in the same places. -/
def Alike (a b : Node) : Prop := ∀ steps, a.heldAt steps = b.heldAt steps

/-- The tree holds no reference. -/
def Bare (a : Node) : Prop := ∀ steps, a.heldAt steps = none

/-- The lists hold the same references in the same places. -/
def AlikeItems (xs ys : List Node) : Prop :=
  ∀ i rest, heldBelow rest (item xs i) = heldBelow rest (item ys i)

/-- The nodes that stand in one slot together. -/
def items : Node → List Node
  | .several items => items
  | _ => []

/-- The node is not a list of several ones. -/
def Single (node : Node) : Prop := ∀ items, node ≠ .several items

variable {old new node node' tree tree' : Node} {step : Step} {xs ys : List Node}

theorem heldAt_cons (step : Step) (rest : List Step) (node : Node) :
    node.heldAt (step :: rest) = heldBelow rest (node.child step) := rfl

theorem heldAt_of_find {steps : List Step} (h : tree.find steps = .ok node) (rest : List Step) :
    tree.heldAt (steps ++ rest) = node.heldAt rest := by
  induction steps generalizing tree with
  | nil =>
      cases h
      rfl
  | cons step steps ih =>
      obtain ⟨child, stands, h⟩ := bind_eq_ok.mp h
      rw [List.cons_append, heldAt_cons, stands]
      exact ih h

namespace Alike

variable {a b c : Node}

theorem refl (a : Node) : Alike a a := fun _ => rfl

theorem trans (h : Alike a b) (h' : Alike b c) : Alike a c := fun steps => (h steps).trans (h' steps)

/-- Nodes are alike if they themselves hold the same and if their children do. -/
theorem of_children (here : a.held? = b.held?)
    (below : ∀ step rest, heldBelow rest (a.child step) = heldBelow rest (b.child step)) : Alike a b
  | [] => here
  | step :: rest => below step rest

end Alike

theorem Bare.alike {a b : Node} (h : Bare a) (h' : Bare b) : Alike a b := fun steps => (h steps).trans (h' steps).symm

theorem Bare.of_children (hh : node.held? = none)
    (hb : ∀ step rest, heldBelow rest (node.child step) = none) : Bare node
  | [] => hh
  | step :: rest => hb step rest

theorem bare_literal (type value : Value) : Bare (.literal type value) :=
  .of_children rfl fun step _ => by cases step <;> rfl

theorem bare_field (type path : Value) : Bare (.field type path) :=
  .of_children rfl fun step _ => by cases step <;> rfl

theorem bare_several (items : List Node) : Bare (.several items) :=
  .of_children rfl fun step _ => by cases step <;> rfl

/-! ### Lists -/

namespace AlikeItems

theorem refl (xs : List Node) : AlikeItems xs xs := fun _ _ => rfl

theorem cons {x y : Node} (h : Alike x y) (rest : AlikeItems xs ys) : AlikeItems (x :: xs) (y :: ys)
  | 0, below => h below
  | i + 1, below => rest i below

/-- A node that holds nothing may be added at the end. -/
theorem append_bare (h : Bare new) (xs : List Node) : AlikeItems xs (xs ++ [new]) := by
  intro i rest
  rcases Nat.lt_trichotomy i xs.length with inside | rfl | beyond
  · simp only [item, List.getElem?_append_left inside]
  · simp only [item, List.getElem?_eq_none (Nat.le_refl _), List.getElem?_concat_length]
    exact (h rest).symm
  · have longer : xs.length + 1 ≤ i := beyond
    simp only [item, List.getElem?_eq_none (Nat.le_of_lt beyond),
      List.getElem?_eq_none (show (xs ++ [new]).length ≤ i by simpa using longer)]

theorem set {i : Nat} (hf : xs[i]? = some old) (h : Alike old new) : AlikeItems xs (xs.set i new) := by
  intro j rest
  by_cases same : i = j
  · subst same
    simp only [item, hf, List.getElem?_set_self (lt_of_item hf)]
    exact h rest
  · rw [item_set_ne same]

end AlikeItems

theorem alike_group {name name' : Value} {conjunction conjunction' : Conjunction} {negated negated' : Bool}
    (h : AlikeItems xs ys) : Alike (.group name xs conjunction negated) (.group name' ys conjunction' negated') :=
  .of_children rfl fun step rest => by
    cases step with
    | child i => exact h i rest
    | _ => rfl

theorem alike_chain {type type' : Value} {operators operators' : List Value} (h : AlikeItems xs ys) :
    Alike (.chain type xs operators) (.chain type' ys operators') :=
  .of_children rfl fun step rest => by
    cases step with
    | operand i => exact h i rest
    | _ => rfl

theorem item_map {α β : Type} (f : α → β) (xs : List α) (i : Nat) : (item xs i).map f = item (xs.map f) i := by
  simp only [item, List.getElem?_map]
  cases xs[i]? <;> rfl

/-- The labels of results make no difference. -/
theorem alike_choice {branches branches' : List (Branch Node)} {otherwise otherwise' : Node}
    {label label' : ResultLabel}
    (hc : AlikeItems (branches.map Branch.condition) (branches'.map Branch.condition))
    (hr : AlikeItems (branches.map Branch.result) (branches'.map Branch.result))
    (hl : Alike otherwise otherwise') :
    Alike (.choice branches otherwise label) (.choice branches' otherwise' label') :=
  .of_children rfl fun step rest => by
    cases step with
    | condition i =>
        have held := hc i rest
        simp only [← item_map] at held
        exact held
    | result i =>
        have held := hr i rest
        simp only [← item_map] at held
        exact held
    | otherwise => exact hl rest
    | _ => rfl

/-! ### Replacing -/

theorem Single.items_eq (h : Single node) : node.items = [] := by
  cases node with
  | several items => exact absurd rfl (h items)
  | _ => rfl

namespace Slot

/-- A node with slots holds no reference itself. -/
theorem held?_eq (slot : Slot step old new node node') : node.held? = none ∧ node'.held? = none := by
  cases slot <;> exact ⟨rfl, rfl⟩

theorem single (slot : Slot step old new node node') : Single node ∧ Single node' := by
  cases slot <;> exact ⟨fun _ => nofun, fun _ => nofun⟩

end Slot

/-- One way leads to the whole right side of a comparison, and the other one to an operand on it. -/
def Beside (p q : List Step) : Prop := ∃ front i back, p = front ++ [.right] ∧ q = front ++ .rightItem i :: back

theorem Beside.cons {p q : List Step} (step : Step) (h : Beside p q) : Beside (step :: p) (step :: q) := by
  obtain ⟨front, i, back, rfl, rfl⟩ := h
  exact ⟨step :: front, i, back, rfl, rfl⟩

theorem heldBelow_rightItem {name operator : Value} {left right : Node} (i : Nat) (rest : List Step) :
    heldBelow rest ((Node.comparison name left operator right).child (.rightItem i)) =
      heldBelow rest (item right.items i) := by
  cases right <;> rfl

/-- A replacement changes what a place holds only there and below, or beside it on a right side. -/
theorem heldAt_replaced {p q : List Step} (hr : Node.replace new p tree = .ok tree')
    (hf : tree.find p = .ok old) (hb : ∀ rest, q = p ++ rest → old.heldAt rest = new.heldAt rest)
    (he : (Single old ∧ Single new) ∨ ¬ Beside p q) : tree'.heldAt q = tree.heldAt q := by
  induction p generalizing tree tree' q with
  | nil =>
      cases hr
      cases hf
      exact (hb q rfl).symm
  | cons step p ih =>
      obtain ⟨child, changed, inside, slot⟩ := replace_cons.mp hr
      have foundBelow : child.find p = .ok old := by
        simpa only [find, slot.child_eq, ok_bind] using hf
      cases q with
      | nil => exact slot.held?_eq.2.trans slot.held?_eq.1.symm
      | cons other q =>
          rw [heldAt_cons, heldAt_cons]
          by_cases same : other = step
          · subst same
            rw [slot.child_new, slot.child_eq]
            exact ih inside foundBelow (fun rest here => hb rest (congrArg (other :: ·) here))
              (he.imp_right fun apart there => apart (there.cons other))
          · by_cases meets : step.Meets other
            · -- one of the two steps leads to the whole right side, the other to an operand on it
              cases slot with
              | right =>
                  cases other with
                  | right => exact absurd rfl same
                  | rightItem i =>
                      have single : Single child ∧ Single changed := by
                        cases p with
                        | nil =>
                            cases inside
                            cases foundBelow
                            exact he.resolve_right fun apart => apart ⟨[], i, q, rfl, rfl⟩
                        | cons next p =>
                            obtain ⟨_, _, _, slot⟩ := replace_cons.mp inside
                            exact slot.single
                      rw [heldBelow_rightItem, heldBelow_rightItem, single.1.items_eq, single.2.items_eq]
                  | _ => cases meets
              | rightItem _ =>
                  cases other with
                  | right => exact (bare_several _ q).trans (bare_several _ q).symm
                  | rightItem j => exact absurd meets.symm same
                  | _ => cases meets
              | _ => cases other <;> exact absurd meets.symm same
            · rw [slot.child_other meets]

theorem alike_replaced {p : List Step} (hr : Node.replace new p tree = .ok tree')
    (hf : tree.find p = .ok old) (h : Alike old new) (hs : Single old ∧ Single new) : Alike tree' tree :=
  fun _ => heldAt_replaced hr hf (fun rest _ => h rest) (.inl hs)

/-- The root of the whole tree stays if the one of the node that is replaced does. -/
theorem root_put {p : List Step} (hr : Node.replace new p tree = .ok tree') (hf : tree.find p = .ok old)
    (hs : new.root = old.root) : tree'.root = tree.root := by
  cases p with
  | nil =>
      cases hr
      cases hf
      exact hs
  | cons step rest => exact root_replaced (by simp) hr

/-- Inferring the types of chains leaves all references. -/
theorem alike_reinferUp {numeric : List String} {steps : List Step} {k : Nat}
    (h : tree.reinferUp numeric steps k = .ok tree') : Alike tree' tree ∧ tree'.root = tree.root := by
  induction k generalizing tree with
  | zero =>
      cases h
      exact ⟨.refl _, rfl⟩
  | succ k ih =>
      obtain ⟨once, here, h⟩ := bind_eq_ok.mp h
      obtain ⟨alike, root⟩ := ih h
      suffices Alike once tree ∧ once.root = tree.root from ⟨alike.trans this.1, root.trans this.2⟩
      obtain ⟨node, found, here⟩ := bind_eq_ok.mp here
      split at here
      · obtain ⟨type, -, here⟩ := bind_eq_ok.mp here
        split at here
        · cases here
          exact ⟨.refl _, rfl⟩
        · exact ⟨alike_replaced here found (alike_chain (.refl _)) ⟨fun _ => nofun, fun _ => nofun⟩,
            root_put here found rfl⟩
      · cases here
        exact ⟨.refl _, rfl⟩

end Node

end RuleEditor
