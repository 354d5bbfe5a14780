import RuleEditor.Proofs.Tree.Lens

/-!
# What holds everywhere in a tree

A property of single nodes holds everywhere in a tree if it holds of the tree and of all nodes inside it, the
operands of chains, the arguments of calls and both sides of comparisons included.
-/
namespace RuleEditor.Node

/-- The nodes directly inside a node. -/
def inner : Node → List Node
  | .several items => items
  | .call _ _ arguments => arguments.map (·.value)
  | .chain _ operands _ => operands
  | .comparison _ left _ right => [left, right]
  | .group _ children _ _ => children
  | .choice branches otherwise _ => otherwise :: branches.flatMap fun b => [b.condition, b.result]
  | .absent | .literal .. | .field .. | .reference _ | .ruleCheck .. => []

inductive Everywhere (P : Node → Prop) : Node → Prop where
  | intro {node : Node} : P node → (∀ part ∈ node.inner, Everywhere P part) → Everywhere P node

/-- A node is the tree itself, or stands inside a node of it. -/
inductive Within (tree : Node) : Node → Prop where
  | self : Within tree tree
  | inside {node part : Node} : Within tree node → part ∈ node.inner → Within tree part

namespace Everywhere

variable {P : Node → Prop} {node node' old new : Node} {step : Step}

theorem here (h : Everywhere P node) : P node := by
  cases h with
  | intro here _ => exact here

theorem inside (h : Everywhere P node) : ∀ part ∈ node.inner, Everywhere P part := by
  cases h with
  | intro _ inside => exact inside

theorem mono {Q : Node → Prop} (hw : ∀ node, P node → Q node) (h : Everywhere P node) : Everywhere Q node := by
  induction h with
  | intro here _ ih => exact .intro (hw _ here) ih

theorem item {items : List Node} (h : ∀ part ∈ items, Everywhere P part) {i : Nat} (hf : items[i]? = some old) :
    Everywhere P old := h old (List.mem_of_getElem? hf)

theorem set {items : List Node} (h : ∀ part ∈ items, Everywhere P part) (hp : Everywhere P new) (i : Nat) :
    ∀ part ∈ items.set i new, Everywhere P part := by
  intro part within
  rcases List.mem_or_eq_of_mem_set within with there | rfl
  · exact h part there
  · exact hp

/-- What holds everywhere in a tree holds of nodes of the tree. -/
theorem within (h : Everywhere P node) : Everywhere (fun part => P part ∧ Within node part) node := by
  have below {part : Node} (h : Everywhere P part) (there : Within node part) :
      Everywhere (fun part => P part ∧ Within node part) part := by
    induction h with
    | intro here _ ih => exact .intro ⟨here, there⟩ fun inner within => ih inner within (.inside there within)
  exact below h .self

theorem part (h : Everywhere P node) {part : Node} (ht : Within node part) : P part := by
  have below : Everywhere P part := by
    induction ht with
    | self => exact h
    | inside _ within ih => exact ih.inside _ within
  exact below.here

/-- All slots of a choice, given by the final result and each branch. -/
theorem choice_inside {branches : List (Branch Node)} {otherwise : Node} {label : ResultLabel} :
    (∀ part ∈ (Node.choice branches otherwise label).inner, Everywhere P part) ↔
      Everywhere P otherwise ∧ ∀ b ∈ branches, Everywhere P b.condition ∧ Everywhere P b.result := by
  simp only [inner, List.mem_cons, forall_eq_or_imp, List.mem_flatMap, forall_exists_index, and_imp,
    List.not_mem_nil, or_false]
  constructor
  · rintro ⟨last, all⟩
    exact ⟨last, fun b within => ⟨all _ b within (.inl rfl), all _ b within (.inr rfl)⟩⟩
  · rintro ⟨last, all⟩
    refine ⟨last, fun part b within one => ?_⟩
    rcases one with rfl | rfl
    · exact (all b within).1
    · exact (all b within).2

theorem comparison_inside {name operator : Value} {left right : Node} :
    (∀ part ∈ (Node.comparison name left operator right).inner, Everywhere P part) ↔
      Everywhere P left ∧ Everywhere P right := by
  simp only [inner, List.mem_cons, forall_eq_or_imp, List.not_mem_nil, false_implies, implies_true, and_true]

/-- What stands in a slot is a part of the node. -/
theorem slot_old (h : Everywhere P node) (slot : Slot step old new node node') : Everywhere P old := by
  cases slot with
  | condition found => exact ((choice_inside.mp h.inside).2 _ (List.mem_of_getElem? found)).1
  | result found => exact ((choice_inside.mp h.inside).2 _ (List.mem_of_getElem? found)).2
  | otherwise => exact (choice_inside.mp h.inside).1
  | child found => exact item h.inside found
  | left => exact (comparison_inside.mp h.inside).1
  | right => exact (comparison_inside.mp h.inside).2
  | rightItem found => exact item (comparison_inside.mp h.inside).2.inside found
  | operand found => exact item h.inside found
  | argument found => exact h.inside _ (List.mem_map_of_mem (List.mem_of_getElem? found))

/-- A property holds everywhere after a slot is filled if it did before, does in the slot, and holds of the node. -/
theorem slot_new (hh : P node') (hl : ∀ items, P (.several items)) (h : Everywhere P node)
    (hp : Everywhere P new) (slot : Slot step old new node node') : Everywhere P node' := by
  refine .intro hh ?_
  cases slot with
  | condition found =>
      obtain ⟨last, all⟩ := choice_inside.mp h.inside
      refine choice_inside.mpr ⟨last, fun b within => ?_⟩
      rcases List.mem_or_eq_of_mem_set within with there | rfl
      · exact all b there
      · exact ⟨hp, (all _ (List.mem_of_getElem? found)).2⟩
  | result found =>
      obtain ⟨last, all⟩ := choice_inside.mp h.inside
      refine choice_inside.mpr ⟨last, fun b within => ?_⟩
      rcases List.mem_or_eq_of_mem_set within with there | rfl
      · exact all b there
      · exact ⟨(all _ (List.mem_of_getElem? found)).1, hp⟩
  | otherwise => exact choice_inside.mpr ⟨hp, (choice_inside.mp h.inside).2⟩
  | child found => exact set h.inside hp _
  | left => exact comparison_inside.mpr ⟨hp, (comparison_inside.mp h.inside).2⟩
  | right => exact comparison_inside.mpr ⟨(comparison_inside.mp h.inside).1, hp⟩
  | rightItem found =>
      obtain ⟨left, right⟩ := comparison_inside.mp h.inside
      exact comparison_inside.mpr ⟨left, .intro (hl _) (set right.inside hp _)⟩
  | operand found => exact set h.inside hp _
  | argument found =>
      intro part within
      obtain ⟨argument, there, rfl⟩ := List.mem_map.mp within
      rcases List.mem_or_eq_of_mem_set there with there | rfl
      · exact h.inside _ (List.mem_map_of_mem there)
      · exact hp

theorem find (h : Everywhere P node) {steps : List Step} (hf : node.find steps = .ok old) : Everywhere P old := by
  induction steps generalizing node with
  | nil =>
      cases hf
      exact h
  | cons step rest ih =>
      obtain ⟨child, stands, hf⟩ := bind_eq_ok.mp hf
      obtain ⟨_, slot⟩ := slot_of_child stands child
      exact ih (h.slot_old slot) hf

theorem replace (hf : ∀ {step old new node node'}, Slot step old new node node' → P node → P node')
    (hl : ∀ items, P (.several items)) (h : Everywhere P node) (hp : Everywhere P new) {steps : List Step}
    (hr : Node.replace new steps node = .ok node') : Everywhere P node' := by
  induction steps generalizing node node' with
  | nil =>
      cases hr
      exact hp
  | cons step rest ih =>
      obtain ⟨child, changed, below, slot⟩ := replace_cons.mp hr
      exact h.slot_new (hf slot h.here) hl (ih (h.slot_old slot) below) slot

end Everywhere

end RuleEditor.Node
