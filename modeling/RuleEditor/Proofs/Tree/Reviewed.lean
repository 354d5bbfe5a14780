import RuleEditor.Proofs.Session.Rewrite
import RuleEditor.Proofs.Stored.NormalForm
import RuleEditor.Proofs.Tree.Lens

/-!
# Findings in a tree

Where one node takes the place of another that differs from it in findings only, the trees differ in findings
only. So do the trees before and after a check of all references.
-/
namespace RuleEditor

/-- The document without what checks of the referenced rules found. -/
def Document.unreviewed (d : Document) : Document := { d with definition := d.definition.unreviewed }

namespace Node

variable {old new node node' tree tree' : Node} {step : Step}

theorem unreviewedItems_eq_map (items : List Node) : unreviewedItems items = items.map unreviewed := by
  induction items with
  | nil => rfl
  | cons node rest ih => simp only [unreviewedItems, List.map_cons, ih]

theorem unreviewedArguments_eq_map (arguments : List (Argument Node)) :
    unreviewedArguments arguments = arguments.map fun a => ⟨a.name, a.value.unreviewed⟩ := by
  induction arguments with
  | nil => rfl
  | cons argument rest ih => simp only [unreviewedArguments, List.map_cons, ih]

theorem unreviewedBranches_eq_map (branches : List (Branch Node)) :
    unreviewedBranches branches = branches.map fun b => ⟨b.condition.unreviewed, b.result.unreviewed, b.label⟩ := by
  induction branches with
  | nil => rfl
  | cons branch rest ih => simp only [unreviewedBranches, List.map_cons, ih]

theorem map_set_same {α β : Type} {f : α → β} {items : List α} {i : Nat} {x y : α} (hf : items[i]? = some x)
    (hs : f y = f x) : (items.set i y).map f = items.map f := by
  obtain ⟨within, rfl⟩ := List.getElem?_eq_some_iff.mp hf
  rw [List.map_set, hs, ← List.map_set, List.set_getElem_self within]

theorem Slot.unreviewed (slot : Slot step old new node node') (hs : new.unreviewed = old.unreviewed) :
    node'.unreviewed = node.unreviewed := by
  cases slot with
  | condition found =>
      simp only [Node.unreviewed, unreviewedBranches_eq_map]
      rw [map_set_same found (by simp only [hs])]
  | result found =>
      simp only [Node.unreviewed, unreviewedBranches_eq_map]
      rw [map_set_same found (by simp only [hs])]
  | otherwise => simp only [Node.unreviewed, hs]
  | child found => simp only [Node.unreviewed, unreviewedItems_eq_map, map_set_same found hs]
  | left => simp only [Node.unreviewed, hs]
  | right => simp only [Node.unreviewed, hs]
  | rightItem found => simp only [Node.unreviewed, unreviewedItems_eq_map, map_set_same found hs]
  | operand found => simp only [Node.unreviewed, unreviewedItems_eq_map, map_set_same found hs]
  | argument found =>
      simp only [Node.unreviewed, unreviewedArguments_eq_map]
      rw [map_set_same found (by simp only [hs])]

theorem child_unreviewed (h : node.child step = .ok old) : node.unreviewed.child step = .ok old.unreviewed := by
  obtain ⟨_, slot⟩ := slot_of_child h old
  cases slot with
  | condition found | result found =>
      simp [Node.unreviewed, child, unreviewedBranches_eq_map, item, found, Except.map]
  | otherwise | left | right => rfl
  | child found | rightItem found | operand found => simp [Node.unreviewed, child, unreviewedItems_eq_map, item, found]
  | argument found => simp [Node.unreviewed, child, unreviewedArguments_eq_map, item, found, Except.map]

/-- A node of a tree stands in the tree without findings as well. -/
theorem find_unreviewed {steps : List Step} (h : tree.find steps = .ok node) :
    tree.unreviewed.find steps = .ok node.unreviewed := by
  induction steps generalizing tree with
  | nil =>
      cases h
      rfl
  | cons step rest ih =>
      obtain ⟨part, stands, h⟩ := bind_eq_ok.mp h
      simp only [find, child_unreviewed stands, ok_bind, ih h]

theorem unreviewed_replace {steps : List Step} (hf : tree.find steps = .ok old)
    (hs : new.unreviewed = old.unreviewed) (hr : Node.replace new steps tree = .ok tree') :
    tree'.unreviewed = tree.unreviewed := by
  induction steps generalizing tree tree' with
  | nil =>
      cases hf
      cases hr
      exact hs
  | cons step rest ih =>
      obtain ⟨child, changed, below, slot⟩ := replace_cons.mp hr
      obtain ⟨child', stands, hf⟩ := bind_eq_ok.mp hf
      cases stands.symm.trans slot.child_eq
      exact slot.unreviewed (ih hf below)

theorem unreviewed_rechecked {found : Value → Value → Finding → Prop} (rechecked : Rechecked found tree tree') :
    tree'.unreviewed = tree.unreviewed := by
  induction rechecked with
  | refl => rfl
  | step _ wrote _ ih =>
      obtain ⟨steps, old, new, there, reviews, replaced⟩ := writeReview?_eq wrote
      rw [ih]
      refine unreviewed_replace there ?_ replaced
      cases reviews with
      | reference => rfl
      | check => rfl

end Node

end RuleEditor
