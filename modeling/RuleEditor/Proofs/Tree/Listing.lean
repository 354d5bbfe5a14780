import RuleEditor.Proofs.Address.Ascent
import RuleEditor.Proofs.Tree.Warned
import Mathlib.Data.List.Nodup

/-!
# Listed nodes

A tree lists each of its nodes once, under a path that is read as the steps to the node. Whatever path a node is found
at, it is listed under one path with the same steps.
-/
namespace RuleEditor

namespace Node

variable {tree node child : Node} {step : Step} {steps : List Step} {slot : Step × Node}

/-! ### One level of a tree -/

/-- Numbered nodes with the steps to them. -/
def numberedSlots (step : Nat → Step) (items : List Node) : List (Step × Node) :=
  items.zipIdx.map fun p => (step p.2, p.1)

/-- The nodes directly below a node with the steps to them, as they are listed: an empty right side is left out, and of
several right operands each is there by itself. -/
def slots : Node → List (Step × Node)
  | .call _ _ arguments => numberedSlots .argument (arguments.map (·.value))
  | .chain _ operands _ => numberedSlots .operand operands
  | .group _ children _ _ => numberedSlots .child children
  | .comparison _ left _ .absent => [(.left, left)]
  | .comparison _ left _ (.several items) => (.left, left) :: numberedSlots .rightItem items
  | .comparison _ left _ right => [(.left, left), (.right, right)]
  | .choice branches otherwise _ =>
    (branches.zipIdx.flatMap fun p => [(.condition p.2, p.1.condition), (.result p.2, p.1.result)]) ++
      [(.otherwise, otherwise)]
  | _ => []

theorem under_nil (positions : List (List Step × Node)) : under [] positions = positions := by
  simp [under]

theorem positionsFrom_of_ne (step : Step) (node : Node) (ne : step ≠ .right) :
    positionsFrom [step] node = under [step] node.positions := by
  cases node <;> simp [positions, positionsFrom, under, ne]

theorem listPositions_eq (step : Nat → Step) (h : ∀ i, step i ≠ .right) (items : List Node) (i : Nat) :
    listPositions step i items = (items.zipIdx i).flatMap fun p => under [step p.2] p.1.positions := by
  induction items generalizing i with
  | nil => rfl
  | cons item rest ih =>
      rw [listPositions, positionsFrom_of_ne (step i) item (h i), ih, List.zipIdx_cons, List.flatMap_cons]

theorem argumentPositions_eq (arguments : List (Argument Node)) (i : Nat) :
    argumentPositions i arguments =
      ((arguments.map (·.value)).zipIdx i).flatMap fun p => under [.argument p.2] p.1.positions := by
  induction arguments generalizing i with
  | nil => rfl
  | cons argument rest ih =>
      rw [argumentPositions, positionsFrom_of_ne (.argument i) argument.value (by simp), ih, List.map_cons,
        List.zipIdx_cons, List.flatMap_cons]

theorem branchPositions_eq (branches : List (Branch Node)) (i : Nat) :
    branchPositions i branches = (branches.zipIdx i).flatMap fun p =>
      under [.condition p.2] p.1.condition.positions ++ under [.result p.2] p.1.result.positions := by
  induction branches generalizing i with
  | nil => rfl
  | cons branch rest ih =>
      rw [branchPositions, positionsFrom_of_ne (.condition i) branch.condition (by simp),
        positionsFrom_of_ne (.result i) branch.result (by simp), ih, List.zipIdx_cons, List.flatMap_cons]

/-- A tree lists itself, and then what each of its slots lists. -/
theorem positions_eq (node : Node) :
    node.positions = ([], node) :: node.slots.flatMap fun slot => under [slot.1] slot.2.positions := by
  have numbered (step : Nat → Step) (ne : ∀ i, step i ≠ .right) (items : List Node) :
      listPositions step 0 items =
        (numberedSlots step items).flatMap fun slot => under [slot.1] slot.2.positions := by
    rw [listPositions_eq step ne, numberedSlots, List.flatMap_map]
  cases node with
  | call type name arguments =>
      rw [positions, positionsFrom, under_nil, argumentPositions_eq, slots, numberedSlots, List.flatMap_map]
  | chain type operands operators => rw [positions, positionsFrom, under_nil, numbered .operand (by simp), slots]
  | group name children conjunction negated =>
      rw [positions, positionsFrom, under_nil, numbered .child (by simp), slots]
  | comparison name left operator right =>
      rw [positions, positionsFrom, under_nil, positionsFrom_of_ne .left left (by simp)]
      cases right with
      | absent => simp [positionsFrom, slots]
      | several items => simp only [positionsFrom, if_true, numbered .rightItem (by simp), slots, List.flatMap_cons]
      | _ => simp [positions, positionsFrom, under, slots]
  | choice branches otherwise label =>
      rw [positions, positionsFrom, under_nil, branchPositions_eq, positionsFrom_of_ne .otherwise otherwise (by simp),
        slots, List.flatMap_append, List.flatMap_assoc]
      simp
  | _ => rfl

theorem map_fst_numberedSlots (step : Nat → Step) (items : List Node) :
    (numberedSlots step items).map (·.1) = (List.range' 0 items.length).map step := by
  rw [numberedSlots, List.map_map, ← List.zipIdx_map_snd 0 items, List.map_map]
  rfl

/-- No two slots are reached by the same step. -/
theorem nodup_slots (node : Node) : (node.slots.map (·.1)).Nodup := by
  have numbered {step : Nat → Step} (inj : Function.Injective step) (items : List Node) :
      ((numberedSlots step items).map (·.1)).Nodup := by
    rw [map_fst_numberedSlots]
    exact List.Nodup.map inj List.nodup_range'
  unfold slots
  split
  · exact numbered (fun _ _ => Step.argument.inj) _
  · exact numbered (fun _ _ => Step.operand.inj) _
  · exact numbered (fun _ _ => Step.child.inj) _
  · exact List.nodup_singleton _
  · rename_i items
    rw [List.map_cons, List.nodup_cons]
    refine ⟨?_, numbered (fun _ _ => Step.rightItem.inj) items⟩
    simp [map_fst_numberedSlots]
  · simp
  · rename_i branches otherwise _
    have steps : (branches.zipIdx.flatMap fun p => [(Step.condition p.2, p.1.condition), (.result p.2, p.1.result)]).map
        (·.1) = (List.range' 0 branches.length).flatMap fun i => [.condition i, .result i] := by
      rw [List.map_flatMap, ← List.zipIdx_map_snd 0 branches, List.flatMap_map]
      rfl
    have pairs : ((List.range' 0 branches.length).flatMap fun i => [Step.condition i, .result i]).Nodup := by
      refine List.nodup_flatMap.mpr ⟨by simp, List.Pairwise.imp (fun differ => ?_) List.nodup_range'⟩
      apply List.disjoint_left.mpr
      simp [differ]
    rw [List.map_append, steps, List.nodup_append]
    refine ⟨pairs, List.nodup_singleton _, ?_⟩
    intro step within last ends same
    cases (List.mem_singleton.mp ends).symm.trans same.symm
    simp at within
  · exact List.nodup_nil

theorem slot_of_mem_slots (h : slot ∈ node.slots) : ∃ node', Slot slot.1 slot.2 slot.2 node node' := by
  have itself : ([], slot.2) ∈ slot.2.positions := by
    rw [positions_eq]
    exact List.mem_cons_self
  have listed : ([slot.1], slot.2) ∈ node.positions := by
    rw [positions_eq]
    exact List.mem_cons_of_mem _ (List.mem_flatMap.mpr ⟨slot, h, List.mem_map_of_mem itself⟩)
  obtain ⟨child, stands, found⟩ := bind_eq_ok.mp (find_of_mem_positions listed)
  cases found
  exact slot_of_child stands slot.2

/-- What stands in a slot is smaller than the node. -/
theorem Slot.sizeOf_lt {old new node node' : Node} (slot : Slot step old new node node') :
    sizeOf old < sizeOf node := by
  cases slot with
  | condition found | result found =>
      have smaller := List.sizeOf_lt_of_mem (List.mem_of_getElem? found)
      rename_i branch _ _ _
      cases branch
      simp only [Branch.mk.sizeOf_spec] at smaller
      simp only [choice.sizeOf_spec]
      omega
  | child found | operand found | rightItem found =>
      have smaller := List.sizeOf_lt_of_mem (List.mem_of_getElem? found)
      simp only [group.sizeOf_spec, chain.sizeOf_spec, comparison.sizeOf_spec, several.sizeOf_spec]
      omega
  | argument found =>
      have smaller := List.sizeOf_lt_of_mem (List.mem_of_getElem? found)
      rename_i argument _
      cases argument
      simp only [Argument.mk.sizeOf_spec] at smaller
      simp only [call.sizeOf_spec]
      omega
  | otherwise | left | right =>
      simp only [choice.sizeOf_spec, comparison.sizeOf_spec]
      omega

/-- No two nodes are listed with the same steps. -/
theorem nodup_positions (node : Node) : (node.positions.map (·.1)).Nodup := by
  have below (slot : Step × Node) :
      (under [slot.1] slot.2.positions).map (·.1) = (slot.2.positions.map (·.1)).map (slot.1 :: ·) := by
    simp [under]
  rw [positions_eq, List.map_cons, List.map_flatMap, List.nodup_cons]
  simp only [below]
  constructor
  · simp
  · refine List.nodup_flatMap.mpr ⟨fun slot within => ?_, ?_⟩
    · obtain ⟨_, stands⟩ := slot_of_mem_slots within
      have smaller := stands.sizeOf_lt
      exact List.Nodup.map List.cons_injective (nodup_positions slot.2)
    · -- the steps below different slots start with different steps
      refine (List.pairwise_map.mp (nodup_slots node)).imp fun differ => ?_
      apply List.disjoint_left.mpr
      intro steps here there
      obtain ⟨_, -, rfl⟩ := List.mem_map.mp here
      obtain ⟨_, -, same⟩ := List.mem_map.mp there
      exact differ (List.cons.inj same).1.symm
termination_by sizeOf node

/-! ### Paths of listed nodes -/

/-- No node of the tree holds more nodes than an index can count; a longer index could not be spelled. -/
def Counted (tree : Node) : Prop := tree.Everywhere fun part => part.inner.length ≤ 10 ^ Text.maxDigits

/-- Where each node holds no more nodes than can be counted, an index into a node is short. -/
theorem index_lt {old new node node' : Node} {step : Step} {i bound : Nat} (slot : Slot step old new node node')
    (hs : node.Everywhere fun part => part.inner.length ≤ bound) (ha : step.index? = some i) : i < bound := by
  have branched {branches : List (Branch Node)} {otherwise : Node} {label : ResultLabel}
      (counted : (Node.choice branches otherwise label).inner.length ≤ bound) : branches.length ≤ bound := by
    simp only [inner, List.length_cons, List.length_flatMap, List.length_nil, List.map_const',
      List.sum_replicate_nat] at counted
    omega
  cases slot with
  | condition found | result found =>
      cases ha
      exact Nat.lt_of_lt_of_le (lt_of_item found) (branched hs.here)
  | child found | operand found =>
      cases ha
      exact Nat.lt_of_lt_of_le (lt_of_item found) hs.here
  | rightItem found =>
      cases ha
      exact Nat.lt_of_lt_of_le (lt_of_item found) (Everywhere.comparison_inside.mp hs.inside).2.here
  | argument found =>
      cases ha
      have counted := hs.here
      simp only [inner, List.length_map] at counted
      exact Nat.lt_of_lt_of_le (lt_of_item found) counted
  | otherwise | left | right => cases ha

theorem Counted.short (hs : tree.Counted) (hf : tree.find steps = .ok node) : Address.Short steps := by
  induction steps generalizing tree with
  | nil => exact nofun
  | cons step rest ih =>
      obtain ⟨child, stands, below⟩ := bind_eq_ok.mp hf
      obtain ⟨_, slot⟩ := slot_of_child stands child
      exact List.forall_mem_cons.mpr ⟨fun i at? => index_lt slot hs at?, ih (Everywhere.slot_old hs slot) below⟩

/-- Each node is listed once, under a path that is read as the steps to it, and no two nodes are listed under the same
path or the same steps. A node that is found at any path, in whatever spelling, is listed under one path with the same
steps. -/
theorem entries_agree (tree : Node) (h : tree.Counted) :
    (∀ e ∈ tree.entries, ∃ steps, Address.steps e.1 = .ok steps ∧ tree.atPath e.1 = .ok e.2) ∧
    (tree.entries.map (·.1)).Nodup ∧ (tree.entries.map fun e => Address.steps e.1).Nodup ∧
    ∀ path node, tree.atPath path = .ok node → node ≠ .absent → (∀ items, node ≠ .several items) →
      ∃ listed, (listed, node) ∈ tree.entries ∧ Address.steps listed = Address.steps path ∧
        ∀ e ∈ tree.entries, Address.steps e.1 = Address.steps path → e = (listed, node) := by
  have root := isRoot_root tree
  have read {p : List Step × Node} (within : p ∈ tree.positions) :
      Address.steps (Address.render tree.root p.1) = .ok p.1 :=
    Address.steps_render root (h.short (find_of_mem_positions within))
  refine ⟨?_, ?_, ?_, ?_⟩
  · intro e within
    obtain ⟨p, there, rfl⟩ := List.mem_map.mp within
    refine ⟨p.1, read there, ?_⟩
    rw [atPath, read there, ok_bind]
    exact find_of_mem_positions there
  · have paths : tree.entries.map (·.1) = (tree.positions.map (·.1)).map (Address.render tree.root) := by
      simp [entries, entriesFrom]
    rw [paths]
    exact List.Nodup.map (fun _ _ => Address.render_inj root) (nodup_positions tree)
  · have steps : (tree.entries.map fun e => Address.steps e.1) = (tree.positions.map (·.1)).map Except.ok := by
      rw [entries, entriesFrom, List.map_map, List.map_map]
      exact List.map_congr_left fun p within => read within
    rw [steps]
    exact List.Nodup.map (fun _ _ => Except.ok.inj) (nodup_positions tree)
  · intro path node at? present one
    obtain ⟨steps, known, found⟩ := bind_eq_ok.mp at?
    have there := mem_positions_of_find found present one
    refine ⟨Address.render tree.root steps, List.mem_map.mpr ⟨_, there, rfl⟩, (read there).trans known.symm, ?_⟩
    intro e within same
    obtain ⟨⟨steps', node'⟩, there', rfl⟩ := List.mem_map.mp within
    cases (read there').symm.trans (same.trans known)
    cases (find_of_mem_positions there').symm.trans found
    rfl

def amount (n : Int) : Node := .literal (.text "number") (.int n)

/-- A price that depends on an age: the upper bound is a sum. -/
def fares : Node :=
  .choice [⟨.comparison (.text "Condition 1") (.field (.text "number") (.text "AGE")) (.text "between")
    (.several [amount 18, .chain (.text "number") [amount 60, amount 5] [.text "+"]]), amount 10, .positional⟩]
    (amount 5) .positional

/-- The second summand is found at a path with another root and a zero before an index, and listed under its own. -/
theorem fares_agree :
    fares.Counted ∧
      fares.entries.map (·.1) = ["case", "case-when-0", "case-when-0-left", "case-when-0-right-0",
        "case-when-0-right-1", "case-when-0-right-1-operand-0", "case-when-0-right-1-operand-1", "case-then-0",
        "case-else"] ∧
      (fares.entries.map fun e => Address.steps e.1).Nodup ∧
      fares.atPath "root-when-00-right-1-operand-1" = .ok (amount 5) ∧
      ∃ listed, (listed, amount 5) ∈ fares.entries ∧
        Address.steps listed = Address.steps "root-when-00-right-1-operand-1" ∧
        ∀ e ∈ fares.entries, Address.steps e.1 = Address.steps "root-when-00-right-1-operand-1" →
          e = (listed, amount 5) := by
  have here {node : Node} (few : node.inner.length ≤ Text.maxDigits) (inside : ∀ part ∈ node.inner, part.Counted) :
      node.Counted :=
    .intro (Nat.le_of_lt (Nat.lt_of_le_of_lt few (Nat.lt_pow_self (by decide)))) inside
  have leaf (n : Int) : (amount n).Counted := here (Nat.zero_le _) nofun
  have field : (Node.field (.text "number") (.text "AGE")).Counted := here (Nat.zero_le _) nofun
  have pair {a b : Node} (first : a.Counted) (second : b.Counted) : ∀ part ∈ [a, b], part.Counted :=
    List.forall_mem_cons.mpr ⟨first, List.forall_mem_singleton.mpr second⟩
  have sum : (Node.chain (.text "number") [amount 60, amount 5] [.text "+"]).Counted :=
    here (by decide) (pair (leaf 60) (leaf 5))
  have bounds : (Node.several [amount 18, .chain (.text "number") [amount 60, amount 5] [.text "+"]]).Counted :=
    here (by decide) (pair (leaf 18) sum)
  have condition : (Node.comparison (.text "Condition 1") (.field (.text "number") (.text "AGE")) (.text "between")
      (.several [amount 18, .chain (.text "number") [amount 60, amount 5] [.text "+"]])).Counted :=
    here (by decide) (pair field bounds)
  have small : fares.Counted :=
    here (by decide) (List.forall_mem_cons.mpr ⟨leaf 5, pair condition (leaf 10)⟩)
  have found : fares.atPath "root-when-00-right-1-operand-1" = .ok (amount 5) := rfl
  obtain ⟨-, -, steps, listed⟩ := entries_agree fares small
  exact ⟨small, rfl, steps, found, listed _ _ found nofun nofun⟩

end Node

end RuleEditor
