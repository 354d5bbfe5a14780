import RuleEditor.Proofs.Address.Canonical
import RuleEditor.Proofs.Tree.Typed

/-!
# What warnings tell

A tree lists every reference in it, so the warnings about a rule hold, under the path of each reference, what there
is to say about it, and nothing else.
-/
namespace RuleEditor

namespace Node

variable {tree node child : Node} {step : Step} {steps : List Step} {p : List Step × Node}

/-- What stands in a slot is listed there with all that is inside, unless it is an empty right side or a list. -/
theorem positionsFrom_eq (node : Node) (hs : node ≠ .absent) (ho : ∀ items, node ≠ .several items) (step : Step) :
    positionsFrom [step] node = under [step] node.positions := by
  cases node with
  | absent => exact absurd rfl hs
  | several items => exact absurd rfl (ho items)
  | _ => simp [positions, positionsFrom, under]

theorem mem_listPositions (step : Nat → Step) {items : List Node} {i j : Nat} (hf : items[j]? = some child)
    (h : p ∈ positionsFrom [step (i + j)] child) : p ∈ listPositions step i items := by
  induction items generalizing i j with
  | nil => cases hf
  | cons first rest ih =>
      rw [listPositions, List.mem_append]
      cases j with
      | zero =>
          cases hf
          exact .inl h
      | succ j =>
          refine .inr (ih hf ?_)
          rwa [Nat.add_assoc, Nat.add_comm 1 j]

theorem mem_branchPositions {branches : List (Branch Node)} {branch : Branch Node} {i j : Nat}
    (hf : branches[j]? = some branch) (h : p ∈ positionsFrom [.condition (i + j)] branch.condition ∨
      p ∈ positionsFrom [.result (i + j)] branch.result) : p ∈ branchPositions i branches := by
  induction branches generalizing i j with
  | nil => cases hf
  | cons first rest ih =>
      rw [branchPositions, List.mem_append, List.mem_append]
      cases j with
      | zero =>
          cases hf
          exact .inl h
      | succ j =>
          refine .inr (ih hf ?_)
          rwa [Nat.add_assoc, Nat.add_comm 1 j]

theorem mem_argumentPositions {arguments : List (Argument Node)} {argument : Argument Node} {i j : Nat}
    (hf : arguments[j]? = some argument) (h : p ∈ positionsFrom [.argument (i + j)] argument.value) :
    p ∈ argumentPositions i arguments := by
  induction arguments generalizing i j with
  | nil => cases hf
  | cons first rest ih =>
      rw [argumentPositions, List.mem_append]
      cases j with
      | zero =>
          cases hf
          exact .inl h
      | succ j =>
          refine .inr (ih hf ?_)
          rwa [Nat.add_assoc, Nat.add_comm 1 j]

/-- What is listed about the node in a slot is listed about the node that has the slot. -/
theorem mem_positions_of_slot {new node' : Node} (slot : Slot step child new node node')
    (h : p ∈ positionsFrom [step] child) : p ∈ node.positions := by
  have below {positions : List (List Step × Node)} (h : p ∈ positions) : p ∈ under [] positions := by
    simpa [under] using h
  cases slot with
  | condition found =>
      have listed := mem_branchPositions (i := 0) found (.inl (by rwa [Nat.zero_add]))
      exact List.mem_cons_of_mem _ (below (List.mem_append_left _ listed))
  | result found =>
      have listed := mem_branchPositions (i := 0) found (.inr (by rwa [Nat.zero_add]))
      exact List.mem_cons_of_mem _ (below (List.mem_append_left _ listed))
  | otherwise => exact List.mem_cons_of_mem _ (below (List.mem_append_right _ h))
  | child found =>
      have listed := mem_listPositions .child (i := 0) found (by rwa [Nat.zero_add])
      exact List.mem_cons_of_mem _ (below listed)
  | left => exact List.mem_cons_of_mem _ (below (List.mem_append_left _ h))
  | right => exact List.mem_cons_of_mem _ (below (List.mem_append_right _ h))
  | @rightItem _ _ _ _ _ items _ found =>
      have listed := mem_listPositions .rightItem (i := 0) found (by rwa [Nat.zero_add])
      have side : positionsFrom [.right] (.several items) = listPositions .rightItem 0 items := by
        unfold positionsFrom
        rfl
      exact List.mem_cons_of_mem _ (below (List.mem_append_right _ (side ▸ listed)))
  | operand found =>
      have listed := mem_listPositions .operand (i := 0) found (by rwa [Nat.zero_add])
      exact List.mem_cons_of_mem _ (below listed)
  | argument found =>
      have listed := mem_argumentPositions (i := 0) found (by rwa [Nat.zero_add])
      exact List.mem_cons_of_mem _ (below listed)

/-- Every node that some steps lead to is listed, unless it is an empty slot or a list. -/
theorem mem_positions_of_find (hf : tree.find steps = .ok node) (hp : node ≠ .absent)
    (ho : ∀ items, node ≠ .several items) : (steps, node) ∈ tree.positions := by
  induction steps generalizing tree with
  | nil =>
      cases hf
      cases node with
      | absent => exact absurd rfl hp
      | several items => exact absurd rfl (ho items)
      | _ => exact List.mem_cons_self
  | cons step rest ih =>
      obtain ⟨child, stands, below⟩ := bind_eq_ok.mp hf
      obtain ⟨_, slot⟩ := slot_of_child stands child
      refine mem_positions_of_slot slot ?_
      -- neither an empty slot nor a list has slots, so nothing is found below them
      have inside : child ≠ .absent ∧ ∀ items, child ≠ .several items := by
        cases rest with
        | nil =>
            cases below
            exact ⟨hp, ho⟩
        | cons next rest =>
            obtain ⟨_, stands, -⟩ := bind_eq_ok.mp below
            cases child with
            | absent | several => cases stands
            | _ => simp
      rw [positionsFrom_eq child inside.1 inside.2]
      exact List.mem_map_of_mem (ih below)

end Node

namespace Document

variable {d : Document} {steps : List Step} {node : Node} {told : Members (List Warning)} {here : List Warning}

/-- The warnings under the path of a reference are those about it. -/
theorem get?_warnings (h : d.warnings = .ok told) (hf : d.definition.find steps = .ok node)
    (ht : node.target?.isSome) (ha : d.warningsAt steps node = .ok here) :
    told.get? (Address.render d.definition.root steps) = if here.isEmpty then none else some here := by
  have among (positions : List (List Step × Node)) (leads : ∀ p ∈ positions, d.definition.find p.1 = .ok p.2)
      (listed : here.isEmpty = false → (steps, node) ∈ positions) {told : Members (List Warning)}
      (h : d.warningsAmong positions = .ok told) :
      told.get? (Address.render d.definition.root steps) = if here.isEmpty then none else some here := by
    induction positions generalizing told with
    | nil =>
        cases h
        cases empty : here.isEmpty with
        | true => rfl
        | false => cases listed empty
    | cons p rest ih =>
        obtain ⟨leads, below⟩ := List.forall_mem_cons.mp leads
        obtain ⟨found', at', h⟩ := bind_eq_ok.mp h
        obtain ⟨others, among, h⟩ := bind_eq_ok.mp h
        cases h
        by_cases same : p.1 = steps
        · obtain ⟨steps', node'⟩ := p
          cases same
          cases leads.symm.trans hf
          cases at'.symm.trans ha
          cases empty : here.isEmpty with
          | true => simpa [empty] using ih below (by simp [empty]) among
          | false => simp [Members.get?]
        · have listed (some : here.isEmpty = false) : (steps, node) ∈ rest :=
            (List.mem_cons.mp (listed some)).resolve_left fun here => same (congrArg Prod.fst here).symm
          have apart : Address.render d.definition.root p.1 ≠ Address.render d.definition.root steps :=
            fun alike => same (Address.render_inj (Node.isRoot_root _) alike)
          split
          · exact ih below listed among
          · rw [Members.get?, if_neg apart]
            exact ih below listed among
  have single : node ≠ .absent ∧ ∀ items, node ≠ .several items := by
    cases node with
    | absent | several => cases ht
    | _ => simp
  exact among _ (fun p within => Node.find_of_mem_positions within)
    (fun _ => Node.mem_positions_of_find hf single.1 single.2) h

/-! ### References on the right side -/

/-- On the right side of a comparison the type of the left side is required. -/
theorem requiredType_right {above : List Step} {side : Step} {name operator : Value} {left right : Node} {r : Reference}
    (hc : d.definition.find above = .ok (.comparison name left operator right))
    (hb : side = .right ∨ ∃ i, side = .rightItem i) :
    d.requiredType (above ++ [side]) (.reference r) = left.type := by
  have last : (above ++ [side]).getLast? = some side := List.getLast?_concat
  have ofLeft : (do let c ← (← d.definition.find (above ++ [side]).dropLast).asComparison; c.left.type) =
      left.type := by
    rw [List.dropLast_concat, hc]
    rfl
  unfold requiredType
  split
  · rename_i no
    cases no
  · rename_i no _
    simp at no
  · rename_i same _
    rw [same] at last
    rcases hb with rfl | ⟨i, rfl⟩ <;> cases last
  · rename_i same _
    rw [same] at last
    rcases hb with rfl | ⟨i, rfl⟩ <;> cases last
  · exact ofLeft
  · exact ofLeft
  · rename_i notRight notItem
    rcases hb with rfl | ⟨i, rfl⟩
    · exact (notRight last).elim
    · exact (notItem i last).elim

/-- The warnings about a reference block exactly if the type that is required is another one. -/
theorem blocking_iff {r : Reference} {type : Value} (ha : d.warningsAt steps (.reference r) = .ok here)
    (hr : r.isResolved = true) (he : d.requiredType steps (.reference r) = .ok type) :
    (∃ w ∈ here, w.isBlocking = true) ↔ Finding.differ r.type type = true := by
  simp only [warningsAt, Node.target?, hr, Bool.not_true, Bool.false_eq_true, if_false, he, ok_bind,
    pure_eq_ok] at ha
  cases ha
  simp only [List.mem_append]
  constructor
  · rintro ⟨w, within | within, blocks⟩
    · split at within
      · cases List.mem_singleton.mp within
        cases blocks
      · cases within
    · split at within
      · assumption
      · cases within
  · intro differ
    rw [if_pos differ]
    exact ⟨_, .inr List.mem_cons_self, rfl⟩

end Document

end RuleEditor
