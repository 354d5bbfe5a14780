import RuleEditor.Proofs.Tree.Lens

/-!
# Positions lead to their nodes

Each node that a tree lists is the one that its steps lead to. The operands on the right side of a comparison
are listed as positions of the comparison itself.
-/
namespace RuleEditor.Node

variable {up node : Node} {step : Step} {p : List Step × Node}

theorem child_rightItem {items : List Node} (h : up.child .right = .ok (.several items)) (i : Nat) :
    up.child (.rightItem i) = item items i := by
  cases up <;> cases h
  rfl

theorem mem_under {way : List Step} {positions : List (List Step × Node)} (h : p ∈ under way positions) :
    ∃ q ∈ positions, p = (way ++ q.1, q.2) := by
  obtain ⟨q, there, same⟩ := List.mem_map.mp h
  exact ⟨q, there, same.symm⟩

theorem find_of_mem_under {positions : List (List Step × Node)} (hs : up.child step = .ok node)
    (hi : ∀ q ∈ positions, node.find q.1 = .ok q.2) (h : p ∈ under [step] positions) : up.find p.1 = .ok p.2 := by
  obtain ⟨q, there, rfl⟩ := mem_under h
  simp only [List.cons_append, List.nil_append, find, hs, ok_bind]
  exact hi q there

mutual

/-- What is listed about a child is found from its parent. -/
theorem find_of_mem_positionsFrom : (node : Node) → {up : Node} → {step : Step} → {p : List Step × Node} →
    up.child step = .ok node → p ∈ positionsFrom [step] node → up.find p.1 = .ok p.2
  | .absent, up, step, p, stands, h => by
      unfold positionsFrom at h
      split at h
      · cases h
      · cases List.mem_singleton.mp h
        simp only [find, stands, ok_bind]
  | .several items, up, step, p, stands, h => by
      unfold positionsFrom at h
      split at h
      · rename_i right
        cases right
        exact find_of_mem_listPositions .rightItem 0 items (fun j => by rw [Nat.zero_add, child_rightItem stands]) h
      · cases List.mem_singleton.mp h
        simp only [find, stands, ok_bind]
  | .literal .., up, step, p, stands, h | .field .., up, step, p, stands, h | .reference _, up, step, p, stands, h
  | .ruleCheck .., up, step, p, stands, h => by
      unfold positionsFrom at h
      cases List.mem_singleton.mp h
      simp only [find, stands, ok_bind]
  | .call type name arguments, up, step, p, stands, h => by
      unfold positionsFrom at h
      rcases List.mem_cons.mp h with rfl | h
      · simp only [find, stands, ok_bind]
      · refine find_of_mem_under stands (fun q there => ?_) h
        exact find_of_mem_argumentPositions 0 arguments (fun j => by rw [Nat.zero_add]; rfl) there
  | .chain type operands operators, up, step, p, stands, h => by
      unfold positionsFrom at h
      rcases List.mem_cons.mp h with rfl | h
      · simp only [find, stands, ok_bind]
      · refine find_of_mem_under stands (fun q there => ?_) h
        exact find_of_mem_listPositions .operand 0 operands (fun j => by rw [Nat.zero_add]; rfl) there
  | .comparison name left operator right, up, step, p, stands, h => by
      unfold positionsFrom at h
      rcases List.mem_cons.mp h with rfl | h
      · simp only [find, stands, ok_bind]
      · refine find_of_mem_under stands (fun q there => ?_) h
        rcases List.mem_append.mp there with there | there
        · exact find_of_mem_positionsFrom left rfl there
        · exact find_of_mem_positionsFrom right rfl there
  | .group name children conjunction negated, up, step, p, stands, h => by
      unfold positionsFrom at h
      rcases List.mem_cons.mp h with rfl | h
      · simp only [find, stands, ok_bind]
      · refine find_of_mem_under stands (fun q there => ?_) h
        exact find_of_mem_listPositions .child 0 children (fun j => by rw [Nat.zero_add]; rfl) there
  | .choice branches otherwise label, up, step, p, stands, h => by
      unfold positionsFrom at h
      rcases List.mem_cons.mp h with rfl | h
      · simp only [find, stands, ok_bind]
      · refine find_of_mem_under stands (fun q there => ?_) h
        rcases List.mem_append.mp there with there | there
        · exact find_of_mem_branchPositions 0 branches (fun j => by rw [Nat.zero_add]; exact ⟨rfl, rfl⟩) there
        · exact find_of_mem_positionsFrom otherwise rfl there

theorem find_of_mem_listPositions (step : Nat → Step) (i : Nat) :
    (items : List Node) → {up : Node} → {p : List Step × Node} →
    (∀ j, up.child (step (i + j)) = item items j) → p ∈ listPositions step i items → up.find p.1 = .ok p.2
  | [], up, p, _, h => by cases h
  | node :: rest, up, p, stand, h => by
      rcases List.mem_append.mp h with h | h
      · exact find_of_mem_positionsFrom node (stand 0) h
      · exact find_of_mem_listPositions step (i + 1) rest
          (fun j => by rw [Nat.add_right_comm, Nat.add_assoc, stand (j + 1)]; rfl) h

theorem find_of_mem_branchPositions (i : Nat) : (branches : List (Branch Node)) → {up : Node} → {p : List Step × Node} →
    (∀ j, up.child (.condition (i + j)) = (item branches j).map (·.condition) ∧
      up.child (.result (i + j)) = (item branches j).map (·.result)) →
    p ∈ branchPositions i branches → up.find p.1 = .ok p.2
  | [], up, p, _, h => by cases h
  | ⟨condition, result, label⟩ :: rest, up, p, stand, h => by
      rcases List.mem_append.mp h with h | h
      · rcases List.mem_append.mp h with h | h
        · exact find_of_mem_positionsFrom condition (stand 0).1 h
        · exact find_of_mem_positionsFrom result (stand 0).2 h
      · exact find_of_mem_branchPositions (i + 1) rest
          (fun j => by rw [Nat.add_right_comm, Nat.add_assoc]; exact stand (j + 1)) h

theorem find_of_mem_argumentPositions (i : Nat) :
    (arguments : List (Argument Node)) → {up : Node} → {p : List Step × Node} →
    (∀ j, up.child (.argument (i + j)) = (item arguments j).map (·.value)) →
    p ∈ argumentPositions i arguments → up.find p.1 = .ok p.2
  | [], up, p, _, h => by cases h
  | ⟨name, value⟩ :: rest, up, p, stand, h => by
      rcases List.mem_append.mp h with h | h
      · exact find_of_mem_positionsFrom value (stand 0) h
      · exact find_of_mem_argumentPositions (i + 1) rest
          (fun j => by rw [Nat.add_right_comm, Nat.add_assoc]; exact stand (j + 1)) h

end

theorem find_of_mem_positions {tree : Node} (h : p ∈ tree.positions) : tree.find p.1 = .ok p.2 := by
  -- The tree is listed as the left side of a comparison is.
  let up : Node := .comparison .null tree .null .absent
  have listed : positionsFrom [.left] tree = under [.left] tree.positions := by
    cases tree <;> simp [positions, positionsFrom, under]
  have there : (.left :: p.1, p.2) ∈ positionsFrom [.left] tree := listed ▸ List.mem_map_of_mem h
  have stands : up.child .left = .ok tree := rfl
  have found := find_of_mem_positionsFrom tree stands there
  simpa only [find, stands, ok_bind] using found

end RuleEditor.Node
