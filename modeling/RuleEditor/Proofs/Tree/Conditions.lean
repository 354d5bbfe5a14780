import RuleEditor.Proofs.Tree.Accepted
import Mathlib.Data.List.Induction

/-!
# Places of conditions

Conditions stand in groups and in the branches of a choice. So no chain is on the way to a condition, and to weave
another condition into its place is just to put it there.
-/
namespace RuleEditor

/-- The step leads to the place of a condition. -/
def Step.ToCondition : Step → Prop
  | .child _ | .condition _ => True
  | _ => False

namespace Seat

variable {seat : Seat} {step : Step} {steps : List Step}

theorem after_ne_choice (seat : Seat) (step : Step) : seat.after step ≠ .choice := by
  cases step <;> cases seat <;> simp [after, operands]

theorem toCondition_of_after (h : seat.after step = .condition) : step.ToCondition := by
  cases step with
  | child | condition => trivial
  | _ => cases seat <;> cases h

theorem along_append (seat : Seat) (steps : List Step) (step : Step) :
    seat.along (steps ++ [step]) = (seat.along steps).after step := by
  rw [along, List.foldl_append]
  rfl

/-- Only the definition itself stands where a choice may stand. -/
theorem eq_nil_of_along (h : seat.along steps = .choice) : steps = [] := by
  rcases List.eq_nil_or_concat steps with rfl | ⟨way, step, rfl⟩
  · rfl
  · rw [List.concat_eq_append, along_append] at h
    exact absurd h (after_ne_choice _ _)

end Seat

namespace Node

variable {numeric : List String} {tree tree' node new above : Node} {seat : Seat} {way steps : List Step} {step : Step}
  {i : Nat}

/-! ### The way to a condition -/

theorem find_concat : tree.find (way ++ [step]) = .ok node ↔ ∃ above, tree.find way = .ok above ∧
    above.child step = .ok node := by
  rw [find_append, bind_eq_ok]
  refine exists_congr fun above => and_congr_right fun _ => ?_
  cases stands : above.child step <;> simp [find, stands]

theorem child_child : above.child (.child i) = .ok node ↔ ∃ name children conjunction negated,
    above = .group name children conjunction negated ∧ children[i]? = some node := by
  constructor
  · intro stands
    cases above with
    | group name children conjunction negated => exact ⟨_, _, _, _, rfl, item_eq_ok.mp stands⟩
    | _ => cases stands
  · rintro ⟨name, children, conjunction, negated, rfl, found⟩
    exact item_eq_ok.mpr found

theorem child_condition : above.child (.condition i) = .ok node ↔ ∃ branches otherwise label branch,
    above = .choice branches otherwise label ∧ branches[i]? = some branch ∧ branch.condition = node := by
  constructor
  · intro stands
    cases above with
    | choice branches otherwise label =>
        obtain ⟨branch, found, same⟩ := map_eq_ok.mp stands
        exact ⟨_, _, _, branch, rfl, item_eq_ok.mp found, same⟩
    | _ => cases stands
  · rintro ⟨branches, otherwise, label, branch, rfl, found, rfl⟩
    exact map_eq_ok.mpr ⟨branch, item_eq_ok.mpr found, rfl⟩

/-- Above the condition of a branch there is the choice alone. -/
theorem above_branch (hs : tree.Seated Admitted seat) (hf : tree.find (way ++ [.condition i]) = .ok node) :
    way = [] := by
  obtain ⟨above, there, stands⟩ := find_concat.mp hf
  obtain ⟨branches, otherwise, label, branch, rfl, -, -⟩ := child_condition.mp stands
  have here := (hs.find there).here
  refine @Seat.eq_nil_of_along seat way ?_
  cases place : seat.along way with
  | choice => rfl
  | _ =>
      rw [place] at here
      cases here

theorem steps_to_condition (hs : tree.Seated Admitted seat) (hf : tree.find steps = .ok node)
    (hc : node.Admitted .condition) : ∀ step ∈ steps, step.ToCondition := by
  induction steps using List.reverseRecOn generalizing node with
  | nil => exact nofun
  | append_singleton way step ih =>
      obtain ⟨above, there, stands⟩ := find_concat.mp hf
      have place := seat_of_condition hc (hs.find hf).here
      rw [Seat.along_append] at place
      have last := Seat.toCondition_of_after place
      refine List.forall_mem_append.mpr ⟨?_, List.forall_mem_singleton.mpr last⟩
      cases step with
      | child i =>
          obtain ⟨name, children, conjunction, negated, rfl, -⟩ := child_child.mp stands
          exact ih there rfl
      | condition i =>
          rw [above_branch hs hf]
          exact nofun
      | _ => cases last

/-! ### Putting a condition in its place -/

theorem weave_condition (h : ∀ step ∈ steps, step.ToCondition) (numeric : List String) (new tree : Node) :
    weave numeric new steps tree = replace new steps tree := by
  induction steps generalizing tree with
  | nil => rfl
  | cons step rest ih =>
      obtain ⟨here, below⟩ := List.forall_mem_cons.mp h
      rw [weave, replace]
      cases stands : tree.child step with
      | error fault => rfl
      | ok child =>
          simp only [ok_bind, ih below]
          cases replace new rest child with
          | error fault => rfl
          | ok changed =>
              obtain ⟨tree', slot⟩ := slot_of_child stands changed
              simp only [ok_bind, slot.withChild_eq]
              cases slot with
              | child | condition => rfl
              | _ => cases here

/-- What filling a slot leaves of a node holds on in a tree when something is put in a place of it. -/
theorem Seated.put {P : Seat → Node → Prop}
    (hk : ∀ {seat step old new node node'}, Slot step old new node node' → P seat node → P seat node')
    (hs : ∀ items, P .right (.several items)) (h : tree.Seated P seat) (hp : new.Seated P (seat.along steps))
    (hr : replace new steps tree = .ok tree') : tree'.Seated P seat := by
  induction steps generalizing tree tree' seat with
  | nil =>
      cases hr
      exact hp
  | cons step rest ih =>
      obtain ⟨old, changed, below, slot⟩ := replace_cons.mp hr
      exact Seated.slot_new (hk slot h.here) hs h (ih (h.slot_old slot) hp below) slot

theorem Admitted.slot {old node' : Node} (slot : Slot step old new node node') (h : node.Admitted seat) :
    node'.Admitted seat := by
  cases slot <;> cases seat <;> exact h

/-- Which children a group has makes no difference to where it may stand. -/
theorem Admitted.regrouped {name : Value} {children : List Node} {conjunction : Conjunction} {negated : Bool}
    (h : (group name children conjunction negated).Admitted seat) (children' : List Node) :
    (group name children' conjunction negated).Admitted seat := by
  cases seat <;> exact h

theorem Admitted.rebranched {branches : List (Branch Node)} {otherwise : Node} {label : ResultLabel}
    (h : (choice branches otherwise label).Admitted seat) (branches' : List (Branch Node)) :
    (choice branches' otherwise label).Admitted seat := by
  cases seat <;> exact h

theorem sorted_put (hs : tree.Seated Admitted seat) (hp : new.Seated Admitted (seat.along steps))
    (hr : replace new steps tree = .ok tree') : tree'.Seated Admitted seat :=
  hs.put Admitted.slot (fun _ => rfl) hp hr

theorem whole_put (hw : tree.Seated Whole seat) (hp : new.Seated Whole (seat.along steps))
    (hr : replace new steps tree = .ok tree') : tree'.Seated Whole seat :=
  hw.put
    (fun slot h => ⟨h.admitted.slot slot, slot.proportioned h.proportioned, branched_slot slot h.branched⟩)
    (fun _ => ⟨rfl, trivial, trivial⟩) hp hr

/-- Where the sorts are right, warnings can be told. -/
theorem Seated.leftsSorted (h : tree.Seated Admitted seat) : tree.LeftsDeclared :=
  fun _ _ _ _ _ found =>
    type_of_isExpression (isExpression_of_expression (seated_comparison.mp (h.find found)).2.1.here)

end Node

end RuleEditor
