import RuleEditor.Proofs.Session.Removing

/-!
# Grouping a comparison and taking it out again

A comparison that is turned into a group stands in it beside a new one. When the new one is removed and the group is
turned into a comparison again, the rule is what it was before, and so is the label of the comparison. Where the
comparison cannot be grouped, nothing changes at all.
-/
namespace RuleEditor.Session

open Editing Node

variable {s : Session} {d : Document} {path : String} {steps : List Step} {old new added tree tree' : Node}
  {seat : Seat} {kind : Kind} {asked name own operator : Value} {left right : Node} {n : Numbering} {i : Nat}
  {fault : Fault} {R : Unit → Session → Prop} {E : Fault → Session → Prop}

/-! ### Changes of kind -/

/-- Changing the kind of the condition at a path puts in its place what comes of it, if anything does. -/
theorem ends_changeConditionKind (ho : s.document = some d) (hr : Address.steps path = .ok steps)
    (hf : d.definition.find steps = .ok old) (hk : Kind.ofValue asked = .ok kind)
    (hb : ∀ fault n, (old.changeKind s.catalogue path kind).run s.numbering = (.error fault, n) →
      ∀ s', s'.document = some d → E fault s')
    (hg : ∀ new n, (old.changeKind s.catalogue path kind).run s.numbering = (.ok new, n) →
      ∀ s', s'.document = some d → Ends (put path new) s' R E) :
    Ends (changeConditionKind path asked) s R E := by
  unfold changeConditionKind
  refine bind_invalidate (bind_there ho hr hf (bind_known hk (bind_get (ends_bind ?_))))
  exact ends_labelled (fun new n made => hg new n made _ ho) fun fault n failed => hb fault n failed _ ho

/-- The kind of the condition at a path is changed, and nothing else changes. -/
theorem gives_kind_changed (ho : Defines d tree s) (hs : tree.Seated Admitted seat)
    (hr : Address.steps path = .ok steps) (hf : tree.find steps = .ok old)
    (hc : old.Admitted .condition) (hk : Kind.ofValue asked = .ok kind)
    (hh : (old.changeKind s.catalogue path kind).run s.numbering = (.ok new, n))
    (hp : replace new steps tree = .ok tree') (hs' : tree'.Seated Admitted seat) :
    Gives (changeConditionKind path asked) s fun _ => Defines d tree' := by
  refine ends_changeConditionKind ho hr hf hk (fun fault n' failed => ?_) fun new' n' made s' opened' => ?_
  · cases hh.symm.trans failed
  · cases hh.symm.trans made
    exact gives_put_condition opened' hr (steps_to_condition hs hf hc) hp hs'

/-! ### Removals below a condition -/

/-- The second of two children is removed from its group, and nothing else changes. -/
theorem gives_second_removed (ho : Defines d tree s) (hs : tree.Seated Admitted seat)
    (hr : Address.steps path = .ok (steps ++ [.child 1]))
    (hf : tree.find steps = .ok (.group own [old, added] .all false))
    (hp : replace (.group own [old] .all false) steps tree = .ok tree') (hs' : tree'.Seated Admitted seat) :
    Gives (removeCondition path) s fun _ => Defines d tree' := by
  have ho : s.document = some { d with definition := tree } := ho
  have conditions := steps_to_condition hs hf rfl
  unfold removeCondition
  refine bind_known hr ?_
  rw [List.length_append]
  refine ends_removeUp ho hr hf Nat.one_lt_two fun above s' _ readAbove keeps _ => ?_
  exact gives_put_condition (keeps.document.trans ho) readAbove conditions hp hs'

/-- From a comparison, no condition can be removed. -/
theorem ends_removed_from_comparison (ho : s.document = some d)
    (hr : Address.steps path = .ok (steps ++ [.child i]))
    (hf : d.definition.find steps = .ok (.comparison name left operator right)) :
    Ends (removeCondition path) s R fun _ s' => s'.document = some d := by
  unfold removeCondition
  refine bind_known hr ?_
  rw [List.length_append]
  exact ends_removeUp_at ho hr hf nofun fun _ _ => ho

/-! ### There and back -/

theorem document_of_defines (h : Defines d d.definition s) : s.document = some d := h

/-- Each of some edits succeeds, one after the other. -/
def Succeeds (s : Session) : List Edit → Prop
  | [] => True
  | e :: edits => (e.perform.run s).1 = .ok () ∧ (s.after e).Succeeds edits

def grouping (path : String) : Edit := .changeConditionKind path (.text "conditionGroup")

/-- Removing the second child of the group at a path. -/
def thinning (path : String) : Edit := .removeCondition (path ++ "-condition-1")

def ungrouping (path : String) : Edit := .changeConditionKind path (.text "condition")

theorem read_second (canonical : Address.Canonical d.definition.root path) (hr : Address.steps path = .ok steps) :
    Address.steps (path ++ "-condition-1") = .ok (steps ++ [.child 1]) := by
  have root := isRoot_root d.definition
  obtain rfl := canonical.eq_render root hr
  have spelled : Address.render d.definition.root steps ++ "-condition-1" = _ := Address.render_child root steps 1
  rw [spelled]
  exact Address.steps_append root hr fun _ => rfl

/-- A comparison that is grouped stays in its group alone and comes out of it as it went in. -/
theorem grouped_and_back (ho : s.document = some d) (hs : d.definition.Seated Admitted seat)
    (canonical : Address.Canonical d.definition.root path) (hr : Address.steps path = .ok steps)
    (hf : d.definition.find steps = .ok (.comparison name left operator right)) (hl : name.isPresent = true)
    (hm : ((Node.comparison name left operator right).changeKind s.catalogue path .group).run s.numbering =
      (.ok new, n)) :
    s.Succeeds [grouping path, thinning path, ungrouping path] ∧
      (s.afterAll [grouping path, thinning path, ungrouping path]).document = some d ∧
      ∃ own added tree, replace (.group own [.comparison name left operator right, added] .all false) steps
        d.definition = .ok tree ∧ (s.after (grouping path)).document = some { d with definition := tree } := by
  cases changeKind_eq hm with
  | same other => cases other
  | group other => exact absurd rfl other
  | @wrapped _ _ _ _ own _ _ added _ _ _ fresh =>
      have condition : (Node.comparison name left operator right).Admitted .condition := rfl
      have place : seat.along steps = .condition := seat_of_condition condition (hs.find hf).here
      have old := hs.find hf
      rw [place] at old
      obtain ⟨tree₁, put₁⟩ :=
        replace_of_find hf (.group own [.comparison name left operator right, added] .all false)
      obtain ⟨tree₂, put₂⟩ :=
        replace_of_find (find_replaced put₁) (.group own [.comparison name left operator right] .all false)
      have put₃ : replace (.comparison name left operator right) steps tree₂ = .ok d.definition :=
        calc replace (.comparison name left operator right) steps tree₂
          _ = replace (.comparison name left operator right) steps tree₁ := replace_replaced put₂
          _ = replace (.comparison name left operator right) steps d.definition := replace_replaced put₁
          _ = .ok d.definition := replace_found hf
      have sorted₁ : tree₁.Seated Admitted seat := by
        refine sorted_put hs (place ▸ seated_group.mpr ⟨rfl, ?_⟩) put₁
        exact List.forall_mem_cons.mpr ⟨old, List.forall_mem_singleton.mpr (whole_condition fresh).sorted⟩
      have sorted₂ : tree₂.Seated Admitted seat :=
        sorted_put sorted₁ (place ▸ seated_group.mpr ⟨rfl, List.forall_mem_singleton.mpr old⟩) put₂
      have first : Gives (grouping path).perform s fun _ => Defines d tree₁ :=
        gives_kind_changed ho hs hr hf rfl rfl hm put₁ sorted₁
      obtain ⟨_, grouped, opened₁⟩ := first.run
      have second : Gives (thinning path).perform (s.after (grouping path)) fun _ => Defines d tree₂ :=
        gives_second_removed opened₁ sorted₁ (read_second canonical hr) (find_replaced put₁) put₂ sorted₂
      obtain ⟨_, removed, opened₂⟩ := second.run
      have third : Gives (ungrouping path).perform ((s.after (grouping path)).after (thinning path)) fun _ =>
          Defines d d.definition :=
        gives_kind_changed opened₂ sorted₂ hr (find_replaced put₂) rfl rfl (changeKind_alone hl) put₃ hs
      obtain ⟨_, ungrouped, back⟩ := third.run
      simp only [afterAll, List.foldl_cons, List.foldl_nil]
      exact ⟨⟨grouped, removed, ungrouped, trivial⟩, document_of_defines back, own, added, tree₁, put₁, opened₁⟩

/-- Where a comparison is not grouped, there is nothing to remove and nothing to change. -/
theorem ungrouped_and_back (ho : s.document = some d) (hs : d.definition.Seated Admitted seat)
    (canonical : Address.Canonical d.definition.root path) (hr : Address.steps path = .ok steps)
    (hf : d.definition.find steps = .ok (.comparison name left operator right))
    (ha : ((Node.comparison name left operator right).changeKind s.catalogue path .group).run s.numbering =
      (.error fault, n)) :
    (s.afterAll [grouping path, thinning path, ungrouping path]).document = some d := by
  have first : Ends (grouping path).perform s (fun _ s' => s'.document = some d) fun _ s' => s'.document = some d := by
    refine ends_changeConditionKind ho hr hf rfl (fun _ _ _ s' opened' => opened') fun new n' made => ?_
    cases ha.symm.trans made
  have second : Ends (thinning path).perform (s.after (grouping path)) (fun _ s' => s'.document = some d)
      fun _ s' => s'.document = some d := ends_removed_from_comparison first.after (read_second canonical hr) hf
  have third : Gives (ungrouping path).perform ((s.after (grouping path)).after (thinning path)) fun _ =>
      Defines d d.definition :=
    gives_kind_changed second.after hs hr hf rfl rfl (changeKind_already rfl) (replace_found hf) hs
  obtain ⟨_, -, back⟩ := third.run
  simp only [afterAll, List.foldl_cons, List.foldl_nil]
  exact document_of_defines back

/-- Whatever labelled comparison of a rule is turned into a group, at the top or in a group or a branch: when the new
comparison beside it is removed and the group is turned into a comparison again, the rule is what it was. All of this
succeeds if there is what a new comparison begins with and a label can be issued for it, and meanwhile the comparison
is the first of the two children of a group. -/
theorem grouping_undone (ho : s.document = some d)
    (hs : d.definition.Seated Admitted (Seat.ofForm d.form))
    (hc : Address.Canonical d.definition.root path) (hr : Address.steps path = .ok steps)
    (hf : d.definition.find steps = .ok (.comparison name left operator right))
    (hl : name.isPresent = true) :
    (s.afterAll [grouping path, thinning path, ungrouping path]).document = some d ∧
      (s.catalogue.StartsConditions →
        (∃ label n, (Label.next path .comparison [name]).run s.numbering = (.ok label, n)) →
          s.Succeeds [grouping path, thinning path, ungrouping path] ∧
          ∃ own added tree, replace (.group own [.comparison name left operator right, added] .all false) steps
            d.definition = .ok tree ∧ (s.after (grouping path)).document = some { d with definition := tree }) := by
  cases made : ((Node.comparison name left operator right).changeKind s.catalogue path .group).run s.numbering with
  | mk result n =>
      cases result with
      | ok new =>
          obtain ⟨succeeds, back, grouped⟩ := grouped_and_back ho hs hc hr hf hl made
          exact ⟨back, fun _ _ => ⟨succeeds, grouped⟩⟩
      | error fault =>
          refine ⟨ungrouped_and_back ho hs hc hr hf made, fun starts issued => ?_⟩
          obtain ⟨label, n', issued⟩ := issued
          obtain ⟨position, at?⟩ := Address.position_of_steps hr
          obtain ⟨added, fresh⟩ := (Fresh.condition_ok_iff (.text label)).mpr starts
          obtain ⟨own, grouped⟩ := changeKind_grouped at? issued fresh
          cases made.symm.trans grouped

/-- A comparison in a group in a group. -/
theorem nested_grouping_undone :
    nesting.document = some nested ∧ nested.definition.Seated Admitted (Seat.ofForm nested.form) ∧
      Address.Canonical nested.definition.root "root-condition-0-condition-0" ∧ (Value.text "Adult").isPresent = true ∧
      (nesting.afterAll [grouping "root-condition-0-condition-0", thinning "root-condition-0-condition-0",
        ungrouping "root-condition-0-condition-0"]).document = some nested ∧
      nesting.Succeeds [grouping "root-condition-0-condition-0", thinning "root-condition-0-condition-0",
        ungrouping "root-condition-0-condition-0"] := by
  have opened : nesting.document = some nested := rfl
  have sorted := nested_whole.sorted
  have canonical : Address.Canonical nested.definition.root "root-condition-0-condition-0" :=
    ⟨[.child 0, .child 0], by rfl⟩
  have read : Address.steps "root-condition-0-condition-0" = .ok [.child 0, .child 0] := by rfl
  have found : nested.definition.find [.child 0, .child 0] = .ok (sample "Adult" 18) := rfl
  have labelled : (Value.text "Adult").isPresent = true := by simp [Value.isPresent, Value.isMissing]
  have issued : ∃ label n, (Label.next "root-condition-0-condition-0" .comparison [.text "Adult"]).run
      nesting.numbering = (.ok label, n) := ⟨_, _, by rfl⟩
  obtain ⟨back, succeeds⟩ := grouping_undone opened sorted canonical read found labelled
  exact ⟨opened, sorted, canonical, labelled, back, (succeeds nesting_starts issued).1⟩

end RuleEditor.Session
