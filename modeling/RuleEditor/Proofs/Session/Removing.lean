import RuleEditor.Proofs.Edit.Kinds
import RuleEditor.Proofs.Session.Resolving
import RuleEditor.Proofs.Session.Staleness
import RuleEditor.Proofs.Session.Starting
import RuleEditor.Proofs.Tree.Access
import RuleEditor.Proofs.Tree.Conditions

/-!
# Removed conditions

A condition is removed from its group. A group that would be left empty is removed in its place, and so on outwards
up to a group that has other conditions as well. Where there is none, the definition or the condition of the only
branch gives way to a new comparison, and one of several branches is removed as a whole.
-/
namespace RuleEditor

namespace Session

/-- The rule and the catalogue that are edited with are the same. -/
structure Keeps (s s' : Session) : Prop where
  document : s'.document = s.document
  catalogue : s'.catalogue = s.catalogue

theorem Keeps.refl (s : Session) : s.Keeps s := ⟨rfl, rfl⟩

theorem Keeps.trans {s s' s'' : Session} (h : s.Keeps s') (h' : s'.Keeps s'') : s.Keeps s'' :=
  ⟨h'.document.trans h.document, h'.catalogue.trans h.catalogue⟩

end Session

namespace Editing

open Session Node

variable {α β : Type} {s : Session} {d : Document} {path : String} {way steps : List Step}
  {new node tree tree' : Node} {seat : Seat} {R : β → Session → Prop} {E : Fault → Session → Prop}

theorem bind_there {f : Node → Editing β} (ho : s.document = some d) (hr : Address.steps path = .ok steps)
    (hf : d.definition.find steps = .ok node) (h : Ends (f node) s R E) : Ends (Session.node path >>= f) s R E := by
  have there : d.definition.atPath path = .ok node := by rw [atPath, hr, ok_bind, hf]
  refine ends_bind ?_
  unfold Session.node
  refine bind_defined ho (ends_lift (fun other same => ?_) fun fault failed => ?_)
  · cases there.symm.trans same
    exact h
  · cases there.symm.trans failed

/-- The rule with another definition is open. -/
def Defines (d : Document) (tree : Node) (s : Session) : Prop := s.document = some { d with definition := tree }

theorem gives_sorted (ho : s.document = some d) (hs : tree.Seated Admitted seat) :
    Gives (commit tree) s fun _ => Defines d tree := by
  obtain ⟨warnings, told⟩ := Document.warnings_eq_ok (d := { d with definition := tree }) hs.leftsSorted
  refine (gives_commit ho told).mono ?_ fun _ _ failed => failed
  rintro _ _ rfl
  rfl

/-- A condition is put in its place, and nothing else changes. -/
theorem gives_put_condition (ho : Defines d tree s) (hr : Address.steps path = .ok steps)
    (hc : ∀ step ∈ steps, step.ToCondition) (hp : replace new steps tree = .ok tree')
    (hs : tree'.Seated Admitted seat) : Gives (Session.put path new) s fun _ => Defines d tree' := by
  have ho : s.document = some { d with definition := tree } := ho
  obtain ⟨warnings, told⟩ := Document.warnings_eq_ok (d := { d with definition := tree' }) hs.leftsSorted
  refine (gives_put ho hr ((weave_condition hc _ _ _).trans hp) told).mono ?_ fun _ _ failed => failed
  rintro _ _ rfl
  rfl

end Editing

namespace Session

open Editing Node

variable {β : Type} {s : Session} {d : Document} {path : String} {way steps : List Step} {new node tree only : Node}
  {seat : Seat} {E : Fault → Session → Prop} {name : Value} {children : List Node} {conjunction : Conjunction}
  {negated : Bool} {i k m depth : Nat}

/-! ### One step -/

theorem removeChild_ok (h : i < children.length) : Group.removeChild i ⟨name, children, conjunction, negated⟩ =
    .ok (if (children.eraseIdx i).isEmpty then none else some ⟨name, children.eraseIdx i, conjunction, negated⟩) := by
  have erased : Index.erase? children (i : Int) = some (children.eraseIdx i) := by
    simp only [Index.erase?, Index.place?_ofNat, if_pos h, Option.map_some]
  unfold Group.removeChild
  rw [erased]
  cases children.eraseIdx i <;> rfl

/-- A child is removed from what is a group, and else nothing is. -/
theorem ends_removeUp_at (ho : s.document = some d) (hr : Address.steps path = .ok (way ++ [.child i]))
    (hf : d.definition.find way = .ok node) {R : Unit → Session → Prop}
    (hg : ∀ name children conjunction negated, node = .group name children conjunction negated →
      i < children.length ∧ ∀ above s', Address.parent? path = .ok (some above) → Address.steps above = .ok way →
        s.Keeps s' → s'.expansion = s.expansion.forget path →
        Ends (if (children.eraseIdx i).isEmpty then removeUp depth above
          else put above (.group name (children.eraseIdx i) conjunction negated)) s' R E)
    (ht : (∀ name children conjunction negated, node ≠ .group name children conjunction negated) →
      ∀ fault, E fault s) : Ends (removeUp (depth + 1) path) s R E := by
  obtain ⟨above, up, readAbove⟩ := Address.parent?_of_steps hr
  unfold removeUp
  refine bind_known hr ?_
  split
  · rename_i same
    have last := congrArg List.getLast? same
    rw [List.getLast?_concat] at last
    cases last
  · rename_i last _
    simp at last
  · rename_i step last _
    rw [List.getLast?_concat] at last
    cases last
    refine bind_known up (bind_there ho readAbove hf ?_)
    split
    · obtain ⟨within, goes⟩ := hg _ _ _ _ rfl
      refine bind_invalidate (bind_modify (bind_known (removeChild_ok within) ?_))
      have goes := goes above
      split at goes
      · rename_i empty
        rw [if_pos empty]
        exact bind_note (goes _ up readAbove ⟨rfl, rfl⟩ rfl)
      · rename_i others
        rw [if_neg others]
        exact goes _ up readAbove ⟨rfl, rfl⟩ rfl
    · rename_i groupless
      exact ends_throw (ht groupless _)

/-- A child is removed in its group: what is left of the group is put in its place, or else the group is removed. -/
theorem ends_removeUp (ho : s.document = some d) (hr : Address.steps path = .ok (way ++ [.child i]))
    (hf : d.definition.find way = .ok (.group name children conjunction negated)) (hw : i < children.length)
    {R : Unit → Session → Prop}
    (hg : ∀ above s', Address.parent? path = .ok (some above) → Address.steps above = .ok way → s.Keeps s' →
      s'.expansion = s.expansion.forget path → Ends (if (children.eraseIdx i).isEmpty then removeUp depth above
        else put above (.group name (children.eraseIdx i) conjunction negated)) s' R E) :
    Ends (removeUp (depth + 1) path) s R E := by
  refine ends_removeUp_at ho hr hf ?_ fun groupless => absurd rfl (groupless _ _ _ _)
  rintro name children conjunction negated ⟨⟩
  exact ⟨hw, hg⟩

/-! ### Groups that lose their only condition -/

/-- Each group on the way down from a place holds one condition only. -/
def Hollow (tree : Node) (way below : List Step) : Prop :=
  ∀ k < below.length, ∃ name only conjunction negated,
    tree.find (way ++ below.take k) = .ok (.group name [only] conjunction negated)

/-- Where the groups below a place hold one condition only, removing one at the end of them removes what is there. -/
theorem ends_removeUp_hollow {below : List Step} (ho : s.document = some d)
    (canonical : Address.Canonical d.definition.root path) (hr : Address.steps path = .ok (way ++ below))
    (hf : d.definition.find (way ++ below) = .ok node) (hollow : Hollow d.definition way below)
    {R : Unit → Session → Prop}
    (hg : ∀ above s', Address.Canonical d.definition.root above → Address.steps above = .ok way → s.Keeps s' →
      Ends (removeUp way.length above) s' R E) :
    Ends (removeUp (way ++ below).length path) s R E := by
  induction below using List.reverseRecOn generalizing path s node with
  | nil =>
      rw [List.append_nil] at hr ⊢
      exact hg path s canonical hr (.refl s)
  | append_singleton below step ih =>
      obtain ⟨name, only, conjunction, negated, here⟩ := hollow below.length (by simp)
      rw [List.take_left] at here
      rw [← List.append_assoc] at hr hf
      obtain ⟨above, there, stands⟩ := find_concat.mp hf
      cases here.symm.trans there
      cases step with
      | child i =>
          have within : i < [only].length := Node.lt_of_item (item_eq_ok.mp stands)
          cases Nat.lt_one_iff.mp within
          have length : (way ++ (below ++ [Step.child 0])).length = (way ++ below).length + 1 := by simp [Nat.add_assoc]
          rw [length]
          refine ends_removeUp ho hr here within fun above s' up readAbove keeps _ => ?_
          refine ih (keeps.document.trans ho) (canonical.parent (isRoot_root _) up) readAbove here ?_ ?_
          · intro k less
            have shorter := hollow k (by rw [List.length_append]; omega)
            rwa [List.take_append_of_le_length (Nat.le_of_lt less)] at shorter
          · exact fun above s'' canonical hr keeps' => hg above s'' canonical hr (keeps.trans keeps')
      | _ => cases stands

/-! ### Where the removal ends -/

/-- The child at the end of some steps is erased from its group, and nothing else changes. -/
def Erased (tree : Node) (steps : List Step) (tree' : Node) : Prop :=
  ∃ above k name children conjunction negated, steps = above ++ [.child k] ∧ k < children.length ∧
    tree.find above = .ok (.group name children conjunction negated) ∧
    replace (.group name (children.eraseIdx k) conjunction negated) above tree = .ok tree'

/-- The definition, or the condition of the only branch, gives way to a new one, or one of several branches goes. -/
inductive Outermost (fresh : Node) : List Step → Node → Node → Prop where
  | definition {tree : Node} : tree.conditionKind = .ok .group → Outermost fresh [] tree fresh
  | only {branch otherwise label} : Outermost fresh [.condition 0] (.choice [branch] otherwise label)
      (.choice [{ branch with condition := fresh }] otherwise label)
  | branch {branches otherwise label k} : 1 < branches.length → k < branches.length →
      Outermost fresh [.condition k] (.choice branches otherwise label)
        (.choice (branches.eraseIdx k) otherwise label)

theorem whole_erased {tree' : Node} (hw : tree.Seated Whole seat) (erased : Erased tree (way ++ [.child i]) tree')
    (hs : ∀ name children conjunction negated,
      tree.find way = .ok (.group name children conjunction negated) → 1 < children.length) :
    tree'.Seated Whole seat := by
  obtain ⟨above, k, name, children, conjunction, negated, same, within, found, put⟩ := erased
  obtain ⟨rfl, -⟩ := List.append_inj' same rfl
  obtain ⟨here, inside⟩ := seated_group.mp (hw.find found)
  have others : children.eraseIdx k ≠ [] := by
    have more := hs _ _ _ _ found
    rw [← List.length_pos_iff, List.length_eraseIdx_of_lt within]
    omega
  refine whole_put hw (seated_group.mpr ⟨⟨here.admitted.regrouped _, others, trivial⟩, ?_⟩) put
  exact fun child there => inside child (List.mem_of_mem_eraseIdx there)

theorem whole_outermost {tree' : Node} (hw : tree.Seated Whole seat) (hf : new.Seated Whole .condition)
    (outermost : Outermost new way tree tree') : tree'.Seated Whole seat := by
  cases outermost with
  | definition kind =>
      have condition : tree.Admitted .condition := (IsCondition.belongs ⟨_, kind⟩).admitted
      rwa [seat_of_condition condition hw.here.admitted]
  | only =>
      obtain ⟨here, last, all⟩ := seated_choice.mp hw
      refine seated_choice.mpr ⟨⟨here.admitted.rebranched _, trivial, List.cons_ne_nil _ _⟩, last, ?_⟩
      exact List.forall_mem_singleton.mpr ⟨hf, (all _ List.mem_cons_self).2⟩
  | branch more within =>
      obtain ⟨here, last, all⟩ := seated_choice.mp hw
      refine seated_choice.mpr ⟨⟨here.admitted.rebranched _, trivial, fun none => ?_⟩, last, ?_⟩
      · have length := congrArg List.length none
        rw [List.length_eraseIdx_of_lt within, List.length_nil] at length
        omega
      · exact fun b there => all b (List.mem_of_mem_eraseIdx there)

/-- The child of a group with other conditions is erased. -/
theorem gives_erased {tree' : Node} (ho : s.document = some d) (hs : d.definition.Seated Admitted seat)
    (hr : Address.steps path = .ok (way ++ [.child i])) (erased : Erased d.definition (way ++ [.child i]) tree')
    (hh : ∀ name children conjunction negated,
      d.definition.find way = .ok (.group name children conjunction negated) → 1 < children.length)
    (hs' : tree'.Seated Admitted seat) :
    Gives (removeUp (way ++ [Step.child i]).length path) s fun _ => Defines d tree' := by
  obtain ⟨above, k, name, children, conjunction, negated, same, within, found, put⟩ := erased
  obtain ⟨rfl, last⟩ := List.append_inj' same rfl
  cases last
  have others : ¬ (children.eraseIdx i).isEmpty = true := by
    have more := hh _ _ _ _ found
    rw [List.isEmpty_iff, ← List.length_eq_zero_iff, List.length_eraseIdx_of_lt within]
    omega
  have conditions := steps_to_condition hs found rfl
  rw [List.length_append]
  refine ends_removeUp ho hr found within fun above s' up readAbove keeps _ => ?_
  rw [if_neg others]
  exact gives_put_condition (keeps.document.trans ho) readAbove conditions put hs'

theorem positional_outermost (hr : Address.IsRoot path) (tail : List Step) (hf : tail = [] ∨ tail = [.condition 0]) :
    Label.positional (Address.render path tail) .comparison = .ok "Condition 1" := by
  rcases hr with rfl | rfl <;> rcases hf with rfl | rfl <;> rfl

/-- A new comparison is put in the place of what has to leave something. -/
theorem gives_replaced {made : Node} (ho : s.document = some d) (canonical : Address.Canonical d.definition.root path)
    (hr : Address.steps path = .ok steps) (hf : steps = [] ∨ steps = [.condition 0])
    (he : Fresh.condition s.catalogue (.text "Condition 1") = .ok made)
    (hp : replace made steps d.definition = .ok tree) (hs : tree.Seated Admitted seat) :
    Gives (replaceRemoved path) s fun _ => Defines d tree := by
  have label : Label.positional path .comparison = .ok "Condition 1" := by
    rw [canonical.eq_render (isRoot_root _) hr]
    exact positional_outermost (isRoot_root _) steps hf
  have conditions : ∀ step ∈ steps, step.ToCondition := by
    rcases hf with rfl | rfl
    · exact nofun
    · exact List.forall_mem_singleton.mpr trivial
  unfold replaceRemoved
  refine bind_invalidate (bind_known label (bind_get (bind_known he ?_)))
  exact gives_put_condition ho hr conditions hp hs

theorem gives_outermost {tree' : Node} (ho : s.document = some d)
    (canonical : Address.Canonical d.definition.root path) (hr : Address.steps path = .ok way)
    (hf : Fresh.condition s.catalogue (.text "Condition 1") = .ok new) (hs : d.definition = tree)
    (outermost : Outermost new way tree tree') (ht : tree'.Seated Admitted seat) :
    Gives (removeUp way.length path) s fun _ => Defines d tree' := by
  -- what to do about the condition of a branch is decided by the number of branches
  have ofBranch {k : Nat} (only : way = [.condition k])
      (gives : Gives (removeBranchCondition path k) s fun _ => Defines d tree') :
      Gives (removeUp 1 path) s fun _ => Defines d tree' := by
    subst only
    unfold removeUp
    refine bind_known hr ?_
    split
    · rename_i same
      cases same
      exact gives
    · rename_i last _
      cases last
    · rename_i other
      exact absurd rfl (other k)
  cases outermost with
  | definition => exact gives_replaced ho canonical hr (.inl rfl) hf rfl ht
  | only =>
      refine ofBranch rfl ?_
      unfold removeBranchCondition Session.choice
      refine ends_bind (bind_defined ho ?_)
      rw [hs]
      exact gives_replaced ho canonical hr (.inr rfl) hf (by rw [hs]; rfl) ht
  | @branch branches otherwise label k more within =>
      refine ofBranch rfl ?_
      have erased : Choice.removeBranch (k : Int) ⟨branches, otherwise, label⟩ =
          .ok ⟨branches.eraseIdx k, otherwise, label⟩ := by
        simp only [Choice.removeBranch, Index.erase?, Index.place?_ofNat, if_pos within, Option.map_some]
      unfold removeBranchCondition Session.choice
      refine ends_bind (bind_defined ho ?_)
      rw [hs]
      refine ends_pure ?_
      rw [if_pos more]
      exact bind_invalidate (bind_known erased (gives_sorted ho ht))

/-! ### The whole removal -/

/-- The group that the node stands in that is some steps above the end of a way has other conditions as well. -/
def Shares (tree : Node) (steps : List Step) (m : Nat) : Prop :=
  m < steps.length ∧ ∃ name children conjunction negated,
    tree.find (steps.take (steps.length - (m + 1))) = .ok (.group name children conjunction negated) ∧
      1 < children.length

theorem shares_of_crowded {below : List Step} (hl : k < below.length)
    (hg : tree.find (way ++ below.take k) = .ok (.group name children conjunction negated))
    (hm : 1 < children.length) : Shares tree (way ++ below) (below.length - (k + 1)) := by
  refine ⟨by simp only [List.length_append]; omega, name, children, conjunction, negated, ?_, hm⟩
  have length : (way ++ below).length - (below.length - (k + 1) + 1) = way.length + k := by
    rw [List.length_append]
    omega
  rwa [length, List.take_length_add_append]

/-- Where no node below a place shares its group, the groups there hold one condition only. -/
theorem hollow_of_alone {below : List Step} (hw : tree.Seated Whole seat)
    (hf : tree.find (way ++ below) = .ok node) (hc : ∀ step ∈ way ++ below, step.ToCondition)
    (hs : way ≠ [] ∨ tree.conditionKind = .ok .group)
    (ha : ∀ j < below.length, ¬ Shares tree (way ++ below) j) : Hollow tree way below := by
  intro k less
  have split : way ++ below = way ++ below.take k ++ [below[k]] ++ below.drop (k + 1) := by
    simp [List.append_assoc]
  rw [split, find_append] at hf
  obtain ⟨child, there, -⟩ := bind_eq_ok.mp hf
  obtain ⟨above, group, stands⟩ := find_concat.mp there
  have here := hc below[k] (List.mem_append_right _ (List.getElem_mem less))
  cases step : below[k] with
  | child i =>
      rw [step] at stands
      obtain ⟨name, children, conjunction, negated, rfl, -⟩ := child_child.mp stands
      have some : children ≠ [] := (hw.find group).here.proportioned
      have few : ¬ 1 < children.length := fun more => ha _ (by omega) (shares_of_crowded less group more)
      obtain ⟨only, rfl⟩ := List.length_eq_one_iff.mp (by
        have := List.length_pos_iff.mpr some
        omega : children.length = 1)
      exact ⟨name, only, conjunction, negated, group⟩
  | condition i =>
      rw [step] at there stands
      have top := above_branch hw.sorted there
      obtain ⟨rfl, -⟩ := List.append_eq_nil_iff.mp top
      rw [top] at group
      cases group
      obtain ⟨branches, otherwise, label, branch, rfl, -⟩ := child_condition.mp stands
      rcases hs with hs | hs
      · exact absurd rfl hs
      · cases hs
  | _ =>
      rw [step] at here
      cases here

/-- The removal succeeds and leaves a well-formed definition, and nothing else about the rule changes. -/
structure Removes (s : Session) (d : Document) (path : String) (tree : Node) : Prop where
  succeeds : ((removeCondition path).run s).1 = .ok ()
  leaves : ((removeCondition path).run s).2.document = some { d with definition := tree }
  sorted : tree.Seated Admitted (Seat.ofForm d.form)
  formed : tree.ensureWellFormed none = .ok ()

theorem removes_of_gives (hr : Address.steps path = .ok steps)
    (gives : Gives (removeUp steps.length path) s fun _ => Defines d tree)
    (hw : tree.Seated Whole (Seat.ofForm d.form)) : Removes s d path tree := by
  have removal : Gives (removeCondition path) s fun _ => Defines d tree := by
    unfold removeCondition
    exact bind_known hr gives
  obtain ⟨_, succeeds, leaves⟩ := removal.run
  exact ⟨succeeds, leaves, hw.sorted, (wellFormed_iff hw.sorted).mpr hw⟩

/-- The innermost group that has other conditions loses the one on the way to the condition that is removed. -/
theorem removes_shared {front below : List Step} {step : Step} (ho : s.document = some d)
    (hw : d.definition.Seated Whole (Seat.ofForm d.form)) (canonical : Address.Canonical d.definition.root path)
    (hr : Address.steps path = .ok (front ++ [step] ++ below))
    (hf : d.definition.find (front ++ [step] ++ below) = .ok node)
    (hc : ∀ other ∈ front ++ [step] ++ below, other.ToCondition)
    (hg : d.definition.find front = .ok (.group name children conjunction negated)) (hm : 1 < children.length)
    (ha : ∀ j < below.length, ¬ Shares d.definition (front ++ [step] ++ below) j) :
    ∃ tree', Removes s d path tree' ∧ Erased d.definition (front ++ [step]) tree' := by
  have inner := hf
  rw [find_append] at inner
  obtain ⟨child, there, -⟩ := bind_eq_ok.mp inner
  obtain ⟨above, again, stands⟩ := find_concat.mp there
  cases hg.symm.trans again
  cases step with
  | child k =>
      obtain ⟨_, _, _, _, same, at?⟩ := child_child.mp stands
      cases same
      have within := lt_of_item at?
      obtain ⟨tree', put⟩ := replace_of_find hg (.group name (children.eraseIdx k) conjunction negated)
      have erased : Erased d.definition (front ++ [.child k]) tree' :=
        ⟨front, k, name, children, conjunction, negated, rfl, within, hg, put⟩
      have shared (name' : Value) (children' : List Node) (conjunction' : Conjunction) (negated' : Bool)
          (there : d.definition.find front = .ok (.group name' children' conjunction' negated')) :
          1 < children'.length := by
        cases hg.symm.trans there
        exact hm
      have left := whole_erased hw erased shared
      have hollow := hollow_of_alone hw hf hc (.inl (by simp)) ha
      refine ⟨tree', removes_of_gives hr ?_ left, erased⟩
      refine ends_removeUp_hollow ho canonical hr hf hollow fun above s' _ readAbove keeps => ?_
      exact gives_erased (keeps.document.trans ho) hw.sorted readAbove erased shared left.sorted
  | _ => cases stands

/-- Where no group has other conditions, what is outermost gives way. -/
theorem removes_outermost {tree' : Node} {below : List Step} (ho : s.document = some d)
    (hw : d.definition.Seated Whole (Seat.ofForm d.form)) (canonical : Address.Canonical d.definition.root path)
    (hr : Address.steps path = .ok (way ++ below)) (hf : d.definition.find (way ++ below) = .ok node)
    (hc : ∀ other ∈ way ++ below, other.ToCondition)
    (he : Fresh.condition s.catalogue (.text "Condition 1") = .ok new)
    (outermost : Outermost new way d.definition tree') (ha : ∀ j, ¬ Shares d.definition (way ++ below) j) :
    Removes s d path tree' := by
  have left := whole_outermost hw (whole_condition he) outermost
  have start : way ≠ [] ∨ d.definition.conditionKind = .ok .group := by
    generalize d.definition = tree at outermost
    cases outermost with
    | definition kind => exact .inr kind
    | only | branch => exact .inl (List.cons_ne_nil _ _)
  have hollow := hollow_of_alone hw hf hc start fun j _ => ha j
  refine removes_of_gives hr ?_ left
  refine ends_removeUp_hollow ho canonical hr hf hollow fun above s' canonical readAbove keeps => ?_
  exact gives_outermost (keeps.document.trans ho) canonical readAbove (keeps.catalogue ▸ he) rfl outermost
    left.sorted

/-- Some way along the steps to a condition there is something outermost that can give way. -/
theorem exists_outermost {below : List Step} {step : Step} (hf : tree.find (step :: below) = .ok node)
    (hi : step.ToCondition) (fresh : Node) :
    ∃ top rest tree', step :: below = top ++ rest ∧ Outermost fresh top tree tree' := by
  obtain ⟨child, stands, -⟩ := bind_eq_ok.mp hf
  cases step with
  | child i =>
      obtain ⟨name, children, conjunction, negated, rfl, -⟩ := child_child.mp stands
      exact ⟨[], _, fresh, rfl, .definition rfl⟩
  | condition k =>
      obtain ⟨branches, otherwise, label, branch, rfl, at?, -⟩ := child_condition.mp stands
      have within := lt_of_item at?
      by_cases more : 1 < branches.length
      · exact ⟨[_], below, _, rfl, .branch more within⟩
      · obtain ⟨b, rfl⟩ := List.length_eq_one_iff.mp (by omega : branches.length = 1)
        cases Nat.lt_one_iff.mp within
        exact ⟨[_], below, _, rfl, .only⟩
  | _ => cases hi

/-- Whatever condition of a group is removed from a well-formed rule, the removal succeeds. If one of the groups around
the condition has more than one child, the innermost such group loses the child on the way to the condition, and
nothing else changes. Otherwise what is outermost gives way to a new condition, or its branch goes. -/
theorem condition_removed (ho : s.document = some d)
    (hs : d.definition.Seated Admitted (Seat.ofForm d.form)) (hw : d.definition.ensureWellFormed none = .ok ())
    (ht : s.catalogue.StartsConditions) (hc : Address.Canonical d.definition.root path)
    (hr : Address.steps path = .ok (way ++ [.child i]))
    (hf : d.definition.find (way ++ [.child i]) = .ok node) :
    let steps := way ++ [.child i]
    (∀ m, Shares d.definition steps m → (∀ j < m, ¬ Shares d.definition steps j) →
        ∃ tree, Removes s d path tree ∧ Erased d.definition (steps.take (steps.length - m)) tree) ∧
      ((∀ m, ¬ Shares d.definition steps m) → ∃ tree fresh top, Removes s d path tree ∧ top <+: steps ∧
        Fresh.condition s.catalogue (.text "Condition 1") = .ok fresh ∧ Outermost fresh top d.definition tree) := by
  intro steps
  have hr : Address.steps path = .ok steps := hr
  have hf : d.definition.find steps = .ok node := hf
  have whole := (wellFormed_iff hs).mp hw
  obtain ⟨fresh, made⟩ := (Fresh.condition_ok_iff (.text "Condition 1")).mpr ht
  have conditions : ∀ step ∈ steps, step.ToCondition := by
    obtain ⟨above, there, stands⟩ := find_concat.mp hf
    obtain ⟨_, _, _, _, rfl, -⟩ := child_child.mp stands
    exact List.forall_mem_append.mpr ⟨steps_to_condition hs there rfl, List.forall_mem_singleton.mpr trivial⟩
  constructor
  · intro m shares least
    obtain ⟨less, name, children, conjunction, negated, group, more⟩ := shares
    obtain ⟨last, at?⟩ : ∃ n, n + 1 = steps.length - m := ⟨steps.length - m - 1, by omega⟩
    have inside : last < steps.length := by omega
    have front : steps.length - (m + 1) = last := by omega
    rw [← at?, List.take_add_one, List.getElem?_eq_getElem inside, Option.toList_some]
    rw [front] at group
    have split : steps = steps.take last ++ [steps[last]] ++ steps.drop (last + 1) := by
      simp
    have length : (steps.drop (last + 1)).length = m := by
      rw [List.length_drop]
      omega
    refine removes_shared ho whole hc (split ▸ hr) (split ▸ hf) (split ▸ conditions) group more ?_
    rw [length, ← split]
    exact least
  · intro alone
    obtain ⟨first, below, shape⟩ : ∃ first below, steps = first :: below :=
      List.exists_cons_of_ne_nil (by simp [steps])
    obtain ⟨top, rest, tree', same, outermost⟩ :=
      exists_outermost (shape ▸ hf) (conditions first (shape ▸ List.mem_cons_self)) fresh
    have split : steps = top ++ rest := shape.trans same
    exact ⟨tree', fresh, top, removes_outermost ho whole hc (split ▸ hr) (split ▸ hf)
      (split ▸ conditions) made outermost (split ▸ alone), ⟨rest, split.symm⟩, made, outermost⟩

/-- A condition alone in its group, and another one beside the group. -/
def nested : Document where
  form := .condition
  type := .text "boolean"
  definition := .group (.text "Group 1") [.group (.text "Group 1") [sample "Adult" 18] .all false, sample "Senior" 65]
    .all false
  ruleType := .null
  uuid := .null
  version := .int 1
  id := .text "DISCOUNT"
  description := .null

def nesting : Session := { Conversation.served with document := some nested }

theorem nested_whole : nested.definition.Seated Whole (Seat.ofForm nested.form) := by
  have alone : (group (.text "Group 1") [sample "Adult" 18] .all false).Seated Whole .condition :=
    whole_group (List.cons_ne_nil _ _) (List.forall_mem_singleton.mpr (sample_whole _ _)) _ _
  exact whole_group (List.cons_ne_nil _ _)
    (List.forall_mem_cons.mpr ⟨alone, List.forall_mem_singleton.mpr (sample_whole _ _)⟩) _ _

theorem nesting_starts : nesting.catalogue.StartsConditions := ⟨_, "equal", rfl, rfl, by decide⟩

/-- The group goes with its only condition. -/
theorem nested_removed :
    nesting.document = some nested ∧ nested.definition.Seated Admitted (Seat.ofForm nested.form) ∧
      nested.definition.ensureWellFormed none = .ok () ∧ nesting.catalogue.StartsConditions ∧
      Address.Canonical nested.definition.root "root-condition-0-condition-0" ∧
      Shares nested.definition [.child 0, .child 0] 1 ∧ ¬ Shares nested.definition [.child 0, .child 0] 0 ∧
      ∃ tree, Removes nesting nested "root-condition-0-condition-0" tree ∧
        Erased nested.definition [.child 0] tree := by
  have sorted := nested_whole.sorted
  have formed := (wellFormed_iff sorted).mpr nested_whole
  have canonical : Address.Canonical nested.definition.root "root-condition-0-condition-0" :=
    ⟨[.child 0, .child 0], by rfl⟩
  have shares : Shares nested.definition [.child 0, .child 0] 1 := ⟨by decide, _, _, _, _, rfl, by decide⟩
  have alone : ¬ Shares nested.definition [.child 0, .child 0] 0 := by
    rintro ⟨-, name, children, conjunction, negated, found, more⟩
    cases found
    exact absurd more (by decide)
  have opened : nesting.document = some nested := rfl
  have read : Address.steps "root-condition-0-condition-0" = .ok ([.child 0] ++ [.child 0]) := by rfl
  have found : nested.definition.find ([.child 0] ++ [.child 0]) = .ok (sample "Adult" 18) := rfl
  have shared := (condition_removed opened sorted formed nesting_starts canonical read found).1
  refine ⟨opened, sorted, formed, nesting_starts, canonical, shares, alone, shared 1 shares fun j less => ?_⟩
  cases Nat.lt_one_iff.mp less
  exact alone

end Session

end RuleEditor
