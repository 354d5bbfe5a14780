import RuleEditor.Proofs.Address.Below
import RuleEditor.Proofs.Edit.Reordering
import RuleEditor.Proofs.Session.Removing

/-!
# Flags of nodes that come to other places

Whether a node is shown expanded is kept by path. When a condition is removed from its group, the ones behind it come
one place forward with all that is below them, and when a condition is moved, so do the ones that it passes. The flags
stay where they are, but for those of the removed condition itself.
-/
namespace RuleEditor

/-! ### Paths of siblings -/

namespace Address

variable {root path key : String} {way below : List Step} {i k : Nat}

/-- A child covers what is below it, and nothing below the other children. -/
theorem covers_child_iff (h : IsRoot root) :
    covers (render root (way ++ [.child i])) (render root (way ++ .child k :: below)) = true ↔ i = k :=
  (covers_render_iff h h).trans ((and_iff_right rfl).trans under_child_iff)

end Address

/-! ### Flags -/

namespace Expansion

/-- The flags of a path and of what it covers are gone, and the others stay. -/
theorem get?_forget (path key : String) (e : Expansion) :
    (e.forget path).flags.get? key = if Address.covers path key then none else e.flags.get? key := by
  show Members.get? key (e.flags.filter fun m => !Address.covers path m.1) = _
  induction e.flags with
  | nil => simp only [List.filter_nil, Members.get?, ite_self]
  | cons m ms ih =>
      obtain ⟨name, flag⟩ := m
      by_cases here : name = key
      · subst here
        cases covered : Address.covers path name with
        | true => rw [List.filter_cons_of_neg (by simp [covered]), ih, covered, if_pos rfl, if_pos rfl]
        | false =>
            rw [List.filter_cons_of_pos (by simp [covered]), Members.get?, if_pos rfl, Members.get?, if_pos rfl]
            rfl
      · rw [Members.get?, if_neg here, ← ih]
        cases covered : Address.covers path name with
        | true => rw [List.filter_cons_of_neg (by simp [covered])]
        | false => rw [List.filter_cons_of_pos (by simp [covered]), Members.get?, if_neg here]

/-- Without its flag a node follows the default. -/
theorem isExpanded_forget (path key : String) (e : Expansion) :
    (e.forget path).isExpanded key = if Address.covers path key then e.default else e.isExpanded key := by
  rw [isExpanded, get?_forget]
  cases Address.covers path key <;> rfl

end Expansion

/-! ### Places of children -/

/-- The place of a child after another one has been erased. -/
def closed (i j : Nat) : Nat := if j < i then j else j - 1

/-- The place of a child after one has been moved: it is erased at `a`, and put in at `b` then. -/
def moved (a b j : Nat) : Nat := if j = a then b else if closed a j < b then closed a j else closed a j + 1

variable {α : Type} {xs : List α} {x : α} {a b i j : Nat}

theorem getElem?_closed (h : j ≠ i) : (xs.eraseIdx i)[closed i j]? = xs[j]? := by
  rw [closed, List.getElem?_eraseIdx]
  by_cases before : j < i
  · rw [if_pos before, if_pos before]
  · rw [if_neg before, if_neg (by omega), Nat.sub_add_cancel (by omega)]

theorem getElem?_moved (hf : xs[a]? = some x) (hw : b < xs.length) :
    ((xs.eraseIdx a).insertIdx b x)[moved a b j]? = xs[j]? := by
  have room : b ≤ (xs.eraseIdx a).length := by
    rw [List.length_eraseIdx_of_lt (Node.lt_of_item hf)]
    omega
  rw [List.getElem?_insertIdx, moved]
  by_cases itself : j = a
  · rw [if_pos itself, if_neg (lt_irrefl b), if_pos rfl, if_pos room, itself, hf]
  · rw [if_neg itself]
    by_cases before : closed a j < b
    · rw [if_pos before, if_pos before, getElem?_closed itself]
    · rw [if_neg before, if_neg (by omega), if_neg (by omega), Nat.add_sub_cancel, getElem?_closed itself]

/-! ### The rule after its group has other children -/

namespace Session

open Editing Node

variable {s s' : Session} {d : Document} {path : String} {way : List Step} {name : Value} {children : List Node}
  {conjunction : Conjunction} {negated : Bool} {old new node : Node} {e : Expansion}

/-- The rule has a node in a place of it, and these are the flags. -/
def Holds (d : Document) (way : List Step) (new : Node) (e : Expansion) (s : Session) : Prop :=
  ∃ tree, s.document = some { d with definition := tree } ∧ tree.root = d.definition.root ∧
    tree.find way = .ok new ∧ s.expansion = e

/-- A node that has been put in a place is there, and no flag changes. -/
theorem ends_put_holds (new : Node) (ho : s.document = some d) (hr : Address.steps path = .ok way)
    (hf : d.definition.find way = .ok old) (hs : new.root = old.root) :
    Ends (put path new) s (fun _ => Holds d way new s.expansion) fun _ _ => True := by
  unfold put
  refine bind_defined ho (bind_known hr (bind_lift (fun _ => trivial) fun replaced there => bind_get ?_))
  refine bind_lift (fun _ => trivial) fun tree inferred => ends_commit (fun _ => trivial) fun d' opened' => ?_
  cases ho.symm.trans opened'
  have woven : weave s.numeric new way d.definition = .ok tree := by
    rw [weave_eq, there, ok_bind, inferred]
  have root : tree.root = d.definition.root := (alike_reinferUp inferred).2.trans (root_put there hf hs)
  exact ⟨⟨tree, rfl, root, find_woven woven, rfl⟩, fun _ _ => trivial⟩

/-- A node below a place, and how it is shown. -/
def shown (d : Document) (way : List Step) (j : Nat) (below : List Step) (s : Session) : Bool :=
  s.expansion.isExpanded (Address.render d.definition.root (way ++ .child j :: below))

/-- The children of a group that stay are found in other places, with all that is below them. There a node is shown as
it was before if and only if it `follows`. -/
def Shifted (d : Document) (way : List Step) (stays : Nat → Prop) (place : Nat → Nat)
    (follows : Nat → List Step → Prop) (s s' : Session) : Prop :=
  ∃ tree, s'.document = some { d with definition := tree } ∧ tree.root = d.definition.root ∧
    ∀ j below node, stays j → d.definition.find (way ++ .child j :: below) = .ok node →
      tree.find (way ++ .child (place j) :: below) = .ok node ∧
        (s'.shown d way (place j) below = s.shown d way j below ↔ follows j below)

theorem find_in_group {tree : Node} {children' : List Node} {j k : Nat} {below : List Step}
    (hf : d.definition.find way = .ok (.group name children conjunction negated))
    (hf' : tree.find way = .ok (.group name children' conjunction negated)) (hs : children'[k]? = children[j]?)
    (ht : d.definition.find (way ++ .child j :: below) = .ok node) :
    tree.find (way ++ .child k :: below) = .ok node := by
  have step {children : List Node} {j : Nat} :
      (Node.group name children conjunction negated).child (.child j) = item children j := rfl
  rw [find_append, hf, ok_bind, find, step, item] at ht
  rw [find_append, hf', ok_bind, find, step, item, hs, ht]

/-! ### Removing and moving a condition -/

/-- A removed child leaves the flags at the places of the others, and takes those of its own place with it. -/
theorem ends_removeCondition (ho : s.document = some d)
    (hf : d.definition.find way = .ok (.group name children conjunction negated)) (ht : 2 ≤ children.length)
    (canonical : Address.Canonical d.definition.root path) {i : Nat}
    (hr : Address.steps path = .ok (way ++ [.child i])) (hw : i < children.length) :
    Ends (removeCondition path) s (fun _ => Shifted d way (· ≠ i) (closed i) (fun j below => i < j →
      (if j = i + 1 then s.expansion.default else s.shown d way (j - 1) below) = s.shown d way j below) s)
      fun _ _ => True := by
  have others : ¬ (children.eraseIdx i).isEmpty = true := by
    rw [List.isEmpty_iff, ← List.length_eq_zero_iff, List.length_eraseIdx_of_lt hw]
    omega
  unfold removeCondition
  refine bind_known hr ?_
  rw [List.length_append]
  refine ends_removeUp ho hr hf hw fun above s' up readAbove keeps forgotten => ?_
  rw [if_neg others]
  have put := ends_put_holds (.group name (children.eraseIdx i) conjunction negated)
    (keeps.document.trans ho) readAbove hf rfl
  refine put.mono ?_ fun _ _ _ => trivial
  rintro - s'' ⟨tree, opened', root, found', flags⟩
  refine ⟨tree, opened', root, ?_⟩
  intro j below node other there
  refine ⟨find_in_group hf found' (getElem?_closed other) there, ?_⟩
  have spelled : path = Address.render d.definition.root (way ++ [.child i]) :=
    canonical.eq_render (isRoot_root _) hr
  have now : s''.shown d way (closed i j) below =
      if i = closed i j then s.expansion.default else s.shown d way (closed i j) below := by
    rw [shown, flags, forgotten, Expansion.isExpanded_forget, spelled]
    exact if_congr (Address.covers_child_iff (isRoot_root _)) rfl rfl
  rw [now, closed]
  by_cases before : j < i
  · rw [if_pos before, if_neg (by omega)]
    exact iff_of_true rfl (by omega)
  · have behind : i < j := by omega
    rw [if_neg before]
    have next : (i = j - 1) = (j = i + 1) := propext (by omega)
    simp only [next, behind, forall_const]

/-- A child that is moved leaves all flags where they are. -/
theorem ends_reorderConditions (ho : s.document = some d)
    (hf : d.definition.find way = .ok (.group name children conjunction negated))
    (hr : Address.steps path = .ok way) {source destination : Int} {a : Nat}
    (hp : Index.place? children.length source = some a) :
    Ends (reorderConditions path source destination) s (fun _ => Shifted d way (fun _ => True)
      (moved a (Index.gap (children.length - 1) destination)) (fun j below =>
        s.shown d way (moved a (Index.gap (children.length - 1) destination) j) below = s.shown d way j below) s)
      fun _ _ => True := by
  have there : a < children.length := Index.place?_lt hp
  obtain ⟨child, at?, reordered⟩ := Group.reorder_eq_ok ⟨name, children, conjunction, negated⟩ destination hp
  have gap : Index.gap (children.length - 1) destination < children.length := by
    rw [Index.gap]
    omega
  unfold reorderConditions
  refine bind_invalidate (bind_there ho hr hf (bind_known rfl (bind_known reordered ?_)))
  have put := ends_put_holds (.group name ((children.eraseIdx a).insertIdx
    (Index.gap (children.length - 1) destination) child) conjunction negated)
    (show (s.invalidated path).document = some d from ho) hr hf rfl
  refine put.mono ?_ fun _ _ _ => trivial
  rintro - s'' ⟨tree, opened', root, found', flags⟩
  refine ⟨tree, opened', root, ?_⟩
  intro j below node _ below?
  refine ⟨find_in_group hf found' (getElem?_moved at? gap) below?, ?_⟩
  rw [shown, flags]
  rfl

/-- A group can be given other conditions wherever it may stand. -/
theorem exists_regrouped (children' : List Node) {seat : Seat} (hs : d.definition.Seated Admitted seat)
    (hf : d.definition.find way = .ok (.group name children conjunction negated))
    (hc : ∀ child ∈ children', child ∈ children) :
    ∃ tree, replace (.group name children' conjunction negated) way d.definition = .ok tree ∧
      tree.Seated Admitted seat := by
  obtain ⟨tree, put⟩ := replace_of_find hf (.group name children' conjunction negated)
  obtain ⟨here, inside⟩ := seated_group.mp (hs.find hf)
  refine ⟨tree, put, sorted_put hs (seated_group.mpr ⟨here.regrouped _, ?_⟩) put⟩
  intro child within
  exact inside child (hc child within)

theorem removeCondition_ok {seat : Seat} (ho : s.document = some d) (hs : d.definition.Seated Admitted seat)
    (hf : d.definition.find way = .ok (.group name children conjunction negated)) (ht : 2 ≤ children.length)
    {i : Nat} (hr : Address.steps path = .ok (way ++ [.child i])) (hw : i < children.length) :
    ((removeCondition path).run s).1 = .ok () := by
  obtain ⟨tree, put, sorted'⟩ := exists_regrouped (children.eraseIdx i) hs hf
    fun child there => List.mem_of_mem_eraseIdx there
  have shared : ∀ name' children' conjunction' negated',
      d.definition.find way = .ok (.group name' children' conjunction' negated') → 1 < children'.length := by
    intro name' children' conjunction' negated' found'
    cases hf.symm.trans found'
    exact ht
  have removal : Gives (removeCondition path) s fun _ => Defines d tree := by
    unfold removeCondition
    refine bind_known hr ?_
    exact gives_erased ho hs hr ⟨way, i, _, _, _, _, rfl, hw, hf, put⟩ shared sorted'
  exact removal.run.elim fun _ done => done.1

theorem reorderConditions_ok {seat : Seat} (ho : s.document = some d) (hs : d.definition.Seated Admitted seat)
    (hf : d.definition.find way = .ok (.group name children conjunction negated))
    (hr : Address.steps path = .ok way) {source destination : Int} {a : Nat}
    (hp : Index.place? children.length source = some a) :
    ((reorderConditions path source destination).run s).1 = .ok () := by
  obtain ⟨child, at?, reordered⟩ := Group.reorder_eq_ok ⟨name, children, conjunction, negated⟩ destination hp
  have same : ∀ other ∈ (children.eraseIdx a).insertIdx (Index.gap (children.length - 1) destination) child,
      other ∈ children := by
    intro other within
    rcases List.eq_or_mem_of_mem_insertIdx within with rfl | within
    · exact List.mem_of_getElem? at?
    · exact List.mem_of_mem_eraseIdx within
  obtain ⟨tree, put, sorted'⟩ := exists_regrouped _ hs hf same
  have moves : Gives (reorderConditions path source destination) s fun _ => Defines d tree := by
    unfold reorderConditions
    refine bind_invalidate (bind_there ho hr hf (bind_known rfl (bind_known reordered ?_)))
    exact gives_put_condition (s := s.invalidated path) ho hr (steps_to_condition hs hf rfl) put sorted'
  exact moves.run.elim fun _ done => done.1

/-- While a condition is removed from a group with others, or moved in it, the flags of nodes stay at their places. A
node below the group is shown as before if and only if the place that it comes to has the flag that it had, and where
the removed condition was there is no flag any more. Both edits succeed where conditions and expressions stand in places
of their own. -/
theorem flags_stay (ho : s.document = some d)
    (hf : d.definition.find way = .ok (.group name children conjunction negated)) (ht : 2 ≤ children.length) :
    (∀ path i, Address.Canonical d.definition.root path → Address.steps path = .ok (way ++ [.child i]) →
      i < children.length →
      let done := (removeCondition path).run s
      (done.1 = .ok () → Shifted d way (· ≠ i) (closed i) (fun j below => i < j →
        (if j = i + 1 then s.expansion.default else s.shown d way (j - 1) below) = s.shown d way j below) s done.2) ∧
      (d.definition.Seated Admitted (Seat.ofForm d.form) → done.1 = .ok ())) ∧
    ∀ path source destination a, Address.steps path = .ok way → Index.place? children.length source = some a →
      let done := (reorderConditions path source destination).run s
      let place := moved a (Index.gap (children.length - 1) destination)
      (done.1 = .ok () → Shifted d way (fun _ => True) place (fun j below =>
        s.shown d way (place j) below = s.shown d way j below) s done.2) ∧
      (d.definition.Seated Admitted (Seat.ofForm d.form) → done.1 = .ok ()) := by
  constructor
  · intro path i canonical read within done
    constructor
    · exact (ends_removeCondition ho hf ht canonical read within).ok
    · intro sorted
      exact removeCondition_ok ho sorted hf ht read within
  · intro path source destination a read place done
    constructor
    · exact (ends_reorderConditions ho hf read place).ok
    · intro sorted
      exact reorderConditions_ok ho sorted hf read place

/-- Three conditions in a group. -/
def ages : Document :=
  { nested with
    definition := .group (.text "Group 1") [sample "Child" 0, sample "Adult" 18, sample "Senior" 65] .all false }

/-- The second one of them is collapsed. -/
def collapsing : Session :=
  { Conversation.served with
    document := some ages
    expansion := (Expansion.start (some .condition) true).set "root-condition-1" false }

theorem ages_sorted : ages.definition.Seated Admitted (Seat.ofForm ages.form) := by
  refine (whole_group (List.cons_ne_nil _ _) ?_ _ _).sorted
  intro child within
  simp only [List.mem_cons, List.not_mem_nil, or_false] at within
  rcases within with rfl | rfl | rfl
  all_goals exact sample_whole _ _

/-- The condition that is collapsed stays so if the last one is removed. -/
theorem flags_stay_collapsing :
    collapsing.document = some ages ∧ ages.definition.Seated Admitted (Seat.ofForm ages.form) ∧
      Address.Canonical ages.definition.root "root-condition-2" ∧
      Address.steps "root-condition-2" = .ok ([] ++ [.child 2]) ∧
      let removed := (removeCondition "root-condition-2").run collapsing
      removed.1 = .ok () ∧ collapsing.shown ages [] 1 [] = false ∧ removed.2.shown ages [] 1 [] = false := by
  have opened : collapsing.document = some ages := rfl
  have canonical : Address.Canonical ages.definition.root "root-condition-2" := ⟨[.child 2], by rfl⟩
  have read : Address.steps "root-condition-2" = .ok ([] ++ [.child 2]) := by rfl
  have collapsed : collapsing.shown ages [] 1 [] = false := by decide +kernel
  have found : ages.definition.find [] = .ok ages.definition := rfl
  obtain ⟨follow, succeeds⟩ := (flags_stay opened found (by decide)).1 _ 2 canonical read (by decide)
  have removed := succeeds ages_sorted
  obtain ⟨tree, -, -, places⟩ := follow removed
  obtain ⟨-, shown⟩ := places 1 [] (sample "Adult" 18) (by decide) rfl
  have same := shown.mpr fun behind => absurd behind (by decide)
  exact ⟨opened, ages_sorted, canonical, read, removed, collapsed, same.trans collapsed⟩

/-- The condition that is collapsed comes to the first place, and is expanded there. -/
theorem flags_left_behind :
    let removed := ((removeCondition "root-condition-0").run collapsing).2
    let reordered := ((reorderConditions "root" 1 0).run collapsing).2
    ages.definition.find [.child 1] = .ok (sample "Adult" 18) ∧
      collapsing.expansion.isExpanded "root-condition-1" = false ∧
      removed.LeadsTo "root-condition-0" (sample "Adult" 18) ∧
      removed.expansion.isExpanded "root-condition-0" = true ∧
      reordered.LeadsTo "root-condition-0" (sample "Adult" 18) ∧
      reordered.expansion.isExpanded "root-condition-0" = true := by
  refine ⟨rfl, by decide +kernel, ?_, by decide +kernel, ?_, by decide +kernel⟩
  · exact ⟨_, [.child 0], rfl, by rfl, rfl⟩
  · exact ⟨_, [.child 0], rfl, by rfl, rfl⟩

end Session

end RuleEditor
