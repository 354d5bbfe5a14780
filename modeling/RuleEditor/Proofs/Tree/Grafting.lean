import RuleEditor.Edit.Choice
import RuleEditor.Proofs.Tree.Weaving

/-!
# Grafting references

A reference to a selected rule is grafted onto a tree: it is woven into its place, and the label of a result slot
of the tree follows it. References that are grafted in places apart from each other may come in any order.
-/
namespace RuleEditor

namespace Node

variable {numeric : List String} {change change' : List Step → ResultLabel → ResultLabel} {new node tree tree' : Node}
  {step : Step} {steps p q : List Step}

/-! ### Labels of results -/

/-- The tree with other labels of its results. -/
def relabelled (change : List Step → ResultLabel → ResultLabel) : Node → Node
  | .choice branches otherwise label =>
    .choice (branches.mapIdx fun i b => { b with label := change [.result i] b.label }) otherwise
      (change [.otherwise] label)
  | node => node

theorem relabelled_of_target (h : tree.target?.isSome) : tree.relabelled change = tree := by
  cases tree <;> first | rfl | cases h

theorem branch_relabelled {branches : List (Branch Node)} {b : Branch Node} {i : Nat} (h : branches[i]? = some b) :
    (branches.mapIdx fun i b => { b with label := change [.result i] b.label })[i]? =
      some { b with label := change [.result i] b.label } := by
  rw [List.getElem?_mapIdx, h, Option.map_some]

namespace Slot

variable {old : Node}

theorem relabelled (slot : Slot step old new node tree) :
    Slot step old new (node.relabelled change) (tree.relabelled change) := by
  cases slot with
  | condition found =>
      simp only [Node.relabelled, List.mapIdx_set]
      exact .condition (branch_relabelled found)
  | result found =>
      simp only [Node.relabelled, List.mapIdx_set]
      exact .result (branch_relabelled found)
  | otherwise => exact .otherwise
  | child found => exact .child found
  | left => exact .left
  | right => exact .right
  | rightItem found => exact .rightItem found
  | operand found => exact .operand found
  | argument found => exact .argument found

end Slot

theorem child_relabelled (tree : Node) (step : Step) : (tree.relabelled change).child step = tree.child step := by
  cases tree with
  | choice branches otherwise label =>
      cases step with
      | condition i | result i =>
          simp only [relabelled, child, item, List.getElem?_mapIdx]
          cases branches[i]? <;> rfl
      | _ => rfl
  | _ => rfl

theorem find_relabelled (h : steps ≠ []) : (tree.relabelled change).find steps = tree.find steps := by
  cases steps with
  | nil => exact absurd rfl h
  | cons step rest => simp only [find, child_relabelled]

theorem reinferAt_relabelled (tree : Node) :
    (tree.relabelled change).reinferAt numeric [] = (tree.reinferAt numeric []).map (relabelled change) := by
  cases tree with
  | chain type operands operators =>
      simp only [relabelled, reinferAt, find, replace, ok_bind]
      cases Typing.infer numeric operands operators with
      | error fault => rfl
      | ok inferred =>
          simp only [ok_bind]
          split <;> rfl
  | _ => rfl

/-- Other labels make no difference to what is woven in below. -/
theorem weave_relabelled (h : steps ≠ []) :
    weave numeric new steps (tree.relabelled change) = (weave numeric new steps tree).map (relabelled change) := by
  cases steps with
  | nil => exact absurd rfl h
  | cons step rest =>
      simp only [weave, child_relabelled]
      cases stands : tree.child step with
      | error fault => rfl
      | ok child =>
          simp only [ok_bind]
          cases weave numeric new rest child with
          | error fault => rfl
          | ok changed =>
              obtain ⟨mid, slot⟩ := slot_of_child stands changed
              have slot' : Slot step child changed (tree.relabelled change) (mid.relabelled change) := slot.relabelled
              simp only [ok_bind, slot.withChild_eq, slot'.withChild_eq]
              exact reinferAt_relabelled mid

theorem wellTyped_relabelled (h : tree.WellTyped) : (tree.relabelled change).WellTyped := by
  cases tree with
  | choice branches otherwise label =>
      obtain ⟨last, all⟩ := Everywhere.choice_inside.mp h.inside
      refine .intro trivial (Everywhere.choice_inside.mpr ⟨last, fun b within => ?_⟩)
      obtain ⟨i, inside, rfl⟩ := List.mem_mapIdx.mp within
      exact all branches[i] (List.getElem_mem inside)
  | _ => exact h

/-- Labels may be changed in any order, if each change is one of other labels. -/
theorem relabelled_comm (h : ∀ place l, change place (change' place l) = change' place (change place l))
    (tree : Node) : (tree.relabelled change').relabelled change = (tree.relabelled change).relabelled change' := by
  cases tree with
  | choice branches otherwise label =>
      simp only [relabelled, List.mapIdx_mapIdx, Function.comp_def, h]
  | _ => rfl

end Node

/-- A reference to be put in the place that some steps lead to. -/
structure Graft where
  steps : List Step
  new : Node

namespace Graft

open Node

variable {numeric : List String} {g h : Graft} {gs hs : List Graft} {tree tree' old : Node} {q : List Step}

/-- How the labels of results follow the reference. A check of a rule in the place of a result changes none. -/
def follow (g : Graft) (old : Node) (place : List Step) (l : ResultLabel) : ResultLabel :=
  match g.new with
  | .reference _ => if place = g.steps then l.afterResult old g.new else l
  | _ => l

/-- The tree with the reference in its place. -/
def onto (numeric : List String) (g : Graft) (tree : Node) : Except Fault Node := do
  let old ← tree.find g.steps
  return (← weave numeric g.new g.steps tree).relabelled (g.follow old)

/-- A reference that declares a type is to take the place of another one. -/
def Fits (tree : Node) (g : Graft) : Prop :=
  g.new.Typed ∧ g.new.target?.isSome ∧ ∃ old, tree.find g.steps = .ok old ∧ old.target?.isSome

theorem wellTyped_of_target {node : Node} (h : node.target?.isSome) : node.WellTyped := by
  cases node with
  | reference _ | ruleCheck _ _ => exact .intro trivial fun _ => nofun
  | _ => cases h

theorem Fits.node (fits : g.Fits tree) : tree.Fits g.steps g.new := by
  obtain ⟨typed, target, old, found, -⟩ := fits
  exact ⟨wellTyped_of_target target, old, found, fun _ => typed⟩

theorem onto_eq_ok : g.onto numeric tree = .ok tree' ↔
    ∃ old woven, tree.find g.steps = .ok old ∧ weave numeric g.new g.steps tree = .ok woven ∧
      tree' = woven.relabelled (g.follow old) := by
  simp only [onto, bind_eq_ok, pure_eq_ok, Except.ok.injEq]
  constructor
  · rintro ⟨old, found, woven, put, rfl⟩
    exact ⟨old, woven, found, put, rfl⟩
  · rintro ⟨old, woven, found, put, rfl⟩
    exact ⟨old, found, woven, put, rfl⟩

theorem Fits.onto (fits : g.Fits tree) (hw : tree.WellTyped) (numeric : List String) :
    ∃ tree', g.onto numeric tree = .ok tree' ∧ tree'.WellTyped := by
  obtain ⟨put, old, found, kept⟩ := fits.node
  obtain ⟨woven, ok⟩ := weave_eq_ok numeric hw found put kept
  exact ⟨_, onto_eq_ok.mpr ⟨old, woven, found, ok, rfl⟩, wellTyped_relabelled (fits.node.woven hw ok)⟩

theorem find_apart (apart : Apart g.steps q) (hg : g.onto numeric tree = .ok tree') :
    tree'.find q = tree.find q := by
  obtain ⟨old, woven, found, put, rfl⟩ := onto_eq_ok.mp hg
  rw [find_relabelled apart.ne_nil, find_woven_apart apart put]

theorem find_grafted (ht : g.new.target?.isSome) (hg : g.onto numeric tree = .ok tree') :
    tree'.find g.steps = .ok g.new := by
  obtain ⟨old, woven, found, put, rfl⟩ := onto_eq_ok.mp hg
  by_cases root : g.steps = []
  · rw [root] at put ⊢
    cases put
    rw [relabelled_of_target ht]
    rfl
  · rw [find_relabelled root, find_woven put]

theorem Fits.apart (fits : h.Fits tree) (apart : Apart g.steps h.steps) (hg : g.onto numeric tree = .ok tree') :
    h.Fits tree' := by
  obtain ⟨typed, target, old, found, stood⟩ := fits
  exact ⟨typed, target, old, (find_apart apart hg).trans found, stood⟩

theorem follow_comm (hd : g.steps ≠ h.steps) (old old' : Node) (place : List Step) (l : ResultLabel) :
    g.follow old place (h.follow old' place l) = h.follow old' place (g.follow old place l) := by
  unfold follow
  grind

/-- References that are grafted in places apart may come in any order. -/
theorem onto_comm {a b a' b' : Node} (apart : Apart g.steps h.steps) (hw : tree.WellTyped) (fits : g.Fits tree)
    (fits' : h.Fits tree) (hf : g.onto numeric tree = .ok a) (hs : h.onto numeric a = .ok b)
    (hf' : h.onto numeric tree = .ok a') (hs' : g.onto numeric a' = .ok b') : b = b' := by
  have found := find_apart apart hf
  have found' := find_apart apart.symm hf'
  obtain ⟨old, w, stood, put, rfl⟩ := onto_eq_ok.mp hf
  obtain ⟨old', w', stood', put', rfl⟩ := onto_eq_ok.mp hf'
  obtain ⟨_, v, again, upon, rfl⟩ := onto_eq_ok.mp hs
  obtain ⟨_, v', again', upon', rfl⟩ := onto_eq_ok.mp hs'
  -- each label follows from what stood in the place, which the other graft has left there
  cases again.symm.trans (found.trans stood')
  cases again'.symm.trans (found'.trans stood)
  rw [weave_relabelled apart.ne_nil] at upon
  rw [weave_relabelled apart.symm.ne_nil] at upon'
  obtain ⟨u, both, rfl⟩ := map_eq_ok.mp upon
  obtain ⟨u', both', rfl⟩ := map_eq_ok.mp upon'
  cases weave_comm apart hw fits.node fits'.node put both put' both'
  exact relabelled_comm (fun place l => follow_comm apart.symm.ne old' old place l) u

/-! ### Several grafts -/

/-- The tree with all the references in their places. -/
def all (numeric : List String) : List Graft → Node → Except Fault Node
  | [], tree => .ok tree
  | g :: rest, tree => do all numeric rest (← g.onto numeric tree)

theorem all_append (gs hs : List Graft) (tree : Node) :
    all numeric (gs ++ hs) tree = (all numeric gs tree >>= all numeric hs) := by
  induction gs generalizing tree with
  | nil => rfl
  | cons g rest ih =>
      rw [List.cons_append, all, all]
      cases g.onto numeric tree with
      | error fault => rfl
      | ok tree' => rw [ok_bind, ok_bind, ih]

/-- References that may be grafted onto a well-typed tree, in places apart from each other. -/
structure Ready (tree : Node) (gs : List Graft) : Prop where
  well : tree.WellTyped
  fits : ∀ g ∈ gs, g.Fits tree
  apart : gs.Pairwise fun g h => Apart g.steps h.steps

theorem Ready.next (ready : Ready tree (g :: gs)) (numeric : List String) :
    ∃ tree', g.onto numeric tree = .ok tree' ∧ Ready tree' gs := by
  obtain ⟨first, others⟩ := List.forall_mem_cons.mp ready.fits
  obtain ⟨away, apart⟩ := List.pairwise_cons.mp ready.apart
  obtain ⟨tree', grafted, well⟩ := first.onto ready.well numeric
  exact ⟨tree', grafted, well, fun h among => (others h among).apart (away h among) grafted, apart⟩

theorem Ready.perm (ready : Ready tree gs) (perm : gs.Perm hs) : Ready tree hs where
  well := ready.well
  fits g among := ready.fits g (perm.mem_iff.mpr among)
  apart := (perm.pairwise_iff Apart.symm).mp ready.apart

/-- All references come to their places, and what stands apart from them stays. -/
theorem Ready.all (ready : Ready tree gs) (numeric : List String) :
    ∃ tree', all numeric gs tree = .ok tree' ∧ tree'.WellTyped ∧ (∀ g ∈ gs, tree'.find g.steps = .ok g.new) ∧
      ∀ q, (∀ g ∈ gs, Apart g.steps q) → tree'.find q = tree.find q := by
  induction gs generalizing tree with
  | nil => exact ⟨tree, rfl, ready.well, fun _ => nofun, fun _ _ => rfl⟩
  | cons g rest ih =>
      obtain ⟨once, grafted, ready'⟩ := ready.next numeric
      obtain ⟨tree', done, well, stand, stays⟩ := ih ready'
      have away := (List.pairwise_cons.mp ready.apart).1
      have target := (ready.fits g List.mem_cons_self).2.1
      refine ⟨tree', ?_, well, List.forall_mem_cons.mpr ⟨?_, stand⟩, fun q apart => ?_⟩
      · rw [Graft.all, grafted, ok_bind, done]
      · rw [stays g.steps fun h among => (away h among).symm, find_grafted target grafted]
      · obtain ⟨first, others⟩ := List.forall_mem_cons.mp apart
        rw [stays q others, find_apart first grafted]

/-- The order in which references are grafted makes no difference. -/
theorem all_perm (perm : gs.Perm hs) (ready : Ready tree gs) : all numeric gs tree = all numeric hs tree := by
  induction perm generalizing tree with
  | nil => rfl
  | cons g _ ih =>
      obtain ⟨tree', grafted, ready'⟩ := ready.next numeric
      rw [all, all, grafted, ok_bind, ok_bind, ih ready']
  | swap g h rest =>
      obtain ⟨a, first, readyA⟩ := ready.next numeric
      obtain ⟨b, second, -⟩ := readyA.next numeric
      obtain ⟨a', first', readyA'⟩ := (ready.perm (.swap g h rest)).next numeric
      obtain ⟨b', second', -⟩ := readyA'.next numeric
      obtain ⟨fits, others⟩ := List.forall_mem_cons.mp ready.fits
      have apart := (List.pairwise_cons.mp ready.apart).1 g List.mem_cons_self
      cases onto_comm apart ready.well fits (others g List.mem_cons_self) first second first' second'
      simp only [all, first, first', second, second', ok_bind]
  | trans p _ ih ih' => exact (ih ready).trans (ih' (ready.perm p))

end Graft

end RuleEditor
