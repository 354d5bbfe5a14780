import RuleEditor.Proofs.Outcome
import RuleEditor.Tree.Lookup
import RuleEditor.Tree.Traversal

/-!
# Reading and replacing

`Node.find` and `Node.replace` are the two halves of one access to a tree. `Slot` says what the access by a
single step is: which node stands in the slot, and what the container looks like with another one there.
-/
namespace RuleEditor

namespace Step

/-- Two steps lead into a common part of a node: they are the same step, or one leads to the whole right
side of a comparison and the other to an operand on it. -/
def Meets : Step → Step → Prop
  | .right, .rightItem _ | .rightItem _, .right => True
  | a, b => a = b

theorem Meets.symm {a b : Step} (h : a.Meets b) : b.Meets a := by
  cases a <;> cases b <;> simp_all [Meets]

end Step

namespace Node

variable {α : Type} {old new node node' : Node} {step : Step}

/-- A step leads from a node to `old`; with `new` in that slot the node is another one. -/
inductive Slot : Step → (old new node node' : Node) → Prop where
  | condition {branches : List (Branch Node)} {branch otherwise label new} {i : Nat} :
      branches[i]? = some branch →
      Slot (.condition i) branch.condition new (.choice branches otherwise label)
        (.choice (branches.set i { branch with condition := new }) otherwise label)
  | result {branches : List (Branch Node)} {branch otherwise label new} {i : Nat} :
      branches[i]? = some branch →
      Slot (.result i) branch.result new (.choice branches otherwise label)
        (.choice (branches.set i { branch with result := new }) otherwise label)
  | otherwise {branches otherwise label new} :
      Slot .otherwise otherwise new (.choice branches otherwise label) (.choice branches new label)
  | child {name conjunction negated new old} {children : List Node} {i : Nat} :
      children[i]? = some old →
      Slot (.child i) old new (.group name children conjunction negated)
        (.group name (children.set i new) conjunction negated)
  | left {name left operator right new} :
      Slot .left left new (.comparison name left operator right) (.comparison name new operator right)
  | right {name left operator right new} :
      Slot .right right new (.comparison name left operator right) (.comparison name left operator new)
  | rightItem {name left operator new old} {items : List Node} {i : Nat} :
      items[i]? = some old →
      Slot (.rightItem i) old new (.comparison name left operator (.several items))
        (.comparison name left operator (.several (items.set i new)))
  | operand {type operators new old} {operands : List Node} {i : Nat} :
      operands[i]? = some old →
      Slot (.operand i) old new (.chain type operands operators) (.chain type (operands.set i new) operators)
  | argument {type name new} {arguments : List (Argument Node)} {argument} {i : Nat} :
      arguments[i]? = some argument →
      Slot (.argument i) argument.value new (.call type name arguments)
        (.call type name (arguments.set i { argument with value := new }))

theorem item_eq_ok {xs : List α} {i : Nat} {x : α} : item xs i = .ok x ↔ xs[i]? = some x := by
  unfold item
  cases xs[i]? <;> simp

theorem lt_of_item {xs : List α} {i : Nat} {x : α} (h : xs[i]? = some x) : i < xs.length :=
  (List.getElem?_eq_some_iff.mp h).1

theorem item_set_ne {xs : List α} {i j : Nat} {x : α} (h : i ≠ j) : item (xs.set i x) j = item xs j := by
  simp only [item, List.getElem?_set_ne h]

/-- What is the same about an item and the one in its place is the same at every index. -/
theorem item_set_map {β : Type} {f : α → β} {xs : List α} {i : Nat} {x y : α} (hf : xs[i]? = some x)
    (hs : f y = f x) (j : Nat) : (item (xs.set i y) j).map f = (item xs j).map f := by
  by_cases here : i = j
  · subst here
    simp only [item, hf, List.getElem?_set_self (lt_of_item hf), Except.map, hs]
  · rw [item_set_ne here]

theorem withItem_eq_ok {xs ys : List α} {i : Nat} {x : α} :
    withItem xs i x = .ok ys ↔ (∃ y, xs[i]? = some y) ∧ ys = xs.set i x := by
  unfold withItem
  split
  · rename_i inside
    simp [List.getElem?_eq_getElem inside, eq_comm]
  · rename_i outside
    simp [List.getElem?_eq_none (Nat.not_lt.mp outside)]

theorem slot_of_child (h : child step node = .ok old) (new : Node) : ∃ node', Slot step old new node node' := by
  cases node <;> cases step <;> simp only [child, map_eq_ok, item_eq_ok, Except.ok.injEq, reduceCtorEq] at h
  case choice.condition =>
    obtain ⟨branch, found, rfl⟩ := h
    exact ⟨_, .condition found⟩
  case choice.result =>
    obtain ⟨branch, found, rfl⟩ := h
    exact ⟨_, .result found⟩
  case choice.otherwise =>
    subst h
    exact ⟨_, .otherwise⟩
  case group.child => exact ⟨_, .child h⟩
  case comparison.left =>
    subst h
    exact ⟨_, .left⟩
  case comparison.right =>
    subst h
    exact ⟨_, .right⟩
  case comparison.rightItem =>
    split at h
    · exact ⟨_, .rightItem (item_eq_ok.mp h)⟩
    · cases h
  case chain.operand => exact ⟨_, .operand h⟩
  case call.argument =>
    obtain ⟨argument, found, rfl⟩ := h
    exact ⟨_, .argument found⟩

theorem slot_of_withChild (h : withChild step new node = .ok node') : ∃ old, Slot step old new node node' := by
  cases node <;> cases step <;>
    simp only [withChild, bind_eq_ok, item_eq_ok, withItem_eq_ok, pure_eq_ok, Except.ok.injEq, reduceCtorEq] at h
  case choice.condition =>
    obtain ⟨branch, found, rfl⟩ := h
    exact ⟨_, .condition found⟩
  case choice.result =>
    obtain ⟨branch, found, rfl⟩ := h
    exact ⟨_, .result found⟩
  case choice.otherwise =>
    subst h
    exact ⟨_, .otherwise⟩
  case group.child =>
    obtain ⟨_, ⟨⟨old, found⟩, rfl⟩, rfl⟩ := h
    exact ⟨_, .child found⟩
  case comparison.left =>
    subst h
    exact ⟨_, .left⟩
  case comparison.right =>
    subst h
    exact ⟨_, .right⟩
  case comparison.rightItem =>
    split at h
    · simp only [bind_eq_ok, withItem_eq_ok, Except.ok.injEq] at h
      obtain ⟨_, ⟨⟨old, found⟩, rfl⟩, rfl⟩ := h
      exact ⟨_, .rightItem found⟩
    · cases h
  case chain.operand =>
    obtain ⟨_, ⟨⟨old, found⟩, rfl⟩, rfl⟩ := h
    exact ⟨_, .operand found⟩
  case call.argument =>
    obtain ⟨argument, found, rfl⟩ := h
    exact ⟨_, .argument found⟩

namespace Slot

theorem child_eq (h : Slot step old new node node') : node.child step = .ok old := by
  cases h with
  | condition found => simp [Node.child, item_eq_ok.mpr found, Except.map]
  | result found => simp [Node.child, item_eq_ok.mpr found, Except.map]
  | otherwise => rfl
  | child found => exact item_eq_ok.mpr found
  | left => rfl
  | right => rfl
  | rightItem found => exact item_eq_ok.mpr found
  | operand found => exact item_eq_ok.mpr found
  | argument found => simp [Node.child, item_eq_ok.mpr found, Except.map]

theorem withChild_eq (h : Slot step old new node node') : withChild step new node = .ok node' := by
  cases h with
  | condition found => simp [Node.withChild, item_eq_ok.mpr found]
  | result found => simp [Node.withChild, item_eq_ok.mpr found]
  | otherwise => rfl
  | child found => simp [Node.withChild, withItem, lt_of_item found]
  | left => rfl
  | right => rfl
  | rightItem found => simp [Node.withChild, withItem, lt_of_item found]
  | operand found => simp [Node.withChild, withItem, lt_of_item found]
  | argument found => simp [Node.withChild, item_eq_ok.mpr found]

/-- The new node stands in the slot. -/
theorem child_new (h : Slot step old new node node') : node'.child step = .ok new := by
  cases h with
  | condition found => simp [Node.child, item, lt_of_item found, Except.map]
  | result found => simp [Node.child, item, lt_of_item found, Except.map]
  | otherwise => rfl
  | child found => simp [Node.child, item, lt_of_item found]
  | left => rfl
  | right => rfl
  | rightItem found => simp [Node.child, item, lt_of_item found]
  | operand found => simp [Node.child, item, lt_of_item found]
  | argument found => simp [Node.child, item, lt_of_item found, Except.map]

/-- A node in another slot stays. -/
theorem child_other (h : Slot step old new node node') {other : Step} (ha : ¬ step.Meets other) :
    node'.child other = node.child other := by
  cases h with
  | condition found =>
      cases other with
      | condition j => simp only [Node.child, item_set_ne (fun same => ha (congrArg Step.condition same))]
      | result j => exact item_set_map (f := Branch.result) found (by rfl) j
      | _ => rfl
  | result found =>
      cases other with
      | condition j => exact item_set_map (f := Branch.condition) found (by rfl) j
      | result j => simp only [Node.child, item_set_ne (fun same => ha (congrArg Step.result same))]
      | _ => rfl
  | otherwise =>
      cases other with
      | otherwise => exact absurd rfl ha
      | _ => rfl
  | child found =>
      cases other with
      | child j => exact item_set_ne (fun same => ha (congrArg Step.child same))
      | _ => rfl
  | left =>
      cases other with
      | left => exact absurd rfl ha
      | _ => rfl
  | right =>
      cases other with
      | right => exact absurd rfl ha
      | rightItem j => exact absurd trivial ha
      | _ => rfl
  | rightItem found =>
      cases other with
      | right => exact absurd trivial ha
      | rightItem j => exact item_set_ne (fun same => ha (congrArg Step.rightItem same))
      | _ => rfl
  | operand found =>
      cases other with
      | operand j => exact item_set_ne (fun same => ha (congrArg Step.operand same))
      | _ => rfl
  | argument found =>
      cases other with
      | argument j => simp only [Node.child, item_set_ne (fun same => ha (congrArg Step.argument same))]
      | _ => rfl

theorem root_eq (h : Slot step old new node node') : node'.root = node.root := by
  cases h <;> rfl

theorem unique {node'' : Node} (slot : Slot step old new node node') (slot' : Slot step old new node node'') :
    node' = node'' := by
  have same := slot.withChild_eq.symm.trans slot'.withChild_eq
  exact Except.ok.inj same

/-- What was put into a slot first is not seen after something else was. -/
theorem overwrite {later : Node} (slot : Slot step old new node node') :
    withChild step later node' = withChild step later node := by
  have set_self {α : Type} {xs : List α} {i : Nat} {x y : α} (found : xs[i]? = some x) :
      item (xs.set i y) i = .ok y := item_eq_ok.mpr (List.getElem?_set_self (lt_of_item found))
  cases slot with
  | condition found | result found | argument found =>
      simp only [withChild, item_eq_ok.mpr found, set_self found, ok_bind, List.set_set]
  | child found | rightItem found | operand found => simp only [withChild, withItem, List.length_set, List.set_set]
  | otherwise | left | right => rfl

/-- A new condition and a new result of branches may come in any order, also in the same branch. -/
theorem branches_comm {branches : List (Branch Node)} {x y x' y' : Branch Node} {condition result : Node} {i j : Nat}
    (hx : branches[i]? = some x) (hy : (branches.set i { x with condition })[j]? = some y)
    (hy' : branches[j]? = some y') (hx' : (branches.set j { y' with result })[i]? = some x') :
    (branches.set i { x with condition }).set j { y with result } =
      (branches.set j { y' with result }).set i { x' with condition } := by
  by_cases same : i = j
  · subst same
    rw [List.getElem?_set_self (lt_of_item hx)] at hy hx'
    cases hy
    cases hx'
    cases hx.symm.trans hy'
    rw [List.set_set, List.set_set]
  · rw [List.getElem?_set_ne same, hy'] at hy
    rw [List.getElem?_set_ne (Ne.symm same), hx] at hx'
    cases hy
    cases hx'
    rw [List.set_comm _ _ same]

/-- Slots apart from each other may be filled in any order. -/
theorem comm {other : Step} {old' new' a b : Node} (ha : ¬ step.Meets other) (slot : Slot step old new node a)
    (slot' : Slot other old' new' a b) : ∃ a', Slot other old' new' node a' ∧ Slot step old new a' b := by
  have there : node.child other = .ok old' := by rw [← slot.child_other ha, slot'.child_eq]
  obtain ⟨a', first⟩ := slot_of_child there new'
  have still : a'.child step = .ok old := by
    rw [first.child_other fun meets => ha meets.symm, slot.child_eq]
  obtain ⟨b', second⟩ := slot_of_child still new
  suffices b = b' by
    subst this
    exact ⟨a', first, second⟩
  have put := first.withChild_eq
  have put' := second.withChild_eq
  cases slot <;> cases slot' <;>
    simp only [withChild, bind_eq_ok, item_eq_ok, withItem_eq_ok, pure_eq_ok, Except.ok.injEq] at put
  case condition.result =>
    rename_i at₁ _ _ at₂
    obtain ⟨y, at₃, rfl⟩ := put
    simp only [withChild, bind_eq_ok, item_eq_ok, pure_eq_ok, Except.ok.injEq] at put'
    obtain ⟨x, at₄, rfl⟩ := put'
    rw [branches_comm at₁ at₂ at₃ at₄]
  case result.condition =>
    rename_i at₁ _ _ at₂
    obtain ⟨y, at₃, rfl⟩ := put
    simp only [withChild, bind_eq_ok, item_eq_ok, pure_eq_ok, Except.ok.injEq] at put'
    obtain ⟨x, at₄, rfl⟩ := put'
    rw [branches_comm at₃ at₄ at₁ at₂]
  case right.rightItem => exact absurd trivial ha
  case rightItem.right => exact absurd trivial ha
  case child.child | operand.operand | rightItem.rightItem | argument.argument | condition.condition | result.result
      | otherwise.condition | otherwise.result | left.rightItem =>
    obtain ⟨_, at₃, rfl⟩ := put
    simp only [withChild, bind_eq_ok, item_eq_ok, withItem_eq_ok, pure_eq_ok, Except.ok.injEq] at put'
    grind [Step.Meets, List.set_comm]
  all_goals
    subst put
    simp only [withChild, bind_eq_ok, item_eq_ok, withItem_eq_ok, pure_eq_ok, Except.ok.injEq] at put'
    grind [Step.Meets]

end Slot

/-! ### Along several steps -/

theorem find_append (ps qs : List Step) (tree : Node) : tree.find (ps ++ qs) = (tree.find ps >>= find qs) := by
  induction ps generalizing tree with
  | nil => rfl
  | cons step rest ih =>
      simp only [List.cons_append, find]
      cases tree.child step with
      | ok c => simp only [ok_bind, ih]
      | error fault => rfl

/-- A replacement below a node is one below its child. -/
theorem replace_cons {rest : List Step} :
    replace new (step :: rest) node = .ok node' ↔
      ∃ old changed, replace new rest old = .ok changed ∧ Slot step old changed node node' := by
  simp only [replace, bind_eq_ok]
  constructor
  · rintro ⟨old, stands, changed, below, put⟩
    obtain ⟨old', slot⟩ := slot_of_withChild put
    cases stands.symm.trans slot.child_eq
    exact ⟨old, changed, below, slot⟩
  · rintro ⟨old, changed, below, slot⟩
    exact ⟨old, slot.child_eq, changed, below, slot.withChild_eq⟩

/-- What is replaced was there. -/
theorem find_of_replace {steps : List Step} (h : replace new steps node = .ok node') :
    ∃ old, node.find steps = .ok old := by
  induction steps generalizing node node' with
  | nil => exact ⟨node, rfl⟩
  | cons step rest ih =>
      obtain ⟨child, changed, below, slot⟩ := replace_cons.mp h
      obtain ⟨old, found⟩ := ih below
      exact ⟨old, by simp only [find, slot.child_eq, ok_bind, found]⟩

/-- The new node is found where it was put. -/
theorem find_replaced {steps : List Step} (h : replace new steps node = .ok node') :
    node'.find steps = .ok new := by
  induction steps generalizing node node' with
  | nil =>
      cases h
      rfl
  | cons step rest ih =>
      obtain ⟨child, changed, below, slot⟩ := replace_cons.mp h
      simp only [find, slot.child_new, ok_bind, ih below]

theorem root_replaced {steps : List Step} (hb : steps ≠ []) (h : replace new steps node = .ok node') :
    node'.root = node.root := by
  cases steps with
  | nil => exact absurd rfl hb
  | cons step rest =>
      obtain ⟨_, _, _, slot⟩ := replace_cons.mp h
      exact slot.root_eq

end Node

end RuleEditor
