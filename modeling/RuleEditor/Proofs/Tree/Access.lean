import RuleEditor.Proofs.Tree.Weaving

/-!
# Access to a tree by a path

Reading and putting a node are the two halves of one access. What is put at a path is read there, it hides what was put
there before, and what was there can be put back; places that lie apart from the path are neither changed by it nor do
they change what it does. A node can be put exactly where one can be read.
-/
namespace RuleEditor

/-- The ways lead to separate places: neither goes on from where the other ends, and they do not part at the right side
of a comparison, one taking it as a whole and the other an operand on it. -/
structure Separate (p q : List Step) : Prop where
  notBelow : ¬ p <+: q
  notAbove : ¬ q <+: p
  notWhole : ∀ way i, way ++ [.right] <+: p → ¬ way ++ [.rightItem i] <+: q
  notItem : ∀ way i, way ++ [.rightItem i] <+: p → ¬ way ++ [.right] <+: q

theorem separate_cons {step : Step} {p q : List Step} : Separate (step :: p) (step :: q) ↔ Separate p q := by
  have cons {a b : List Step} : step :: a <+: step :: b ↔ a <+: b := by simp [List.cons_prefix_cons]
  constructor
  · intro h
    refine ⟨fun below => h.notBelow (cons.mpr below), fun above => h.notAbove (cons.mpr above), ?_, ?_⟩
    · exact fun way i whole item => h.notWhole (step :: way) i (cons.mpr whole) (cons.mpr item)
    · exact fun way i item whole => h.notItem (step :: way) i (cons.mpr item) (cons.mpr whole)
  · intro h
    refine ⟨fun below => h.notBelow (cons.mp below), fun above => h.notAbove (cons.mp above), ?_, ?_⟩
    · intro way i whole item
      cases way with
      | nil => cases (List.cons_prefix_cons.mp whole).1.trans (List.cons_prefix_cons.mp item).1.symm
      | cons first way =>
          obtain ⟨rfl, below⟩ := List.cons_prefix_cons.mp whole
          exact h.notWhole way i below (cons.mp item)
    · intro way i item whole
      cases way with
      | nil => cases (List.cons_prefix_cons.mp whole).1.trans (List.cons_prefix_cons.mp item).1.symm
      | cons first way =>
          obtain ⟨rfl, below⟩ := List.cons_prefix_cons.mp item
          exact h.notItem way i below (cons.mp whole)

theorem separate_fork {a b : Step} {p q : List Step} (h : ¬ a.Meets b) : Separate (a :: p) (b :: q) := by
  have differ : a ≠ b := by
    rintro rfl
    exact h (Step.meets_self a)
  have first {c d x y : Step} {way p q : List Step} (leads : way ++ [x] <+: c :: p) (leads' : way ++ [y] <+: d :: q)
      (other : c ≠ d) : c = x ∧ d = y := by
    cases way with
    | nil => exact ⟨(List.cons_prefix_cons.mp leads).1.symm, (List.cons_prefix_cons.mp leads').1.symm⟩
    | cons step way =>
        exact absurd ((List.cons_prefix_cons.mp leads).1.symm.trans (List.cons_prefix_cons.mp leads').1) other
  constructor
  · exact fun below => differ (List.cons_prefix_cons.mp below).1
  · exact fun above => differ (List.cons_prefix_cons.mp above).1.symm
  · intro way i whole item
    obtain ⟨rfl, rfl⟩ := first whole item differ
    exact h trivial
  · intro way i item whole
    obtain ⟨rfl, rfl⟩ := first item whole differ
    exact h trivial

/-- Ways lead to separate places if they part before one of them ends. -/
theorem separate_iff {p q : List Step} : Separate p q ↔ Apart p q := by
  constructor
  · intro h
    induction p generalizing q with
    | nil => exact absurd List.nil_prefix h.notBelow
    | cons a p ih =>
        cases q with
        | nil => exact absurd List.nil_prefix h.notAbove
        | cons b q =>
            by_cases same : a = b
            · subst same
              exact .along (ih (separate_cons.mp h))
            · apply Apart.fork
              intro meets
              have first (c : Step) (rest : List Step) : [c] <+: c :: rest := ⟨rest, rfl⟩
              cases a with
              | right =>
                  cases b with
                  | rightItem i => exact h.notWhole [] i (first _ p) (first _ q)
                  | _ => exact same meets
              | rightItem i =>
                  cases b with
                  | right => exact h.notItem [] i (first _ p) (first _ q)
                  | _ => exact same meets
              | _ => cases b <;> exact same meets
  · intro h
    induction h with
    | fork parts => exact separate_fork parts
    | along _ ih => exact separate_cons.mpr ih

namespace Node

variable {old new later node node' tree tree' : Node} {step : Step} {steps p q : List Step} {path : String}
  {fault : Fault}

theorem set_same {α : Type} {xs : List α} {i : Nat} {x : α} (h : xs[i]? = some x) : xs.set i x = xs := by
  obtain ⟨inside, rfl⟩ := List.getElem?_eq_some_iff.mp h
  exact List.set_getElem_self inside

/-- A slot that is filled with what stands in it stays the same. -/
theorem Slot.same (slot : Slot step old old node node') : node' = node := by
  cases slot with
  | condition found | result found | child found | rightItem found | operand found | argument found =>
      rw [set_same found]
  | otherwise | left | right => rfl

/-! ### Along several steps -/

theorem replace_of_find (h : tree.find steps = .ok old) (new : Node) :
    ∃ tree', replace new steps tree = .ok tree' := by
  induction steps generalizing tree with
  | nil => exact ⟨new, rfl⟩
  | cons step rest ih =>
      obtain ⟨child, stands, below⟩ := bind_eq_ok.mp h
      obtain ⟨changed, put⟩ := ih below
      obtain ⟨tree', slot⟩ := slot_of_child stands changed
      exact ⟨tree', replace_cons.mpr ⟨child, changed, put, slot⟩⟩

/-- A node can be put exactly where there is one, and otherwise both fail alike. -/
theorem replace_eq_error : replace new steps tree = .error fault ↔ tree.find steps = .error fault := by
  induction steps generalizing tree with
  | nil => constructor <;> intro failed <;> cases failed
  | cons step rest ih =>
      simp only [replace, find]
      cases stands : tree.child step with
      | error bad => rfl
      | ok child =>
          rw [ok_bind, ok_bind, ← ih]
          cases put : replace new rest child with
          | error bad => rfl
          | ok changed =>
              obtain ⟨tree', slot⟩ := slot_of_child stands changed
              rw [ok_bind, slot.withChild_eq]
              constructor <;> intro failed <;> cases failed

/-- What is there can be put back. -/
theorem replace_found (h : tree.find steps = .ok old) : replace old steps tree = .ok tree := by
  induction steps generalizing tree with
  | nil =>
      cases h
      rfl
  | cons step rest ih =>
      obtain ⟨child, stands, below⟩ := bind_eq_ok.mp h
      obtain ⟨tree', slot⟩ := slot_of_child stands child
      have same : tree' = tree := slot.same
      exact replace_cons.mpr ⟨child, child, ih below, same ▸ slot⟩

/-- What was put first is not seen after something else was. -/
theorem replace_replaced (h : replace new steps tree = .ok tree') :
    replace later steps tree' = replace later steps tree := by
  induction steps generalizing tree tree' with
  | nil => rfl
  | cons step rest ih =>
      obtain ⟨child, changed, below, slot⟩ := replace_cons.mp h
      simp only [replace, slot.child_new, slot.child_eq, ok_bind, ih below, slot.overwrite]

/-- What stands apart from the new node is found as before. -/
theorem find_replaced_apart (apart : Apart p q) (hp : replace new p tree = .ok tree') :
    tree'.find q = tree.find q := by
  induction apart generalizing tree tree' with
  | fork parts =>
      obtain ⟨child, changed, -, slot⟩ := replace_cons.mp hp
      simp only [find, slot.child_other parts]
  | along _ ih =>
      obtain ⟨child, changed, below, slot⟩ := replace_cons.mp hp
      simp only [find, slot.child_new, slot.child_eq, ok_bind, ih below]

/-- Nodes may be put in places apart from each other in any order. -/
theorem replace_comm (apart : Apart p q) (hp : replace new p tree = .ok tree') (hf : tree.find q = .ok old)
    (other : Node) : ∃ between after, replace other q tree = .ok between ∧ replace new p between = .ok after ∧
      replace other q tree' = .ok after := by
  induction apart generalizing tree tree' with
  | fork parts =>
      obtain ⟨child, changed, below, slot⟩ := replace_cons.mp hp
      obtain ⟨child₂, stands, below₂⟩ := bind_eq_ok.mp hf
      obtain ⟨changed₂, put₂⟩ := replace_of_find below₂ other
      obtain ⟨after, slot₂⟩ := slot_of_child ((slot.child_other parts).trans stands) changed₂
      obtain ⟨between, first, second⟩ := slot.comm parts slot₂
      exact ⟨between, after, replace_cons.mpr ⟨_, _, put₂, first⟩, replace_cons.mpr ⟨_, _, below, second⟩,
        replace_cons.mpr ⟨_, _, put₂, slot₂⟩⟩
  | @along step _ _ _ ih =>
      obtain ⟨child, changed, below, slot⟩ := replace_cons.mp hp
      obtain ⟨child₂, stands, below₂⟩ := bind_eq_ok.mp hf
      cases slot.child_eq.symm.trans stands
      obtain ⟨between, after, first, second, together⟩ := ih below below₂
      obtain ⟨outer, slot₁⟩ := slot_of_child stands between
      obtain ⟨outer', slot₂⟩ := slot_of_child slot₁.child_new after
      have both : withChild step after tree' = .ok outer' := by
        rw [slot.overwrite, ← slot₁.overwrite, slot₂.withChild_eq]
      refine ⟨outer, outer', replace_cons.mpr ⟨_, _, first, slot₁⟩, replace_cons.mpr ⟨_, _, second, slot₂⟩, ?_⟩
      simp only [replace, slot.child_new, ok_bind, together, both]

/-! ### By paths -/

theorem atPath_eq_ok : tree.atPath path = .ok node ↔
    ∃ steps, Address.steps path = .ok steps ∧ tree.find steps = .ok node := bind_eq_ok

/-- A node is read where it was put, what was there before can be put back and is hidden by it, and all that is apart
from it stays and may be changed before it or after. Where nothing can be read, nothing can be put either. -/
theorem access_lawful (tree : Node) (path : String) :
    (∀ node, tree.atPath path = .ok node → tree.putAtPath path node = .ok tree ∧
      ∀ new, ∃ tree', tree.putAtPath path new = .ok tree' ∧ tree'.atPath path = .ok new ∧
        (∀ later, tree'.putAtPath path later = tree.putAtPath path later) ∧
        ∀ path' p q, Address.steps path = .ok p → Address.steps path' = .ok q → Separate p q →
          tree'.atPath path' = tree.atPath path' ∧
          ∀ node', tree.atPath path' = .ok node' → ∀ new', ∃ between after,
            tree.putAtPath path' new' = .ok between ∧ between.putAtPath path new = .ok after ∧
              tree'.putAtPath path' new' = .ok after) ∧
    ∀ fault new, tree.atPath path = .error fault ↔ tree.putAtPath path new = .error fault := by
  have reads {way : String} {steps : List Step} (read : Address.steps way = .ok steps) (any : Node) :
      any.atPath way = any.find steps := by rw [atPath, read, ok_bind]
  have puts {way : String} {steps : List Step} (read : Address.steps way = .ok steps) (any new : Node) :
      any.putAtPath way new = replace new steps any := by rw [putAtPath, read, ok_bind]
  constructor
  · intro node at?
    obtain ⟨steps, read, found⟩ := atPath_eq_ok.mp at?
    simp only [reads read, puts read]
    refine ⟨replace_found found, fun new => ?_⟩
    obtain ⟨tree', put⟩ := replace_of_find found new
    refine ⟨tree', put, find_replaced put, fun later => replace_replaced put, ?_⟩
    intro path' p q same read' separate
    cases read.symm.trans same
    have apart := separate_iff.mp separate
    simp only [reads read', puts read']
    refine ⟨find_replaced_apart apart put, ?_⟩
    intro node' found' new'
    exact replace_comm apart put found' new'
  · intro fault new
    cases read : Address.steps path with
    | error bad => simp only [atPath, putAtPath, read, error_bind]
    | ok steps => rw [reads read, puts read, replace_eq_error]

def years (n : Int) : Node := .literal (.text "number") (.int n)

/-- A price for each age between two bounds. -/
def fare : Node :=
  .choice [⟨.comparison (.text "Condition 1") (.field (.text "number") (.text "AGE")) (.text "between")
    (.several [years 18, years 65]), years 10, .positional⟩] (years 5) .positional

/-- The upper bound is raised, and the price with it. -/
theorem fare_accessed :
    fare.atPath "case-when-0-right-1" = .ok (years 65) ∧ fare.atPath "case-then-0" = .ok (years 10) ∧
      Address.steps "case-when-0-right-1" = .ok [.condition 0, .rightItem 1] ∧
      Address.steps "case-then-0" = .ok [.result 0] ∧ Separate [.condition 0, .rightItem 1] [.result 0] ∧
      ∃ raised, fare.putAtPath "case-when-0-right-1" (years 67) = .ok raised ∧
        raised.atPath "case-when-0-right-1" = .ok (years 67) ∧ raised.atPath "case-then-0" = .ok (years 10) ∧
        ∃ between after, fare.putAtPath "case-then-0" (years 12) = .ok between ∧
          between.putAtPath "case-when-0-right-1" (years 67) = .ok after ∧
          raised.putAtPath "case-then-0" (years 12) = .ok after := by
  have bound : fare.atPath "case-when-0-right-1" = .ok (years 65) := rfl
  have price : fare.atPath "case-then-0" = .ok (years 10) := rfl
  have toBound : Address.steps "case-when-0-right-1" = .ok [.condition 0, .rightItem 1] := rfl
  have toPrice : Address.steps "case-then-0" = .ok [.result 0] := rfl
  have separate : Separate [.condition 0, .rightItem 1] [.result 0] := separate_iff.mpr (.fork nofun)
  obtain ⟨-, puts⟩ := (access_lawful fare "case-when-0-right-1").1 _ bound
  obtain ⟨raised, put, read, -, beside⟩ := puts (years 67)
  obtain ⟨stays, commute⟩ := beside _ _ _ toBound toPrice separate
  exact ⟨bound, price, toBound, toPrice, separate, raised, put, read, stays.trans price, commute _ price (years 12)⟩

end Node

end RuleEditor
