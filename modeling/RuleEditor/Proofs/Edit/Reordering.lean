import RuleEditor.Edit.Group
import Mathlib.Data.List.InsertIdx

/-!
# Moving a condition

A condition of a group is moved by taking it out and putting it in again. The place where it is put in counts among
the others, so it lands just there, and all others keep their order. The opposite move takes it back.
-/
namespace RuleEditor

namespace Index

variable {α : Type} {xs ys zs : List α} {a b : Nat}

/-- The item at the place `a` of a list stands at `b` in another one, and the other items are the same in the same
order. -/
structure Relocates (a b : Nat) (xs ys : List α) : Prop where
  source : a < xs.length
  target : b < ys.length
  item : ys[b]? = xs[a]?
  others : ys.eraseIdx b = xs.eraseIdx a

theorem Relocates.symm (h : Relocates a b xs ys) : Relocates b a ys xs :=
  ⟨h.target, h.source, h.item.symm, h.others.symm⟩

/-- The list with the item taken out, and then put in at the other place. -/
theorem Relocates.eq_insertIdx (h : Relocates a b xs ys) {x : α} (hi : xs[a]? = some x) :
    ys = (xs.eraseIdx a).insertIdx b x := by
  obtain ⟨target, rfl⟩ := List.getElem?_eq_some_iff.mp (h.item.trans hi)
  rw [← h.others, List.insertIdx_eraseIdx_getElem]

theorem Relocates.unique (h : Relocates a b xs ys) (h' : Relocates a b xs zs) : ys = zs := by
  have item : xs[a]? = some (xs.get ⟨a, h.source⟩) := List.getElem?_eq_getElem h.source
  rw [h.eq_insertIdx item, h'.eq_insertIdx item]

/-- An item that is taken out comes back to the front, in another order. -/
theorem perm_eraseIdx (h : a < xs.length) : xs.Perm (xs[a] :: xs.eraseIdx a) := by
  have room : a ≤ (xs.eraseIdx a).length := by
    rw [List.length_eraseIdx_of_lt h]
    exact Nat.le_sub_one_of_lt h
  have there := List.perm_insertIdx xs[a] (xs.eraseIdx a) room
  rwa [List.insertIdx_eraseIdx_getElem] at there

theorem Relocates.perm (h : Relocates a b xs ys) : ys.Perm xs := by
  have item := h.item
  rw [List.getElem?_eq_getElem h.target, List.getElem?_eq_getElem h.source] at item
  have front := perm_eraseIdx h.target
  rw [Option.some.inj item, h.others] at front
  exact front.trans (perm_eraseIdx h.source).symm

/-- An item that is put in where there is room for it stands there. -/
theorem relocates_insertIdx (hs : a < xs.length) (hr : b < xs.length) :
    Relocates a b xs ((xs.eraseIdx a).insertIdx b xs[a]) := by
  have length : (xs.eraseIdx a).length = xs.length - 1 := List.length_eraseIdx_of_lt hs
  constructor
  case source => exact hs
  case target =>
    rw [List.length_insertIdx_of_le_length (by omega), length]
    omega
  case item =>
    rw [List.getElem?_insertIdx_self, if_pos (by omega), List.getElem?_eq_getElem hs]
  case others => exact List.eraseIdx_insertIdx_self _

theorem place?_eq_some {size : Nat} {i : Int} : place? size i = some a ↔
    (a : Int) = (if i < 0 then i + size else i) ∧ -(size : Int) ≤ i ∧ i < size := by
  simp only [place?]
  grind

theorem place?_eq_none {size : Nat} {i : Int} : place? size i = none ↔ ¬ (-(size : Int) ≤ i ∧ i < size) := by
  simp only [place?]
  grind

/-- Among the others there is one place fewer, so one that the list has is a gap between them. -/
theorem gap_of_lt {size : Nat} {i : Int} (hn : 0 ≤ i) (hw : i < size) : (gap (size - 1) i : Int) = i := by
  simp only [gap]
  omega

theorem gap_lt {size : Nat} (i : Int) (h : 0 < size) : gap (size - 1) i < size := by
  simp only [gap]
  omega

end Index

namespace Group

variable {g : Group} {source destination : Int} {a : Nat}

theorem reorder_eq_ok (g : Group) {source : Int} (destination : Int) {a : Nat}
    (h : Index.place? g.children.length source = some a) :
    ∃ child, g.children[a]? = some child ∧
      g.reorder source destination =
        .ok { g with
          children := (g.children.eraseIdx a).insertIdx (Index.gap (g.children.length - 1) destination) child } := by
  have there : a < g.children.length := Index.place?_lt h
  have length : (g.children.eraseIdx a).length = g.children.length - 1 := List.length_eraseIdx_of_lt there
  have found : g.children[a]? = some g.children[a] := List.getElem?_eq_getElem there
  refine ⟨g.children[a], found, ?_⟩
  simp only [Group.reorder, Index.item?, Index.erase?, h, Option.bind_some, Option.map_some, found, Index.insert,
    length]

/-- A child that is moved stands where it was to go, and the group is the same but for that. -/
theorem reorder_relocates (g : Group) (destination : Int) (h : Index.place? g.children.length source = some a) :
    ∃ children, g.reorder source destination = .ok { g with children } ∧
      Index.Relocates a (Index.gap (g.children.length - 1) destination) g.children children := by
  obtain ⟨child, found, reordered⟩ := g.reorder_eq_ok destination h
  obtain ⟨within, rfl⟩ := List.getElem?_eq_some_iff.mp found
  exact ⟨_, reordered, Index.relocates_insertIdx within (Index.gap_lt _ (by omega))⟩

theorem reorder_of_no_place (h : Index.place? g.children.length source = none) :
    g.reorder source destination = .error .noItem := by
  simp only [Group.reorder, Index.item?, Index.erase?, h, Option.bind_none, Option.map_none]

/-- The opposite move takes the child back: it relocates the child to where it was, and there is one way only to do
so. -/
theorem reorder_reversed {b : Nat} {children : List Node} (hs : Index.place? g.children.length source = some a)
    (hn : 0 ≤ source) (ht : Index.place? children.length destination = some b)
    (hm : Index.Relocates a b g.children children) :
    Group.reorder destination source { g with children } = .ok g := by
  have size : children.length = g.children.length := hm.perm.length_eq
  obtain ⟨back, reordered, returned⟩ := reorder_relocates ⟨g.name, children, g.conjunction, g.negated⟩ source ht
  obtain ⟨at?, -, within⟩ := Index.place?_eq_some.mp hs
  rw [if_neg (by omega)] at at?
  have home : Index.gap (children.length - 1) source = a := by
    have := Index.gap_of_lt hn within
    rw [size]
    omega
  rw [home] at returned
  rw [reordered, returned.unique hm.symm]

/-- A move takes one child to another place and keeps the order of all others, and all else of the group. From and to
places that are counted from the front, the child lands at the place asked for, and the opposite move is the way back.
From a place that the group does not have, nothing is moved. -/
theorem reorder_moves_one (g : Group) (source destination : Int) :
    (-(g.children.length : Int) ≤ source → source < g.children.length →
      ∃ (a b : Nat) (g' : Group), (a : Int) = (if source < 0 then source + g.children.length else source) ∧
        g.reorder source destination = .ok g' ∧ g'.children.Perm g.children ∧
        g'.children[b]? = g.children[a]? ∧ g'.children.eraseIdx b = g.children.eraseIdx a ∧
        g'.name = g.name ∧ g'.conjunction = g.conjunction ∧ g'.negated = g.negated ∧
        (0 ≤ source → 0 ≤ destination → destination < g.children.length →
          (b : Int) = destination ∧ g'.reorder destination source = .ok g)) ∧
    (¬ (-(g.children.length : Int) ≤ source ∧ source < g.children.length) →
      g.reorder source destination = .error .noItem) := by
  constructor
  · intro low high
    obtain ⟨a, place⟩ : ∃ a, Index.place? g.children.length source = some a := by
      by_contra none
      exact Index.place?_eq_none.mp (Option.eq_none_iff_forall_ne_some.mpr fun a there => none ⟨a, there⟩) ⟨low, high⟩
    obtain ⟨children, reordered, moved⟩ := reorder_relocates g destination place
    refine ⟨a, _, _, (Index.place?_eq_some.mp place).1, reordered, moved.perm, moved.item, moved.others,
      rfl, rfl, rfl, ?_⟩
    intro fromFront nonneg within
    have lands := Index.gap_of_lt nonneg within
    refine ⟨lands, reorder_reversed place fromFront (Index.place?_eq_some.mpr ?_) moved⟩
    rw [if_neg (by omega), lands, moved.perm.length_eq]
    exact ⟨rfl, by omega, within⟩
  · intro outside
    exact reorder_of_no_place (Index.place?_eq_none.mpr outside)

/-- A comparison of the age with a number. -/
def ageOf (name : String) (age : Int) : Node :=
  .comparison (.text name) (.field (.text "number") (.text "AGE")) (.text "equal")
    (.literal (.text "number") (.int age))

def stages : Group := ⟨.text "Group 1", [ageOf "Child" 0, ageOf "Adult" 18, ageOf "Senior" 65], .any, true⟩

/-- The first of three conditions is moved to the end and back, the last one is counted from the end, and there is no
fourth one. -/
theorem stages_moved :
    (∃ g', stages.reorder 0 2 = .ok g' ∧ g'.children.eraseIdx 2 = [ageOf "Adult" 18, ageOf "Senior" 65] ∧
      g'.reorder 2 0 = .ok stages) ∧
    (∃ g', stages.reorder (-1) 7 = .ok g' ∧ g'.children.Perm stages.children) ∧
    stages.reorder 3 0 = .error .noItem := by
  refine ⟨?_, ?_, ?_⟩
  · obtain ⟨a, b, g', place, reordered, -, -, others, -, -, -, back⟩ :=
      (reorder_moves_one stages 0 2).1 (by decide) (by decide)
    obtain ⟨lands, undone⟩ := back (by decide) (by decide) (by decide)
    obtain rfl : a = 0 := by simpa using place
    obtain rfl : b = 2 := by omega
    exact ⟨g', reordered, others, undone⟩
  · obtain ⟨-, -, g', -, reordered, perm, -⟩ := (reorder_moves_one stages (-1) 7).1 (by decide) (by decide)
    exact ⟨g', reordered, perm⟩
  · exact (reorder_moves_one stages 3 0).2 (by decide)

end Group

end RuleEditor
