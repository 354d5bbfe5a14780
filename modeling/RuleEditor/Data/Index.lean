/-!
# Signed positions in lists

Positions are given by integers; a negative one counts from the end. Reading, replacing and erasing
need a position that exists, while insertion and cutting take any integer and stop at the ends.
-/
namespace RuleEditor.Index

variable {α : Type}

/-- The place that a signed position names in a list of `size` items. -/
def place? (size : Nat) (i : Int) : Option Nat :=
  let j := if i < 0 then i + size else i
  if 0 ≤ j ∧ j < size then some j.toNat else none

def item? (xs : List α) (i : Int) : Option α := (place? xs.length i).bind (xs[·]?)

def replace? (xs : List α) (i : Int) (x : α) : Option (List α) :=
  (place? xs.length i).map fun j => xs.set j x

def erase? (xs : List α) (i : Int) : Option (List α) := (place? xs.length i).map xs.eraseIdx

/-- The place at which an insertion at a signed position happens. -/
def gap (size : Nat) (i : Int) : Nat :=
  let j := if i < 0 then i + size else i
  min j.toNat size

def insert (xs : List α) (i : Int) (x : α) : List α := xs.insertIdx (gap xs.length i) x

/-- The items before a signed position. -/
def before (xs : List α) (i : Int) : List α := xs.take (gap xs.length i)

theorem place?_lt {size j : Nat} {i : Int} (h : place? size i = some j) : j < size := by
  simp only [place?] at h
  split at h
  all_goals
    split at h
    · cases h
      omega
    · cases h

theorem place?_ofNat (size j : Nat) : place? size j = if j < size then some j else none := by
  simp only [place?]
  have h : ¬ ((j : Int) < 0) := by omega
  simp only [h, if_false]
  by_cases hj : j < size
  · have : 0 ≤ (j : Int) ∧ (j : Int) < size := by omega
    simp [hj]
  · have : ¬ (0 ≤ (j : Int) ∧ (j : Int) < size) := by omega
    simp [hj]

end RuleEditor.Index
