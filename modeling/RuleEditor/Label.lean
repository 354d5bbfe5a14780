import RuleEditor.Tree.Address
import RuleEditor.Tree.Node

/-!
# Labels

Every condition and every result slot has a label. The positional label of a place depends on its
path alone; the label of a new child is numbered past all labels of the same word among its siblings
and past every number that was given out under the same parent before.
-/
namespace RuleEditor

namespace Kind

/-- The word in the labels of a kind. -/
def word : Kind → String
  | .group => "Group"
  | _ => "Condition"

end Kind

namespace Label

/-- The label that follows from a path. The number is written whatever its length: it is one past the index, so that it
has a digit too many for the greatest index that can be read, and for no other one. -/
def positional (path : String) (kind : Kind) : Except Fault String :=
  match Address.role? path with
  | some .otherwise => .ok "Default"
  | some .result => (Address.position path).map fun n => s!"Result {n}"
  | none => (Address.position path).map fun n => s!"{kind.word} {n}"

def isLetter (c : Char) : Bool := ('a' ≤ c && c ≤ 'z') || ('A' ≤ c && c ≤ 'Z')

/-- The word and the digits of a label of the form `word number`; a line break may follow it. -/
def numbered? (label : String) : Option (String × List Char) :=
  let cs := label.toList
  let word := cs.takeWhile isLetter
  if word.isEmpty then none
  else
    match cs.dropWhile isLetter with
    | ' ' :: digits =>
      let digits := if digits.getLast? = some '\n' then digits.dropLast else digits
      if digits.isEmpty || !digits.all Text.isDecimal then none else some (String.ofList word, digits)
    | _ => none

/-- The number that a sibling's label takes up under a word; zero if it takes up none. -/
def numberUnder (word : String) (label : Value) : Except Fault Nat :=
  if label.isMissing then .ok 0
  else
    match label with
    | .text s =>
      match numbered? s with
      | some (w, digits) =>
        if w ≠ word then .ok 0
        else if Text.maxDigits < digits.length then .error (.longNumber digits.length)
        else .ok ((Text.decimal? digits).getD 0)
      | none => .ok 0
    | _ => .error .unsuitable

/-- The highest number that the labels take up under a word. -/
def highest (word : String) : List Value → Except Fault Nat
  | [] => .ok 0
  | label :: labels => do
    let n ← numberUnder word label
    let m ← highest word labels
    return max n m

end Label

/-- The last number given out for each parent path and word. -/
structure Numbering where
  given : List ((String × String) × Nat)

namespace Numbering

def fresh : Numbering := ⟨[]⟩

def last (n : Numbering) (parent word : String) : Nat := (n.given.lookup (parent, word)).getD 0

def give (n : Numbering) (parent word : String) (number : Nat) : Numbering :=
  ⟨((parent, word), number) :: n.given⟩

theorem last_give (n : Numbering) (parent word : String) (number : Nat) :
    (n.give parent word number).last parent word = number := by
  simp [give, last]

end Numbering

/-- Edits that label new nodes. A number stays given out even if the edit fails later. -/
abbrev Labelling := ExceptT Fault (StateM Numbering)

namespace Label

/-- The digits of a number, unless there are too many to be written. -/
def numeral (n : Nat) : Except Fault String :=
  if Text.maxDigits < (Nat.toDigits 10 n).length then .error .unwritableNumber else .ok (toString n)

/-- The label of a new child. Its number counts as given out also where it cannot be written. -/
def next (parent : String) (kind : Kind) (siblings : List Value) : Labelling String := do
  let highest ← (highest kind.word siblings : Except Fault Nat)
  let number := max ((← get).last parent kind.word) highest + 1
  modify (·.give parent kind.word number)
  let numeral ← (numeral number : Except Fault String)
  return s!"{kind.word} {numeral}"

/-- The labels of some new children, whose siblings have the labels given so far. -/
def forChildrenAfter (parent : String) (kind : Kind) (siblings : List Value) : (count : Nat) → Labelling (List String)
  | 0 => return []
  | count + 1 => do
    let label ← next parent kind siblings
    return label :: (← forChildrenAfter parent kind (siblings ++ [.text label]) count)

/-- The labels of some new children of a parent that has none. -/
def forChildren (parent : String) (kind : Kind) (count : Nat) : Labelling (List String) :=
  forChildrenAfter parent kind [] count

/-- The label of a node whose kind or target has changed: the identifier of the rule that a reference
points at, else a label carried over, else the positional one. -/
def afterChange (path : String) (kind : Kind) (target carried : Value) : Except Fault Value :=
  if kind = .reference ∧ target.isPresent then .ok target
  else if carried.isPresent then .ok carried
  else (positional path kind).map .text

end Label

end RuleEditor
