import RuleEditor.Number.Binary64

/-!
# Plain data

`Value` is the data that rules carry and that the rule service exchanges: null, truth values, whole
and floating-point numbers, texts, lists and records. Whole numbers are unbounded and stay apart
from floating-point ones. A record keeps the order in which its members were first set.
-/
namespace RuleEditor

inductive Value where
  | null
  | bool (b : Bool)
  | int (n : Int)
  | float (x : Binary64)
  | text (s : String)
  | list (items : List Value)
  | record (members : List (String × Value))
deriving Inhabited, Repr

/-- The members of a record, by name, in the order in which they were first set. -/
abbrev Members (α : Type) := List (String × α)

namespace Members

variable {α : Type}

def get? (key : String) : Members α → Option α
  | [] => none
  | (k, v) :: ms => if k = key then some v else get? key ms

def contains (key : String) (ms : Members α) : Bool := (get? key ms).isSome

/-- Sets a member: a new name goes to the end, a known one keeps its place. -/
def set (key : String) (value : α) : Members α → Members α
  | [] => [(key, value)]
  | (k, v) :: ms => if k = key then (k, value) :: ms else (k, v) :: set key value ms

def erase (key : String) (ms : Members α) : Members α := ms.filter fun m => m.1 ≠ key

def names (ms : Members α) : List String := ms.map (·.1)

/-- The members set one after the other. -/
def ofList (ms : List (String × α)) : Members α := ms.foldl (fun acc m => set m.1 m.2 acc) []

theorem get?_set_self (key : String) (value : α) (ms : Members α) :
    get? key (set key value ms) = some value := by
  induction ms with
  | nil => simp [set, get?]
  | cons m ms ih =>
    obtain ⟨k, v⟩ := m
    by_cases h : k = key
    · simp [set, get?, h]
    · simp [set, get?, h, ih]

theorem get?_set_of_ne {key other : String} (h : other ≠ key) (value : α) (ms : Members α) :
    get? other (set key value ms) = get? other ms := by
  induction ms with
  | nil => simp [set, get?, h.symm]
  | cons m ms ih =>
    obtain ⟨k, v⟩ := m
    by_cases hk : k = key
    · subst hk
      simp [set, get?, h.symm]
    · simp [set, get?, hk, ih]

end Members

namespace Value

def isNull : Value → Bool
  | .null => true
  | _ => false

/-- A value counts as missing when it is null, false, a zero, or empty. -/
def isMissing : Value → Bool
  | .null => true
  | .bool b => !b
  | .int n => n == 0
  | .float x => x.isZero
  | .text s => s == ""
  | .list items => items.isEmpty
  | .record members => members.isEmpty

def isPresent (v : Value) : Bool := !v.isMissing

/-- The value, or `other` in place of a missing one. -/
def orElse (v other : Value) : Value := if v.isMissing then other else v

/-- The name of the sort of a value, as messages show it. -/
def sortName : Value → String
  | .null => "NoneType"
  | .bool _ => "bool"
  | .int _ => "int"
  | .float _ => "float"
  | .text _ => "str"
  | .list _ => "list"
  | .record _ => "dict"

/-- Lists and records cannot be looked up in a table or a set. -/
def isKey : Value → Bool
  | .list _ | .record _ => false
  | _ => true

/-- The number that a number or a truth value stands for: an exact integer or a float. -/
def number? : Value → Option (Int ⊕ Binary64)
  | .bool b => some (.inl (if b then 1 else 0))
  | .int n => some (.inl n)
  | .float x => some (.inr x)
  | _ => none

def sameNumber : Int ⊕ Binary64 → Int ⊕ Binary64 → Bool
  | .inl a, .inl b => a == b
  | .inl a, .inr y => y.toInt? == some a
  | .inr x, .inl b => x.toInt? == some b
  | .inr x, .inr y => x.same y

def sameAsNumber (a : Int ⊕ Binary64) (w : Value) : Bool :=
  match w.number? with
  | some b => sameNumber a b
  | none => false

mutual

/-- Equality of data: numbers and truth values are compared as numbers, and the order of the members
of a record does not count. -/
def same : Value → Value → Bool
  | .null, .null => true
  | .text s, .text t => s == t
  | .list xs, .list ys => sameItems xs ys
  | .record ms, .record ns => ms.length == ns.length && sameMembers ms ns
  | .bool a, w => sameAsNumber (.inl (if a then 1 else 0)) w
  | .int a, w => sameAsNumber (.inl a) w
  | .float x, w => sameAsNumber (.inr x) w
  | _, _ => false

def sameItems : List Value → List Value → Bool
  | [], [] => true
  | x :: xs, y :: ys => same x y && sameItems xs ys
  | _, _ => false

def sameMembers : List (String × Value) → List (String × Value) → Bool
  | [], _ => true
  | (k, v) :: ms, ns =>
    match Members.get? k ns with
    | some w => same v w && sameMembers ms ns
    | none => false

end

def ofOption : Option String → Value
  | some s => .text s
  | none => .null

end Value

end RuleEditor
