import RuleEditor.Journal
import RuleEditor.Rule.Document

/-!
# Review of referenced rules

Two findings are reported about a rule that another one refers to: that the type it declares is not
the one its definition evaluates to, and that it stands where another type is needed. Findings of the
first kind are kept per version of a rule, up to a number of versions.
-/
namespace RuleEditor

/-- What a check of a rule found. -/
structure Finding where
  mismatch : Bool
  declared : Value
  evaluated : Value
deriving Repr

namespace Finding

/-- The types are both known and differ. -/
def differ (a b : Value) : Bool := a.isPresent && b.isPresent && !a.same b

def ofTypes (declared evaluated : Value) : Finding := ⟨differ declared evaluated, declared, evaluated⟩

/-- Nothing is found without a rule. -/
def none : Finding := ⟨false, .null, .null⟩

/-- Compares the type that a rule declares with the one its definition evaluates to. -/
def ofRule (form : Option Form) (declared : Value) (definition : Node) : Except Fault Finding := do
  return ofTypes declared (← Typing.ofDefinition form definition)

def ofDocument (d : Document) : Except Fault Finding := ofRule (some d.form) d.type d.definition

def message (declared evaluated : Value) : String :=
  s!"Rule declares return type {declared} but actually evaluates to {evaluated}"

def contextMessage (required actual : Value) : String :=
  s!"Rule expected to return {required} but evaluates to {actual}"

/-- The event that reports a mismatch of a version of a rule. -/
def event (uuid version : Value) (f : Finding) : Event :=
  ⟨.warning, "Internal return type mismatch in referenced rule",
    [("rule_uuid", uuid), ("version", version), ("declared_type", f.declared), ("evaluated_type", f.evaluated)]⟩

end Finding

/-- The findings about the versions that were checked last, the latest at the end, and the number of
checks that were made. -/
structure Memo where
  capacity : Int
  entries : List ((Value × Value) × Finding)
  evaluations : Nat

namespace Memo

def empty (capacity : Int) : Memo := ⟨capacity, [], 0⟩

def isFor (uuid version : Value) (entry : (Value × Value) × Finding) : Bool :=
  entry.1.1.same uuid && entry.1.2.same version

/-- The finding that is kept for a version; a list or a record identifies none. -/
def lookup (uuid version : Value) (m : Memo) : Except Fault (Option Finding) :=
  if uuid.isKey && version.isKey then .ok ((m.entries.find? (isFor uuid version)).map (·.2))
  else .error .unsuitable

/-- The memo with a version moved to the end. -/
def touch (uuid version : Value) (m : Memo) : Memo :=
  { m with entries := m.entries.filter (!isFor uuid version ·) ++ m.entries.filter (isFor uuid version) }

/-- The memo with a finding at the end; if it holds too many then, the first one is dropped. -/
def record (uuid version : Value) (f : Finding) (m : Memo) : Memo :=
  let entries := m.entries ++ [((uuid, version), f)]
  { m with
    entries := if m.capacity < entries.length then entries.drop 1 else entries
    evaluations := m.evaluations + 1 }

/-- The finding about a version: the one that is kept, or the one that `check` makes now. A mismatch
found now is reported. -/
def review (uuid version : Value) (check : Except Fault Finding) (m : Memo) :
    Except Fault (Finding × Memo × List Event) := do
  match ← m.lookup uuid version with
  | some f => return (f, m.touch uuid version, [])
  | none =>
    let f ← check
    return (f, m.record uuid version f, if f.mismatch then [f.event uuid version] else [])

def clear (m : Memo) : Memo := { m with entries := [] }

end Memo

end RuleEditor
