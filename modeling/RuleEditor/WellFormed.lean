import RuleEditor.Catalogue.Basic
import RuleEditor.Tree.Address

/-!
# Well-formed trees

`Violation.all` lists what is wrong with a definition: chains and groups that are too small, operators
that do not fit their operands, and nodes in places where none of their sort can be. With a catalogue
the number of right operands of each comparison is checked as well.
-/
namespace RuleEditor

inductive Violation where
  | noDefinition
  | unknownNode (path sort : String)
  | fewOperands (path : String) (operands : Nat)
  | operatorCount (path : String) (operators operands : Nat)
  | emptyGroup (path : String) (name : Value)
  | operandCount (path : String) (name operator : Value) (operands : Nat)
  | noBranches (path : String)
  | noOtherwise (path : String)
deriving Repr

namespace Violation

def text : Violation → String
  | noDefinition => "Rule has no definition"
  | unknownNode path sort => s!"Unknown node type at {path}: {sort}"
  | fewOperands path operands =>
    s!"Expression group at {path} has {operands} operand(s); at least 2 required"
  | operatorCount path operators operands =>
    s!"Expression group at {path} has {operators} operator(s) for {operands} operands"
  | emptyGroup path name => s!"Condition group '{name}' at {path} has no conditions"
  | operandCount path name operator operands =>
    s!"Condition '{name}' at {path}: operator '{operator}' does not accept {operands} operand(s)"
  | noBranches path => s!"Case at {path} has no when clauses"
  | noOtherwise path => s!"Case at {path} has no else clause"

/-- How many nodes a right side holds. -/
def rightCount : Node → Nat
  | .absent => 0
  | .several items => items.length
  | _ => 1

/-- The violation of a comparison whose right side does not fit its operator. -/
def ofCount (catalogue : Option Catalogue) (path : String) (name operator : Value) (right : Node) :
    Except Fault (List Violation) := do
  match catalogue with
  | none => return []
  | some c =>
    let count ← c.operandCount operator
    if count.allows (rightCount right) then return []
    return [operandCount path name operator (rightCount right)]

/-- A violation under a condition. -/
def when (p : Bool) (v : Violation) : List Violation := if p then [v] else []

mutual

/-- The violations at a path and below it. The whole right side of a comparison may be empty or hold
several nodes. -/
def ofNode (c : Option Catalogue) (path : String) (right : Bool) : Node → Except Fault (List Violation)
  | .absent => .ok (when (!right) (unknownNode path Node.absent.sortName))
  | .several items =>
    if right then ofItems c path 0 items else .ok [unknownNode path (Node.several items).sortName]
  | .literal .. | .field .. | .reference .. | .ruleCheck .. => .ok []
  | .call _ _ arguments => ofArguments c path 0 arguments
  | .chain _ operands operators => do
    let inner ← ofOperands c path 0 operands
    return when (operands.length < 2) (fewOperands path operands.length) ++
      when ((operators.length : Int) ≠ operands.length - 1)
        (operatorCount path operators.length operands.length) ++ inner
  | .comparison name left operator side => do
    let inLeft ← ofNode c (Address.render path [.left]) false left
    let inRight ← ofNode c (Address.render path [.right]) true side
    let count ← ofCount c path name operator side
    return inLeft ++ inRight ++ count
  | .group name children _ _ => do
    let inner ← ofChildren c path 0 children
    return when children.isEmpty (emptyGroup path name) ++ inner
  | .choice branches otherwise _ => do
    let inner ← ofBranches c path 0 branches
    let last ←
      match otherwise with
      | .absent => pure []
      | _ => ofNode c (Address.render path [.otherwise]) false otherwise
    return when branches.isEmpty (noBranches path) ++ when otherwise.isAbsent (noOtherwise path) ++
      inner ++ last

def ofItems (c : Option Catalogue) (path : String) (i : Nat) : List Node → Except Fault (List Violation)
  | [] => .ok []
  | node :: nodes => do
    let first ← ofNode c (Address.join [path, toString i]) false node
    let rest ← ofItems c path (i + 1) nodes
    return first ++ rest

def ofOperands (c : Option Catalogue) (path : String) (i : Nat) : List Node → Except Fault (List Violation)
  | [] => .ok []
  | node :: nodes => do
    let first ← ofNode c (Address.render path [.operand i]) false node
    let rest ← ofOperands c path (i + 1) nodes
    return first ++ rest

def ofChildren (c : Option Catalogue) (path : String) (i : Nat) : List Node → Except Fault (List Violation)
  | [] => .ok []
  | node :: nodes => do
    let first ← ofNode c (Address.render path [.child i]) false node
    let rest ← ofChildren c path (i + 1) nodes
    return first ++ rest

def ofArguments (c : Option Catalogue) (path : String) (i : Nat) :
    List (Argument Node) → Except Fault (List Violation)
  | [] => .ok []
  | ⟨_, value⟩ :: arguments => do
    let first ← ofNode c (Address.render path [.argument i]) false value
    let rest ← ofArguments c path (i + 1) arguments
    return first ++ rest

def ofBranches (c : Option Catalogue) (path : String) (i : Nat) :
    List (Branch Node) → Except Fault (List Violation)
  | [] => .ok []
  | ⟨condition, result, _⟩ :: branches => do
    let inCondition ← ofNode c (Address.render path [.condition i]) false condition
    let inResult ← ofNode c (Address.render path [.result i]) false result
    let rest ← ofBranches c path (i + 1) branches
    return inCondition ++ inResult ++ rest

end

/-- All violations of a definition. -/
def all (c : Option Catalogue) (definition : Node) : Except Fault (List Violation) :=
  match definition with
  | .absent => .ok [noDefinition]
  | .choice .. => ofNode c "case" false definition
  | _ => ofNode c "root" false definition

end Violation

namespace Node

/-- Passes if a definition has no violations. -/
def ensureWellFormed (definition : Node) (c : Option Catalogue) : Except Fault Unit := do
  match ← Violation.all c definition with
  | [] => return ()
  | vs => throw (.violations (vs.map (·.text)))

end Node

end RuleEditor
