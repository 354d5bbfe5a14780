import RuleEditor.Review
import RuleEditor.Tree.Lookup
import RuleEditor.Tree.Traversal

/-!
# Warnings

What an editor reports about the selected references of a rule: that the rule referred to is not of the
type it declares, which is advice, and that another type is needed in its place, which blocks.
-/
namespace RuleEditor

/-- What a warning is about. -/
inductive Concern where
  | declaration
  | place
deriving DecidableEq, Repr

namespace Concern

def text : Concern → String
  | .declaration => "internal_mismatch"
  | .place => "context_mismatch"

end Concern

structure Warning where
  concern : Concern
  path : String
  message : String
deriving Repr

namespace Warning

def isBlocking (w : Warning) : Bool := w.concern == .place

end Warning

namespace Document

/-- The type that a reference needs in the place that some steps lead to; null if any will do. -/
def requiredType (d : Document) (steps : List Step) (node : Node) : Except Fault Value :=
  match node, steps, steps.getLast? with
  | .ruleCheck .., _, _ => .ok (.text "boolean")
  | _, [], _ => .ok (if d.form = .expression then d.type else .null)
  | _, [.result _], _ | _, [.otherwise], _ => .ok d.type
  | _, _, some .right | _, _, some (.rightItem _) => do
    let comparison ← (← d.definition.find steps.dropLast).asComparison
    comparison.left.type
  | _, _, _ => .ok .null

/-- The warnings about one node. -/
def warningsAt (d : Document) (steps : List Step) (node : Node) : Except Fault (List Warning) := do
  match node.target? with
  | none => return []
  | some target =>
    if !target.isResolved then return []
    let path := Address.render d.definition.root steps
    let required ← d.requiredType steps node
    let declaration :=
      if target.mismatch = some true then
        [⟨.declaration, path, Finding.message target.declared target.evaluated⟩]
      else []
    let place :=
      if Finding.differ target.type required then
        [⟨.place, path, Finding.contextMessage required target.type⟩]
      else []
    return declaration ++ place

def warningsAmong (d : Document) : List (List Step × Node) → Except Fault (Members (List Warning))
  | [] => .ok []
  | (steps, node) :: rest => do
    let found ← d.warningsAt steps node
    let others ← d.warningsAmong rest
    return if found.isEmpty then others else (Address.render d.definition.root steps, found) :: others

/-- All warnings about a rule, by the paths of the nodes. -/
def warnings (d : Document) : Except Fault (Members (List Warning)) :=
  d.warningsAmong d.definition.positions

end Document

end RuleEditor
