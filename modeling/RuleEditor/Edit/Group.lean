import RuleEditor.Data.Index
import RuleEditor.Edit.Fresh
import RuleEditor.Label
import RuleEditor.Tree.Parts

/-!
# Edits of groups

Adding, removing, moving and replacing the conditions of a group. Removing the last one yields no
group at all: then the parent has to remove it in turn. A group of a single condition stays a group.
-/
namespace RuleEditor

namespace Group

def childNames (g : Group) : Except Fault (List Value) := g.children.mapM Node.name

/-- The group with a new comparison at the end. -/
def addChild (c : Catalogue) (path : String) (g : Group) : Labelling Group := do
  let label ← Label.next path .comparison (← g.childNames)
  let child ← Fresh.condition c (.text label)
  return { g with children := g.children ++ [child] }

/-- The path of the next child of the group at `path`. -/
def nextChildPath (path : String) (g : Group) : String :=
  Address.join [path, "condition", toString g.children.length]

/-- The group with a new group of two comparisons at the end. -/
def addChildGroup (c : Catalogue) (path : String) (g : Group) : Labelling Group := do
  let label ← Label.next path .group (← g.childNames)
  let labels ← Label.forChildren (g.nextChildPath path) .comparison 2
  let child ← Fresh.group c (.text label) (labels.map .text)
  return { g with children := g.children ++ [child] }

def updateChild (index : Int) (child : Node) (g : Group) : Except Fault Group :=
  match Index.replace? g.children index child with
  | some children => .ok { g with children }
  | none => .error .noItem

/-- The group without a child; `none` if it was the last one. -/
def removeChild (index : Int) (g : Group) : Except Fault (Option Group) :=
  match Index.erase? g.children index with
  | some [] => .ok none
  | some children => .ok (some { g with children })
  | none => .error .noItem

/-- The group with a child moved. The second position counts in the group without that child. -/
def reorder (source destination : Int) (g : Group) : Except Fault Group :=
  match Index.item? g.children source, Index.erase? g.children source with
  | some child, some rest => .ok { g with children := Index.insert rest destination child }
  | _, _ => .error .noItem

def toggleNegation (g : Group) : Group := { g with negated := !g.negated }

end Group

namespace Node

/-- The group under another conjunction. -/
def withConjunction (conjunction : Value) (node : Node) : Except Fault Node := do
  let conjunction ← Conjunction.ofValue conjunction
  match node with
  | .group name children _ negated => return .group name children conjunction negated
  | _ => throw .unsuitable

end Node

end RuleEditor
