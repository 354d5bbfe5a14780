import RuleEditor.Tree.Node

/-!
# The parts of a node

The compound nodes as records, so that an edit can name the parts it changes. A node of another sort
has no such parts.
-/
namespace RuleEditor

/-- A call of a function. -/
structure Call where
  type : Value
  name : Value
  arguments : List (Argument Node)

/-- An operand chain. -/
structure Chain where
  type : Value
  operands : List Node
  operators : List Value

/-- A comparison of a left operand with none, one or several right ones. -/
structure Comparison where
  name : Value
  left : Node
  operator : Value
  right : Node

/-- Conditions under a conjunction. -/
structure Group where
  name : Value
  children : List Node
  conjunction : Conjunction
  negated : Bool

/-- Branches with a final result. -/
structure Choice where
  branches : List (Branch Node)
  otherwise : Node
  label : ResultLabel

namespace Call

def node (c : Call) : Node := .call c.type c.name c.arguments

end Call

namespace Chain

def node (c : Chain) : Node := .chain c.type c.operands c.operators

end Chain

namespace Comparison

def node (c : Comparison) : Node := .comparison c.name c.left c.operator c.right

end Comparison

namespace Group

def node (g : Group) : Node := .group g.name g.children g.conjunction g.negated

end Group

namespace Choice

def node (c : Choice) : Node := .choice c.branches c.otherwise c.label

end Choice

namespace Node

def asCall : Node → Except Fault Call
  | .call t n args => .ok ⟨t, n, args⟩
  | _ => .error .missingPart

def asChain : Node → Except Fault Chain
  | .chain t xs ops => .ok ⟨t, xs, ops⟩
  | _ => .error .missingPart

def asComparison : Node → Except Fault Comparison
  | .comparison n l op r => .ok ⟨n, l, op, r⟩
  | _ => .error .missingPart

def asGroup : Node → Except Fault Group
  | .group n cs conj neg => .ok ⟨n, cs, conj, neg⟩
  | _ => .error .missingPart

def asChoice : Node → Except Fault Choice
  | .choice bs o l => .ok ⟨bs, o, l⟩
  | _ => .error .missingPart

end Node

end RuleEditor
