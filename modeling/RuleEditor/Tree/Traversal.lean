import RuleEditor.Tree.Address
import RuleEditor.Tree.Node

/-!
# All nodes of a tree

`Node.positions` lists every node of a tree with the steps that lead to it, a parent before its
children and the children in order. An empty right side is no position; an empty slot anywhere else
is one.
-/
namespace RuleEditor.Node

/-- Positions below a node, as seen from where `way` starts that leads to the node. -/
def under (way : List Step) (positions : List (List Step × Node)) : List (List Step × Node) :=
  positions.map fun p => (way ++ p.1, p.2)

mutual

/-- The node that `way` leads to and all nodes below it. At the whole right side of a comparison,
several nodes are positions of their own, and an empty slot is none. -/
def positionsFrom (way : List Step) : Node → List (List Step × Node)
  | .absent => if way = [.right] then [] else [(way, .absent)]
  | .several items => if way = [.right] then listPositions .rightItem 0 items else [(way, .several items)]
  | .literal type value => [(way, .literal type value)]
  | .field type path => [(way, .field type path)]
  | .reference target => [(way, .reference target)]
  | .ruleCheck name target => [(way, .ruleCheck name target)]
  | .call type name arguments =>
    (way, .call type name arguments) :: under way (argumentPositions 0 arguments)
  | .chain type operands operators =>
    (way, .chain type operands operators) :: under way (listPositions .operand 0 operands)
  | .comparison name left operator right =>
    (way, .comparison name left operator right) ::
      under way (positionsFrom [.left] left ++ positionsFrom [.right] right)
  | .group name children conjunction negated =>
    (way, .group name children conjunction negated) :: under way (listPositions .child 0 children)
  | .choice branches otherwise label =>
    (way, .choice branches otherwise label) ::
      under way (branchPositions 0 branches ++ positionsFrom [.otherwise] otherwise)

def listPositions (step : Nat → Step) (i : Nat) : List Node → List (List Step × Node)
  | [] => []
  | node :: nodes => positionsFrom [step i] node ++ listPositions step (i + 1) nodes

def branchPositions (i : Nat) : List (Branch Node) → List (List Step × Node)
  | [] => []
  | ⟨condition, result, _⟩ :: branches =>
    positionsFrom [.condition i] condition ++ positionsFrom [.result i] result ++
      branchPositions (i + 1) branches

def argumentPositions (i : Nat) : List (Argument Node) → List (List Step × Node)
  | [] => []
  | ⟨_, value⟩ :: arguments => positionsFrom [.argument i] value ++ argumentPositions (i + 1) arguments

end

/-- Every node of a tree with the steps that lead to it. -/
def positions (tree : Node) : List (List Step × Node) := positionsFrom [] tree

/-- The word that paths into a definition start with. -/
def root : Node → String
  | .choice .. => "case"
  | _ => "root"

/-- All nodes with their paths below a base path. -/
def entriesFrom (base : String) (tree : Node) : List (String × Node) :=
  tree.positions.map fun p => (Address.render base p.1, p.2)

/-- All nodes with their paths. -/
def entries (tree : Node) : List (String × Node) := entriesFrom tree.root tree

end RuleEditor.Node
