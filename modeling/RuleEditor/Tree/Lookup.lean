import RuleEditor.Tree.Address
import RuleEditor.Tree.Node

/-!
# Reading and replacing nodes at an address

`Node.find` follows the steps of an address and `Node.replace` puts a node in the place that the
steps lead to. Only the containers on the way are rebuilt.
-/
namespace RuleEditor.Node

/-- An item of a list, or the fault of an index beyond its end. -/
def item {α : Type} (xs : List α) (i : Nat) : Except Fault α :=
  match xs[i]? with
  | some x => .ok x
  | none => .error .noItem

/-- The list with another item at an index. -/
def withItem {α : Type} (xs : List α) (i : Nat) (x : α) : Except Fault (List α) :=
  if i < xs.length then .ok (xs.set i x) else .error .noItem

/-- The child in the slot that a step leads to. -/
def child (step : Step) : Node → Except Fault Node
  | .choice branches otherwise label =>
    match step with
    | .condition i => (item branches i).map (·.condition)
    | .result i => (item branches i).map (·.result)
    | .otherwise => .ok otherwise
    | _ => .error (.noChild (Node.choice branches otherwise label).sortName step.word)
  | .group name children conjunction negated =>
    match step with
    | .child i => item children i
    | _ => .error (.noChild (Node.group name children conjunction negated).sortName step.word)
  | .comparison name left operator right =>
    match step with
    | .left => .ok left
    | .right => .ok right
    | .rightItem i =>
      match right with
      | .several items => item items i
      | _ => .error .unsuitable
    | _ => .error (.noChild (Node.comparison name left operator right).sortName step.word)
  | .chain type operands operators =>
    match step with
    | .operand i => item operands i
    | _ => .error (.noChild (Node.chain type operands operators).sortName step.word)
  | .call type name arguments =>
    match step with
    | .argument i => (item arguments i).map (·.value)
    | _ => .error (.noChild (Node.call type name arguments).sortName step.word)
  | node => .error (.noChild node.sortName step.word)

/-- The node with another child in the slot that a step leads to. -/
def withChild (step : Step) (new : Node) : Node → Except Fault Node
  | .choice branches otherwise label =>
    match step with
    | .condition i => do
      let branch ← item branches i
      return .choice (branches.set i { branch with condition := new }) otherwise label
    | .result i => do
      let branch ← item branches i
      return .choice (branches.set i { branch with result := new }) otherwise label
    | .otherwise => .ok (.choice branches new label)
    | _ => .error (.noChild (Node.choice branches otherwise label).sortName step.word)
  | .group name children conjunction negated =>
    match step with
    | .child i => do
      let children ← withItem children i new
      return .group name children conjunction negated
    | _ => .error (.noChild (Node.group name children conjunction negated).sortName step.word)
  | .comparison name left operator right =>
    match step with
    | .left => .ok (.comparison name new operator right)
    | .right => .ok (.comparison name left operator new)
    | .rightItem i =>
      match right with
      | .several items => do
        let items ← withItem items i new
        return .comparison name left operator (.several items)
      | _ => .error .unsuitable
    | _ => .error (.noChild (Node.comparison name left operator right).sortName step.word)
  | .chain type operands operators =>
    match step with
    | .operand i => do
      let operands ← withItem operands i new
      return .chain type operands operators
    | _ => .error (.noChild (Node.chain type operands operators).sortName step.word)
  | .call type name arguments =>
    match step with
    | .argument i => do
      let argument ← item arguments i
      return .call type name (arguments.set i { argument with value := new })
    | _ => .error (.noChild (Node.call type name arguments).sortName step.word)
  | node => .error (.noChild node.sortName step.word)

/-- The node that some steps lead to. -/
def find : List Step → Node → Except Fault Node
  | [], node => .ok node
  | step :: rest, node => do
    let child ← node.child step
    find rest child

/-- The tree with `new` in the place that some steps lead to. -/
def replace (new : Node) : List Step → Node → Except Fault Node
  | [], _ => .ok new
  | step :: rest, node => do
    let child ← node.child step
    let child ← replace new rest child
    withChild step child node

/-- The node at a path. -/
def atPath (path : String) (tree : Node) : Except Fault Node := do
  tree.find (← Address.steps path)

/-- The tree with `new` at a path. -/
def putAtPath (tree : Node) (path : String) (new : Node) : Except Fault Node := do
  Node.replace new (← Address.steps path) tree

end RuleEditor.Node
