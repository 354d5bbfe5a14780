import RuleEditor.Edit.Choice
import RuleEditor.Tree.Form

/-!
# Writing definitions for storage

The stored form of a definition holds what makes up the rule and nothing of the editor's state: what a
check of a reference found is left out, and a result is stored under the label that is shown for it.
-/
namespace RuleEditor.Stored

/-- The members that identify the rule of a reference. -/
def targetMembers (target : Reference) : Members Value :=
  [("id", target.id), ("uuid", target.uuid), ("version", target.version)] ++
    if target.ruleType.isNull then [] else [("ruleType", target.ruleType)]

mutual

def writeExpression : Node → Except Fault Value
  | .literal type value =>
    .ok (.record [("type", .text "value"), ("returnType", type), ("value", value)])
  | .field type path => .ok (.record [("type", .text "field"), ("returnType", type), ("field", path)])
  | .call type name arguments => do
    let arguments ← writeArguments arguments
    return .record [("type", .text "function"), ("returnType", type),
      ("function", .record [("name", name), ("args", .list arguments)])]
  | .reference target =>
    .ok (.record ([("type", .text "ruleRef"), ("returnType", target.type)] ++ targetMembers target))
  | .chain type operands operators => do
    let operands ← writeExpressions operands
    return .record [("type", .text "expressionGroup"), ("returnType", type),
      ("expressions", .list operands), ("operators", .list operators)]
  | .absent => .error (.notStorableExpression Node.absent.sortName)
  | .several items => .error (.notStorableExpression (Node.several items).sortName)
  | .comparison name left operator right =>
    .error (.notStorableExpression (Node.comparison name left operator right).sortName)
  | .group name children conjunction negated =>
    .error (.notStorableExpression (Node.group name children conjunction negated).sortName)
  | .ruleCheck name target => .error (.notStorableExpression (Node.ruleCheck name target).sortName)
  | .choice branches otherwise label =>
    .error (.notStorableExpression (Node.choice branches otherwise label).sortName)

def writeExpressions : List Node → Except Fault (List Value)
  | [] => .ok []
  | node :: nodes => do
    let v ← writeExpression node
    let vs ← writeExpressions nodes
    return v :: vs

def writeArguments : List (Argument Node) → Except Fault (List Value)
  | [] => .ok []
  | ⟨name, value⟩ :: arguments => do
    let v ← writeExpression value
    let vs ← writeArguments arguments
    return .record [("name", name), ("value", v)] :: vs

end

def writeRight : Node → Except Fault Value
  | .absent => .ok .null
  | .several items => do return .list (← writeExpressions items)
  | node => writeExpression node

mutual

def writeCondition : Node → Except Fault Value
  | .comparison name left operator right => do
    let right ← writeRight right
    let left ← writeExpression left
    return .record [("type", .text "condition"), ("returnType", .text "boolean"), ("name", name),
      ("left", left), ("operator", operator), ("right", right)]
  | .group name children conjunction negated => do
    let children ← writeConditions children
    return .record [("type", .text "conditionGroup"), ("returnType", .text "boolean"), ("name", name),
      ("conjunction", .text conjunction.text), ("not", .bool negated), ("conditions", .list children)]
  | .ruleCheck name target =>
    .ok (.record [("type", .text "condition"), ("returnType", .text "boolean"), ("name", name),
      ("ruleRef", .record (targetMembers target ++ [("returnType", target.type)]))])
  | .absent => .error (.notStorableCondition Node.absent.sortName)
  | .several items => .error (.notStorableCondition (Node.several items).sortName)
  | .literal type value => .error (.notStorableCondition (Node.literal type value).sortName)
  | .field type path => .error (.notStorableCondition (Node.field type path).sortName)
  | .call type name arguments => .error (.notStorableCondition (Node.call type name arguments).sortName)
  | .reference target => .error (.notStorableCondition (Node.reference target).sortName)
  | .chain type operands operators =>
    .error (.notStorableCondition (Node.chain type operands operators).sortName)
  | .choice branches otherwise label =>
    .error (.notStorableCondition (Node.choice branches otherwise label).sortName)

def writeConditions : List Node → Except Fault (List Value)
  | [] => .ok []
  | node :: nodes => do
    let v ← writeCondition node
    let vs ← writeConditions nodes
    return v :: vs

end

def writeBranch (i : Nat) (branch : Branch Node) : Except Fault Value := do
  let condition ← writeCondition branch.condition
  let result ← writeExpression branch.result
  let name ← branch.label.shown (Choice.resultPath i) branch.result
  return .record [("when", condition), ("then", result), ("resultName", name)]

def writeBranches (i : Nat) : List (Branch Node) → Except Fault (List Value)
  | [] => .ok []
  | branch :: branches => do
    let v ← writeBranch i branch
    let vs ← writeBranches (i + 1) branches
    return v :: vs

def writeChoice (c : Choice) : Except Fault Value := do
  let branches ← writeBranches 0 c.branches
  let otherwise ← writeExpression c.otherwise
  let name ← c.otherwiseLabel
  return .record [("whenClauses", .list branches), ("elseClause", otherwise), ("elseResultName", name)]

/-- A definition of any form. -/
def writeDefinition (node : Node) : Except Fault Value :=
  match node with
  | .choice branches otherwise label => writeChoice ⟨branches, otherwise, label⟩
  | .comparison .. | .group .. | .ruleCheck .. => writeCondition node
  | _ => writeExpression node

end RuleEditor.Stored
