import RuleEditor.Edit.Chain
import RuleEditor.Edit.Comparison
import RuleEditor.Session.Basic

/-!
# Edits in a session

Every edit names its place by a path and puts the edited node back there. An edit that moves or
replaces nodes makes the requests for references among them stale.
-/
namespace RuleEditor.Session

/-! ### Conditions -/

def changeConditionKind (path : String) (kind : Value) : Editing Unit := do
  invalidate path
  let condition ← node path
  let kind ← Kind.ofValue kind
  let catalogue := (← get).catalogue
  put path (← labelled (condition.changeKind catalogue path kind))

def addCondition (path : String) : Editing Unit := do
  let group ← (← node path).asGroup
  let catalogue := (← get).catalogue
  put path (← labelled (group.addChild catalogue path)).node

def addConditionGroup (path : String) : Editing Unit := do
  let group ← (← node path).asGroup
  let catalogue := (← get).catalogue
  put path (← labelled (group.addChildGroup catalogue path)).node

/-- Puts a new comparison in the place of a condition that was removed and has to leave something. -/
def replaceRemoved (path : String) : Editing Unit := do
  invalidate path
  let label ← Label.positional path .comparison
  let condition ← Fresh.condition (← get).catalogue (.text label)
  put path condition

/-- Removes the condition of a branch together with the branch, unless it is the only one. -/
def removeBranchCondition (path : String) (i : Nat) : Editing Unit := do
  let c ← choice
  if 1 < c.branches.length then
    invalidate Choice.rootPath
    commit (← c.removeBranch i).node
  else replaceRemoved path

/-- Removes a condition. A group that loses its last condition is removed in turn, so the work goes up
a step at a time; `depth` is the number of steps there are. -/
def removeUp : (depth : Nat) → (path : String) → Editing Unit
  | 0, path => replaceRemoved path
  | depth + 1, path => do
    let steps ← Address.steps path
    match steps, steps.getLast? with
    | [.condition i], _ => removeBranchCondition path i
    | _, none => replaceRemoved path
    | _, some step =>
      let parent := (← Address.parent? path).getD ""
      match ← node parent with
      | .group name children conjunction negated =>
        invalidate parent
        modify fun s => { s with expansion := s.expansion.forget path }
        match step.index? with
        | none => throw .unsuitable
        | some i =>
          match ← Group.removeChild i ⟨name, children, conjunction, negated⟩ with
          | some group => put parent group.node
          | none =>
            note ⟨.debug, "Removing emptied condition group", [("path", .text parent)]⟩
            removeUp depth parent
      | _ => throw (.noGroupHolds path)

def removeCondition (path : String) : Editing Unit := do
  removeUp (← Address.steps path).length path

/-- Gives a condition the label that the user typed. -/
def renameCondition (path : String) (name : Value) : Editing Unit := do
  let condition ← (← node path).renamed name
  match ← Address.parent? path with
  | none => put path condition
  | some parent =>
    match ← node parent with
    | .group groupName children conjunction negated =>
      match (← Address.steps path).getLast?.bind Step.index? with
      | some i => put parent (← Group.updateChild i condition ⟨groupName, children, conjunction, negated⟩).node
      | none => throw .unsuitable
    | _ => put path condition

def setConjunction (path : String) (conjunction : Value) : Editing Unit := do
  put path (← (← node path).withConjunction conjunction)

def toggleNegation (path : String) : Editing Unit := do
  put path (← (← node path).asGroup).toggleNegation.node

def reorderConditions (path : String) (source destination : Int) : Editing Unit := do
  invalidate path
  put path (← (← (← node path).asGroup).reorder source destination).node

/-! ### Comparisons -/

def changeOperator (path : String) (operator : Value) : Editing Unit := do
  invalidate (path ++ "-right")
  let comparison ← (← node path).asComparison
  put path (← comparison.changeOperator (← get).catalogue operator).node

def changeLeft (path : String) (left : Node) : Editing Unit := do
  invalidate (path ++ "-left")
  let comparison ← (← node path).asComparison
  put path (← comparison.changeLeft left).node

def addRightOperand (path : String) : Editing Unit := do
  let comparison ← (← node path).asComparison
  put path (← comparison.addOperand (← get).catalogue).node

def removeRightOperand (path : String) (index : Int) : Editing Unit := do
  invalidate (path ++ "-right")
  let comparison ← (← node path).asComparison
  put path (← comparison.removeOperand (← get).catalogue index).node

/-! ### Expressions -/

/-- Replaces an expression. -/
def setExpression (path : String) (e : Node) : Editing Unit := do
  invalidate path
  putExpression path e

/-- The field that an expression turned into a field starts with. -/
def defaultField (s : Session) : String :=
  if s.catalogue.defaultField = "" then s.settings.defaultField else s.catalogue.defaultField

def changeSource (path source : String) : Editing Unit := do
  let e ← node path
  setExpression path (← e.fromSource source (.text (← get).defaultField))

/-- The operator that is given, or the one for a type. -/
def operatorOr (operator : Value) (type : Except Fault Value) : Editing Value := do
  if operator.isPresent then return operator
  return .text (← (← get).catalogue.defaultJoining (← type))

def wrapExpression (path : String) (operator : Value) : Editing Unit := do
  let e ← node path
  let operator ← operatorOr operator e.type
  setExpression path (← Chain.wrap (← get).numeric operator e).node

def insertOperand (path : String) (after : Int) (operator : Value) : Editing Unit := do
  let e ← node path
  let operator ← operatorOr operator (e.asChain.bind Chain.operandType)
  let c ← (← e.chainAt after).insertOperand (← get).numeric operator after
  invalidate path
  put path c.node

def appendOperand (path : String) (operator : Value) : Editing Unit := do
  let c ← (← node path).asChain
  insertOperand path ((c.operands.length : Int) - 1) operator

/-- Removes an operand; a chain that is left with one operand gives way to it. -/
def removeOperand (path : String) (index : Int) : Editing Unit := do
  modify fun s => { s with expansion := s.expansion.forget s!"{path}-operand-{index}" }
  let c ← (← node path).chainAt index
  setExpression path (← c.removeOperand (← get).numeric index)

def updateOperator (path : String) (index : Int) (operator : Value) : Editing Unit := do
  let c ← (← node path).asChain
  put path (← c.updateOperator (← get).numeric index operator).node

/-! ### Choices -/

def addBranch : Editing Unit := do
  let c ← choice
  let catalogue := (← get).catalogue
  commit (← labelled (c.addBranch catalogue)).node

def removeBranch (index : Int) : Editing Unit := do
  invalidate Choice.rootPath
  commit (← (← choice).removeBranch index).node

def changeBranchKind (index : Int) (kind : Value) : Editing Unit := do
  invalidate (Choice.conditionPath index)
  let c ← choice
  let kind ← Kind.ofValue kind
  let catalogue := (← get).catalogue
  commit (← labelled (c.changeConditionKind catalogue index kind)).node

def setResultLabel (index : Int) (text : Value) : Editing Unit := do
  commit (← (← choice).setResultLabel index text).node

def setOtherwiseLabel (text : Value) : Editing Unit := do
  commit ((← choice).setOtherwiseLabel text).node

end RuleEditor.Session
