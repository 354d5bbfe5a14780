import RuleEditor.Session.Reference

/-!
# Commands

What can be done to a session, as data: edits, which change the rule at once, and errands, which ask
the rule service. A run is a list of edits; one that fails keeps what it has changed, and the run goes
on with the next.
-/
namespace RuleEditor

/-- A change of the rule in a session, or of which rule that is. -/
inductive Edit where
  | newRule (form type ruleType id description : Value)
  | loadRule (d : Document)
  | changeConditionKind (path : String) (kind : Value)
  | addCondition (path : String)
  | addConditionGroup (path : String)
  | removeCondition (path : String)
  | renameCondition (path : String) (name : Value)
  | setConjunction (path : String) (conjunction : Value)
  | toggleNegation (path : String)
  | reorderConditions (path : String) (source destination : Int)
  | changeOperator (path : String) (operator : Value)
  | changeLeft (path : String) (left : Node)
  | addRightOperand (path : String)
  | removeRightOperand (path : String) (index : Int)
  | setExpression (path : String) (e : Node)
  | changeSource (path source : String)
  | wrapExpression (path : String) (operator : Value)
  | insertOperand (path : String) (after : Int) (operator : Value)
  | appendOperand (path : String) (operator : Value)
  | removeOperand (path : String) (index : Int)
  | updateOperator (path : String) (index : Int) (operator : Value)
  | addBranch
  | removeBranch (index : Int)
  | changeBranchKind (index : Int) (kind : Value)
  | setResultLabel (index : Int) (text : Value)
  | setOtherwiseLabel (text : Value)
  | clearReference (path : String)

namespace Edit

def perform : Edit → Editing Unit
  | .newRule form type ruleType id description => Session.newRule form type ruleType id description
  | .loadRule d => Session.loadRule d
  | .changeConditionKind path kind => Session.changeConditionKind path kind
  | .addCondition path => Session.addCondition path
  | .addConditionGroup path => Session.addConditionGroup path
  | .removeCondition path => Session.removeCondition path
  | .renameCondition path name => Session.renameCondition path name
  | .setConjunction path conjunction => Session.setConjunction path conjunction
  | .toggleNegation path => Session.toggleNegation path
  | .reorderConditions path source destination => Session.reorderConditions path source destination
  | .changeOperator path operator => Session.changeOperator path operator
  | .changeLeft path left => Session.changeLeft path left
  | .addRightOperand path => Session.addRightOperand path
  | .removeRightOperand path index => Session.removeRightOperand path index
  | .setExpression path e => Session.setExpression path e
  | .changeSource path source => Session.changeSource path source
  | .wrapExpression path operator => Session.wrapExpression path operator
  | .insertOperand path after operator => Session.insertOperand path after operator
  | .appendOperand path operator => Session.appendOperand path operator
  | .removeOperand path index => Session.removeOperand path index
  | .updateOperator path index operator => Session.updateOperator path index operator
  | .addBranch => Session.addBranch
  | .removeBranch index => Session.removeBranch index
  | .changeBranchKind index kind => Session.changeBranchKind index kind
  | .setResultLabel index text => Session.setResultLabel index text
  | .setOtherwiseLabel text => Session.setOtherwiseLabel text
  | .clearReference path => Session.clearReference path

end Edit

/-- An operation that asks the rule service. -/
inductive Errand where
  | openRule (uuid version : Value)
  | searchReferences (query : Value)
  | resolveReference (path : String) (summary : Summary)
  | refreshReferences
  | save
  | restore (version : Int)

namespace Errand

/-- Runs an errand up to its first question. -/
def start : Errand → Editing Progress
  | .openRule uuid version => Session.openRule uuid version
  | .searchReferences query => Session.searchReferences query
  | .resolveReference path summary => Session.resolveReference path summary
  | .refreshReferences => Session.refreshReferences
  | .save => Session.save
  | .restore version => Session.restore version

end Errand

namespace Session

/-- The session after an edit, also after one that fails. -/
def after (s : Session) (e : Edit) : Session := (e.perform.run s).2

/-- The session after some edits. -/
def afterAll (s : Session) (edits : List Edit) : Session := edits.foldl after s

end Session

end RuleEditor
