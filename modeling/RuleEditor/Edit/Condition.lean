import RuleEditor.Edit.Group

/-!
# Changes of conditions

A condition is turned into a comparison, a group or a check of another rule. A group of one condition
gives way to that condition, a comparison becomes the first child of its group, and everything else
starts fresh.
-/
namespace RuleEditor.Node

/-- The condition at `path` as a condition of another kind. -/
def changeKind (c : Catalogue) (path : String) (kind : Kind) (condition : Node) : Labelling Node := do
  if (← condition.conditionKind) = kind then return condition
  match kind with
  | .reference => return Fresh.ruleCheck (← Label.afterChange path kind .null .null)
  | .comparison =>
    match condition with
    | .group _ [child] _ _ =>
      let label ← Label.afterChange path kind .null (← child.name)
      child.renamed label
    | _ => Fresh.condition c (← Label.afterChange path kind .null .null)
  | .group =>
    let label ← Label.afterChange path kind .null .null
    match condition with
    | .comparison name left operator right =>
      let sibling ← Label.next path .comparison [name]
      let added ← Fresh.condition c (.text sibling)
      return .group label [.comparison name left operator right, added] .all false
    | _ =>
      let labels ← Label.forChildren path .comparison 2
      Fresh.group c label (labels.map .text)
  | .expression => throw (.noConditionOfKind "EXPRESSION")

/-- The check of a selected rule at `path`; it is labelled by the rule's identifier. -/
def selectRule (path : String) (target : Reference) : Except Fault Node := do
  return .ruleCheck (← Label.afterChange path .reference target.id .null) target

/-- The check at `path` without its rule; the type of rules to choose from is kept. -/
def clearRule (path : String) (target : Reference) : Except Fault Node := do
  let label ← Label.positional path .reference
  return .ruleCheck (.text label) { Fresh.reference (.text "boolean") with ruleType := target.ruleType }

/-- The rule that a check names. -/
def checkedRule : Node → Except Fault Reference
  | .ruleCheck _ target => .ok target
  | _ => .error .missingPart

end RuleEditor.Node
