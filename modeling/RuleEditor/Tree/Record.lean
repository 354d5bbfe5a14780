import RuleEditor.Tree.Node

/-!
# Nodes as plain data

The record of a node holds its sort and every attribute, also those that are never stored. An empty
slot is null and several nodes are a list. `Node.ofRecord` reads a record back; attributes that a record
lacks take their initial values, and data of another form is an empty slot.
-/
namespace RuleEditor

namespace Value

/-- A member of a record; null where there is none. -/
def part (key : String) : Value → Value
  | .record ms => (Members.get? key ms).getD .null
  | _ => .null

end Value

namespace Reference

def record (r : Reference) : Value :=
  .record
    [("node", .text "RuleRef"), ("return_type", r.type), ("rule_id", r.id), ("rule_uuid", r.uuid),
     ("version", r.version), ("rule_type", r.ruleType),
     ("internal_mismatch", match r.mismatch with | some b => .bool b | none => .null),
     ("internal_declared_type", r.declared), ("internal_evaluated_type", r.evaluated)]

def ofRecord (v : Value) : Reference where
  type := v.part "return_type"
  id := v.part "rule_id"
  uuid := v.part "rule_uuid"
  version := v.part "version"
  ruleType := v.part "rule_type"
  mismatch := match v.part "internal_mismatch" with | .null => none | w => some w.isPresent
  declared := v.part "internal_declared_type"
  evaluated := v.part "internal_evaluated_type"

end Reference

namespace ResultLabel

/-- The label in some members of a record. -/
def ofParts (text source retyped : Value) : ResultLabel :=
  let source :=
    match source with
    | .text s => (LabelSource.ofText? s).getD .position
    | _ => .position
  ⟨text, source, retyped.isPresent⟩

end ResultLabel

namespace Node

mutual

def record : Node → Value
  | .absent => .null
  | .several items => .list (records items)
  | .literal type value => .record [("node", .text "Literal"), ("return_type", type), ("value", value)]
  | .field type path => .record [("node", .text "FieldRef"), ("return_type", type), ("path", path)]
  | .call type name arguments =>
    .record [("node", .text "FunctionCall"), ("return_type", type), ("name", name),
      ("args", .list (argumentRecords arguments))]
  | .reference target => target.record
  | .chain type operands operators =>
    .record [("node", .text "ExpressionGroup"), ("return_type", type),
      ("operands", .list (records operands)), ("operators", .list operators)]
  | .comparison name left operator right =>
    .record [("node", .text "Predicate"), ("name", name), ("left", left.record), ("operator", operator),
      ("right", right.record)]
  | .group name children conjunction negated =>
    .record [("node", .text "PredicateGroup"), ("name", name), ("children", .list (records children)),
      ("conjunction", .text conjunction.text), ("negate", .bool negated)]
  | .ruleCheck name target =>
    .record [("node", .text "RuleRefCondition"), ("name", name), ("rule_ref", target.record)]
  | .choice branches otherwise label =>
    .record [("node", .text "Case"), ("when_clauses", .list (branchRecords branches)),
      ("else_clause", otherwise.record), ("else_label", label.text),
      ("else_label_source", .text label.source.text),
      ("else_user_modified_since_ref", .bool label.retyped)]

def records : List Node → List Value
  | [] => []
  | node :: nodes => node.record :: records nodes

def argumentRecords : List (Argument Node) → List Value
  | [] => []
  | ⟨name, value⟩ :: arguments =>
    .record [("node", .text "FunctionArg"), ("name", name), ("value", value.record)] ::
      argumentRecords arguments

def branchRecords : List (Branch Node) → List Value
  | [] => []
  | ⟨condition, result, label⟩ :: branches =>
    .record [("node", .text "WhenClause"), ("when", condition.record), ("then", result.record),
      ("result_label", label.text), ("label_source", .text label.source.text),
      ("user_modified_since_ref", .bool label.retyped)] :: branchRecords branches

end

/-- The conjunction in a record; `all` if there is none. -/
def conjunctionOf (v : Value) : Conjunction := if v.same (.text Conjunction.any.text) then .any else .all

mutual

def ofRecord : Value → Node
  | .list vs => .several (ofRecords vs)
  | .record ms =>
    let part (key : String) : Value := (Value.record ms).part key
    match part "node" with
    | .text "Literal" => .literal (part "return_type") (part "value")
    | .text "FieldRef" => .field (part "return_type") (part "path")
    | .text "FunctionCall" => .call (part "return_type") (part "name") (argumentsUnder "args" ms)
    | .text "RuleRef" => .reference (.ofRecord (.record ms))
    | .text "ExpressionGroup" =>
      .chain (part "return_type") (nodesUnder "operands" ms)
        (match part "operators" with | .list operators => operators | _ => [])
    | .text "Predicate" =>
      .comparison (part "name") (nodeUnder "left" ms) (part "operator") (nodeUnder "right" ms)
    | .text "PredicateGroup" =>
      .group (part "name") (nodesUnder "children" ms) (conjunctionOf (part "conjunction"))
        (part "negate").isPresent
    | .text "RuleRefCondition" => .ruleCheck (part "name") (.ofRecord (part "rule_ref"))
    | .text "Case" =>
      .choice (branchesUnder "when_clauses" ms) (nodeUnder "else_clause" ms)
        (.ofParts (part "else_label") (part "else_label_source") (part "else_user_modified_since_ref"))
    | _ => .absent
  | _ => .absent

def ofRecords : List Value → List Node
  | [] => []
  | v :: vs => ofRecord v :: ofRecords vs

/-- The node under a key. -/
def nodeUnder (key : String) : List (String × Value) → Node
  | [] => .absent
  | (k, v) :: ms => if k = key then ofRecord v else nodeUnder key ms

/-- The nodes of the list under a key. -/
def nodesUnder (key : String) : List (String × Value) → List Node
  | [] => []
  | (k, v) :: ms => if k = key then listed v else nodesUnder key ms

def listed : Value → List Node
  | .list vs => ofRecords vs
  | _ => []

def argumentsUnder (key : String) : List (String × Value) → List (Argument Node)
  | [] => []
  | (k, v) :: ms => if k = key then listedArguments v else argumentsUnder key ms

def listedArguments : Value → List (Argument Node)
  | .list vs => argumentsOf vs
  | _ => []

def argumentsOf : List Value → List (Argument Node)
  | [] => []
  | v :: vs => argumentOf v :: argumentsOf vs

def argumentOf : Value → Argument Node
  | .record ms => ⟨(Value.record ms).part "name", nodeUnder "value" ms⟩
  | _ => ⟨.null, .absent⟩

def branchesUnder (key : String) : List (String × Value) → List (Branch Node)
  | [] => []
  | (k, v) :: ms => if k = key then listedBranches v else branchesUnder key ms

def listedBranches : Value → List (Branch Node)
  | .list vs => branchesOf vs
  | _ => []

def branchesOf : List Value → List (Branch Node)
  | [] => []
  | v :: vs => branchOf v :: branchesOf vs

def branchOf : Value → Branch Node
  | .record ms =>
    let part (key : String) : Value := (Value.record ms).part key
    ⟨nodeUnder "when" ms, nodeUnder "then" ms,
      .ofParts (part "result_label") (part "label_source") (part "user_modified_since_ref")⟩
  | _ => ⟨.absent, .absent, .positional⟩

end

end Node

end RuleEditor
