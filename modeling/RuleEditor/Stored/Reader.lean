import RuleEditor.Catalogue.Basic
import RuleEditor.Edit.Choice
import RuleEditor.Tree.Form
import RuleEditor.Tree.Normalize

/-!
# Reading stored definitions

A stored definition is plain data in which every node names its sort under `type`. Storage may lack
types, names, operators and result names; reading infers or fills them in, so a definition that has
been read is complete. Chains come out in normal form.
-/
namespace RuleEditor.Stored

/-- A member of a stored node; null if the node lacks it. -/
def part (key : String) (ms : Members Value) : Value := (ms.get? key).getD .null

/-- The members of stored data; none if it is no record. -/
def membersOf : Value → Members Value
  | .record ms => ms
  | _ => []

/-- The type of a literal that is stored without one. -/
def literalType : Value → Value
  | .bool _ => .text "boolean"
  | .int _ | .float _ => .text "number"
  | _ => .text "text"

/-- The reference that the members of a stored node describe. -/
def reference (defaultType : String) (ms : Members Value) : Reference :=
  .unchecked ((part "returnType" ms).orElse (.text defaultType)) (part "id" ms) (part "uuid" ms)
    (part "version" ms) (part "ruleType" ms)

/-- The items of a stored list; a missing one is empty, and a text or a record counts as the list of
its characters or names. -/
def items (v : Value) : Except Fault (List Value) :=
  if v.isMissing then .ok []
  else
    match v with
    | .list items => .ok items
    | .text s => .ok (s.toList.map fun c => .text (String.singleton c))
    | .record ms => .ok (ms.map fun m => .text m.1)
    | _ => .error .unsuitable

/-- What is left of a list to be read that is no list: nothing if it is missing, and otherwise a fault,
which a text or a record causes by its first item and a number by itself. -/
def noItems {α : Type} (item : Fault) (v : Value) : Except Fault (List α) :=
  if v.isMissing then .ok []
  else
    match v with
    | .text _ | .record _ => .error item
    | _ => .error .unsuitable

mutual

/-- A stored expression as it is, before its chains are put into normal form. -/
def readRaw : Value → Except Fault Node
  | .record ms =>
    match part "type" ms with
    | .text "value" =>
      let value := part "value" ms
      .ok (.literal ((part "returnType" ms).orElse (literalType value)) value)
    | .text "field" => .ok (.field ((part "returnType" ms).orElse (.text "text")) (part "field" ms))
    | .text "function" => do
      let (name, arguments) ← readFunctionIn ms
      return .call ((part "returnType" ms).orElse (.text "text")) name arguments
    | .text "ruleRef" => .ok (.reference (reference "text" ms))
    | .text "expressionGroup" => do
      let operands ← readOperandsIn ms
      let operators ← items (part "operators" ms)
      let inferred ←
        if operands.isEmpty then pure (.text "number") else Typing.infer Typing.arithmetic operands operators
      return .chain ((part "returnType" ms).orElse inferred) operands operators
    | tag => .error (.unknownExpressionTag tag)
  | v => .error (.expectedExpression v.sortName)

/-- The operands among the members of a stored chain. -/
def readOperandsIn : List (String × Value) → Except Fault (List Node)
  | [] => .ok []
  | (key, v) :: ms => if key = "expressions" then readOperands v else readOperandsIn ms

def readOperands : Value → Except Fault (List Node)
  | .list vs => readRawItems vs
  | v => noItems (.expectedExpression "str") v

def readRawItems : List Value → Except Fault (List Node)
  | [] => .ok []
  | v :: vs => do
    let node ← readRaw v
    let nodes ← readRawItems vs
    return node :: nodes

/-- The name of the function and the arguments among the members of a stored call. -/
def readFunctionIn : List (String × Value) → Except Fault (Value × List (Argument Node))
  | [] => .ok (.null, [])
  | (key, v) :: ms => if key = "function" then readFunction v else readFunctionIn ms

def readFunction : Value → Except Fault (Value × List (Argument Node))
  | .record ms => do
    let arguments ← readArgumentsIn ms
    return (part "name" ms, arguments)
  | v => if v.isMissing then .ok (.null, []) else .error .missingPart

def readArgumentsIn : List (String × Value) → Except Fault (List (Argument Node))
  | [] => .ok []
  | (key, v) :: ms => if key = "args" then readArguments v else readArgumentsIn ms

def readArguments : Value → Except Fault (List (Argument Node))
  | .list vs => readArgumentItems vs
  | v => noItems .missingPart v

def readArgumentItems : List Value → Except Fault (List (Argument Node))
  | [] => .ok []
  | v :: vs => do
    let argument ← readArgument v
    let arguments ← readArgumentItems vs
    return argument :: arguments

def readArgument : Value → Except Fault (Argument Node)
  | .record ms => do
    let value ← readRawIn "value" ms
    return ⟨part "name" ms, value⟩
  | _ => .error .missingPart

/-- The expression under a key among some members. -/
def readRawIn (key : String) : List (String × Value) → Except Fault Node
  | [] => .error (.expectedExpression Value.null.sortName)
  | (k, v) :: ms => if k = key then readRaw v else readRawIn key ms

end

/-- A stored expression in normal form. -/
def readExpression (joining : Option Joining) (v : Value) : Except Fault Node := do
  (← readRaw v).normalized Typing.arithmetic joining

/-- The right side of a stored comparison: nothing, several expressions or one. -/
def readRight (joining : Option Joining) : Value → Except Fault Node
  | .null => .ok .absent
  | .list vs => do return .several (← vs.mapM (readExpression joining))
  | v => readExpression joining v

/-- A name, or the positional label of a place that has none. -/
def nameOr (path : String) (kind : Kind) (name : Value) : Except Fault Value :=
  if name.isPresent then .ok name else (Label.positional path kind).map .text

/-- The rule that a stored condition checks, if it is such a check. -/
def checked? (ms : Members Value) : Option Reference :=
  match part "type" ms, part "ruleRef" ms with
  | .text "condition", .record rs | .text "ruleRef", .record rs => some (reference "boolean" rs)
  | _, _ => none

mutual

/-- A stored condition. A nameless one is labelled by its path, a nameless check by its rule. -/
def readCondition (joining : Option Joining) (path : String) : Value → Except Fault Node
  | .record ms =>
    match checked? ms with
    | some target => do
      let name ←
        if target.id.isPresent then pure ((part "name" ms).orElse target.id)
        else nameOr path .reference (part "name" ms)
      return .ruleCheck name target
    | none =>
      match part "type" ms with
      | .text "condition" => do
        let name ← nameOr path .comparison (part "name" ms)
        let left ← readExpression joining (part "left" ms)
        let right ← readRight joining (part "right" ms)
        return .comparison name left (part "operator" ms) right
      | .text "conditionGroup" => do
        let children ← readConditionsIn joining path ms
        let name ← nameOr path .group (part "name" ms)
        let conjunction ← Conjunction.ofValue ((part "conjunction" ms).orElse (.text "AND"))
        return .group name children conjunction (part "not" ms).isPresent
      | tag => .error (.unknownConditionTag tag)
  | v => .error (.expectedCondition v.sortName)

/-- The conditions among the members of a stored group. -/
def readConditionsIn (joining : Option Joining) (path : String) :
    List (String × Value) → Except Fault (List Node)
  | [] => .ok []
  | (key, v) :: ms =>
    if key = "conditions" then readConditions joining path v else readConditionsIn joining path ms

def readConditions (joining : Option Joining) (path : String) : Value → Except Fault (List Node)
  | .list vs => readConditionItems joining path 0 vs
  | v => noItems (.expectedCondition "str") v

def readConditionItems (joining : Option Joining) (path : String) (i : Nat) :
    List Value → Except Fault (List Node)
  | [] => .ok []
  | v :: vs => do
    let node ← readCondition joining s!"{path}-condition-{i}" v
    let nodes ← readConditionItems joining path (i + 1) vs
    return node :: nodes

end

/-- The label of a result slot that is stored under a name; a name that the slot would have anyway is
no label of its own. -/
def label (path : String) (name : Value) (result : Node) : Except Fault ResultLabel := do
  let default ← Label.positional path .expression
  if name.isMissing ∨ name.same (.text default) then return .positional
  match result.selected? with
  | some target => if name.same target.id then return ⟨name, .target, false⟩ else return ⟨name, .typed, true⟩
  | none => return ⟨name, .typed, true⟩

def readBranch (joining : Option Joining) (i : Nat) : Value → Except Fault (Branch Node)
  | .record ms => do
    let result ← readExpression joining (part "then" ms)
    let label ← label (Choice.resultPath i) (part "resultName" ms) result
    let condition ← readCondition joining s!"case-when-{i}" (part "when" ms)
    return ⟨condition, result, label⟩
  | _ => .error .missingPart

def readBranches (joining : Option Joining) (i : Nat) : List Value → Except Fault (List (Branch Node))
  | [] => .ok []
  | v :: vs => do
    let branch ← readBranch joining i v
    let branches ← readBranches joining (i + 1) vs
    return branch :: branches

/-- A stored choice. It has to have a final result. -/
def readChoice (joining : Option Joining) : Value → Except Fault Node
  | .record ms =>
    if Members.contains "elseClause" ms then do
      let branches ←
        match part "whenClauses" ms with
        | .list vs => readBranches joining 0 vs
        | v => noItems .missingPart v
      let otherwise ← readExpression joining (part "elseClause" ms)
      let label ← label Choice.otherwisePath (part "elseResultName" ms) otherwise
      return .choice branches otherwise label
    else .error .noElseClause
  | _ => .error .noElseClause

/-- A stored definition of a form, which is itself given as data. -/
def readDefinition (joining : Option Joining) (form data : Value) : Except Fault Node :=
  match Form.ofValue? form with
  | some .condition => readCondition joining "root" data
  | some .choice => readChoice joining data
  | some .expression => readExpression joining data
  | none => .error (.unknownDefinitionForm form)

end RuleEditor.Stored
