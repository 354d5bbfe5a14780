import RuleEditor.Data.Text
import RuleEditor.Text.Blank
import RuleEditor.Text.Digit

/-!
# Faults

Why an operation of the editor fails. Each constructor is one class of causes, and the wording of
every cause stands in this module.
-/
namespace RuleEditor

inductive Fault where
  /-- The catalogue or the set-up lacks a value that an operation needs. -/
  | configuration (text : String) (key : Option String)
  /-- A rule cannot be searched for, loaded or stored. -/
  | unavailable (text : String) (uuid version : Value)
  /-- A tree has a shape that cannot stand. -/
  | shape (text : String) (path : Option String)
  /-- The session is in no state for the operation. -/
  | session (text : String)
  /-- Stored data or a tree holds a node of an unknown sort. -/
  | unknownNode (text : String)
  /-- A path does not lead anywhere. -/
  | noSuchPlace (text : String)
  /-- A value is outside the values that are allowed. -/
  | badValue (text : String)
  /-- A list has no item at an index. -/
  | outOfRange (text : Option String)
  /-- An operation does not apply to data of this sort. -/
  | wrongSort (text : Option String)
  /-- A node or a value lacks the part that is asked for. -/
  | missingPart
  /-- Data does not fit its schema. -/
  | rejected
  /-- A setting in the environment cannot be read at all. -/
  | unreadableSetting
  /-- A text is not a URL. -/
  | invalidUrl
deriving Repr

namespace Fault

/-- The message of a fault, where it has one of its own. -/
def text? : Fault → Option String
  | .configuration text _ | .unavailable text _ _ | .session text | .unknownNode text
  | .noSuchPlace text | .badValue text => some text
  | .shape text none => some text
  | .shape text (some path) => some (text ++ " at " ++ path)
  | .outOfRange text | .wrongSort text => text
  | .missingPart | .rejected | .unreadableSetting | .invalidUrl => none

/-- A message with the message of its cause. Where the cause has none of its own, the text ends
before the first colon that a blank follows. -/
def withCause (text : String) : Option String → String
  | some cause => text ++ ": " ++ cause
  | none => String.ofList (Text.beforeColon (text ++ ": ").toList)

/-! ### Configuration -/

def noConditionOperator (type : Value) : Fault :=
  .configuration s!"No default condition operator configured for type '{type}'"
    (some s!"types.{type}.defaultConditionOperator")

def noExpressionOperator (type : Value) : Fault :=
  .configuration s!"No default expression operator configured for type '{type}'"
    (some s!"types.{type}.defaultExpressionOperator")

def unknownFunction (name : Value) : Fault :=
  .configuration s!"Unknown function '{name}'" (some s!"functions.{name}")

def noRuleTypes : Fault := .configuration "No allowed rule types configured" (some "ruleTypes")

def noResolver : Fault := .configuration "No reference resolver configured" (some "resolver")

def noEditor (name : String) : Fault :=
  .configuration s!"No custom editor registered as '{name}'" (some name)

def noFunctionEditor (name : Value) : Fault :=
  .configuration s!"Function '{name}' has no custom editor" (some s!"functions.{name}.customEditor")

def badCatalogue : Fault :=
  .configuration (withCause "Invalid editor configuration" none) none

/-! ### Shapes -/

def noOperandsLeft : Fault := .shape "Expression group has no operands left" none

def noOperands : Fault := .shape "Expression group has no operands" none

def noOperators (operands : Nat) : Fault :=
  .shape s!"Expression group with {operands} operands has no operators" none

/-- The violations of a tree that is not well formed. -/
def violations (texts : List String) : Fault := .shape ("; ".intercalate texts) none

/-! ### Sessions -/

def noRuleOpen : Fault := .session "No rule is open in this session"

def notAChoice : Fault := .session "The open rule is not a case"

def noGroupHolds (path : String) : Fault := .session s!"No condition group holds '{path}'"

def noReferenceAt (path : String) : Fault := .session s!"No rule reference at '{path}'"

def notSaved : Fault := .session "Only a saved rule can be restored"

/-! ### Stored data -/

def expectedExpression (sort : String) : Fault :=
  .unknownNode s!"Expected an expression object, got {sort}"

def expectedCondition (sort : String) : Fault :=
  .unknownNode s!"Expected a condition object, got {sort}"

def unknownExpressionTag (tag : Value) : Fault := .unknownNode s!"Unknown expression type '{tag}'"

def unknownConditionTag (tag : Value) : Fault := .unknownNode s!"Unknown condition type '{tag}'"

def noElseClause : Fault := .unknownNode "Case definition requires an elseClause"

def unknownDefinitionForm (form : Value) : Fault := .unknownNode s!"Unknown rule structure '{form}'"

def notStorableExpression (sort : String) : Fault := .unknownNode s!"Not an expression node: {sort}"

def notStorableCondition (sort : String) : Fault := .unknownNode s!"Not a condition node: {sort}"

/-! ### Sorts of nodes -/

def notAnExpression (sort : String) : Fault := .wrongSort (some s!"Not an expression node: {sort}")

def notACondition (sort : String) : Fault := .wrongSort (some s!"Not a condition node: {sort}")

/-- A value cannot be used as it is, and nothing more is said about it. -/
def unsuitable : Fault := .wrongSort none

/-! ### Values -/

def unknownForm (form : Value) : Fault := .badValue s!"Unknown rule structure '{form}'"

def noReturnType : Fault := .badValue "Rule return type is required"

def unknownSource (source : String) : Fault := .badValue s!"Unknown expression source '{source}'"

def unknownConjunction (value : Value) : Fault :=
  .badValue (value.shown ++ " is not a valid Conjunction")

def unknownKind (value : Value) : Fault := .badValue (value.shown ++ " is not a valid NodeKind")

def noConditionOfKind (kind : String) : Fault := .badValue s!"Unknown condition kind 'NodeKind.{kind}'"

/-- A text is not a number; at most 200 characters of it are shown. -/
def unreadableNumber (s : String) : Fault :=
  .badValue ("invalid literal for int() with base 10: " ++ String.ofList ((Text.quoted s).toList.take 200))

def longNumber (digits : Nat) : Fault :=
  .badValue (s!"Exceeds the limit ({Text.maxDigits} digits) for integer string conversion: " ++
    s!"value has {digits} digits; use sys.set_int_max_str_digits() to increase the limit")

/-- A number has more digits than may be written. -/
def unwritableNumber : Fault :=
  .badValue (s!"Exceeds the limit ({Text.maxDigits} digits) for integer string conversion; " ++
    "use sys.set_int_max_str_digits() to increase the limit")

/-! ### Indexes -/

def noOperandAt (index : Int) : Fault := .outOfRange (some s!"Operand index {index} out of range")

def noItem : Fault := .outOfRange none

/-! ### Paths -/

def noRoot (path : String) : Fault :=
  .noSuchPlace s!"Path '{path}' does not start at a definition root"

def needsIndex (word path : String) : Fault := .noSuchPlace s!"Segment '{word}' in '{path}' needs an index"

def unknownSegment (word path : String) : Fault := .noSuchPlace s!"Unknown segment '{word}' in '{path}'"

def noChild (sort word : String) : Fault := .noSuchPlace s!"{sort} has no '{word}' child"

/-! ### The rule service -/

def untypedUrl (url : String) : Fault :=
  let shown := if url.toList.getLast? = some '#' then url.toList.dropLast else url.toList
  .badValue ("unknown url type: " ++ Text.quoted (String.ofList shown))

def loneBracket : Fault := .badValue "Invalid IPv6 URL"

def badStatus (status : Nat) (method url : String) (uuid version : Value) : Fault :=
  .unavailable s!"Rule service returned {status} for {method} {url}" uuid version

def unreachable (reason : String) (uuid version : Value) : Fault :=
  .unavailable s!"Rule service unreachable: {reason}" uuid version

def notJson (uuid version : Value) : Fault :=
  .unavailable "Rule service returned invalid JSON" uuid version

def badSearchAnswer : Fault :=
  .unavailable (withCause "Unexpected rule search response" none) .null .null

def badSaveAnswer : Fault := .unavailable (withCause "Unexpected save response" none) .null .null

def badHistory (uuid : String) : Fault :=
  .unavailable (withCause s!"Unexpected version history for {uuid}" none) (.text uuid) .null

def emptyHistory (uuid : String) (version : Value) : Fault :=
  .unavailable s!"Rule {uuid} has no versions after restore" (.text uuid) version

/-- The message of a fault as a cause of another; one about the sort of data is not carried over. -/
def asCause? : Fault → Option String
  | .wrongSort _ => none
  | fault => fault.text?

def malformedRule (uuid : String) (version : Value) (cause : Fault) : Fault :=
  .unavailable (withCause s!"Stored rule {uuid} v{version} is malformed" cause.asCause?) (.text uuid) version

end Fault

end RuleEditor
