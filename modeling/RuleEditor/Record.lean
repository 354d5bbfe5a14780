import RuleEditor.ArgumentEditor
import RuleEditor.Rule.Warnings
import RuleEditor.Service.Exchange
import RuleEditor.Tree.Record

/-!
# Results as plain data

The records of what operations return, with all attributes, for a reader that is not part of the
program.
-/
namespace RuleEditor

namespace Value

def texts (ss : List String) : Value := .list (ss.map .text)

def ofInt? : Option Int → Value
  | some n => .int n
  | none => .null

end Value

def OperandCount.record (c : OperandCount) : Value :=
  .record [("node", .text "Cardinality"), ("fixed", .ofInt? c.fixed), ("default", .ofInt? c.usual),
    ("minimum", .ofInt? c.least), ("maximum", .ofInt? c.most)]

def Finding.record (f : Finding) : Value :=
  .record [("node", .text "ConsistencyResult"), ("has_internal_mismatch", .bool f.mismatch),
    ("declared_type", f.declared), ("evaluated_type", f.evaluated)]

def Document.record (d : Document) : Value :=
  .record [("node", .text "RuleDocument"), ("structure", .text d.form.text), ("return_type", d.type),
    ("definition", d.definition.record), ("rule_type", d.ruleType), ("uuid", d.uuid),
    ("version", d.version), ("rule_id", d.id), ("description", d.description)]

def Summary.record (s : Summary) : Value :=
  .record [("node", .text "RuleSummary"), ("rule_id", s.id), ("uuid", s.uuid), ("version", s.version),
    ("return_type", s.type), ("rule_type", s.ruleType), ("folder_path", s.folder)]

def Saved.record (s : Saved) : Value :=
  .record [("node", .text "SaveResult"), ("uuid", s.uuid), ("version", s.version), ("rule_id", s.id)]

def VersionEntry.record (e : VersionEntry) : Value :=
  .record [("node", .text "VersionInfo"), ("version", .int e.version), ("rule_id", e.id),
    ("extra", .record e.extra)]

def Choosable.record (o : Choosable) : Value :=
  .record [("node", .text "OptionItem"), ("value", o.value), ("label", .text o.label)]

def Warning.record (w : Warning) : Value :=
  .record [("node", .text "ValidationWarning"), ("code", .text w.concern.text), ("path", .text w.path),
    ("message", .text w.message), ("blocking", .bool w.isBlocking)]

def Entry.record : Entry → Value
  | .plain v => v
  | .tree n => n.record

def ArgumentTable.record (t : ArgumentTable) : Value := .list (t.map fun m => .list [m.1, m.2.record])

def ComparisonOperator.record (op : ComparisonOperator) : Value :=
  .record [("label", .ofOption op.label), ("cardinality", .ofInt? op.cardinality),
    ("default_cardinality", .ofInt? op.defaultCardinality), ("min_cardinality", .ofInt? op.minCardinality),
    ("max_cardinality", .ofInt? op.maxCardinality), ("separator", .ofOption op.separator)]

def ChainOperator.record (op : ChainOperator) : Value :=
  .record [("symbol", .text op.symbol), ("label", .ofOption op.label), ("numeric", .bool op.numeric)]

def TypeEntry.record (t : TypeEntry) : Value :=
  .record [("default_condition_operator", .ofOption t.comparison),
    ("default_expression_operator", .ofOption t.joining),
    ("valid_condition_operators", .texts t.validComparisons)]

def Parameter.record (p : Parameter) : Value :=
  .record [("name", .text p.name), ("type", .ofOption p.type), ("label", .ofOption p.label),
    ("widget", .ofOption p.widget), ("options_ref", .ofOption p.options)]

def FunctionEntry.record (f : FunctionEntry) : Value :=
  .record [("return_type", .text f.type), ("label", .ofOption f.label),
    ("args", .list (f.parameters.map Parameter.record)), ("custom_editor", .ofOption f.editor)]

/-- The members with their values as records. -/
def Members.record {α : Type} (value : α → Value) (ms : Members α) : Value :=
  .record (ms.map fun m => (m.1, value m.2))

def Catalogue.record (c : Catalogue) : Value :=
  .record [("condition_operators", Members.record ComparisonOperator.record c.comparisons),
    ("expression_operators", Members.record ChainOperator.record c.joinings),
    ("types", Members.record TypeEntry.record c.types),
    ("functions", Members.record FunctionEntry.record c.functions),
    ("rule_types", .texts c.ruleTypes), ("default_field", .text c.defaultField)]

def Settings.record (s : Settings) : Value :=
  .record [("app_name", .text s.appName), ("app_version", .text s.appVersion),
    ("environment", .text s.environment), ("api_base_url", .text s.baseUrl),
    ("http_timeout_seconds", .float s.timeout), ("default_field", .text s.defaultField),
    ("default_return_type", .text s.defaultType), ("numeric_operators", .texts s.numeric),
    ("allowed_rule_types", .texts s.ruleTypes), ("consistency_cache_size", .int s.memoSize),
    ("log_level", .text s.level), ("log_format", .text s.format)]

end RuleEditor
