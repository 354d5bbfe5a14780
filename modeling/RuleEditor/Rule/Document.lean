import RuleEditor.Stored.Reader
import RuleEditor.Stored.Writer

/-!
# Rules

A document is a rule as a whole: its form, the type it declares, its definition, and what identifies
it. The stored form of a document is what the rule service keeps.
-/
namespace RuleEditor

structure Document where
  form : Form
  type : Value
  definition : Node
  ruleType : Value
  uuid : Value
  version : Value
  id : Value
  description : Value

/-- A rule that a search has found. -/
structure Summary where
  id : Value
  uuid : Value
  version : Value
  type : Value
  ruleType : Value
  folder : Value
deriving Repr

/-- What identifies a version that has been written. -/
structure Saved where
  uuid : Value
  version : Value
  id : Value
deriving Repr

/-- An entry in the history of a rule. -/
structure VersionEntry where
  version : Int
  id : Value
  extra : Members Value
deriving Repr

namespace Document

/-- A document of a form and a type that are given as data. A document needs a known form, and a type
that is not missing. -/
def make (form type : Value) (definition : Node) (ruleType uuid version id description : Value) :
    Except Fault Document :=
  match Form.ofValue? form with
  | none => .error (.unknownForm form)
  | some form =>
    if type.isMissing then .error .noReturnType
    else .ok { form, type, definition, ruleType, uuid, version, id, description }

/-- The rule service knows the rule. -/
def isStored (d : Document) : Bool := d.uuid.isPresent

def write (d : Document) : Except Fault Value := do
  let definition ← Stored.writeDefinition d.definition
  return .record [("structure", .text d.form.text), ("returnType", d.type), ("ruleType", d.ruleType),
    ("uuId", d.uuid), ("version", d.version),
    ("metadata", .record [("id", d.id), ("description", d.description)]), ("definition", definition)]

/-- The members of the metadata, which may be missing altogether. -/
def metadata (v : Value) : Except Fault (Members Value) :=
  match v with
  | .record ms => .ok ms
  | _ => if v.isMissing then .ok [] else .error .missingPart

/-- A stored document. A catalogue supplies the operators that its chains may lack. -/
def read (catalogue : Option Catalogue) : Value → Except Fault Document
  | .record ms => do
    let joining := catalogue.map Catalogue.defaultJoining
    let definition ← Stored.readDefinition joining (Stored.part "structure" ms) (Stored.part "definition" ms)
    let about ← metadata (Stored.part "metadata" ms)
    make (Stored.part "structure" ms) (Stored.part "returnType" ms) definition
      (Stored.part "ruleType" ms)
      ((Stored.part "uuId" ms).orElse (Stored.part "uuid" ms))
      (Stored.part "version" ms)
      ((Stored.part "id" about).orElse (Stored.part "ruleId" ms))
      (Stored.part "description" about)
  | _ => .error .missingPart

end Document

end RuleEditor
