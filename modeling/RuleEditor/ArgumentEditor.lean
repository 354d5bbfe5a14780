import RuleEditor.Catalogue.Basic
import RuleEditor.Journal
import RuleEditor.Tree.Parts
import RuleEditor.Tree.Record

/-!
# Argument editors

A function may name an editor of its own for its arguments. Such an editor sees a table from argument
names to plain values and nodes and gives one back; nothing else is known about it. Plain values in
its answer become literals again, typed by the declaration of the argument, else by the argument they
replace, else as text.
-/
namespace RuleEditor

/-- What an editor sees of an argument: the value of a literal, or a node. -/
inductive Entry where
  | plain (v : Value)
  | tree (n : Node)

namespace Entry

def ofNode : Node → Entry
  | .literal _ value => .plain value
  | node => .tree node

end Entry

/-- Arguments by name, in the order in which they were first set. -/
abbrev ArgumentTable := List (Value × Entry)

namespace ArgumentTable

def set (name : Value) (entry : Entry) : ArgumentTable → ArgumentTable
  | [] => [(name, entry)]
  | (n, e) :: rest => if n.same name then (n, entry) :: rest else (n, e) :: set name entry rest

def erase (name : Value) (table : ArgumentTable) : ArgumentTable := table.filter fun m => !m.1.same name

end ArgumentTable

abbrev ArgumentEditor := ArgumentTable → ArgumentTable

namespace Call

/-- The table of some arguments, added to one that exists; a list or a record cannot be a name. -/
def tableFrom (table : ArgumentTable) : List (Argument Node) → Except Fault ArgumentTable
  | [] => .ok table
  | ⟨name, value⟩ :: rest =>
    if name.isKey then tableFrom (table.set name (.ofNode value)) rest else .error .unsuitable

def argumentTable (c : Call) : Except Fault ArgumentTable := tableFrom [] c.arguments

/-- The parameters that the catalogue declares for the function of a call. -/
def parameters (catalogue : Option Catalogue) (c : Call) : Except Fault (List Parameter) :=
  match catalogue with
  | none => .ok []
  | some catalogue => do
    match ← Catalogue.entry? catalogue.functions c.name with
    | some f => return f.parameters
    | none => return []

/-- The declared type of an argument; of several declarations the last one counts. -/
def declaredType? (parameters : List Parameter) (name : Value) : Option String :=
  match name with
  | .text s => (parameters.reverse.find? (·.name = s)).bind fun p => Catalogue.given? p.type
  | _ => none

/-- The type of the argument of a name; of several the last one counts, and none or an empty one is a
text. -/
def currentType (c : Call) (name : Value) : Except Fault Value :=
  match c.arguments.reverse.find? (·.name.same name) with
  | some ⟨_, .absent⟩ | none => .ok (.text "text")
  | some ⟨_, value⟩ => value.type

/-- The literal that a plain value becomes. -/
def literal (parameters : List Parameter) (name value : Value) (c : Call) : Except Fault Node := do
  match declaredType? parameters name with
  | some type => return .literal (.text type) value
  | none => return .literal (← c.currentType name) value

/-- The argument that an entry becomes. A node that is no expression counts as plain data. -/
def argument (parameters : List Parameter) (c : Call) : Value × Entry → Except Fault (Argument Node)
  | (name, .plain v) => do return ⟨name, ← c.literal parameters name v⟩
  | (name, .tree n) => do
    if n.isExpression then return ⟨name, n⟩
    return ⟨name, ← c.literal parameters name n.record⟩

/-- The call with the arguments of an edited table. -/
def withTable (catalogue : Option Catalogue) (table : ArgumentTable) (c : Call) : Except Fault Call := do
  let parameters ← c.parameters catalogue
  return { c with arguments := ← table.mapM (c.argument parameters) }

/-- The call after an editor has worked on its arguments. -/
def edit (editor : ArgumentEditor) (catalogue : Option Catalogue) (c : Call) : Except Fault Call := do
  c.withTable catalogue (editor (← c.argumentTable))

end Call

/-- The editors that are registered, by name. -/
abbrev EditorRegistry := Members ArgumentEditor

namespace EditorRegistry

/-- Registers an editor; one of the same name is replaced, and that is reported. -/
def register (name : String) (editor : ArgumentEditor) (r : EditorRegistry) : EditorRegistry × List Event :=
  let registered : Event := ⟨.debug, "Custom editor registered", [("editor", .text name)]⟩
  let replaced : Event := ⟨.warning, "Replacing custom editor", [("editor", .text name)]⟩
  (Members.set name editor r, if Members.contains name r then [replaced, registered] else [registered])

/-- Removes an editor; the truth value says whether there was one. -/
def unregister (name : String) (r : EditorRegistry) : Bool × EditorRegistry × List Event :=
  if Members.contains name r then
    (true, Members.erase name r, [⟨.debug, "Custom editor unregistered", [("editor", .text name)]⟩])
  else (false, r, [⟨.warning, "Custom editor not found for unregister", [("editor", .text name)]⟩])

def editor (name : String) (r : EditorRegistry) : Except Fault ArgumentEditor :=
  match Members.get? name r with
  | some editor => .ok editor
  | none => .error (.noEditor name)

/-- Edits a call with a registered editor. -/
def edit (name : String) (catalogue : Option Catalogue) (call : Node) (r : EditorRegistry) :
    Except Fault Call := do
  let editor ← r.editor name
  (← call.asCall).edit editor catalogue

/-- Edits a call with the editor that the catalogue names for its function. -/
def editFunction (catalogue : Catalogue) (call : Node) (r : EditorRegistry) : Except Fault Call := do
  let name ← call.name
  let function ← catalogue.function name
  match Catalogue.given? function.editor with
  | some editor => r.edit editor (some catalogue) call
  | none => throw (.noFunctionEditor name)

end EditorRegistry

end RuleEditor
