import RuleEditor.Service.Exchange

/-!
# Options of arguments

The lists that the user chooses the values of arguments from. A list is fetched once and kept; one that
cannot be had is empty for now, and is asked for again the next time.
-/
namespace RuleEditor

namespace Choosable

open Schema

/-- An entry without a label is labelled by the text of its value. -/
def read : Reader Choosable := fun v => do
  let ms ← members v
  let value ← required ["value"] anything ms
  let label ← option ["label"] text ms
  return ⟨value, label.getD value.display⟩

end Choosable

namespace Client

/-- The list in a response; none if it has another form. -/
def options? (body : List UInt8) : Option (List Choosable) :=
  match Json.readBytes body with
  | none => none
  | some v => (entries Choosable.read v).toOption

/-- The reply to the request for a list; none if it cannot be taken. -/
def optionsReply? (service : Service) (name : String) : Exchange (Option Reply) :=
  tryCatch (some <$> send service "GET" s!"/rules/ui/config/argument-options/{name}" [] none) fun
    | .badValue _ => return none
    | fault => throw fault

/-- Asks the service for a list. -/
def fetchOptions (service : Service) (name : String) : Exchange (List Choosable) := do
  let unavailable : Event := ⟨.warning, "Option list unavailable", [("options_ref", .text name)]⟩
  let malformed : Event := ⟨.warning, "Option list malformed", [("options_ref", .text name)]⟩
  match ← optionsReply? service name with
  | none =>
    note malformed
    return []
  | some (.broken _) =>
    note unavailable
    return []
  | some (.response status body) =>
    if !isSuccess status then
      note unavailable
      return []
    match options? body with
    | none =>
      note malformed
      return []
    | some options =>
      modify fun c => { c with fetched := c.fetched.set name options }
      note ⟨.debug, "Option list loaded", [("options_ref", .text name), ("count", .int options.length)]⟩
      return options

def options (service : Service) (name : String) : Exchange (List Choosable) := do
  match (← get).fetched.get? name with
  | some options => return options
  | none => fetchOptions service name

/-- Forgets a list that was fetched, or all of them. -/
def forgetOptions (name : Option String) : Exchange Unit :=
  modify fun c =>
    { c with fetched := match name with | some name => c.fetched.erase name | none => [] }

end Client

end RuleEditor
