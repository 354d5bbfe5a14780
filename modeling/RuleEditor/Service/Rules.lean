import RuleEditor.Service.Exchange

/-!
# Rules of the rule service

Searching, loading and storing rules. A search asks for one type of rules after the other, page by
page, and reports every rule once. A stored version never changes: an old one is restored by writing
it forward as a new one.
-/
namespace RuleEditor

open Schema

/-- A page of the answer to a search. -/
structure Page where
  content : List Summary
  totalPages : Int
  isLast : Bool

namespace Summary

def ofCount : Option Int → Value
  | some n => .int n
  | none => .null

def read : Reader Summary := fun v => do
  let ms ← members v
  return {
    id := .text (← required ["ruleId", "rule_id"] text ms)
    uuid := .text (← required ["uuid"] text ms)
    version := ofCount (← option ["latestVersion", "latest_version"] whole ms)
    type := .ofOption (← option ["returnType", "return_type"] text ms)
    ruleType := .ofOption (← option ["ruleType", "rule_type"] text ms)
    folder := .ofOption (← option ["folderPath", "folder_path"] text ms) }

/-- The summaries of rules that were not seen before, the first of each rule. -/
def distinct (seen : List Summary) : List Summary → List Summary
  | [] => []
  | s :: rest =>
    if (seen.map (·.uuid)).any (·.same s.uuid) then distinct seen rest else s :: distinct (s :: seen) rest

end Summary

namespace Page

def read : Reader Page := fun v => do
  let ms ← members v
  let content ← defaulted ["content"] [] (list Summary.read) ms
  let _ ← defaulted ["page"] 0 whole ms
  let _ ← defaulted ["size"] 20 whole ms
  let _ ← defaulted ["totalElements", "total_elements"] 0 whole ms
  let totalPages ← defaulted ["totalPages", "total_pages"] 0 whole ms
  let isLast ← defaulted ["last"] true truth ms
  return ⟨content, totalPages, isLast⟩

end Page

namespace Saved

def read : Reader Saved := fun v => do
  let ms ← members v
  return {
    uuid := .text (← required ["uuid"] text ms)
    version := .int (← required ["version"] whole ms)
    id := .ofOption (← option ["ruleId", "rule_id"] text ms) }

end Saved

namespace VersionEntry

/-- The names of the members of an entry that have a meaning of their own. -/
def known : List (List String) :=
  [["version"], ["ruleId", "rule_id"], ["modifiedOn", "modified_on"],
   ["restoredFromVersion", "restored_from_version"]]

/-- The members of an entry that no schema names. -/
def others (ms : Members Value) : Members Value :=
  let used := known.filterMap (present? · ms)
  ms.filter fun m => m.1 ∉ used

def read : Reader VersionEntry := fun v => do
  let ms ← members v
  let version ← required ["version"] whole ms
  let id ← option ["ruleId", "rule_id"] text ms
  let modified ← option ["modifiedOn", "modified_on"] text ms
  let source ← option ["restoredFromVersion", "restored_from_version"] whole ms
  let extra : Members Value :=
    [("modifiedOn", .ofOption modified), ("restoredFromVersion", Summary.ofCount source)]
  return ⟨version, .ofOption id, (others ms).foldl (fun ms m => ms.set m.1 m.2) extra⟩

/-- The entries, the newest first. -/
def newestFirst (entries : List VersionEntry) : List VersionEntry :=
  entries.mergeSort fun a b => b.version ≤ a.version

end VersionEntry

namespace Fault

/-- Faults that stored data can cause when it is read. -/
def isOfData : Fault → Bool
  | .configuration .. | .unavailable .. | .shape .. | .session _ | .unknownNode _ | .badValue _
  | .wrongSort _ | .missingPart => true
  | _ => false

end Fault

namespace Client

/-! ### Searching -/

def pageSize : Nat := 100

/-- No search asks for more pages of one type. -/
def maxPages : Nat := 50

/-- A parameter of a search, left out if it is missing. -/
def parameter (name : String) (value : Option String) : List (String × String) :=
  match Catalogue.given? value with
  | some s => [(name, s)]
  | none => []

/-- The parameters of the request for a page. -/
def pageQuery (ruleType query : Option String) (number : Nat) : List (String × String) :=
  [("size", toString pageSize)] ++ parameter "ruleType" ruleType ++ parameter "search" query ++
    [("page", toString number)]

def searchPage (service : Service) (ruleType query : Option String) (number : Nat) : Exchange Page := do
  let bytes ← request service "GET" "/rules" (pageQuery ruleType query number) none .null .null
  match Page.read (← json bytes .null .null) with
  | .ok page => return page
  | .error _ => throw .badSearchAnswer

/-- The rules on some pages at most, from one on, up to the last page. -/
def searchPages (service : Service) (ruleType query : Option String) :
    (pages : Nat) → (number : Nat) → Exchange (List Summary)
  | 0, _ => return []
  | pages + 1, number => do
    let page ← searchPage service ruleType query number
    if page.isLast ∨ page.totalPages ≤ number + 1 then return page.content
    return page.content ++ (← searchPages service ruleType query pages (number + 1))

/-- The rules of some types, one type after the other. -/
def searchTypes (service : Service) (query : Option String) : List (Option String) → Exchange (List Summary)
  | [] => return []
  | ruleType :: rest => do
    let rules ← searchPages service ruleType query maxPages 0
    return rules ++ (← searchTypes service query rest)

/-- The types that a search goes through; without any it asks for all rules at once. -/
def typesOf (ruleTypes : Option (List String)) : List (Option String) :=
  match ruleTypes with
  | none | some [] => [none]
  | some types => types.map some

def search (service : Service) (ruleTypes : Option (List String)) (query : Option String) :
    Exchange (List Summary) := do
  let rules ← searchTypes service query (typesOf ruleTypes)
  let rules := Summary.distinct [] rules
  note ⟨.debug, "Rule search completed",
    [("rule_types", match ruleTypes with | some types => .list (types.map .text) | none => .null),
     ("query", .ofOption query), ("results", .int rules.length)]⟩
  return rules

/-! ### Loading -/

def version (service : Service) (uuid : String) (version : Value) : Exchange Document := do
  let bytes ← request service "GET" s!"/rules/{uuid}/versions/{version}" [] none (.text uuid) version
  let data ← json bytes (.text uuid) version
  match Document.read (← get).catalogue data with
  | .ok d => return d
  | .error fault =>
    if fault.isOfData then
      note ⟨.error, "Stored rule could not be parsed", [("rule_uuid", .text uuid), ("version", version)]⟩
      throw (.malformedRule uuid version fault)
    throw fault

/-- A version of a rule, the latest one if none is given. -/
def load (service : Service) (uuid : String) (version : Value) : Exchange Document :=
  Client.version service uuid (if version.isNull then .text "latest" else version)

/-! ### Storing -/

def saved (bytes : List UInt8) : Exchange Saved := do
  match Saved.read (← json bytes .null .null) with
  | .ok saved => return saved
  | .error _ => throw .badSaveAnswer

def savedEvent (message : String) (s : Saved) : Event :=
  ⟨.info, message, [("rule_uuid", s.uuid), ("version", s.version), ("rule_id", s.id)]⟩

def create (service : Service) (d : Document) : Exchange Saved := do
  let body ← d.write
  let saved ← saved (← request service "POST" "/rules" [] (some body) .null .null)
  note (savedEvent "Rule created" saved)
  return saved

def update (service : Service) (uuid : String) (d : Document) : Exchange Saved := do
  let body ← d.write
  let saved ← saved (← request service "PUT" s!"/rules/{uuid}" [] (some body) (.text uuid) .null)
  note (savedEvent "Rule updated" saved)
  return saved

/-- The history of a rule, the newest version first. -/
def versions (service : Service) (uuid : String) : Exchange (List VersionEntry) := do
  let bytes ← request service "GET" s!"/rules/{uuid}/versions" [] none (.text uuid) .null
  match entries VersionEntry.read (← json bytes (.text uuid) .null) with
  | .ok versions => return VersionEntry.newestFirst versions
  | .error _ => throw (.badHistory uuid)

def restore (service : Service) (uuid : String) (version : Value) : Exchange Saved := do
  let url := s!"/rules/{uuid}/versions/{version}/restore"
  let _ ← request service "POST" url [] none (.text uuid) version
  match ← versions service uuid with
  | [] => throw (.emptyHistory uuid version)
  | newest :: _ =>
    note ⟨.info, "Rule version restored",
      [("rule_uuid", .text uuid), ("restored", version), ("version", .int newest.version)]⟩
    return ⟨.text uuid, .int newest.version, newest.id⟩

/-! ### The catalogue -/

/-- Fetches the catalogue and keeps it for the rules that are loaded afterwards. -/
def fetchCatalogue (service : Service) : Exchange Catalogue := do
  let bytes ← request service "GET" "/rules/ui/config" [] none .null .null
  match Catalogue.read (← json bytes .null .null) with
  | .ok catalogue =>
    modify fun c => { c with catalogue := some catalogue }
    return catalogue
  | .error _ =>
    note ⟨.error, "Invalid editor configuration", []⟩
    throw .badCatalogue

end Client

end RuleEditor
