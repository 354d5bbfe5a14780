import RuleEditor.Session.Reference

/-!
# A rule service in memory

A service that keeps its rules in memory and never changes a stored version. Single rules, the search
and the store as a whole may be made unavailable, so that an editor can be tried out under failures.
-/
namespace RuleEditor

structure MemoryService where
  /-- What the rules that can be referred to are read with. -/
  catalogue : Catalogue
  /-- Stored documents that can be referred to; of several that fit a request the last one counts. -/
  rules : List Value
  /-- The versions of the rules that were written, by uuid, the oldest first. -/
  written : Members (List Value)
  unavailable : List String
  writable : Bool

namespace MemoryService

/-- The name under which the search is made unavailable. -/
def searchName : String := "*search"

def fits (uuid version rule : Value) : Bool :=
  (Stored.part "uuId" (Stored.membersOf rule)).same uuid &&
    (version.isNull || (Stored.part "version" (Stored.membersOf rule)).isNull ||
      (Stored.part "version" (Stored.membersOf rule)).same version)

def load (m : MemoryService) (uuid version : Value) : Except Fault Document :=
  if uuid.display ∈ m.unavailable then .error (.unavailable s!"Rule {uuid} unavailable" uuid version)
  else
    match m.rules.reverse.find? (fits uuid version) with
    | some rule => Document.read (some m.catalogue) rule
    | none => .error (.unavailable s!"Rule {uuid} not found" uuid version)

def summary (rule : Value) : Summary :=
  let ms := Stored.membersOf rule
  ⟨Stored.part "id" (Stored.membersOf (Stored.part "metadata" ms)), Stored.part "uuId" ms,
    Stored.part "version" ms, Stored.part "returnType" ms, Stored.part "ruleType" ms, .null⟩

/-- The text is part of another one. -/
def isPart (part : List Char) : List Char → Bool
  | [] => part.isEmpty
  | c :: cs => part.isPrefixOf (c :: cs) || isPart part cs

/-- The rule has one of the types, if any are given, and an identifier that contains the query. -/
def isFound (ruleTypes : List String) (query : Value) (s : Summary) : Bool :=
  (ruleTypes.isEmpty || ruleTypes.any fun t => s.ruleType.same (.text t)) &&
    match query, s.id with
    | .text part, .text id => isPart part.toList id.toList
    | query, _ => query.isMissing

/-- The rules of some types whose identifiers contain a text. -/
def search (m : MemoryService) (ruleTypes : List String) (query : Value) : Except Fault (List Summary) :=
  if searchName ∈ m.unavailable then .error (.unavailable "Search unavailable" .null .null)
  else .ok ((m.rules.map summary).filter (isFound ruleTypes query))

def versions (m : MemoryService) (uuid : String) : List Value := (m.written.get? uuid).getD []

/-- A version that was written; versions count from one on. -/
def version (m : MemoryService) (uuid version : Value) : Except Fault Value :=
  let found :=
    match version with
    | .int (.ofNat (n + 1)) => (m.versions uuid.display)[n]?
    | _ => none
  match found with
  | some v => .ok v
  | none => .error (.unavailable s!"No version {version} of {uuid}" uuid version)

/-- Appends a version, which gets the number that follows. -/
def append (m : MemoryService) (uuid v : Value) : Saved × MemoryService :=
  let versions := m.versions uuid.display
  let n : Int := versions.length + 1
  let ms := Stored.membersOf v
  let stored := Value.record ((ms.set "uuId" uuid).set "version" (.int n))
  (⟨uuid, .int n, Stored.part "id" (Stored.membersOf (Stored.part "metadata" ms))⟩,
    { m with written := m.written.set uuid.display (versions ++ [stored]) })

/-- The uuid of the next new rule. -/
def nextUuid (m : MemoryService) : String := s!"s-{m.written.length + 1}"

/-- The uuid that a write goes to. -/
def target (m : MemoryService) : Write → Value
  | .create _ => .text m.nextUuid
  | .update uuid _ | .restore uuid _ => uuid

/-- The data of the version that a write adds. -/
def content (m : MemoryService) : Write → Except Fault Value
  | .create d | .update _ d => d.write
  | .restore uuid version => m.version uuid (.int version)

def write (m : MemoryService) (w : Write) : Except Fault Saved × MemoryService :=
  if m.writable then
    match m.content w with
    | .ok v =>
      let (saved, m) := m.append (m.target w) v
      (.ok saved, m)
    | .error fault => (.error fault, m)
  else (.error (.unavailable "Store unavailable" (m.target w) .null), m)

/-- How an operation of a session goes on with the answer to what it asks for; `none` if it has come to
its end. -/
def serve (m : MemoryService) : Progress → Option (Editing Progress) × MemoryService
  | .finished _ => (none, m)
  | .loading uuid version next => (some (Session.loaded next (m.load uuid version)), m)
  | .searching ruleTypes query => (some (Session.found (m.search ruleTypes query)), m)
  | .writing w next =>
    let (answer, m) := m.write w
    (some (Session.written next answer), m)
  | .reading uuid version saved =>
    (some (Session.reread saved ((m.version uuid version).bind (Document.read none))), m)

end MemoryService

end RuleEditor
