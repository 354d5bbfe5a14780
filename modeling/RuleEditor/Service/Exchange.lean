import RuleEditor.Data.Json.Reader
import RuleEditor.Rule.Document
import RuleEditor.Service.Url
import RuleEditor.Settings

/-!
# Exchanges with the rule service

A client sends requests to the rule service and gets a reply to each. The service is any function of
the requests it has been sent. The client keeps the requests it has sent, a catalogue to read rules
with, the lists of options it has fetched, and a journal.
-/
namespace RuleEditor

structure Request where
  method : String
  /-- The path in plain characters. -/
  path : String
  query : List (String × String)
  body : Option Value

inductive Reply where
  | response (status : Nat) (body : List UInt8)
  /-- No response came, for the reason given. -/
  | broken (reason : String)

/-- The reply to a request after some earlier ones. -/
abbrev Service := (earlier : List Request) → Request → Reply

/-- An entry of a list that the user chooses the value of an argument from. -/
structure Choosable where
  value : Value
  label : String
deriving Repr

structure Client where
  /-- The URL that all others extend. -/
  base : Url
  catalogue : Option Catalogue
  fetched : Members (List Choosable)
  sent : List Request
  journal : List Event

/-- Operations of a client. What has been sent and noted stays, even if the operation fails. -/
abbrev Exchange := ExceptT Fault (StateM Client)

namespace Client

def start (settings : Settings) (catalogue : Option Catalogue) : Except Fault Client :=
  match (Url.read? settings.baseUrl).bind Url.asBase? with
  | some base => .ok { base, catalogue, fetched := [], sent := [], journal := [] }
  | none => .error .invalidUrl

def note (e : Event) : Exchange Unit := modify fun c => { c with journal := c.journal ++ [e] }

/-- The URL of a request. Parameters, if there are any, take the place of the query. -/
def urlOf? (base : Url) (url : String) (parameters : List (String × String)) : Option Url := do
  let url ← base.extend? (← Url.read? url)
  if parameters.isEmpty then return url
  url.withParameters? parameters

/-- Sends a request. A response is of use only if its URL has a type and, where it has a host, a
readable one. -/
def send (service : Service) (method url : String) (parameters : List (String × String))
    (body : Option Value) : Exchange Reply := do
  let c ← get
  let some url := urlOf? c.base url parameters | throw .invalidUrl
  let request : Request := ⟨method, url.plainPath, url.parameters, body⟩
  set { c with sent := c.sent ++ [request] }
  match service c.sent request with
  | .response status body =>
    if !url.isTyped then throw (.untypedUrl url.text)
    if url.hasLoneBracket then throw .loneBracket
    return .response status body
  | .broken reason => return .broken reason

def isSuccess (status : Nat) : Bool := 200 ≤ status && status < 300

/-- The body of the response to a request about a version of a rule. -/
def request (service : Service) (method url : String) (parameters : List (String × String))
    (body : Option Value) (uuid version : Value) : Exchange (List UInt8) := do
  match ← send service method url parameters body with
  | .response status bytes =>
    if isSuccess status then return bytes
    note ⟨.error, "Rule service request failed",
      [("method", .text method), ("url", .text url), ("status_code", .int status)]⟩
    throw (.badStatus status method url uuid version)
  | .broken reason =>
    note ⟨.error, "Rule service unreachable", [("method", .text method), ("url", .text url)]⟩
    throw (.unreachable reason uuid version)

def json (body : List UInt8) (uuid version : Value) : Except Fault Value :=
  match Json.readBytes body with
  | some v => .ok v
  | none => .error (.notJson uuid version)

/-- The list of entries in an answer; an empty record or text is an empty list. -/
def entries {α : Type} (reader : Schema.Reader α) : Schema.Reader (List α)
  | .record [] | .text "" => .ok []
  | v => Schema.list reader v

end Client

end RuleEditor
