import RuleEditor.Catalogue.Reader
import RuleEditor.Data.Json.Reader
import RuleEditor.Journal

/-!
# Settings

What an application sets up: where the rule service is, defaults of the editor, and how much the
journal shows. Each setting is taken from the values given, else from the environment, else it has a
default. Names in the environment start with `RULEBUILDER_` and count in any case.
-/
namespace RuleEditor

structure Settings where
  appName : String
  appVersion : String
  environment : String
  baseUrl : String
  timeout : Binary64
  defaultField : String
  defaultType : String
  numeric : List String
  ruleTypes : List String
  memoSize : Int
  level : String
  format : String
deriving Repr

namespace Settings

open Schema

/-- A list of texts, or a text that holds them between commas; blanks around them and empty ones are
dropped. -/
def texts : Reader (List String)
  | .text s =>
    let items := (Text.pieces ',' s.toList).map Text.trim
    .ok ((items.filter (!·.isEmpty)).map String.ofList)
  | v => list text v

/-- A URL without slashes at its end. -/
def url : Reader String := fun v => do
  let s ← text v
  return String.ofList (Text.dropTrailing (· == '/') s.toList)

def read (ms : Members Value) : Except Fault Settings := do
  return {
    appName := ← defaulted ["app_name"] "RuleBuilder" text ms
    appVersion := ← defaulted ["app_version"] "0.1.0" text ms
    environment :=
      ← defaulted ["environment"] "development" (word ["development", "production", "testing"]) ms
    baseUrl := ← defaulted ["api_base_url"] "http://localhost:8080/api/v1" url ms
    timeout := ← defaulted ["http_timeout_seconds"] (.ofInt 10) decimal ms
    defaultField := ← defaulted ["default_field"] Catalogue.initialField text ms
    defaultType := ← defaulted ["default_return_type"] "number" text ms
    numeric := ← defaulted ["numeric_operators"] Typing.arithmetic texts ms
    ruleTypes := ← defaulted ["allowed_rule_types"] [] texts ms
    memoSize := ← defaulted ["consistency_cache_size"] 256 whole ms
    level :=
      ← defaulted ["log_level"] "INFO" (word ["DEBUG", "INFO", "WARNING", "ERROR", "CRITICAL"]) ms
    format := ← defaulted ["log_format"] "json" (word ["json", "console"]) ms }

/-- The settings whose values in the environment have to be JSON. -/
def structured : List String := ["numeric_operators", "allowed_rule_types"]

def names : List String :=
  ["app_name", "app_version", "environment", "api_base_url", "http_timeout_seconds", "default_field",
   "default_return_type", "numeric_operators", "allowed_rule_types", "consistency_cache_size",
   "log_level", "log_format"]

def lower (s : String) : String := String.ofList (s.toList.map Char.toLower)

/-- The value of a variable of the environment, as data. -/
def variableValue (name value : String) : Except Fault Value :=
  if name ∈ structured then
    match Json.read value with
    | some v => .ok v
    | none => .error .unreadableSetting
  else .ok (.text value)

/-- The setting that a variable of the environment is for. -/
def setting? (variableName : String) : Option String :=
  names.find? fun name => lower variableName = "rulebuilder_" ++ name

/-- The settings in the environment. -/
def ofEnvironment : List (String × String) → Except Fault (Members Value)
  | [] => .ok []
  | (variableName, value) :: rest =>
    match setting? variableName with
    | none => ofEnvironment rest
    | some name => do
      let v ← variableValue name value
      let others ← ofEnvironment rest
      return if others.contains name then others else others.set name v

/-- The settings from values given and an environment. -/
def load (environment : List (String × String)) (given : Members Value) : Except Fault Settings := do
  let fromEnvironment ← ofEnvironment environment
  read (given.foldl (fun ms m => ms.set m.1 m.2) fromEnvironment)

def isProduction (s : Settings) : Bool := s.environment == "production"

def isDevelopment (s : Settings) : Bool := s.environment == "development"

def isTesting (s : Settings) : Bool := s.environment == "testing"

/-- The lowest level that the journal shows. -/
def threshold (s : Settings) : Nat := ((Level.ofText? (lower s.level)).getD .info).rank

/-- Events that the journal shows. -/
def shows (s : Settings) (e : Event) : Bool := decide (s.threshold ≤ e.level.rank)

/-- The lines of the journal are for people, not JSON. -/
def isPlain (s : Settings) : Bool := s.isDevelopment || s.format == "console"

/-- The lines of the journal as data, if they are shown as such; new correlation ids are spelled as
given. -/
def lines (s : Settings) (correlation : String) (events : List Event) : List (Members Value) :=
  (events.filter s.shows).map (·.line correlation)

end Settings

end RuleEditor
