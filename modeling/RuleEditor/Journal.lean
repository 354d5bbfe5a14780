import RuleEditor.Data.Value

/-!
# Journals

Operations report what they do as events with a level and named data. A line of the journal is an
event under the context that is bound when it happens.
-/
namespace RuleEditor

inductive Level where
  | debug
  | info
  | warning
  | error
  | critical
deriving DecidableEq, Repr

namespace Level

def text : Level → String
  | .debug => "debug"
  | .info => "info"
  | .warning => "warning"
  | .error => "error"
  | .critical => "critical"

def ofText? : String → Option Level
  | "debug" => some .debug
  | "info" => some .info
  | "warning" => some .warning
  | "error" => some .error
  | "critical" => some .critical
  | _ => none

def rank : Level → Nat
  | .debug => 10
  | .info => 20
  | .warning => 30
  | .error => 40
  | .critical => 50

end Level

structure Event where
  level : Level
  message : String
  fields : Members Value

namespace Event

/-- The event with data of the context added; its own data counts before that. -/
def within (context : Members Value) (e : Event) : Event :=
  { e with fields := context.foldl (fun fs m => if fs.contains m.1 then fs else fs.set m.1 m.2) e.fields }

/-- The line for an event, without the time at which it is written and the wish for a stack. An event
without a correlation id of its own gets a new one, which `correlation` stands for. -/
def line (correlation : String) (e : Event) : Members Value :=
  let fields := (e.fields.erase "timestamp").erase "stack_info"
  let fields := (fields.set "level" (.text e.level.text)).set "logger" (.text "rulebuilder")
  let fields :=
    if fields.contains "correlation_id" then fields else fields.set "correlation_id" (.text correlation)
  fields.set "message" (.text e.message)

end Event

/-- The variables that are bound in a context. -/
abbrev Context := Members Value

namespace Context

/-- The context inside a block that binds some variables. -/
def enter (bound : Members Value) (c : Context) : Context := bound.foldl (fun c m => c.set m.1 m.2) c

/-- The context after the block. -/
def leave (bound : Members Value) (c : Context) : Context := bound.foldl (fun c m => c.erase m.1) c

end Context

/-- A block that binds variables while it is open. -/
structure Block where
  bound : Members Value
  isOpen : Bool

namespace Block

/-- The block with these variables before it is entered. -/
def closed (bound : Members Value) : Block := ⟨bound, false⟩

def enter (b : Block) (c : Context) : Block × Context := ({ b with isOpen := true }, c.enter b.bound)

/-- A block is left in the same way at its end and when something fails in it; the fault goes on. -/
def leave (b : Block) (c : Context) : Block × Context :=
  if b.isOpen then ({ b with isOpen := false }, c.leave b.bound) else (b, c)

end Block

end RuleEditor
