import RuleEditor.Fault
import RuleEditor.Text.Digit

/-!
# Addresses of nodes

A path names a node by the way from the root of a definition: `root` or `case`, then a step into a
slot at a time, all joined by dashes, such as `case-when-0-condition-2-right-1`. A path is a text;
`steps` reads it as a list of steps, and `render` writes a list of steps as a path. Empty segments are
skipped, and an index may use the decimal digits of any script.
-/
namespace RuleEditor

/-- One step from a node into one of its slots. -/
inductive Step where
  /-- A child of a group. -/
  | child (i : Nat)
  /-- The condition of a branch. -/
  | condition (i : Nat)
  /-- The result of a branch. -/
  | result (i : Nat)
  /-- The final result of a choice. -/
  | otherwise
  | left
  /-- The whole right side of a comparison. -/
  | right
  /-- One of several right operands. -/
  | rightItem (i : Nat)
  | operand (i : Nat)
  | argument (i : Nat)
deriving DecidableEq, Repr

namespace Step

def word : Step → String
  | .child _ => "condition"
  | .condition _ => "when"
  | .result _ => "then"
  | .otherwise => "else"
  | .left => "left"
  | .right | .rightItem _ => "right"
  | .operand _ => "operand"
  | .argument _ => "arg"

def index? : Step → Option Nat
  | .child i | .condition i | .result i | .rightItem i | .operand i | .argument i => some i
  | .otherwise | .left | .right => none

/-- The segments of a path that stand for the step. -/
def segments (s : Step) : List String :=
  match s.index? with
  | some i => [s.word, toString i]
  | none => [s.word]

/-- The step of a word that an index has to follow. -/
def indexed? : String → Option (Nat → Step)
  | "condition" => some .child
  | "when" => some .condition
  | "then" => some .result
  | "operand" => some .operand
  | "arg" => some .argument
  | _ => none

/-- The step of a word on its own. -/
def plain? : String → Option Step
  | "left" => some .left
  | "right" => some .right
  | "else" => some .otherwise
  | _ => none

end Step

/-- The slot of a choice that a path ends in. -/
inductive Role where
  | result
  | otherwise
deriving DecidableEq, Repr

namespace Address

/-- The segments of a path. -/
def segments (path : String) : List String :=
  ((Text.pieces '-' path.toList).filter (!·.isEmpty)).map String.ofList

/-- The path of some segments; empty ones are left out. -/
def join (segments : List String) : String := "-".intercalate (segments.filter (· ≠ ""))

/-- The path of segments given as data; the empty text is left out. -/
def joinValues (segments : List Value) : String :=
  "-".intercalate ((segments.filter fun v => !v.same (.text "")).map Value.display)

def isNumber (segment : String) : Bool := Text.isDigits segment.toList

/-- The number in a segment that consists of digits; a digit without place value makes it unreadable,
but not before there are too many digits. -/
def number (segment : String) : Except Fault Nat :=
  let length := (segment.toList.takeWhile Text.isDecimal).length
  if Text.maxDigits < length then .error (.longNumber length)
  else
    match Text.decimal? segment.toList with
    | some n => .ok n
    | none => .error (.unreadableNumber segment)

/-- The place among its siblings, from one on, of the node that a path names. -/
def position (path : String) : Except Fault Nat :=
  match (segments path).getLast? with
  | none => .ok 1
  | some s => if isNumber s then (number s).map (· + 1) else .ok 1

def role? (path : String) : Option Role :=
  match (segments path).reverse with
  | "else" :: _ => some .otherwise
  | n :: "then" :: _ => if isNumber n then some .result else none
  | _ => none

/-- Reads the segments below the root; messages cite the whole path. -/
def readSteps (path : String) : List String → Except Fault (List Step)
  | [] => .ok []
  | [word] =>
    match Step.indexed? word, Step.plain? word with
    | some _, _ => .error (.needsIndex word path)
    | none, some step => .ok [step]
    | none, none => .error (.unknownSegment word path)
  | word :: next :: rest =>
    match Step.indexed? word, Step.plain? word with
    | some step, _ =>
      if isNumber next then do
        let i ← number next
        let steps ← readSteps path rest
        return step i :: steps
      else .error (.needsIndex word path)
    | none, some step =>
      if step = .right ∧ isNumber next then do
        let i ← number next
        let steps ← readSteps path rest
        return .rightItem i :: steps
      else do
        let steps ← readSteps path (next :: rest)
        return step :: steps
    | none, none => .error (.unknownSegment word path)

/-- The steps below the root of a path. -/
def steps (path : String) : Except Fault (List Step) :=
  match segments path with
  | "root" :: rest | "case" :: rest => readSteps path rest
  | _ => .error (.noRoot path)

/-- The path that leads from `base` along some steps. -/
def render (base : String) (steps : List Step) : String := join (base :: steps.flatMap Step.segments)

/-- All but the last `n` items. -/
def dropLast (n : Nat) (segments : List String) : List String := segments.take (segments.length - n)

/-- The path of the node one step up; `none` at a root. The spelling of the segments is kept. -/
def parent? (path : String) : Except Fault (Option String) := do
  match (← steps path).getLast? with
  | none => return none
  | some step => return some (join (dropLast step.segments.length (segments path)))

/-- The path is `key`, or the text of `key` goes on with a dash after it. -/
def covers (path key : String) : Bool :=
  key == path || (path.toList ++ ['-']).isPrefixOf key.toList

end Address

end RuleEditor
