import RuleEditor.Data.Value
import RuleEditor.Fault
import RuleEditor.Text.Blank

/-!
# Reading data against a schema

A reader takes plain data to a typed value or rejects it. Readers are lenient where nothing is lost:
a whole number may come as a float without a fraction, a truth value or a numeral, and a truth value
as 0 or 1 or as a word. A member that is absent takes its default. These are the conversions that the validation
library documents for its lenient mode, in which settings, catalogues and the answers of services are read.
-/
namespace RuleEditor.Schema

abbrev Reader (α : Type) := Value → Except Fault α

variable {α : Type}

def anything : Reader Value := .ok

def text : Reader String
  | .text s => .ok s
  | _ => .error .rejected

/-! ### Numerals -/

def digit? (c : Char) : Option Nat := if '0' ≤ c ∧ c ≤ '9' then some (c.toNat - '0'.toNat) else none

def isDigit (c : Char) : Bool := (digit? c).isSome

/-- The number that digits continue when `n` has been read before them. -/
def digitsFrom? (n : Nat) : List Char → Option Nat
  | [] => some n
  | c :: cs => do digitsFrom? (10 * n + (← digit? c)) cs

def digits? (cs : List Char) : Option Nat := if cs.isEmpty then none else digitsFrom? 0 cs

/-- The sign in front of a numeral, and the rest. -/
def sign : List Char → Bool × List Char
  | '-' :: cs => (true, cs)
  | '+' :: cs => (false, cs)
  | cs => (false, cs)

/-- No two underscores follow each other, and none stands at the end. -/
def spaced : List Char → Bool
  | [] => true
  | ['_'] => false
  | '_' :: '_' :: _ => false
  | _ :: cs => spaced cs

/-- The characters without the underscores, each of which has to stand alone between two others. -/
def joined? (cs : List Char) : Option (List Char) :=
  if spaced ('_' :: cs) then some (cs.filter (· ≠ '_')) else none

/-- The rest of a numeral after zeros, the last of which is given; underscores may stand among them,
and a minus sign after them. One character of them is kept where no other digit comes before the
point or the end. -/
def afterZeros? (last : Char) : List Char → Option (List Char)
  | [] => some [last]
  | c :: cs =>
    if c = '0' ∨ c = '_' then afterZeros? c cs
    else if isDigit c ∨ c = '-' then some (c :: cs)
    else if c = '.' then some (last :: c :: cs)
    else none

/-- A numeral without the zeros in front. -/
def withoutZeros? : List Char → Option (List Char)
  | [] => none
  | c :: cs => if c = '0' then afterZeros? c cs else if isDigit c then some (c :: cs) else none

/-- A numeral without a point and zeros at its end. -/
def withoutFraction? (cs : List Char) : Option (List Char) :=
  match cs.dropWhile (· ≠ '.') with
  | [] => some cs
  | _ :: places =>
    if !places.isEmpty && places.all (· == '0') then some (cs.takeWhile (· ≠ '.')) else none

/-- An integer in plain form: a minus sign or none, and digits without a zero in front of others. -/
def plainInt? (cs : List Char) : Option Int := do
  let (negative, digits) :=
    match cs with
    | '-' :: digits => (true, digits)
    | digits => (false, digits)
  if Text.maxDigits < cs.length || (digits.head? == some '0' && digits.length != 1) then none
  else
    let n ← digits? digits
    return if negative then -(n : Int) else n

/-- The whole number that a text spells. White space around it, a sign, zeros in front, single
underscores between digits and a fraction of zeros are allowed. -/
def numeral? (s : String) : Option Int := do
  let (negative, cs) := sign (Text.trimmed Text.isSpace s.toList)
  let cs ← joined? (← withoutFraction? (← withoutZeros? cs))
  plainInt? (if negative then '-' :: cs else cs)

/-- The exponent at the end of a decimal: none at all, or a letter with a signed numeral. -/
def exponent? : List Char → Option Int
  | [] => some 0
  | c :: cs =>
    if c = 'e' ∨ c = 'E' then do
      let (negative, cs) := sign cs
      let n ← digits? cs
      return if negative then -(n : Int) else n
    else none

/-- The floating-point number that characters spell in plain notation. -/
def plainDecimal? (cs : List Char) : Option Binary64 := do
  let (negative, cs) := sign cs
  match String.ofList (cs.map Char.toLower) with
  | "inf" | "infinity" => return .infinite negative
  | "nan" => return .undefined
  | _ =>
    let whole := cs.takeWhile isDigit
    let rest := cs.dropWhile isDigit
    let (places, rest) :=
      match rest with
      | '.' :: rest => (rest.takeWhile isDigit, rest.dropWhile isDigit)
      | _ => ([], rest)
    let e ← exponent? rest
    let n ← digits? (whole ++ places)
    return .ofDecimal negative n (e - places.length)

/-- The floating-point number that a text spells: plainly between white space, or with single
underscores between its characters. -/
def decimal? (s : String) : Option Binary64 :=
  match plainDecimal? (Text.trimmed Text.isSpace s.toList) with
  | some x => some x
  | none => (joined? s.toList).bind plainDecimal?

/-! ### Plain values -/

/-- A whole number. A float has to be one without a fraction and below 2^63 in magnitude. -/
def whole : Reader Int
  | .int n => .ok n
  | .bool b => .ok (if b then 1 else 0)
  | .float x =>
    match x.toInt? with
    | some n => if n.natAbs < Nat.pow 2 63 then .ok n else .error .rejected
    | none => .error .rejected
  | .text s =>
    match numeral? s with
    | some n => .ok n
    | none => .error .rejected
  | _ => .error .rejected

def truthOfNumber (n : Int) : Except Fault Bool :=
  if n = 0 then .ok false else if n = 1 then .ok true else .error .rejected

/-- The words for truth values, in any case. -/
def truthOfWord (s : String) : Except Fault Bool :=
  let word := String.ofList (s.toList.map Char.toLower)
  if word ∈ ["1", "true", "t", "yes", "y", "on"] then .ok true
  else if word ∈ ["0", "false", "f", "no", "n", "off"] then .ok false
  else .error .rejected

def truth : Reader Bool
  | .bool b => .ok b
  | .int n => truthOfNumber n
  | .float x =>
    match x.toInt? with
    | some n => truthOfNumber n
    | none => .error .rejected
  | .text s => truthOfWord s
  | _ => .error .rejected

/-- A floating-point number; an integer must not be beyond its range. -/
def decimal : Reader Binary64
  | .float x => .ok x
  | .int n =>
    match Binary64.ofInt n with
    | .infinite _ => .error .rejected
    | x => .ok x
  | .bool b => .ok (.ofInt (if b then 1 else 0))
  | .text s =>
    match decimal? s with
    | some x => .ok x
    | none => .error .rejected
  | _ => .error .rejected

/-- One of some words, exactly as written. -/
def word (words : List String) : Reader String
  | .text s => if s ∈ words then .ok s else .error .rejected
  | _ => .error .rejected

/-! ### Compound values -/

def optional (reader : Reader α) : Reader (Option α)
  | .null => .ok none
  | v => (reader v).map some

def list (reader : Reader α) : Reader (List α)
  | .list items => items.mapM reader
  | _ => .error .rejected

def members : Reader (Members Value)
  | .record ms => .ok ms
  | _ => .error .rejected

/-- Members of any names that all have one schema. -/
def table (reader : Reader α) : Reader (Members α)
  | .record ms => ms.mapM fun m => (reader m.2).map (m.1, ·)
  | _ => .error .rejected

/-- The first name of those given that a record has. -/
def present? (names : List String) (ms : Members Value) : Option String :=
  names.find? (Members.contains · ms)

/-- A member that has to be there, under the first of its names that is present. -/
def required (names : List String) (reader : Reader α) (ms : Members Value) : Except Fault α :=
  match names.findSome? (Members.get? · ms) with
  | some v => reader v
  | none => .error .rejected

/-- A member that takes a default when it is absent. -/
def defaulted (names : List String) (default : α) (reader : Reader α) (ms : Members Value) : Except Fault α :=
  match names.findSome? (Members.get? · ms) with
  | some v => reader v
  | none => .ok default

/-- A member that may be absent or null. -/
def option (names : List String) (reader : Reader α) (ms : Members Value) : Except Fault (Option α) :=
  defaulted names none (optional reader) ms

end RuleEditor.Schema
