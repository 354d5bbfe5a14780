import RuleEditor.Data.Value
import RuleEditor.Number.Decimal
import RuleEditor.Text.Digit
import RuleEditor.Text.Hex
import RuleEditor.Text.Unicode

/-!
# Reading JSON text

A number with a fraction or an exponent is a floating-point number, every other one a whole number.
Of the members of one name the last counts, at the place of the first. The words `NaN`, `Infinity`
and `-Infinity` are accepted as numbers. Half of a surrogate pair becomes the replacement character.
-/
namespace RuleEditor.Json

def isSpace (c : Char) : Bool := c == ' ' || c == '\t' || c == '\n' || c == '\r'

def skipSpace (cs : List Char) : List Char := cs.dropWhile isSpace

/-- Four hexadecimal digits and the rest. -/
def hex4? : List Char → Option (Nat × List Char)
  | a :: b :: c :: d :: rest => do
    let a ← Text.hexValue? a
    let b ← Text.hexValue? b
    let c ← Text.hexValue? c
    let d ← Text.hexValue? d
    return (((a * 16 + b) * 16 + c) * 16 + d, rest)
  | _ => none

/-- The low half of a surrogate pair at the front of a text, and the rest. -/
def lowSurrogate? : List Char → Option (Nat × List Char)
  | '\\' :: 'u' :: cs =>
    match hex4? cs with
    | some (n, rest) => if 0xDC00 ≤ n ∧ n < 0xE000 then some (n, rest) else none
    | none => none
  | _ => none

/-- The character of an escape by code, whose four digits have been read. Half of a pair of codes is no character; one
that stands alone gives the replacement character. -/
def coded (n : Nat) (rest : List Char) : Char × List Char :=
  if 0xD800 ≤ n ∧ n < 0xDC00 then
    match lowSurrogate? rest with
    | some (low, rest) => (Char.ofNat (0x10000 + (n - 0xD800) * 0x400 + (low - 0xDC00)), rest)
    | none => (Char.ofNat 0xFFFD, rest)
  else if 0xDC00 ≤ n ∧ n < 0xE000 then (Char.ofNat 0xFFFD, rest)
  else (Char.ofNat n, rest)

def escapeLetter? : Char → Option Char
  | '"' => some '"'
  | '\\' => some '\\'
  | '/' => some '/'
  | 'b' => some (Char.ofNat 8)
  | 'f' => some (Char.ofNat 12)
  | 'n' => some '\n'
  | 'r' => some '\r'
  | 't' => some '\t'
  | _ => none

/-- The characters of a text up to its closing quote, given in reverse those already read. -/
def readText : (fuel : Nat) → (acc : List Char) → List Char → Option (String × List Char)
  | 0, _, _ => none
  | _ + 1, _, [] => none
  | _ + 1, acc, '"' :: rest => some (String.ofList acc.reverse, rest)
  | fuel + 1, acc, '\\' :: 'u' :: rest =>
    match hex4? rest with
    | some (n, rest) =>
      let (c, rest) := coded n rest
      readText fuel (c :: acc) rest
    | none => none
  | fuel + 1, acc, '\\' :: c :: rest =>
    match escapeLetter? c with
    | some c => readText fuel (c :: acc) rest
    | none => none
  | fuel + 1, acc, c :: rest => if c.toNat < 0x20 then none else readText fuel (c :: acc) rest

def isAsciiDigit (c : Char) : Bool := decide ('0' ≤ c) && decide (c ≤ '9')

def natOf (ds : List Char) : Nat := ds.foldl (fun n c => 10 * n + (c.toNat - '0'.toNat)) 0

/-- The digits at the front of a text, and the rest. -/
def digits (cs : List Char) : List Char × List Char := (cs.takeWhile isAsciiDigit, cs.dropWhile isAsciiDigit)

/-- The digits after a point, if a point with digits follows. -/
def fraction (cs : List Char) : List Char × List Char :=
  match cs with
  | '.' :: rest =>
    match digits rest with
    | ([], _) => ([], cs)
    | (ds, rest) => (ds, rest)
  | _ => ([], cs)

/-- The exponent, if one follows. -/
def exponent (cs : List Char) : Option Int × List Char :=
  let unsigned (negative : Bool) (ds : List Char) : Option Int × List Char :=
    match digits ds with
    | ([], _) => (none, cs)
    | (ds, rest) => (some (if negative then -(natOf ds : Int) else natOf ds), rest)
  match cs with
  | 'e' :: '-' :: rest | 'E' :: '-' :: rest => unsigned true rest
  | 'e' :: '+' :: rest | 'E' :: '+' :: rest => unsigned false rest
  | 'e' :: rest | 'E' :: rest => unsigned false rest
  | _ => (none, cs)

/-- An unsigned number. -/
def readNumber (negative : Bool) (cs : List Char) : Option (Value × List Char) :=
  let whole : List Char × List Char :=
    match cs with
    | '0' :: rest => (['0'], rest)
    | _ => digits cs
  match whole with
  | ([], _) => none
  | (ds, rest) =>
    let (fs, rest) := fraction rest
    let (e, rest) := exponent rest
    if fs.isEmpty && e.isNone then
      if Text.maxDigits < ds.length then none
      else some (.int (if negative then -(natOf ds : Int) else natOf ds), rest)
    else
      some (.float (Binary64.ofDecimal negative (natOf (ds ++ fs)) (e.getD 0 - fs.length)), rest)

mutual

/-- A value at the front of a text, and the rest. Every call on the way takes a character from the
text, so fuel of twice its length is enough. -/
def readValue : (fuel : Nat) → List Char → Option (Value × List Char)
  | 0, _ => none
  | fuel + 1, cs =>
    match skipSpace cs with
    | 'n' :: 'u' :: 'l' :: 'l' :: rest => some (.null, rest)
    | 't' :: 'r' :: 'u' :: 'e' :: rest => some (.bool true, rest)
    | 'f' :: 'a' :: 'l' :: 's' :: 'e' :: rest => some (.bool false, rest)
    | 'N' :: 'a' :: 'N' :: rest => some (.float .undefined, rest)
    | 'I' :: 'n' :: 'f' :: 'i' :: 'n' :: 'i' :: 't' :: 'y' :: rest => some (.float (.infinite false), rest)
    | '-' :: 'I' :: 'n' :: 'f' :: 'i' :: 'n' :: 'i' :: 't' :: 'y' :: rest =>
      some (.float (.infinite true), rest)
    | '"' :: rest =>
      match readText (rest.length + 1) [] rest with
      | some (s, rest) => some (.text s, rest)
      | none => none
    | '[' :: rest =>
      match skipSpace rest with
      | ']' :: rest => some (.list [], rest)
      | rest =>
        match readItems fuel rest with
        | some (items, rest) => some (.list items, rest)
        | none => none
    | '\x7b' :: rest =>
      match skipSpace rest with
      | '\x7d' :: rest => some (.record [], rest)
      | rest =>
        match readMembers fuel rest with
        | some (members, rest) => some (.record (Members.ofList members), rest)
        | none => none
    | '-' :: rest => readNumber true rest
    | rest => readNumber false rest

/-- The items of a list that is not empty, up to its closing bracket. -/
def readItems : (fuel : Nat) → List Char → Option (List Value × List Char)
  | 0, _ => none
  | fuel + 1, cs =>
    match readValue fuel cs with
    | none => none
    | some (v, rest) =>
      match skipSpace rest with
      | ']' :: rest => some ([v], rest)
      | ',' :: rest =>
        match readItems fuel rest with
        | some (vs, rest) => some (v :: vs, rest)
        | none => none
      | _ => none

/-- The members of a record that is not empty, up to its closing brace. -/
def readMembers : (fuel : Nat) → List Char → Option (List (String × Value) × List Char)
  | 0, _ => none
  | fuel + 1, cs =>
    match skipSpace cs with
    | '"' :: rest =>
      match readText (rest.length + 1) [] rest with
      | none => none
      | some (k, rest) =>
        match skipSpace rest with
        | ':' :: rest =>
          match readValue fuel rest with
          | none => none
          | some (v, rest) =>
            match skipSpace rest with
            | '\x7d' :: rest => some ([(k, v)], rest)
            | ',' :: rest =>
              match readMembers fuel rest with
              | some (ms, rest) => some ((k, v) :: ms, rest)
              | none => none
            | _ => none
        | _ => none
    | _ => none

end

/-- The value written by characters; `none` if they are not JSON. -/
def readChars (cs : List Char) : Option Value :=
  match readValue (2 * cs.length + 2) cs with
  | some (v, rest) => if (skipSpace rest).isEmpty then some v else none
  | none => none

def read (s : String) : Option Value := readChars s.toList

/-- The value written by bytes in any encoding of Unicode. -/
def readBytes (bs : List UInt8) : Option Value := do
  let (encoding, bs) := Text.Encoding.detect bs
  readChars (← encoding.decode? bs)

end RuleEditor.Json
