import RuleEditor.Data.Value
import RuleEditor.Number.Decimal
import RuleEditor.Text.Quoted

/-!
# Writing JSON text

JSON without blanks, in ASCII: every other character is escaped by its code, one above U+FFFF by the
codes of its surrogate pair.
-/
namespace RuleEditor.Json

def escapeCode (n : Nat) : List Char := '\\' :: 'u' :: Text.hex 4 n

def escape (c : Char) : List Char :=
  if c = '"' ∨ c = '\\' then ['\\', c]
  else if c = '\n' then ['\\', 'n']
  else if c = '\r' then ['\\', 'r']
  else if c = '\t' then ['\\', 't']
  else if 0x20 ≤ c.toNat ∧ c.toNat < 0x7F then [c]
  else if c.toNat < 0x10000 then escapeCode c.toNat
  else
    let n := c.toNat - 0x10000
    escapeCode (0xD800 + n / 0x400) ++ escapeCode (0xDC00 + n % 0x400)

def writeText (s : String) : String := String.ofList ('"' :: (s.toList.flatMap escape ++ ['"']))

mutual

def write : Value → String
  | .null => "null"
  | .bool b => if b then "true" else "false"
  | .int n => toString n
  | .float x => x.render "Infinity" "NaN"
  | .text s => writeText s
  | .list items => "[" ++ writeItems items ++ "]"
  | .record members => "\x7b" ++ writeMembers members ++ "\x7d"

def writeItems : List Value → String
  | [] => ""
  | [v] => write v
  | v :: w :: vs => write v ++ "," ++ writeItems (w :: vs)

def writeMembers : List (String × Value) → String
  | [] => ""
  | [(k, v)] => writeText k ++ ":" ++ write v
  | (k, v) :: m :: ms => writeText k ++ ":" ++ write v ++ "," ++ writeMembers (m :: ms)

end

end RuleEditor.Json
