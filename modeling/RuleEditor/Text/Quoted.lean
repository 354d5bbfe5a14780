import RuleEditor.Text.Hex
import RuleEditor.Text.Printable

/-!
# Quoted text

A text inside a list or a record is shown between single quotes, or between double quotes if it
holds a single quote and no double one. The quote and the backslash are escaped by a backslash;
characters that are not printable are written by a letter (`\n`, `\r`, `\t`) or by their code in
two, four or eight hexadecimal digits.
-/
namespace RuleEditor.Text

def escapeChar (quote c : Char) : List Char :=
  if c = quote ∨ c = '\\' then ['\\', c]
  else if c = '\n' then ['\\', 'n']
  else if c = '\r' then ['\\', 'r']
  else if c = '\t' then ['\\', 't']
  else if isPrintable c then [c]
  else if c.toNat < 0x100 then '\\' :: 'x' :: hex 2 c.toNat
  else if c.toNat < 0x10000 then '\\' :: 'u' :: hex 4 c.toNat
  else '\\' :: 'U' :: hex 8 c.toNat

def quoteFor (cs : List Char) : Char :=
  if '\'' ∈ cs ∧ '"' ∉ cs then '"' else '\''

def quoted (s : String) : String :=
  let q := quoteFor s.toList
  String.ofList (q :: (s.toList.flatMap (escapeChar q) ++ [q]))

end RuleEditor.Text
