import RuleEditor.Text.Blank
import RuleEditor.Text.Hex
import RuleEditor.Text.Unicode

/-!
# Percent-encoding

A character that may not stand in a part of a URL is written as its bytes, each a percent sign and two
hexadecimal digits. A percent sign without two digits stands for itself. In the query of a URL a plus
sign is a blank. Parameters are written into a query as the data of a form is, which is what the HTTP library documents.
-/
namespace RuleEditor.Text.Percent

def encodeByte (b : UInt8) : List Char := '%' :: (hex 2 b.toNat).map Char.toUpper

/-- The text with all characters encoded but those to keep. -/
def encode (keep : Char → Bool) (cs : List Char) : List Char :=
  cs.flatMap fun c => if keep c then [c] else (Utf8.encode [c]).flatMap encodeByte

/-- The bytes that a text stands for. -/
def bytes : List Char → List UInt8
  | [] => []
  | '%' :: a :: b :: rest =>
    match hexValue? a, hexValue? b with
    | some m, some n => UInt8.ofNat (16 * m + n) :: bytes rest
    | _, _ => Utf8.encode ['%'] ++ bytes (a :: b :: rest)
  | c :: rest => Utf8.encode [c] ++ bytes rest

def decode (cs : List Char) : List Char := Utf8.decodeLenient (bytes cs)

/-! ### Queries -/

/-- Letters, digits and four marks are never encoded. -/
def isUnreserved (c : Char) : Bool := c.isAlphanum || c == '-' || c == '.' || c == '_' || c == '~'

def encodeWord (s : String) : List Char :=
  s.toList.flatMap fun c => if c = ' ' then ['+'] else encode isUnreserved [c]

def decodeWord (cs : List Char) : String :=
  String.ofList (decode (cs.map fun c => if c = '+' then ' ' else c))

/-- The query that holds some parameters. -/
def writeQuery (parameters : List (String × String)) : List Char :=
  ['&'].intercalate (parameters.map fun p => encodeWord p.1 ++ '=' :: encodeWord p.2)

/-- The parameters in a query; one without an equals sign has an empty value. -/
def readQuery (query : List Char) : List (String × String) :=
  ((pieces '&' query).filter (!·.isEmpty)).map fun piece =>
    (decodeWord (piece.takeWhile (· ≠ '=')), decodeWord ((piece.dropWhile (· ≠ '=')).drop 1))

end RuleEditor.Text.Percent
