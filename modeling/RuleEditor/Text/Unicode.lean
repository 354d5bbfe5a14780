/-!
# Encodings of text

Text as bytes in the three encodings of Unicode. A byte sequence that is not well formed decodes to
`none`; the lenient reading of UTF-8 puts the replacement character in the place of each longest
piece that could still have become a character.
-/
namespace RuleEditor.Text

namespace Utf8

def encode (cs : List Char) : List UInt8 := cs.flatMap String.utf8EncodeChar

/-- A character of which only some bytes have been read: the bits so far, how many bytes are to come,
and the bounds of the next one. -/
structure Begun where
  bits : Nat
  missing : Nat
  least : Nat
  greatest : Nat

/-- What the first byte of a character says: the character itself, a longer one, or nothing at all. -/
def begin (b : Nat) : Option Char ⊕ Begun :=
  if b < 0x80 then .inl (some (Char.ofNat b))
  else if b < 0xC2 then .inl none
  else if b < 0xE0 then .inr ⟨b - 0xC0, 1, 0x80, 0xBF⟩
  else if b < 0xF0 then
    .inr ⟨b - 0xE0, 2, if b = 0xE0 then 0xA0 else 0x80, if b = 0xED then 0x9F else 0xBF⟩
  else if b < 0xF5 then
    .inr ⟨b - 0xF0, 3, if b = 0xF0 then 0x90 else 0x80, if b = 0xF4 then 0x8F else 0xBF⟩
  else .inl none

/-- The characters of the bytes that follow the ones already begun with; `none` stands for a piece
that is no character. -/
def pieces : Option Begun → List UInt8 → List (Option Char)
  | none, [] => []
  | some _, [] => [none]
  | begun, b :: bs =>
    let n := b.toNat
    let anew : List (Option Char) :=
      match begin n with
      | .inl c => c :: pieces none bs
      | .inr next => pieces (some next) bs
    match begun with
    | none => anew
    | some p =>
      if p.least ≤ n ∧ n ≤ p.greatest then
        let bits := 64 * p.bits + (n - 0x80)
        if p.missing ≤ 1 then some (Char.ofNat bits) :: pieces none bs
        else pieces (some ⟨bits, p.missing - 1, 0x80, 0xBF⟩) bs
      else none :: anew

def decode? (bs : List UInt8) : Option (List Char) := (pieces none bs).mapM id

/-- The characters of some bytes, with the replacement character where they are not well formed. -/
def decodeLenient (bs : List UInt8) : List Char := (pieces none bs).map (·.getD (Char.ofNat 0xFFFD))

end Utf8

namespace Utf16

/-- The units of two bytes each. -/
def units (bigEndian : Bool) : List UInt8 → Option (List Nat)
  | [] => some []
  | [_] => none
  | a :: b :: rest =>
    let unit := if bigEndian then 256 * a.toNat + b.toNat else 256 * b.toNat + a.toNat
    (units bigEndian rest).map (unit :: ·)

def isHigh (unit : Nat) : Bool := 0xD800 ≤ unit && unit < 0xDC00

def isLow (unit : Nat) : Bool := 0xDC00 ≤ unit && unit < 0xE000

def ofUnits : List Nat → Option (List Char)
  | [] => some []
  | [u] => if isHigh u || isLow u then none else some [Char.ofNat u]
  | u :: v :: rest =>
    if isHigh u && isLow v then
      (ofUnits rest).map (Char.ofNat (0x10000 + (u - 0xD800) * 0x400 + (v - 0xDC00)) :: ·)
    else if isHigh u || isLow u then none
    else (ofUnits (v :: rest)).map (Char.ofNat u :: ·)

def decode? (bigEndian : Bool) (bs : List UInt8) : Option (List Char) := do
  ofUnits (← units bigEndian bs)

end Utf16

namespace Utf32

def decode? (bigEndian : Bool) : List UInt8 → Option (List Char)
  | [] => some []
  | a :: b :: c :: d :: rest =>
    let number (p q r s : UInt8) : Nat := ((p.toNat * 256 + q.toNat) * 256 + r.toNat) * 256 + s.toNat
    let n := if bigEndian then number a b c d else number d c b a
    if n.isValidChar then (decode? bigEndian rest).map (Char.ofNat n :: ·) else none
  | _ => none

end Utf32

inductive Encoding where
  | utf8
  | utf16 (bigEndian : Bool)
  | utf32 (bigEndian : Bool)
deriving DecidableEq, Repr

namespace Encoding

/-- The encoding of a text that starts with two ASCII characters, known from where its first bytes are
zero. -/
def ofZeros : List UInt8 → Encoding
  | [a, b] => if a = 0 then .utf16 true else if b = 0 then .utf16 false else .utf8
  | a :: b :: c :: d :: _ =>
    if a = 0 then (if b = 0 then .utf32 true else .utf16 true)
    else if b = 0 then (if c = 0 ∧ d = 0 then .utf32 false else .utf16 false)
    else .utf8
  | _ => .utf8

/-- The encoding of a text and the bytes after the mark that may stand in front of it. -/
def detect (bs : List UInt8) : Encoding × List UInt8 :=
  if [0x00, 0x00, 0xFE, 0xFF].isPrefixOf bs then (.utf32 true, bs.drop 4)
  else if [0xFF, 0xFE, 0x00, 0x00].isPrefixOf bs then (.utf32 false, bs.drop 4)
  else if [0xFE, 0xFF].isPrefixOf bs then (.utf16 true, bs.drop 2)
  else if [0xFF, 0xFE].isPrefixOf bs then (.utf16 false, bs.drop 2)
  else if [0xEF, 0xBB, 0xBF].isPrefixOf bs then (.utf8, bs.drop 3)
  else (ofZeros bs, bs)

def decode? : Encoding → List UInt8 → Option (List Char)
  | .utf8, bs => Utf8.decode? bs
  | .utf16 bigEndian, bs => Utf16.decode? bigEndian bs
  | .utf32 bigEndian, bs => Utf32.decode? bigEndian bs

end Encoding

end RuleEditor.Text
