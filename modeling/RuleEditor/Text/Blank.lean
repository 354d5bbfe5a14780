/-!
# Blanks and separators

Splitting a text at a separator and removing blanks from its ends. The blanks are the characters of
the Unicode white-space property and the four information separators U+001C to U+001F.
-/
namespace RuleEditor.Text

/-- Closed ranges of the white-space code points, ascending and apart. -/
def spaceRanges : List (Nat × Nat) :=
  [(0x09, 0x0D), (0x20, 0x20), (0x85, 0x85), (0xA0, 0xA0), (0x1680, 0x1680), (0x2000, 0x200A),
   (0x2028, 0x2029), (0x202F, 0x202F), (0x205F, 0x205F), (0x3000, 0x3000)]

def isSpace (c : Char) : Bool :=
  spaceRanges.any fun r => decide (r.1 ≤ c.toNat) && decide (c.toNat ≤ r.2)

def isSeparator (c : Char) : Bool := 0x1C ≤ c.toNat && c.toNat < 0x20

def isBlank (c : Char) : Bool := isSpace c || isSeparator c

/-- The characters without those at the end that satisfy `p`. -/
def dropTrailing (p : Char → Bool) (cs : List Char) : List Char :=
  (cs.reverse.dropWhile p).reverse

/-- The characters without those at either end that satisfy `p`. -/
def trimmed (p : Char → Bool) (cs : List Char) : List Char := dropTrailing p (cs.dropWhile p)

/-- The characters without blanks at either end. -/
def trim (cs : List Char) : List Char := trimmed isBlank cs

/-- The pieces between the separators; there is one piece more than separators. -/
def pieces (separator : Char) : List Char → List (List Char)
  | [] => [[]]
  | c :: cs =>
    if c = separator then [] :: pieces separator cs
    else
      match pieces separator cs with
      | [] => [[c]]
      | p :: ps => (c :: p) :: ps

theorem pieces_ne_nil (separator : Char) (cs : List Char) : pieces separator cs ≠ [] := by
  induction cs with
  | nil => simp [pieces]
  | cons c cs ih =>
    simp only [pieces]
    split
    · simp
    · split <;> simp

/-- Cuts a text before the first `": "` in it; a text without one is kept whole. -/
def beforeColon : List Char → List Char
  | [] => []
  | ':' :: ' ' :: _ => []
  | c :: cs => c :: beforeColon cs

end RuleEditor.Text
