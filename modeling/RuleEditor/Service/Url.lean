import RuleEditor.Fault
import RuleEditor.Text.Digit
import RuleEditor.Text.Percent

/-!
# URLs

A URL is kept in parts, each already percent-encoded. The path of an absolute URL has no dot segments.
Extending a URL by a relative one appends the path and the query as one text, so that whatever follows
a question mark in either of them ends up in the query.

What makes a URL is not up to the client: the definitions here are what the HTTP library documents that its requests
are made with. A URL, a path and a query have at most `maxLength` characters and no control characters; each part keeps
the characters of its set as they are and has all others percent-encoded; hosts in digits or brackets have to be
addresses, all other hosts names. A request that has no URL is not sent, and the library's own error is raised.
-/
namespace RuleEditor

structure Url where
  scheme : String
  /-- User, host and the number of the service there; each may be missing. -/
  authority : String
  path : String
  query : Option String
  fragment : Option String
deriving DecidableEq, Repr

namespace Url

/-! ### Characters -/

/-- No URL is longer, and no path and no query of one. The library refuses longer ones before it sends anything. -/
def maxLength : Nat := 65536

def isControl (c : Char) : Bool := c.toNat < 0x20 || c.toNat == 0x7F

def isGraphic (c : Char) : Bool := 0x21 ≤ c.toNat && c.toNat ≤ 0x7E

/-- The characters that a query holds as they are; the percent sign is one of them. -/
def inQuery (c : Char) : Bool := isGraphic c && c ∉ ['"', '#', '<', '>']

def inFragment (c : Char) : Bool := isGraphic c && c ∉ ['"', '<', '>', '`']

def inPath (c : Char) : Bool := inQuery c && c ∉ ['?', '`', '\x7b', '\x7d']

def inUser (c : Char) : Bool := inPath c && c ∉ ['/', ';', '=', '@', '[', '\\', ']', '^', '|']

def inHost (c : Char) : Bool := isGraphic c && c ∉ ['#', '/', ':', '<', '>', '?', '@', '[', ']', '^']

def isAsciiDigit (c : Char) : Bool := '0' ≤ c && c ≤ '9'

def isInScheme (c : Char) : Bool := c.isAlphanum || c == '+' || c == '-' || c == '.'

/-! ### Hosts and services -/

def isNumber (cs : List Char) : Bool := !cs.isEmpty && cs.all isAsciiDigit

/-- A number below 256 without zeros in front. -/
def isOctet (cs : List Char) : Bool :=
  isNumber cs && cs.length ≤ 3 && (cs.head? != some '0' || cs.length == 1) &&
    cs.foldl (fun n c => 10 * n + (c.toNat - '0'.toNat)) 0 ≤ 255

/-- Four numbers with a point between two of them, an address or not. -/
def isNumbers (cs : List Char) : Bool :=
  let numbers := Text.pieces '.' cs
  numbers.length == 4 && numbers.all isNumber

def isAddress4 (cs : List Char) : Bool :=
  let octets := Text.pieces '.' cs
  octets.length == 4 && octets.all isOctet

def isHextet (cs : List Char) : Bool :=
  !cs.isEmpty && cs.length ≤ 4 && cs.all fun c => (Text.hexValue? c).isSome

/-- The groups of an address, each of two bytes; a number of four octets at the end is two groups. -/
def hextets? (cs : List Char) : Option (List (List Char)) :=
  let groups := Text.pieces ':' cs
  match groups.getLast? with
  | none => none
  | some last =>
    if groups.length < 3 then none
    else if '.' ∈ last then
      if isAddress4 last then some (groups.dropLast ++ [['0'], ['0']]) else none
    else some groups

/-- The groups may leave out one run of zeros, which two colons stand for. -/
def isAddress6 (cs : List Char) : Bool :=
  let address := cs.takeWhile (· ≠ '%')
  let zone := cs.dropWhile (· ≠ '%')
  if zone.length == 1 || '%' ∈ zone.drop 1 then false
  else
    match hextets? address with
    | none => false
    | some groups =>
      let inner := (groups.drop 1).dropLast
      let before := groups.takeWhile (!·.isEmpty)
      let after := groups.reverse.takeWhile (!·.isEmpty)
      if inner.all (!·.isEmpty) then groups.length == 8 && groups.all isHextet
      else
        (inner.filter (·.isEmpty)).length == 1 && groups.length ≤ 9 &&
          (groups.head? != some [] || inner.head? == some []) &&
          (groups.getLast? != some [] || inner.getLast? == some []) &&
          before.length + after.length ≤ 7 && (groups.filter (!·.isEmpty)).all isHextet

/-- Closed ranges of characters that no host name holds: controls, symbols, punctuation, accents that
stand alone, and variants of other characters. Whole blocks stand here for the single characters that the standard of
names in other scripts lists; only a host with characters beyond ASCII is looked up in them. -/
def nonNameRanges : List (Nat × Nat) :=
  [(0x80, 0xB6), (0xB8, 0xBF), (0xD7, 0xD7), (0xF7, 0xF7), (0x300, 0x36F), (0x2000, 0x2BFF),
   (0x2E00, 0x3001), (0x3003, 0x3004), (0x3008, 0x3029), (0x3030, 0x303F), (0x309B, 0x309C),
   (0x3131, 0x318F), (0x3200, 0x33FF), (0xE000, 0xFA0D), (0xFA30, 0xFE1F), (0xFE30, 0xFFEF),
   (0x1D000, 0x1D7FF), (0x1EE00, 0x1EEFF), (0x1F000, 0x1FBEF), (0x2F800, 0x2FA1F), (0xE0000, 0x10FFFF)]

def isInName (c : Char) : Bool :=
  if c.toNat < 0x80 then c.isAlphanum || c == '-'
  else !nonNameRanges.any fun r => decide (r.1 ≤ c.toNat) && decide (c.toNat ≤ r.2)

/-- A part of a host name; hyphens stand neither at its ends nor at both its third and fourth place. -/
def isLabel (cs : List Char) : Bool :=
  !cs.isEmpty && cs.all isInName && cs.head? != some '-' && cs.getLast? != some '-' &&
    (cs.drop 2).take 2 != ['-', '-']

/-- A host name in characters of any script; a point may follow its last part, and there are three
more characters that count as points. -/
def isName (cs : List Char) : Bool :=
  let isPoint (c : Char) : Bool := c.toNat ∈ [0x3002, 0xFF0E, 0xFF61]
  let labels := Text.pieces '.' (cs.map fun c => if isPoint c then '.' else c)
  let labels := if labels.getLast? = some [] then labels.dropLast else labels
  labels.all isLabel

/-- The host as it is kept; `none` if it looks like an address and is none. -/
def host? (cs : List Char) : Option (List Char) :=
  if isNumbers cs then (if isAddress4 cs then some cs else none)
  else if cs.head? == some '[' && cs.getLast? == some ']' then
    if isAddress6 (cs.drop 1).dropLast then some cs else none
  else if cs.all (·.toNat < 0x80) then some ((Text.Percent.encode inHost cs).map Char.toLower)
  else if isName cs then some cs
  else none

/-- The number of a service. Its numeral may have a sign, and single underscores between its digits. -/
def service? (cs : List Char) : Option Int := do
  let cs := Text.trim cs
  let digits := match cs with
    | '+' :: rest | '-' :: rest => rest
    | _ => cs
  let plain := digits.filter (· ≠ '_')
  if (Text.pieces '_' digits).any (·.isEmpty) || Text.maxDigits < plain.length then none
  else
    let n ← Text.decimal? plain
    return if cs.head? == some '-' then -(n : Int) else n

/-- The parts of a text before and after the last place of a character in it. -/
def splitLast? (c : Char) (cs : List Char) : Option (List Char × List Char) :=
  match cs.reverse.dropWhile (· ≠ c) with
  | [] => none
  | _ :: before => some (before.reverse, (cs.reverse.takeWhile (· ≠ c)).reverse)

/-- The host and what follows it: a host in square brackets, or all up to a colon. -/
def splitHost (cs : List Char) : List Char × List Char :=
  match cs.head? == some '[', splitLast? ']' cs with
  | true, some (before, after) => (before ++ [']'], after)
  | _, _ => (cs.takeWhile (· ≠ ':'), cs.dropWhile (· ≠ ':'))

/-- The authority as it is kept; `none` if the host or the number after it is not sound. -/
def authority? (cs : List Char) : Option (List Char) := do
  let (user, rest) := (splitLast? '@' cs).getD ([], cs)
  let (host, rest) := splitHost rest
  let host ← host? host
  let numeral := match rest with
    | ':' :: numeral => numeral
    | numeral => numeral
  let user := Text.Percent.encode inUser user
  let user := if user.isEmpty then [] else user ++ ['@']
  if numeral.isEmpty then return user ++ host
  return user ++ host ++ ':' :: (toString (← service? numeral)).toList

/-! ### Paths -/

/-- Goes through the segments of a path, given in reverse those kept so far. A double dot takes back
the last segment, but never the empty one in front of the first slash. -/
def resolveDots (kept : List (List Char)) : List (List Char) → List (List Char)
  | [] => kept.reverse
  | segment :: rest =>
    if segment = ['.'] then resolveDots kept rest
    else if segment = ['.', '.'] then resolveDots (if kept = [[]] then kept else kept.drop 1) rest
    else resolveDots (segment :: kept) rest

/-- The path without dot segments. -/
def withoutDots (path : List Char) : List Char :=
  ['/'].intercalate (resolveDots [] (Text.pieces '/' path))

/-! ### Building -/

/-- A URL of parts that may still need encoding. Without scheme and host the path must not look like
one that has them. -/
def ofParts? (scheme authority path : List Char) (query fragment : Option (List Char)) : Option Url := do
  let authority ← authority? authority
  let isAbsolute := !scheme.isEmpty || !authority.isEmpty
  if !isAbsolute && (['/', '/'].isPrefixOf path || [':'].isPrefixOf path) then none
  else if maxLength < path.length || maxLength < (query.getD []).length then none
  else
    let path := if isAbsolute then withoutDots path else path
    some {
      scheme := String.ofList scheme
      authority := String.ofList authority
      path := String.ofList (Text.Percent.encode inPath path)
      query := query.map fun q => String.ofList (Text.Percent.encode inQuery q)
      fragment := fragment.map fun f => String.ofList (Text.Percent.encode inFragment f) }

/-- The scheme in front of a text, without its colon, and the rest. -/
def splitScheme (cs : List Char) : List Char × List Char :=
  let word := cs.takeWhile isInScheme
  match cs.dropWhile isInScheme with
  | ':' :: rest => if (word.head?.map Char.isAlpha).getD true then (word, rest) else ([], cs)
  | _ => ([], cs)

/-- The authority after two slashes in front of a text, and the rest. -/
def splitAuthority : List Char → List Char × List Char
  | '/' :: '/' :: rest =>
    let ends (c : Char) : Bool := c == '/' || c == '?' || c == '#'
    (rest.takeWhile (!ends ·), rest.dropWhile (!ends ·))
  | cs => ([], cs)

/-- The part after the first place of a character in a text, if there is one. -/
def after? (c : Char) (cs : List Char) : Option (List Char) :=
  match cs.dropWhile (· ≠ c) with
  | [] => none
  | _ :: rest => some rest

/-- The URL that a text spells; a part may be missing, so a path alone is a URL. -/
def read? (s : String) : Option Url := do
  let cs := s.toList
  if maxLength < cs.length || cs.any isControl then none
  else
    let (scheme, rest) := splitScheme cs
    let (authority, rest) := splitAuthority rest
    let beforeFragment := rest.takeWhile (· ≠ '#')
    ofParts? (scheme.map Char.toLower) authority (beforeFragment.takeWhile (· ≠ '?'))
      (after? '?' beforeFragment) (after? '#' rest)

/-- The path and the query as one text; an empty path counts as a slash. -/
def target (u : Url) : List Char :=
  (if u.path = "" then ['/'] else u.path.toList) ++
    match u.query with
    | some query => '?' :: query.toList
    | none => []

/-- The URL with another path and query. -/
def withTarget? (target : List Char) (u : Url) : Option Url :=
  ofParts? u.scheme.toList u.authority.toList (target.takeWhile (· ≠ '?')) (after? '?' target)
    (u.fragment.map String.toList)

/-- The URL with a slash at the end of its target. -/
def asBase? (u : Url) : Option Url :=
  if u.target.getLast? = some '/' then some u else u.withTarget? (u.target ++ ['/'])

/-- The URL that a base leads to along a relative one. -/
def extend? (base relative : Url) : Option Url :=
  base.withTarget? (base.target ++ relative.target.dropWhile (· == '/'))

/-- The URL with a query that holds some parameters. -/
def withParameters? (parameters : List (String × String)) (u : Url) : Option Url :=
  ofParts? u.scheme.toList u.authority.toList u.path.toList
    (some (Text.Percent.writeQuery parameters)) (u.fragment.map String.toList)

/-! ### Reading off -/

/-- The path in plain characters. -/
def plainPath (u : Url) : String :=
  String.ofList (Text.Percent.decode (if u.path = "" then ['/'] else u.path.toList))

def parameters (u : Url) : List (String × String) :=
  Text.Percent.readQuery ((u.query.map String.toList).getD [])

def text (u : Url) : String :=
  (if u.scheme = "" then "" else u.scheme ++ ":") ++
    (if u.authority = "" then "" else "//" ++ u.authority) ++ u.path ++
    ((u.query.map ("?" ++ ·)).getD "") ++ ((u.fragment.map ("#" ++ ·)).getD "")

/-- The path of a URL without a host looks like a host with only one of two square brackets. -/
def hasLoneBracket (u : Url) : Bool :=
  match u.authority, u.path.toList with
  | "", '/' :: '/' :: rest =>
    let host := rest.takeWhile (· ≠ '/')
    decide ('[' ∈ host) != decide (']' ∈ host)
  | _, _ => false

/-- The text of the URL starts with a word and a colon, what follows its last number sign left aside. -/
def isTyped (u : Url) : Bool :=
  let cs := ((splitLast? '#' u.text.toList).map (·.1)).getD u.text.toList
  let stops (c : Char) : Bool := c == '/' || c == ':'
  !(cs.takeWhile (!stops ·)).isEmpty && (cs.dropWhile (!stops ·)).head? == some ':'

end Url

end RuleEditor
