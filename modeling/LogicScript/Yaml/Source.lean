/-! The characters of a YAML text as a reader takes them.

A text comes in pieces of a fixed number of bytes. A piece is looked at as a whole when a reader
wants a character of it, and a forbidden character refuses it; pieces that nobody wants may hold
anything. -/
namespace LogicScript
namespace Yaml

def isBlank (c : Char) : Bool := c = ' ' || c = '\t'

def isBreak (c : Char) : Bool :=
  c = '\n' || c = '\r' || c = '\u0085' || c = '\u2028' || c = '\u2029'

def isNameChar (c : Char) : Bool := c.isAlphanum || c = '_' || c = '-'

def isAllowed (c : Char) : Bool :=
  let n := c.toNat
  n = 0x09 || n = 0x0a || n = 0x0d || (0x20 ≤ n && n ≤ 0x7e) || n = 0x85
    || (0xa0 ≤ n && n ≤ 0xd7ff) || (0xe000 ≤ n && n ≤ 0xfffd) || 0x10000 ≤ n

/-- The text of a line break: all kinds count as one, but two are kept as they are. -/
def breakText (c : Char) : Char := if c = '\u2028' || c = '\u2029' then c else '\n'

/-- The mark that may stand in front of a text. -/
def orderMark : Char := '\ufeff'

def pieceSize : Nat := 512

/-- Cuts a text into pieces, each of as many whole characters as fit; the first two arguments are
the room left in the piece at hand, and that piece reversed. -/
def pieces : Nat → List Char → List Char → List (List Char)
  | _, piece, [] => [piece.reverse]
  | room, piece, c :: cs =>
    if c.utf8Size ≤ room then pieces (room - c.utf8Size) (c :: piece) cs
    else piece.reverse :: pieces (pieceSize - c.utf8Size) [c] cs

/-- What is left of a text, and the place it begins at. -/
structure Source where
  /-- The characters at hand. -/
  rest : List Char := []
  /-- The pieces that nobody has wanted yet. -/
  later : List (List Char) := []
  /-- How many characters the whole text has, which bounds every loop over it. -/
  total : Nat := 0
  index : Nat := 0
  line : Nat := 0
  column : Nat := 0
  /-- How many lines have ended since the last character that is no blank. -/
  ended : Nat := 0
  /-- Whether the characters at hand began with an order mark when they were last added to. -/
  marked : Bool := false

def hasLength : Nat → List Char → Bool
  | 0, _ => true
  | _ + 1, [] => false
  | n + 1, _ :: cs => hasLength n cs

/-- Adds pieces until that many characters are at hand, or no piece is left. -/
def addPieces (n : Nat) : List Char → List (List Char) → Option (List Char × List (List Char))
  | held, [] => some (held, [])
  | held, piece :: later =>
    if hasLength n held then some (held, piece :: later)
    else if piece.all isAllowed then addPieces n (held ++ piece) later
    else none

namespace Source

def ofText (text : String) : Source :=
  let cs := text.toList
  let body := if cs.head? = some orderMark then cs.drop 1 else cs
  let room := if cs.head? = some orderMark then pieceSize - orderMark.utf8Size else pieceSize
  { later := pieces room [] body, total := cs.length }

/-- Makes sure that the next characters are at hand, as far as the text has them; `none` if a piece
is refused. -/
def need (s : Source) (n : Nat) : Option Source :=
  if hasLength n s.rest then some s
  else
    (addPieces n s.rest s.later).map fun (rest, later) =>
      { s with rest, later, marked := rest.head? = some orderMark }

def head? (s : Source) : Option Char := s.rest.head?

def peek? (s : Source) (k : Nat) : Option Char := s.rest[k]?

/-- Whether a blank, a line break or the end of the text stands that many characters ahead. -/
def blankAt (s : Source) (k : Nat) : Bool :=
  match s.peek? k with
  | none => true
  | some c => isBlank c || isBreak c

def atBlank (s : Source) : Bool := s.head?.any isBlank

def atBreak (s : Source) : Bool := s.head?.any isBreak

def atOneOf (s : Source) (cs : List Char) : Bool := s.head?.any cs.contains

def skip (s : Source) : Source :=
  match s.rest with
  | [] => s
  | c :: rest =>
    { s with
      rest, index := s.index + 1, column := s.column + 1
      ended := if isBlank c then s.ended else 0 }

def skipLine (s : Source) : Source :=
  let width := match s.rest with
    | '\r' :: '\n' :: _ => 2
    | _ => 1
  { s with
    rest := s.rest.drop width, index := s.index + width, line := s.line + 1, column := 0
    ended := s.ended + 1 }

/-- The text after the characters that pass a test; the first argument bounds their number. -/
def skipWhile (p : Char → Bool) : Nat → Source → Option Source
  | 0, s => some s
  | n + 1, s =>
    if s.head?.any p then
      match s.skip.need 1 with
      | none => none
      | some s => skipWhile p n s
    else some s

def readWhile (p : Char → Bool) : Nat → List Char → Source → Option (List Char × Source)
  | 0, done, s => some (done, s)
  | n + 1, done, s =>
    match s.rest with
    | [] => some (done, s)
    | c :: _ =>
      if p c then
        match s.skip.need 1 with
        | none => none
        | some s => readWhile p n (c :: done) s
      else some (done, s)

def skipBlanks (s : Source) : Option Source := skipWhile isBlank s.total s

def skipToBreak (s : Source) : Option Source := skipWhile (!isBreak ·) s.total s

/-- Whether a line begins with the mark of a document's start or end. -/
def atMarker (s : Source) : Bool :=
  s.column = 0 && s.blankAt 3 &&
    match s.rest with
    | '-' :: '-' :: '-' :: _ | '.' :: '.' :: '.' :: _ => true
    | _ => false

/-! Comments. -/

/-- How far a comment looks ahead for the next one. -/
def commentReach : Nat := 512

/-- Where the sign of a comment stands, if nothing but blanks stands in front of it, and line breaks
where they are allowed. The first argument bounds the search, which starts at the second. -/
def findComment (breaks : Bool) : Nat → Nat → Source → Option (Option Nat × Source)
  | 0, _, s => some (none, s)
  | n + 1, k, s =>
    match s.need (k + 1) with
    | none => none
    | some s =>
      match s.peek? k with
      | none => some (none, s)
      | some c =>
        if isBlank c || (breaks && (c = '\n' || c = '\r')) then findComment breaks n (k + 1) s
        else some (if c = '#' then some k else none, s)

def skipTo (index : Nat) : Nat → Source → Option Source
  | 0, s => some s
  | n + 1, s =>
    if index ≤ s.index then some s
    else
      match s.need 2 with
      | none => none
      | some s => skipTo index n (if s.atBreak then s.skipLine else s.skip)

/-- The text after a comment, and after further ones with nothing but blank lines between. -/
def skipComments : Nat → Source → Option Source
  | 0, s => some s
  | n + 1, s => do
    let s ← (← s.skipToBreak).need 2
    if s.atOneOf ['\n', '\r'] then
      match ← findComment true (commentReach - 1) 1 s with
      | (none, s) => return s
      | (some k, s) => skipComments n (← skipTo (s.index + k) s.total s)
    else return s

/-- The text after a comment that ends the line of what was read last. -/
def skipLineComment (s : Source) : Option Source := do
  if s.ended ≠ 0 then return s
  match ← findComment false commentReach 0 s with
  | (none, s) => return s
  | (some k, s) => (← skipTo (s.index + k) s.total s).skipToBreak

end Source
end Yaml
end LogicScript
