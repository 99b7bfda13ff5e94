import LogicScript.Yaml.Token
import LogicScript.Yaml.Token.Scalar

/-! Names, tags and directives in a YAML text. -/
namespace LogicScript
namespace Yaml

def ofReversed (cs : List Char) : String := String.ofList cs.reverse

def anchorName (s : Source) : Option (String × Source) := do
  let s ← s.need 1
  let (name, s) ← s.readWhile isNameChar s.total []
  if name.isEmpty then none
  if s.blankAt 0 || s.atOneOf "?:,]\x7d%@`".toList then return (ofReversed name, s)
  else none

/-! Tags. -/

/-- The length of a character in UTF-8 by its first byte. -/
def utf8Width (b : Nat) : Option Nat :=
  if b < 0x80 then some 1
  else if 0xc0 ≤ b ∧ b < 0xe0 then some 2
  else if 0xe0 ≤ b ∧ b < 0xf0 then some 3
  else if 0xf0 ≤ b ∧ b < 0xf8 then some 4
  else none

/-- Reads a byte that is written as a percent sign and two hexadecimal digits. -/
def escapedByte (s : Source) : Option (Nat × Source) := do
  let s ← s.need 3
  match s.rest with
  | '%' :: a :: b :: _ =>
    let n ← hexNumber? [a, b]
    return (n, s.skip.skip.skip)
  | _ => none

/-- Reads the bytes of a character behind its first one, and adds them to its number. -/
def escapedTail : Nat → Nat → Source → Option (Nat × Source)
  | 0, n, s => some (n, s)
  | k + 1, n, s => do
    let (b, s) ← escapedByte s
    if 0x80 ≤ b ∧ b < 0xc0 then escapedTail k (n * 0x40 + (b - 0x80)) s else none

def escapedChar (s : Source) : Option (Char × Source) := do
  let (b, s) ← escapedByte s
  let width ← utf8Width b
  let start := if width = 1 then b else b % Nat.pow 2 (7 - width)
  let (n, s) ← escapedTail (width - 1) start s
  return (if n.isValidChar then Char.ofNat n else '\ufffd', s)

def isTagChar (c : Char) : Bool :=
  isNameChar c || ";/?:@&=+$,.!~*'()[]%".toList.contains c

def tagText : Nat → List Char → Source → Option (List Char × Source)
  | 0, done, s => some (done, s)
  | n + 1, done, s =>
    match s.rest with
    | [] => some (done, s)
    | c :: _ =>
      if c = '%' then do
        let (c, s) ← escapedChar s
        let s ← s.need 1
        tagText n (c :: done) s
      else if isTagChar c then do
        let s ← s.skip.need 1
        tagText n (c :: done) s
      else some (done, s)

/-- Reads what may be the handle of a tag: an exclamation mark, a name and perhaps another mark.
The second part of the result tells whether it is one. -/
def tagHandle (s : Source) : Option (List Char × Bool × Source) := do
  let s ← s.need 1
  if s.head? ≠ some '!' then none
  let s ← s.skip.need 1
  let (name, s) ← s.readWhile isNameChar s.total ['!']
  if s.head? = some '!' then return ('!' :: name, true, s.skip)
  else return (name, false, s)

def verbatimTag (s : Source) : Option (Token × Source) := do
  let s ← s.skip.skip.need 1
  let (text, s) ← tagText s.total [] s
  if text.isEmpty || s.head? ≠ some '>' then none
  return (.tag "" (ofReversed text), s.skip)

/-- A tag with a handle. One that is nothing but its first mark has no handle. -/
def shortTag (s : Source) : Option (Token × Source) := do
  let (handle, named, s) ← tagHandle s
  let s ← s.need 1
  if named then
    let (text, s) ← tagText s.total [] s
    if text.isEmpty then none
    return (.tag (ofReversed handle) (ofReversed text), s)
  else
    let (text, s) ← tagText s.total handle.dropLast s
    if text.isEmpty then return (.tag "" "!", s)
    return (.tag "!" (ofReversed text), s)

def scanTag (s : Source) : Option (Token × Source) := do
  let s ← s.need 2
  let (token, s) ← if s.peek? 1 = some '<' then verbatimTag s else shortTag s
  let s ← s.need 1
  if s.blankAt 0 then return (token, s) else none

/-! Directives. -/

def versionNumber (s : Source) : Option (Nat × Source) := do
  let s ← s.need 1
  let (digits, s) ← s.readWhile Char.isDigit s.total []
  if digits.isEmpty || 2 < digits.length then none
  let n ← hexNumber? digits.reverse
  return (n / 16 * 10 + n % 16, s)

def versionDirective (s : Source) : Option (Token × Source) := do
  let s ← s.skipBlanks
  let (major, s) ← versionNumber s
  if s.head? ≠ some '.' then none
  let (minor, s) ← versionNumber s.skip
  return (.versionDirective major minor, s)

def tagDirective (s : Source) : Option (Token × Source) := do
  let s ← s.skipBlanks
  let (handle, named, s) ← tagHandle s
  if !named && handle ≠ ['!'] then none
  let s ← s.need 1
  if !s.atBlank then none
  let s ← s.skipBlanks
  let (text, s) ← tagText s.total [] s
  let s ← s.need 1
  if text.isEmpty || !s.blankAt 0 then none
  return (.tagDirective (ofReversed handle) (ofReversed text), s)

/-- Reads a directive at its sign, with the rest of its line. -/
def scanDirective (s : Source) : Option (Token × Source) := do
  let s ← s.skip.need 1
  let (name, s) ← s.readWhile isNameChar s.total []
  if name.isEmpty || !s.blankAt 0 then none
  let (token, s) ← match ofReversed name with
    | "YAML" => versionDirective s
    | "TAG" => tagDirective s
    | _ => none
  return (token, ← endOfLine s)

end Yaml
end LogicScript
