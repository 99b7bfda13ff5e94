import LogicScript.Document

/-! Reading JSON texts.

Numbers keep their own text. Only the first value of a text is read; what follows it is ignored.
The reading functions take as first argument a bound on the number of nested steps, which the
length of the text provides, and as second one the number of levels that may still be opened. -/
namespace LogicScript
namespace Json

def isSpace (c : Char) : Bool := c = ' ' || c = '\t' || c = '\n' || c = '\r'

def skip (cs : List Char) : List Char := cs.dropWhile isSpace

def expect : List Char → List Char → Option (List Char)
  | [], cs => some cs
  | _ :: _, [] => none
  | w :: ws, c :: cs => if w = c then expect ws cs else none

def digits (cs : List Char) : List Char × List Char := cs.span fun c => '0' ≤ c ∧ c ≤ '9'

/-- The digits after a point, if there is one; there must then be at least one. -/
def fraction : List Char → Option (List Char × List Char)
  | '.' :: cs =>
    let (ds, rest) := digits cs
    if ds.isEmpty then none else some ('.' :: ds, rest)
  | cs => some ([], cs)

def signAndDigits (cs : List Char) : Option (List Char × List Char) :=
  let (sign, cs) := match cs with
    | '+' :: r => (['+'], r)
    | '-' :: r => (['-'], r)
    | r => ([], r)
  let (ds, rest) := digits cs
  if ds.isEmpty then none else some (sign ++ ds, rest)

def exponent : List Char → Option (List Char × List Char)
  | 'e' :: cs => (signAndDigits cs).map fun (ds, rest) => ('e' :: ds, rest)
  | 'E' :: cs => (signAndDigits cs).map fun (ds, rest) => ('E' :: ds, rest)
  | cs => some ([], cs)

/-- The integer part of a number: no zero stands in front of another digit. -/
def whole : List Char → Option (List Char × List Char)
  | '0' :: cs => some (['0'], cs)
  | cs =>
    let (ds, rest) := digits cs
    if ds.isEmpty then none else some (ds, rest)

def number (cs : List Char) : Option (Document × List Char) := do
  let (sign, cs) := match cs with
    | '-' :: r => (['-'], r)
    | r => ([], r)
  let (ds, cs) ← whole cs
  let (fs, cs) ← fraction cs
  let (es, cs) ← exponent cs
  return (.number (.text (String.ofList (sign ++ ds ++ fs ++ es))), cs)

def unit : List Char → Option (Nat × List Char)
  | a :: b :: c :: d :: rest => do
    let a ← Number.hexDigit? a
    let b ← Number.hexDigit? b
    let c ← Number.hexDigit? c
    let d ← Number.hexDigit? d
    return (((a * 16 + b) * 16 + c) * 16 + d, rest)
  | _ => none

/-- The low half of a surrogate pair, if it follows. -/
def lowHalf : List Char → Option (Nat × List Char)
  | '\\' :: 'u' :: cs =>
    match unit cs with
    | some (n, rest) => if 0xdc00 ≤ n ∧ n < 0xe000 then some (n, rest) else none
    | none => none
  | _ => none

/-- The character of a `\u` escape. Half a surrogate pair becomes the replacement character. -/
def unicodeEscape (cs : List Char) : Option (Char × List Char) := do
  let (n, rest) ← unit cs
  if 0xd800 ≤ n ∧ n < 0xdc00 then
    match lowHalf rest with
    | some (low, rest) =>
      return (Char.ofNat (0x10000 + (n - 0xd800) * 0x400 + (low - 0xdc00)), rest)
    | none => return ('\ufffd', rest)
  else if 0xdc00 ≤ n ∧ n < 0xe000 then return ('\ufffd', rest)
  else return (Char.ofNat n, rest)

def escape : List Char → Option (Char × List Char)
  | '"' :: cs => some ('"', cs)
  | '\\' :: cs => some ('\\', cs)
  | '/' :: cs => some ('/', cs)
  | 'b' :: cs => some ('\x08', cs)
  | 'f' :: cs => some ('\x0c', cs)
  | 'n' :: cs => some ('\n', cs)
  | 'r' :: cs => some ('\r', cs)
  | 't' :: cs => some ('\t', cs)
  | 'u' :: cs => unicodeEscape cs
  | _ => none

/-- A string after its opening quote; the second argument holds what was read, reversed. -/
def string : Nat → List Char → List Char → Option (String × List Char)
  | 0, _, _ => none
  | _ + 1, _, [] => none
  | n + 1, done, c :: cs =>
    if c = '"' then some (String.ofList done.reverse, cs)
    else if c = '\\' then
      match escape cs with
      | some (e, rest) => string n (e :: done) rest
      | none => none
    else if c.toNat < 0x20 then none
    else string n (c :: done) cs

/-- How deeply lists and mappings may be nested. -/
def maxNesting : Nat := 10000

mutual

def value : Nat → Nat → List Char → Option (Document × List Char)
  | 0, _, _ => none
  | n + 1, levels, cs =>
    match skip cs with
    | '{' :: rest =>
      if levels = 0 then none
      else
        match skip rest with
        | '}' :: rest => some (.mapping [], rest)
        | rest => (members n (levels - 1) rest).map fun (es, rest) => (.mapping es, rest)
    | '[' :: rest =>
      if levels = 0 then none
      else
        match skip rest with
        | ']' :: rest => some (.list [], rest)
        | rest => (elements n (levels - 1) rest).map fun (ds, rest) => (.list ds, rest)
    | '"' :: rest => (string (n + 1) [] rest).map fun (s, rest) => (.text s, rest)
    | 't' :: rest => (expect "rue".toList rest).map fun rest => (.bool true, rest)
    | 'f' :: rest => (expect "alse".toList rest).map fun rest => (.bool false, rest)
    | 'n' :: rest => (expect "ull".toList rest).map fun rest => (.null, rest)
    | rest => number rest

def elements : Nat → Nat → List Char → Option (List Document × List Char)
  | 0, _, _ => none
  | n + 1, levels, cs =>
    match value n levels cs with
    | none => none
    | some (d, rest) =>
      match skip rest with
      | ',' :: rest => (elements n levels rest).map fun (ds, rest) => (d :: ds, rest)
      | ']' :: rest => some ([d], rest)
      | _ => none

def members : Nat → Nat → List Char → Option (List (String × Document) × List Char)
  | 0, _, _ => none
  | n + 1, levels, cs =>
    match skip cs with
    | '"' :: rest =>
      match string (n + 1) [] rest with
      | none => none
      | some (key, rest) =>
        match skip rest with
        | ':' :: rest =>
          match value n levels rest with
          | none => none
          | some (d, rest) =>
            match skip rest with
            | ',' :: rest =>
              (members n levels rest).map fun (es, rest) => ((key, d) :: es, rest)
            | '}' :: rest => some ([(key, d)], rest)
            | _ => none
        | _ => none
    | _ => none

end

end Json

def Document.ofJson? (s : String) : Option Document :=
  let cs := s.toList
  (Json.value (2 * cs.length + 2) Json.maxNesting cs).map (·.1)

end LogicScript
