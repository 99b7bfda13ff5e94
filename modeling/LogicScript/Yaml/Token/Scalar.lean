import LogicScript.Number.Reader
import LogicScript.Yaml.Source

/-! Scalars in a YAML text: without quotes, in quotes, and in blocks.

The reading functions take a bound on the number of their steps, which the length of the text
provides, and give what they read in reverse. -/
namespace LogicScript
namespace Yaml

/-! What stands between the words of a scalar. -/

structure Gap where
  /-- The blanks, reversed. -/
  blanks : List Char := []
  /-- Whether a line has ended. -/
  ended : Bool := false
  /-- The first line break. -/
  first : Option Char := none
  /-- The line breaks of empty lines, reversed. -/
  more : List Char := []

namespace Gap

/-- What a gap stands for, reversed: blanks for themselves, a line break for a blank, and empty
lines for one line break each. A break of a kind that is kept stands for itself. -/
def text (g : Gap) : List Char :=
  if g.ended then
    match g.first with
    | none => g.more
    | some c => if c = '\n' then if g.more.isEmpty then [' '] else g.more else g.more ++ [c]
  else g.blanks

def endLine (g : Gap) (c : Char) : Gap :=
  if g.ended then { g with more := breakText c :: g.more }
  else { ended := true, first := some (breakText c) }

/-- Reads on in a gap. At the beginning of a line a tab may not stand left of a column. -/
def read (column : Nat) : Nat → Gap → Source → Option (Gap × Source)
  | 0, g, s => some (g, s)
  | n + 1, g, s =>
    match s.rest with
    | [] => some (g, s)
    | c :: _ =>
      if isBlank c then
        if g.ended && c = '\t' && s.column < column then none
        else do
          let s ← s.skip.need 1
          read column n (if g.ended then g else { g with blanks := c :: g.blanks }) s
      else if isBreak c then do
        let s ← s.need 2
        let s ← s.skipLine.need 1
        read column n (g.endLine c) s
      else some (g, s)

end Gap

/-! Scalars without quotes. -/

def flowSigns : List Char := [',', '?', '[', ']', '\x7b', '\x7d']

def endsWord (flow : Bool) (s : Source) : Bool :=
  s.blankAt 0 || (s.head? = some ':' && s.blankAt 1) || (flow && s.atOneOf flowSigns)

def plainWord (flow : Bool) : Nat → List Char → Source → Option (List Char × Source)
  | 0, done, s => some (done, s)
  | n + 1, done, s =>
    match s.rest with
    | [] => some (done, s)
    | c :: _ =>
      if endsWord flow s then some (done, s)
      else
        match s.skip.need 2 with
        | none => none
        | some s => plainWord flow n (c :: done) s

/-- Reads an unquoted scalar, as far as its lines begin right enough. The second part of the result
tells whether it ends with a line. -/
def plainText (flow : Bool) (column : Nat) :
    Nat → List Char → Gap → Source → Option (List Char × Bool × Source)
  | 0, done, gap, s => some (done, gap.ended, s)
  | n + 1, done, gap, s => do
    let s ← s.need 4
    if s.atMarker || s.head? = some '#' then return (done, gap.ended, s)
    let (word, s) ← plainWord flow s.total [] s
    let (done, gap) := if word.isEmpty then (done, gap) else (word ++ (gap.text ++ done), {})
    if s.atBlank || s.atBreak then
      let (gap, s) ← gap.read column s.total s
      if !flow && s.column < column then return (done, gap.ended, s)
      plainText flow column n done gap s
    else return (done, gap.ended, s)

/-! Scalars in quotes. -/

def escapes : List (Char × Char) :=
  [('0', '\x00'), ('a', '\x07'), ('b', '\x08'), ('t', '\t'), ('\t', '\t'), ('n', '\n'),
   ('v', '\x0b'), ('f', '\x0c'), ('r', '\r'), ('e', '\x1b'), (' ', ' '), ('"', '"'),
   ('\x27', '\x27'), ('\\', '\\'), ('N', '\u0085'), ('_', '\u00a0'), ('L', '\u2028'),
   ('P', '\u2029')]

def escapeDigits : Char → Option Nat
  | 'x' => some 2
  | 'u' => some 4
  | 'U' => some 8
  | _ => none

def hexNumber? (cs : List Char) : Option Nat :=
  cs.foldlM (fun n c => (Number.hexDigit? c).map (n * 16 + ·)) 0

def numberedEscape (digits : Nat) (s : Source) : Option (Char × Source) := do
  let s ← s.need digits
  let cs := s.rest.take digits
  let n ← hexNumber? cs
  if cs.length = digits ∧ n.isValidChar then
    return (Char.ofNat n, Nat.repeat Source.skip digits s)
  else none

def singleQuotedWord : Nat → List Char → Source → Option (List Char × Source)
  | 0, done, s => some (done, s)
  | n + 1, done, s =>
    match s.rest with
    | [] => some (done, s)
    | '\x27' :: '\x27' :: _ => do
      let s ← s.skip.skip.need 2
      singleQuotedWord n ('\x27' :: done) s
    | c :: _ =>
      if c = '\x27' || isBlank c || isBreak c then some (done, s)
      else do
        let s ← s.skip.need 2
        singleQuotedWord n (c :: done) s

/-- Reads a word in double quotes, with escapes. The second part of the result tells whether it
ends with an escaped line break. -/
def doubleQuotedWord : Nat → List Char → Source → Option (List Char × Bool × Source)
  | 0, done, s => some (done, false, s)
  | n + 1, done, s =>
    match s.rest with
    | [] => some (done, false, s)
    | '\\' :: [] => none
    | '\\' :: e :: _ =>
      if isBreak e then do
        let s ← s.need 3
        return (done, true, s.skip.skipLine)
      else do
        let (c, s) ← match escapes.lookup e, escapeDigits e with
          | some c, _ => some (c, s.skip.skip)
          | none, some digits => numberedEscape digits s.skip.skip
          | none, none => none
        let s ← s.need 2
        doubleQuotedWord n (c :: done) s
    | c :: _ =>
      if c = '"' || isBlank c || isBreak c then some (done, false, s)
      else do
        let s ← s.skip.need 2
        doubleQuotedWord n (c :: done) s

/-- Reads a quoted scalar behind its first quote, up to and with the last one. -/
def quotedText (single : Bool) : Nat → List Char → Source → Option (List Char × Source)
  | 0, _, _ => none
  | n + 1, done, s => do
    let s ← s.need 4
    if s.atMarker || s.head?.isNone then none
    let (done, escaped, s) ← if single then
        (singleQuotedWord s.total done s).map fun (done, s) => (done, false, s)
      else doubleQuotedWord s.total done s
    let s ← s.need 1
    if s.head? = some (if single then '\x27' else '"') then return (done, s.skip)
    let (gap, s) ← Gap.read 0 s.total { ended := escaped } s
    quotedText single n (gap.text ++ done) s

/-! Scalars in blocks. -/

/-- What becomes of the line breaks at the end of a block: one is kept, none, or all. -/
inductive Chomp
  | clip | strip | keep
  deriving DecidableEq, Repr

def chompSign? (s : Source) : Option Chomp :=
  match s.head? with
  | some '+' => some .keep
  | some '-' => some .strip
  | _ => none

def indentSign (s : Source) : Option (Nat × Source) :=
  match s.head?.bind Number.decimalDigit? with
  | none => some (0, s)
  | some 0 => none
  | some d => some (d, s.skip)

/-- What stands behind the sign of a block in its line: what becomes of the last breaks, and how
far the block is indented, with zero if that is not told. -/
def blockHeader (s : Source) : Option (Chomp × Nat × Source) := do
  let s ← s.need 1
  match chompSign? s with
  | some chomp =>
    let s ← s.skip.need 1
    let (indent, s) ← indentSign s
    return (chomp, indent, s)
  | none =>
    let (indent, s) ← indentSign s
    let s ← s.need 1
    match if indent = 0 then none else chompSign? s with
    | some chomp => return (chomp, indent, s.skip)
    | none => return (.clip, indent, s)

/-- The text from the next line on. Nothing but blanks and a comment is left of the line. -/
def endOfLine (s : Source) : Option Source := do
  let s ← s.need 1
  let s ← s.skipBlanks
  let s ← if s.head? = some '#' then s.skipToBreak else some s
  if s.atBreak then return (← s.need 2).skipLine
  else if s.head?.isNone then return s
  else none

def skipIndent (indent : Nat) : Nat → Source → Option Source
  | 0, s => some s
  | n + 1, s =>
    if (indent = 0 || s.column < indent) && s.head? = some ' ' then
      match s.skip.need 1 with
      | none => none
      | some s => skipIndent indent n s
    else some s

/-- Reads empty lines: the widest indentation of a line, and the line breaks. -/
def blockBreaks (indent : Nat) :
    Nat → Nat → List Char → Source → Option (Nat × List Char × Source)
  | 0, widest, breaks, s => some (widest, breaks, s)
  | n + 1, widest, breaks, s => do
    let s ← s.need 1
    let s ← skipIndent indent s.total s
    let widest := max widest s.column
    match s.rest with
    | [] => return (widest, breaks, s)
    | c :: _ =>
      if c = '\t' && (indent = 0 || s.column < indent) then none
      else if isBreak c then
        let s ← s.need 2
        blockBreaks indent n widest (breakText c :: breaks) s.skipLine
      else return (widest, breaks, s)

/-- What was read of a block: its text without the last line break, that break, the breaks of the
empty lines behind it, and whether its last line began with a blank. -/
structure BlockText where
  done : List Char := []
  last : Option Char := none
  breaks : List Char := []
  indented : Bool := false

/-- Adds the breaks in front of a line; `indented` tells whether that line begins with a blank. In
a folded block a break between two lines that do not is a blank. -/
def BlockText.join (b : BlockText) (folded indented : Bool) : List Char :=
  if folded && !b.indented && !indented && b.last = some '\n' then
    b.breaks ++ (if b.breaks.isEmpty then ' ' :: b.done else b.done)
  else b.breaks ++ (b.last.toList ++ b.done)

def blockLines (folded : Bool) (column : Nat) :
    Nat → BlockText → Source → Option (BlockText × Source)
  | 0, b, s => some (b, s)
  | n + 1, b, s =>
    if s.column = column && s.head?.isSome then do
      let indented := s.atBlank
      let (done, s) ← s.readWhile (!isBreak ·) s.total (b.join folded indented)
      let s ← s.need 2
      let last := s.head?.map breakText
      let (_, breaks, s) ← blockBreaks column s.total 0 []
        (if s.atBreak then s.skipLine else s)
      blockLines folded column n ⟨done, last, breaks, indented⟩ s
    else some (b, s)

def BlockText.text (b : BlockText) : Chomp → List Char
  | .strip => b.done
  | .clip => b.last.toList ++ b.done
  | .keep => b.breaks ++ (b.last.toList ++ b.done)

/-- Reads a block scalar behind its sign. The first argument is the indentation of what it belongs
to. -/
def blockText (indent : Int) (folded : Bool) (s : Source) : Option (List Char × Source) := do
  let (chomp, added, s) ← blockHeader s
  let s ← endOfLine s
  let given := if added = 0 then 0 else indent.toNat + added
  let (widest, breaks, s) ← blockBreaks given s.total 0 [] s
  let column := if given = 0 then max (max widest (indent + 1).toNat) 1 else given
  let (b, s) ← blockLines folded column s.total { breaks } s
  return (b.text chomp, s)

end Yaml
end LogicScript
