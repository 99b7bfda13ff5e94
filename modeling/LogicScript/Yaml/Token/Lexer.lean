import LogicScript.Yaml.Token.Tag

/-! From the characters of a YAML text to its tokens.

A token may turn out to be a key only when a colon is found behind it. Until then it is remembered
as a possible key; the colon puts the token of a key in front of it, and the beginning of a block
mapping if the key stands further right than the lines before. -/
namespace LogicScript
namespace Yaml

/-- A token that may be a key, and the place it begins at. In a block a token that begins a line in
the column of a mapping has to be one. -/
structure PossibleKey where
  token : Nat
  required : Bool
  index : Nat
  line : Nat
  column : Nat

structure Lexer where
  source : Source
  /-- The tokens so far, the last one first, and their number. -/
  tokens : List Token := []
  count : Nat := 0
  /-- How many flow collections are open. -/
  flow : Nat := 0
  /-- The column of the innermost block collection, and those of the ones around it. -/
  indent : Int := -1
  outerIndents : List Int := []
  /-- Whether a key may begin here. -/
  keyAllowed : Bool := true
  /-- The possible key of the innermost flow collection, and those of the ones around it. -/
  key : Option PossibleKey := none
  outerKeys : List (Option PossibleKey) := []

def maxNesting : Nat := 10000

def keyReach : Nat := 1024

/-- The columns of the block collections that stay, innermost first, when those right of a column
end, and the number of those that end. -/
def unroll (column : Int) : Int → List Int → Nat → Int × List Int × Nat
  | indent, [], ended => (indent, [], ended)
  | indent, outer :: rest, ended =>
    if column < indent then unroll column outer rest (ended + 1)
    else (indent, outer :: rest, ended)

namespace Lexer

def push (l : Lexer) (t : Token) : Lexer :=
  { l with tokens := t :: l.tokens, count := l.count + 1 }

def insert (l : Lexer) (position : Nat) (t : Token) : Lexer :=
  { l with tokens := l.tokens.insertIdx (l.count - position) t, count := l.count + 1 }

/-- Ends the block collections right of a column; in a flow collection columns mean nothing. -/
def endBlocks (l : Lexer) (column : Int) : Lexer :=
  if l.flow ≠ 0 then l
  else
    let (indent, outerIndents, ended) := unroll column l.indent l.outerIndents 0
    Nat.repeat (·.push .blockEnd) ended { l with indent, outerIndents }

/-- Begins a block collection in a column right of the innermost one, with its token at a
position. -/
def beginBlock (l : Lexer) (column position : Nat) (t : Token) : Option Lexer :=
  if l.flow ≠ 0 || (column : Int) ≤ l.indent then some l
  else if maxNesting ≤ l.outerIndents.length then none
  else
    some ({ l with indent := column, outerIndents := l.indent :: l.outerIndents }.insert position t)

def isStale (l : Lexer) (k : PossibleKey) : Bool :=
  k.line < l.source.line || k.index + keyReach < l.source.index

/-- Gives up the possible key, unless it has to be one. -/
def dropKey (l : Lexer) : Option Lexer :=
  match l.key with
  | none => some l
  | some k => if k.required then none else some { l with key := none }

/-- Remembers the next token as a possible key, if one may begin here. -/
def saveKey (l : Lexer) : Option Lexer :=
  if l.keyAllowed then
    l.dropKey.map fun l =>
      { l with
        key := some
          { token := l.count
            required := l.flow = 0 && l.indent = l.source.column
            index := l.source.index, line := l.source.line, column := l.source.column } }
  else some l

def sign (l : Lexer) (t : Token) : Lexer := { l with source := l.source.skip }.push t

def token (l : Lexer) (read : Token × Source) : Lexer := { l with source := read.2 }.push read.1

/-! The tokens. -/

def streamEnd (l : Lexer) : Option Lexer := do
  let s := l.source
  let l := if s.column = 0 then l
    else { l with source := { s with line := s.line + 1, column := 0 } }
  let l ← (l.endBlocks (-1)).dropKey
  return { l with keyAllowed := false }.push .streamEnd

def directive (l : Lexer) : Option Lexer := do
  let l ← (l.endBlocks (-1)).dropKey
  return { l with keyAllowed := false }.token (← scanDirective l.source)

def marker (l : Lexer) (t : Token) : Option Lexer := do
  let l ← (l.endBlocks (-1)).dropKey
  return { l with keyAllowed := false, source := l.source.skip.skip.skip }.push t

def openFlow (l : Lexer) (t : Token) : Option Lexer := do
  let l ← l.saveKey
  if maxNesting ≤ l.flow then none
  return { l with
    flow := l.flow + 1, key := none, outerKeys := l.key :: l.outerKeys, keyAllowed := true }.sign t

def closeFlow (l : Lexer) (t : Token) : Option Lexer := do
  let l ← l.dropKey
  let l := match l.outerKeys with
    | [] => l
    | key :: outerKeys => { l with flow := l.flow - 1, key, outerKeys }
  return { l with keyAllowed := false }.sign t

def flowEntry (l : Lexer) : Option Lexer := do
  let l ← l.dropKey
  return { l with keyAllowed := true }.sign .flowEntry

def blockEntry (l : Lexer) : Option Lexer := do
  if l.flow = 0 && !l.keyAllowed then none
  let l ← l.beginBlock l.source.column l.count .blockSequenceStart
  let l ← l.dropKey
  return { l with keyAllowed := true }.sign .blockEntry

def explicitKey (l : Lexer) : Option Lexer := do
  if l.flow = 0 && !l.keyAllowed then none
  let l ← l.beginBlock l.source.column l.count .blockMappingStart
  let l ← l.dropKey
  return { l with keyAllowed := l.flow = 0 }.sign .key

def explicitValue (l : Lexer) : Option Lexer := do
  if l.flow = 0 && !l.keyAllowed then none
  let l ← l.beginBlock l.source.column l.count .blockMappingStart
  return { l with keyAllowed := l.flow = 0 }.sign .value

/-- The colon behind a possible key, which is one therefore. -/
def valueOf (l : Lexer) (k : PossibleKey) : Option Lexer := do
  let l := { l with key := none }.insert k.token .key
  let l ← l.beginBlock k.column k.token .blockMappingStart
  return { l with keyAllowed := false }.sign .value

def value (l : Lexer) : Option Lexer :=
  match l.key with
  | none => l.explicitValue
  | some k =>
    if !l.isStale k then l.valueOf k
    else if k.required then none
    else { l with key := none }.explicitValue

/-- A token that may be a key and that none can follow in its line. -/
def keyed (l : Lexer) (read : Source → Option (Token × Source)) : Option Lexer := do
  let l ← l.saveKey
  return { l with keyAllowed := false }.token (← read l.source)

def plainScalar (l : Lexer) : Option Lexer := do
  let l ← l.saveKey
  let flow := l.flow ≠ 0
  let (text, ended, s) ←
    plainText flow (l.indent + 1).toNat l.source.total [] {} l.source
  return { l with keyAllowed := ended }.token (.scalar true (ofReversed text), s)

def quotedScalar (l : Lexer) (single : Bool) : Option Lexer :=
  l.keyed fun s =>
    (quotedText single s.total [] s.skip).map fun (text, s) => (.scalar false (ofReversed text), s)

def blockScalar (l : Lexer) (folded : Bool) : Option Lexer := do
  let l ← l.dropKey
  let (text, s) ← blockText l.indent folded l.source.skip
  return { l with keyAllowed := true }.token (.scalar false (ofReversed text), s)

/-- The characters that begin no unquoted scalar. -/
def indicators : List Char := "-?:,[]\x7b\x7d#&*!|>'\"%@`".toList

def startsPlain (l : Lexer) : Bool :=
  let s := l.source
  !(s.blankAt 0 || s.atOneOf indicators) || (s.head? = some '-' && !s.blankAt 1)
    || (l.flow = 0 && s.atOneOf ['?', ':'] && !s.blankAt 1)

/-- The token at a character, other than those that only a line can begin with. -/
def fetch (l : Lexer) (c : Char) : Option Lexer :=
  let blank := l.source.blankAt 1
  let flow := l.flow ≠ 0
  if c = '[' then l.openFlow .flowSequenceStart
  else if c = '\x7b' then l.openFlow .flowMappingStart
  else if c = ']' then l.closeFlow .flowSequenceEnd
  else if c = '\x7d' then l.closeFlow .flowMappingEnd
  else if c = ',' then l.flowEntry
  else if c = '-' && blank then l.blockEntry
  else if c = '?' && (flow || blank) then l.explicitKey
  else if c = ':' && (flow || blank) then l.value
  else if c = '*' then l.keyed fun s => (anchorName s.skip).map fun (a, s) => (.alias a, s)
  else if c = '&' then l.keyed fun s => (anchorName s.skip).map fun (a, s) => (.anchor a, s)
  else if c = '!' then l.keyed scanTag
  else if c = '|' && !flow then l.blockScalar false
  else if c = '>' && !flow then l.blockScalar true
  else if c = '\x27' then l.quotedScalar true
  else if c = '"' then l.quotedScalar false
  else if l.startsPlain then l.plainScalar
  else none

/-- Goes on to the next token. In a block a tab is skipped only where no key may begin. A new line
may begin with a key. If the characters at hand begin with an order mark, the first character of
every line is passed over. -/
def skipToToken : Nat → Lexer → Option Lexer
  | 0, l => some l
  | n + 1, l => do
    let s ← l.source.need 1
    let s := if s.column = 0 && s.marked then s.skip else s
    let s ← s.need 1
    let tabs := l.flow ≠ 0 || !l.keyAllowed
    let s ← s.skipWhile (fun c => c = ' ' || (tabs && c = '\t')) s.total
    let s ← if s.head? = some '#' then s.skipComments s.total else some s
    if s.atBreak then
      let s ← s.need 2
      skipToToken n { l with source := s.skipLine, keyAllowed := l.keyAllowed || l.flow = 0 }
    else return { l with source := s }

/-- Reads one token, with the ends of blocks in front of it and the comment behind it in its line.
The comment behind the sign of an entry belongs to the entry. -/
def step (l : Lexer) : Option Lexer := do
  let l ← skipToToken (l.source.total + 1) l
  let l := l.endBlocks l.source.column
  let s ← l.source.need 4
  let l := { l with source := s }
  match s.rest with
  | [] => l.streamEnd
  | c :: _ =>
    if s.column = 0 && c = '%' then l.directive
    else if s.atMarker then l.marker (if c = '-' then .documentStart else .documentEnd)
    else
      let l ← l.fetch c
      if l.tokens.head? = some .blockEntry then return l
      return { l with source := ← l.source.skipLineComment }

/-- Reads tokens up to the end of the text or up to what is none; tells whether the end was
reached. -/
def run : Nat → Lexer → Lexer × Bool
  | 0, l => (l, false)
  | n + 1, l =>
    match l.step with
    | none => (l, false)
    | some l => if l.tokens.head? = some .streamEnd then (l, true) else run n l

def openKeys (l : Lexer) : List Nat :=
  ((l.key :: l.outerKeys).filterMap id).filterMap fun k =>
    if k.required || !l.isStale k then some k.token else none

/-- How many tokens are looked at behind the one that is asked for. -/
def lookahead : Nat := 2

/-- The tokens that are known before reading on fails: the tokens behind them that are looked at
are there, and it is settled whether they are keys. -/
def known (l : Lexer) : List Token :=
  l.tokens.reverse.take (l.openKeys.foldl min (l.count - lookahead))

end Lexer

def tokens (text : String) : List Token :=
  let s := Source.ofText text
  let (l, complete) := Lexer.run (s.total + 2) { source := s }
  if complete then l.tokens.reverse else l.known

end Yaml
end LogicScript
