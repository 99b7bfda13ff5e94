import LogicScript.Number.Binary64
import LogicScript.Number.Word64
import LogicScript.Text.Quoted

/-! Reading numbers from texts.

An integer is an optional sign and decimal digits. A float is a decimal or hexadecimal literal,
whose digits may be separated by underscores, or a word for an infinity or for NaN. -/
namespace LogicScript

inductive NumberFault
  | invalidSyntax
  | outOfRange
  deriving Repr, DecidableEq

structure NumberError where
  reader : String
  text : String
  fault : NumberFault
  deriving Repr, DecidableEq

def NumberError.message (e : NumberError) : String :=
  "strconv." ++ e.reader ++ ": parsing " ++ Text.quote e.text ++ ": " ++
    match e.fault with
    | .invalidSyntax => "invalid syntax"
    | .outOfRange => "value out of range"

namespace Number

def splitSign : List Char → Bool × List Char
  | '+' :: cs => (false, cs)
  | '-' :: cs => (true, cs)
  | cs => (false, cs)

def decimalDigit? (c : Char) : Option Nat :=
  if '0' ≤ c ∧ c ≤ '9' then some (c.toNat - '0'.toNat) else none

def hexDigit? (c : Char) : Option Nat :=
  if '0' ≤ c ∧ c ≤ '9' then some (c.toNat - '0'.toNat)
  else if 'a' ≤ c ∧ c ≤ 'f' then some (c.toNat - 'a'.toNat + 10)
  else if 'A' ≤ c ∧ c ≤ 'F' then some (c.toNat - 'A'.toNat + 10)
  else none

/-- Reads digits from the left; the first digit that leaves 64 bits ends the reading. -/
def readDigits : Nat → List Char → Except NumberFault Nat
  | n, [] => .ok n
  | n, c :: cs =>
    match decimalDigit? c with
    | none => .error .invalidSyntax
    | some d =>
      if n * 10 + d < Word64.unsignedLimit then readDigits (n * 10 + d) cs
      else .error .outOfRange

def readInteger (text : String) : Except NumberFault Int64 :=
  let (negative, digits) := splitSign text.toList
  if digits.isEmpty then .error .invalidSyntax
  else
    match readDigits 0 digits with
    | .error fault => .error fault
    | .ok n =>
      match Word64.signed? (if negative then -(n : Int) else n) with
      | some i => .ok i
      | none => .error .outOfRange

/-- The digits of a literal so far, and how many of them follow the point. -/
structure Mantissa where
  value : Nat := 0
  places : Nat := 0
  point : Bool := false
  digit : Bool := false
  deriving Repr

def readMantissa (digit? : Char → Option Nat) (base : Nat) :
    Mantissa → List Char → Mantissa × List Char
  | m, [] => (m, [])
  | m, c :: cs =>
    if c = '_' then readMantissa digit? base m cs
    else if c = '.' then
      if m.point then (m, c :: cs) else readMantissa digit? base { m with point := true } cs
    else
      match digit? c with
      | none => (m, c :: cs)
      | some d =>
        readMantissa digit? base
          { m with value := m.value * base + d, digit := true,
                   places := if m.point then m.places + 1 else m.places } cs

/-- The digits of an exponent; from five digits on its size makes no difference. -/
def readExponentDigits : Nat → List Char → Nat × List Char
  | n, [] => (n, [])
  | n, c :: cs =>
    if c = '_' then readExponentDigits n cs
    else
      match decimalDigit? c with
      | none => (n, c :: cs)
      | some d => readExponentDigits (if n < 10000 then n * 10 + d else n) cs

def readExponent (cs : List Char) : Option (Int × List Char) :=
  let (negative, cs) := splitSign cs
  match cs with
  | [] => none
  | c :: _ =>
    if (decimalDigit? c).isNone then none
    else
      let (n, rest) := readExponentDigits 0 cs
      some (if negative then -(n : Int) else n, rest)

/-- What stands left of a character, for the rule of the separators. -/
inductive Left
  | start
  | digit
  | separator
  | other
  deriving DecidableEq

/-- A separator stands between two digits; the mark of a base counts as one. -/
def separated (digit? : Char → Option Nat) : Left → List Char → Bool
  | left, [] => left ≠ .separator
  | left, c :: cs =>
    if (digit? c).isSome then separated digit? .digit cs
    else if c = '_' then left = .digit && separated digit? .separator cs
    else left ≠ .separator && separated digit? .other cs

def decimalValue (negative : Bool) (m : Nat) (e : Int) : Except NumberFault Binary64 :=
  let size : Int := ((m.log2 : Int) + 1) * 30103 / 100000 + e
  if m = 0 ∨ size < -400 then .ok (Binary64.signed negative 0)
  else if 400 < size then .error .outOfRange
  else
    let (num, den) := if 0 ≤ e then (m * Nat.pow 10 e.toNat, 1) else (m, Nat.pow 10 (-e).toNat)
    match Binary64.ofFraction? negative num den with
    | some x => .ok x
    | none => .error .outOfRange

def binaryValue (negative : Bool) (m : Nat) (e : Int) : Except NumberFault Binary64 :=
  let size : Int := (m.log2 : Int) + e
  if m = 0 ∨ size < -1200 then .ok (Binary64.signed negative 0)
  else if 1200 < size then .error .outOfRange
  else
    let (num, den) := Binary64.scale m 1 e
    match Binary64.ofFraction? negative num den with
    | some x => .ok x
    | none => .error .outOfRange

def readDecimal (negative : Bool) (cs : List Char) : Except NumberFault Binary64 :=
  let (m, rest) := readMantissa decimalDigit? 10 {} cs
  if ¬ m.digit ∨ ¬ separated decimalDigit? .start cs then .error .invalidSyntax
  else
    match rest with
    | [] => decimalValue negative m.value (-(m.places : Int))
    | c :: rest =>
      if c.toLower ≠ 'e' then .error .invalidSyntax
      else
        match readExponent rest with
        | some (e, []) => decimalValue negative m.value (e - m.places)
        | _ => .error .invalidSyntax

/-- A hexadecimal literal after its mark; it needs an exponent, which is one of two. -/
def readHexadecimal (negative : Bool) (cs : List Char) : Except NumberFault Binary64 :=
  let (m, rest) := readMantissa hexDigit? 16 {} cs
  if ¬ m.digit ∨ ¬ separated hexDigit? .digit cs then .error .invalidSyntax
  else
    match rest with
    | [] => .error .invalidSyntax
    | c :: rest =>
      if c.toLower ≠ 'p' then .error .invalidSyntax
      else
        match readExponent rest with
        | some (e, []) => binaryValue negative m.value (e - 4 * m.places)
        | _ => .error .invalidSyntax

def readFloat (text : String) : Except NumberFault Binary64 :=
  let cs := text.toList
  let (negative, unsigned) := splitSign cs
  let lower := unsigned.map Char.toLower
  if lower = "inf".toList ∨ lower = "infinity".toList then .ok (Binary64.infinity negative)
  else if cs.map Char.toLower = "nan".toList then .ok Binary64.nan
  else
    match unsigned with
    | '0' :: x :: c :: rest =>
      if x.toLower = 'x' then readHexadecimal negative (c :: rest)
      else readDecimal negative unsigned
    | _ => readDecimal negative unsigned

end Number

def readInt64 (text : String) : Except NumberError Int64 :=
  (Number.readInteger text).mapError fun fault => ⟨"ParseInt", text, fault⟩

def readFloat64 (text : String) : Except NumberError Binary64 :=
  (Number.readFloat text).mapError fun fault => ⟨"ParseFloat", text, fault⟩

end LogicScript
