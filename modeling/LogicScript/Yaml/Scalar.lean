import LogicScript.Document
import LogicScript.Text.Base64

/-! What a scalar of a YAML text stands for. -/
namespace LogicScript
namespace Yaml

def digitsTo (base : Nat) (cs : List Char) : Option Nat :=
  if cs.isEmpty then none
  else cs.foldl (fun n c => do
    let n ← n
    let d ← Number.hexDigit? c
    if d < base then some (n * base + d) else none) (some 0)

/-- An integer without its sign: to base two, eight, ten or sixteen by its mark. A zero in front
marks base eight. -/
def magnitude? : List Char → Option Nat
  | ['0'] => some 0
  | '0' :: c :: rest =>
    if c.toLower = 'x' then digitsTo 16 rest
    else if c.toLower = 'b' then digitsTo 2 rest
    else if c.toLower = 'o' then digitsTo 8 rest
    else digitsTo 8 (c :: rest)
  | cs => digitsTo 10 cs

/-- The sign of an integer behind the mark of base two or eight, moved to its front. -/
def signFirst : List Char → List Char
  | '0' :: 'b' :: '-' :: rest => '-' :: '0' :: 'b' :: rest
  | '0' :: 'b' :: '+' :: rest => '+' :: '0' :: 'b' :: rest
  | '0' :: 'o' :: '-' :: rest => '-' :: '0' :: 'o' :: rest
  | '0' :: 'o' :: '+' :: rest => '+' :: '0' :: 'o' :: rest
  | cs => cs

/-- An integer that has 64 bits, signed if it fits and else unsigned. -/
def integer? (cs : List Char) : Option Numeral := do
  let cs := signFirst cs
  let (negative, unsigned) := Number.splitSign cs
  let signed := match cs with
    | '+' :: _ | '-' :: _ => true
    | _ => false
  let n ← magnitude? unsigned
  match Word64.signed? (if negative then -(n : Int) else n) with
  | some i => some (.int i)
  | none => if signed then none else (Word64.unsigned? n).map .uint

def isDigits (cs : List Char) : Bool := cs.all fun c => '0' ≤ c ∧ c ≤ '9'

/-- Whether the text is a decimal with at least one digit in front of the point or behind it, and
perhaps an exponent. -/
def isFloat (cs : List Char) : Bool :=
  let (_, cs) := Number.splitSign cs
  let (whole, rest) := cs.span fun c => '0' ≤ c ∧ c ≤ '9'
  let (places, rest, point) := match rest with
    | '.' :: rest =>
      let (ds, rest) := rest.span fun c => '0' ≤ c ∧ c ≤ '9'
      (ds, rest, true)
    | rest => ([], rest, false)
  let mantissa := !whole.isEmpty || (point && !places.isEmpty)
  let exponent := match rest with
    | [] => true
    | e :: rest =>
      let (_, ds) := Number.splitSign rest
      e.toLower = 'e' && !ds.isEmpty && isDigits ds
  mantissa && exponent

def shortNumber (cs : List Char) : Option (Nat × List Char) :=
  match cs with
  | a :: b :: rest =>
    match Number.decimalDigit? a, Number.decimalDigit? b with
    | some x, some y => some (x * 10 + y, rest)
    | some x, none => some (x, b :: rest)
    | none, _ => none
  | [a] => (Number.decimalDigit? a).map (·, [])
  | [] => none

def isLeap (year : Nat) : Bool := year % 4 = 0 ∧ (year % 100 ≠ 0 ∨ year % 400 = 0)

def daysOf (year month : Nat) : Nat :=
  match month with
  | 4 | 6 | 9 | 11 => 30
  | 2 => if isLeap year then 29 else 28
  | _ => 31

/-- A zone: `Z`, or hours and minutes from it. -/
def isZone : List Char → Bool
  | ['Z'] => true
  | [sign, a, b, ':', c, d] =>
    (sign = '+' || sign = '-') && (digitsTo 10 [a, b]).any (· ≤ 24)
      && (digitsTo 10 [c, d]).any (· ≤ 60)
  | _ => false

def afterFraction (cs : List Char) : List Char :=
  match cs with
  | point :: c :: rest =>
    if (point = '.' || point = ',') && isDigits [c] then rest.dropWhile (fun c => isDigits [c])
    else cs
  | cs => cs

def isClock (zoned : Bool) (cs : List Char) : Bool :=
  match shortNumber cs with
  | some (hour, ':' :: cs) =>
    match shortNumber cs with
    | some (minute, ':' :: cs) =>
      match shortNumber cs with
      | some (second, cs) =>
        let rest := afterFraction cs
        hour < 24 && minute < 60 && second < 60 && (if zoned then isZone rest else rest.isEmpty)
      | none => false
    | _ => false
  | _ => false

def isTime (cs : List Char) : Bool :=
  let (year, rest) := cs.span fun c => '0' ≤ c ∧ c ≤ '9'
  match year.length, rest with
  | 4, '-' :: rest =>
    match shortNumber rest with
    | some (month, '-' :: rest) =>
      match shortNumber rest with
      | some (day, rest) =>
        let y := (digitsTo 10 year).getD 0
        let valid := 1 ≤ month && month ≤ 12 && 1 ≤ day && day ≤ daysOf y month
        valid && match rest with
          | [] => true
          | 'T' :: clock | 't' :: clock => isClock true clock
          | ' ' :: clock => isClock false (clock.dropWhile (· = ' '))
          | _ => false
      | none => false
    | _ => false
  | _, _ => false

/-- What begins like a number: an integer, a float or a time. -/
def numeric? (s : String) : Option Document :=
  let plain := s.toList.filter (· ≠ '_')
  if isTime s.toList then some (.time s)
  else
    match integer? plain with
    | some n => some (.number n)
    | none =>
      if isFloat plain then
        (Number.readFloat (String.ofList plain)).toOption.map fun x => .number (.float x)
      else none

def resolve (s : String) : Document :=
  if ["", "~", "null", "Null", "NULL"].contains s then .null
  else if ["true", "True", "TRUE"].contains s then .bool true
  else if ["false", "False", "FALSE"].contains s then .bool false
  else if [".nan", ".NaN", ".NAN"].contains s then .number (.float Binary64.nan)
  else if [".inf", ".Inf", ".INF", "+.inf", "+.Inf", "+.INF"].contains s then
    .number (.float (Binary64.infinity false))
  else if ["-.inf", "-.Inf", "-.INF"].contains s then .number (.float (Binary64.infinity true))
  else
    match s.toList with
    | '.' :: _ =>
      match Number.readFloat s with
      | .ok x => .number (.float x)
      | .error _ => .text s
    | c :: _ =>
      if c = '+' || c = '-' || isDigits [c] then (numeric? s).getD (.text s) else .text s
    | [] => .null

/-! Tags. -/

/-- What tells how the text of a scalar is taken: it may stand for something else, it is a text, or
it has a tag. -/
inductive ScalarForm
  | plain
  | text
  | tagged (tag : String)
  deriving DecidableEq, Repr, Inhabited

def valueTags : List String := ["!!null", "!!bool", "!!int", "!!float", "!!timestamp"]

/-- The value of a scalar with a tag. An integer is also a float; a tag that is unknown makes a
text. -/
def taggedValue? (tag text : String) : Option Document :=
  match tag, resolve text with
  | "!!null", .null => some .null
  | "!!bool", .bool b => some (.bool b)
  | "!!int", .number (.int i) => some (.number (.int i))
  | "!!int", .number (.uint u) => some (.number (.uint u))
  | "!!float", .number (.float x) => some (.number (.float x))
  | "!!float", .number (.int i) => some (.number (.float (Binary64.ofInt i.toInt)))
  | "!!timestamp", .time t => some (.time t)
  | "!!binary", _ => (Text.base64? text).map fun bytes => .text (Text.ofBytes bytes)
  | _, _ => if valueTags.contains tag then none else some (.text text)

namespace ScalarForm

/-- The form of a scalar, unquoted or not. The tag that is nothing but its mark is none. -/
def ofTag (plain : Bool) : Option String → ScalarForm
  | none | some "!" => if plain then .plain else .text
  | some "!!str" => .text
  | some tag => .tagged tag

def value? : ScalarForm → String → Option Document
  | .plain, s => some (resolve s)
  | .text, s => some (.text s)
  | .tagged tag, s => taggedValue? tag s

/-- The sign of a key whose value is merged into the mapping. -/
def mergeSign : String := "<<"

def mergeTag : String := "!!merge"

def isMerge : ScalarForm → String → Bool
  | .plain, s => s = mergeSign
  | .text, _ => false
  | .tagged tag, s => tag = mergeTag && s = mergeSign

/-- Whether a scalar is a text by its form, as the keys of a mapping of names are. -/
def isName : ScalarForm → String → Bool
  | .plain, s =>
    match resolve s with
    | .text _ => true
    | _ => false
  | .text, _ => true
  | .tagged tag, _ => tag = mergeTag

end ScalarForm

end Yaml
end LogicScript
