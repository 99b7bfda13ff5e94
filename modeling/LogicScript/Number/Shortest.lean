import LogicScript.Number.Binary64

/-! The fewest decimal digits that read back as a given double.

Every real in an interval around `mantissa · 2 ^ exponent` rounds to it. On the grids of one, two,
three, … digits the value has two neighbours; the first grid with a neighbour in the interval gives
the digits, the nearer neighbour if both are in it, the even one if they are equally near. -/
namespace LogicScript
namespace Shortest

/-- `digits · 10 ^ exponent`, the digits written without trailing zeros. -/
structure Decimal where
  digits : Nat
  exponent : Int
  deriving Repr, DecidableEq

/-- A positive double with the ends of its rounding interval, over one denominator. -/
structure Interval where
  value : Nat
  low : Nat
  high : Nat
  den : Nat
  closed : Bool
  deriving Repr

def interval (mantissa : Nat) (exponent : Int) : Interval :=
  let (n, d) := Binary64.scale mantissa 1 exponent
  let (one, _) := Binary64.scale 1 1 exponent
  let below := if mantissa = Binary64.hiddenBit ∧ exponent ≠ -1074 then one else 2 * one
  { value := 4 * n, low := 4 * n - below, high := 4 * n + 2 * one, den := 4 * d,
    closed := mantissa % 2 = 0 }

def Interval.admits (i : Interval) (digits : Nat) (e : Int) : Bool :=
  let (x, scaled) := if 0 ≤ e then (digits * Nat.pow 10 e.toNat * i.den, 1)
    else (digits * i.den, Nat.pow 10 (-e).toNat)
  if i.closed then i.low * scaled ≤ x && x ≤ i.high * scaled
  else i.low * scaled < x && x < i.high * scaled

def Interval.units (i : Interval) (e : Int) : Nat × Nat :=
  if 0 ≤ e then (i.value, i.den * Nat.pow 10 e.toNat)
  else (i.value * Nat.pow 10 (-e).toNat, i.den)

/-- The neighbour on the grid of `10 ^ e` that reads back, if there is one. -/
def Interval.onGrid? (i : Interval) (e : Int) : Option Nat :=
  let (n, d) := i.units e
  let near := Binary64.roundDiv n d
  let down := n / d
  let far := if near = down then down + 1 else down
  if i.admits near e then some near
  else if i.admits far e then some far
  else none

/-- The number of decimal digits of the integer part of `num / den`, with a nonpositive count of
leading zeros for a value below one. -/
def magnitude (num den : Nat) : Int :=
  let guess : Int := ((num.log2 : Int) - den.log2) * 30103 / 100000
  let reaches (k : Int) : Bool :=
    if 0 ≤ k then decide (den * Nat.pow 10 k.toNat ≤ num)
    else decide (den ≤ num * Nat.pow 10 (-k).toNat)
  if reaches (guess + 1) then guess + 2
  else if reaches guess then guess + 1
  else if reaches (guess - 1) then guess
  else guess - 1

def search (i : Interval) (top : Int) : Nat → Nat → Option Decimal
  | 0, _ => none
  | left + 1, count =>
    match i.onGrid? (top - count) with
    | some digits => some ⟨digits, top - count⟩
    | none => search i top left (count + 1)

/-- Drops trailing zeros; a number of at most eighteen digits has at most eighteen of them. -/
def trim : Nat → Decimal → Decimal
  | 0, d => d
  | n + 1, d =>
    if d.digits ≠ 0 ∧ d.digits % 10 = 0 then trim n ⟨d.digits / 10, d.exponent + 1⟩ else d

/-- The shortest decimal of a positive double; seventeen digits always suffice. -/
def ofParts (mantissa : Nat) (exponent : Int) : Decimal :=
  let i := interval mantissa exponent
  trim 18 ((search i (magnitude i.value i.den) 17 1).getD ⟨mantissa, 0⟩)

end Shortest
end LogicScript
