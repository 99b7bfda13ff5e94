/-! Double precision numbers.

A double is its 64 bits. A finite one is `mantissa · 2 ^ exponent`; the operations work on exact
fractions, and the result is rounded to the nearest double, a half going to the even mantissa. -/
namespace LogicScript

structure Binary64 where
  bits : UInt64
  deriving DecidableEq, Repr, Inhabited

namespace Binary64

inductive Class
  | nan
  | infinite (negative : Bool)
  | finite (negative : Bool) (mantissa : Nat) (exponent : Int)
  deriving Repr, DecidableEq

/-- Two to the 52nd: the first bit of a mantissa, which is not written. -/
def hiddenBit : Nat := Nat.pow 2 52

/-- Two to the 63rd: the bit of the sign. -/
def signBit : Nat := Nat.pow 2 63

def classify (x : Binary64) : Class :=
  let bits := x.bits.toNat
  let negative := decide (signBit ≤ bits)
  let biased : Nat := bits / hiddenBit % 2048
  let fraction := bits % hiddenBit
  if biased = 2047 then
    if fraction = 0 then .infinite negative else .nan
  else if biased = 0 then .finite negative fraction (-1074)
  else .finite negative (fraction + hiddenBit) ((biased : Int) - 1075)

def roundDiv (num den : Nat) : Nat :=
  let q := num / den
  let twice := 2 * (num % den)
  if twice < den then q
  else if den < twice then q + 1
  else q + q % 2

/-- `num / den · 2 ^ k` as a fraction of natural numbers. -/
def scale (num den : Nat) (k : Int) : Nat × Nat :=
  if 0 ≤ k then (num * Nat.pow 2 k.toNat, den) else (num, den * Nat.pow 2 (-k).toNat)

/-- The bits of the infinity, which no finite double reaches. -/
def infinityBits : Nat := 2047 * hiddenBit

/-- The exponent at which the mantissa of `num / den` has 53 binary digits, or the least exponent
there is. -/
def exponentOf (num den : Nat) : Int :=
  let guess : Int := (num.log2 : Int) - den.log2 - 52
  let (n, d) := scale num den (-guess)
  let k := if n / d < hiddenBit then guess - 1 else guess
  max k (-1074)

/-- The bits of the double nearest to `num / den`, or `none` if that is beyond the largest one. -/
def nearestBits (num den : Nat) : Option Nat :=
  if num = 0 then some 0
  else
    let k := exponentOf num den
    let (n, d) := scale num den (-k)
    let bits := (k + 1074).toNat * hiddenBit + roundDiv n d
    if bits < infinityBits then some bits else none

def signed (negative : Bool) (bits : Nat) : Binary64 :=
  ⟨UInt64.ofNat (if negative then bits + signBit else bits)⟩

def ofFraction? (negative : Bool) (num den : Nat) : Option Binary64 :=
  (nearestBits num den).map (signed negative)

def infinity (negative : Bool) : Binary64 := signed negative infinityBits

/-- The double nearest to `± num / den`; beyond the largest one it is an infinity. -/
def round (negative : Bool) (num den : Nat) : Binary64 :=
  (ofFraction? negative num den).getD (infinity negative)

/-- The NaN that a text writes, and that a remainder gives where there is none. -/
def nan : Binary64 := ⟨0x7FF8000000000001⟩

/-- The NaN that the other operations give where there is no result. -/
def invalid : Binary64 := ⟨0xFFF8000000000000⟩

/-- The double nearest to an integer of 64 bits, which is always in range. -/
def ofInt (i : Int) : Binary64 := round (decide (i < 0)) i.natAbs 1

def toInt? (x : Binary64) : Option Int :=
  match classify x with
  | .finite negative m e =>
    let (n, d) := scale m 1 e
    if n % d = 0 then
      let i : Int := n / d
      some (if negative then -i else i)
    else none
  | _ => none

def truncate? (x : Binary64) : Option Int :=
  match classify x with
  | .finite negative m e =>
    let (n, d) := scale m 1 e
    let i : Int := n / d
    some (if negative then -i else i)
  | _ => none

def isNaN (x : Binary64) : Bool := classify x == .nan

/-- The place of a number in the order of numbers; both zeros have one place. -/
def rank (x : Binary64) : Int :=
  if signBit ≤ x.bits.toNat then -((x.bits.toNat - signBit : Nat) : Int) else x.bits.toNat

/-- Whether two doubles are the same number. A NaN is none. -/
def equal (x y : Binary64) : Bool := !x.isNaN && !y.isNaN && x.rank == y.rank

def less (x y : Binary64) : Bool := !x.isNaN && !y.isNaN && decide (x.rank < y.rank)

def lessEq (x y : Binary64) : Bool := !x.isNaN && !y.isNaN && decide (x.rank ≤ y.rank)

def signedInt (negative : Bool) (n : Nat) : Int := if negative then -(n : Int) else n

/-- Two mantissas with their exponents brought to the lesser one. -/
def align (m n : Nat) (e f : Int) : Nat × Nat × Int :=
  let least := min e f
  (m * Nat.pow 2 (e - least).toNat, n * Nat.pow 2 (f - least).toNat, least)

/-- The sum. A sum of zero is positive unless both terms are negative. A NaN among the operands
is the result, here and below; of two NaNs it is the left one. -/
def add (x y : Binary64) : Binary64 :=
  match classify x, classify y with
  | .nan, _ => x
  | _, .nan => y
  | .infinite s, .infinite t => if s = t then x else invalid
  | .infinite _, .finite .. => x
  | .finite .., .infinite _ => y
  | .finite s m e, .finite t n f =>
    let (m, n, least) := align m n e f
    let sum := signedInt s m + signedInt t n
    if sum = 0 then signed (s && t) 0
    else
      let (num, den) := scale sum.natAbs 1 least
      round (decide (sum < 0)) num den

def negate (x : Binary64) : Binary64 := ⟨x.bits ^^^ UInt64.ofNat signBit⟩

def subtract (x y : Binary64) : Binary64 := if y.isNaN then add x y else add x y.negate

def multiply (x y : Binary64) : Binary64 :=
  match classify x, classify y with
  | .nan, _ => x
  | _, .nan => y
  | .infinite s, .infinite t => infinity (s != t)
  | .infinite s, .finite t n _ => if n = 0 then invalid else infinity (s != t)
  | .finite s m _, .infinite t => if m = 0 then invalid else infinity (s != t)
  | .finite s m e, .finite t n f =>
    let (num, den) := scale (m * n) 1 (e + f)
    round (s != t) num den

def divide (x y : Binary64) : Binary64 :=
  match classify x, classify y with
  | .nan, _ => x
  | _, .nan => y
  | .infinite _, .infinite _ => invalid
  | .infinite s, .finite t _ _ => infinity (s != t)
  | .finite s _ _, .infinite t => signed (s != t) 0
  | .finite s m e, .finite t n f =>
    if n = 0 then if m = 0 then invalid else infinity (s != t)
    else
      let (num, den) := scale m n (e - f)
      round (s != t) num den

/-- The remainder of division toward zero. It is exact and has the sign of the dividend, a zero
remainder included. -/
def remainder (x y : Binary64) : Binary64 :=
  match classify x, classify y with
  | .nan, _ | _, .nan | .infinite _, _ => nan
  | .finite .., .infinite _ => x
  | .finite s m e, .finite _ n f =>
    if n = 0 then nan
    else
      let (m, n, least) := align m n e f
      let (num, den) := scale (m % n) 1 least
      round s num den

end Binary64
end LogicScript
