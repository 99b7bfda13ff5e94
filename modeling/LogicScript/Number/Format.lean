import LogicScript.Number.Shortest

/-! Texts of numbers.

A double is written with its shortest digits. Three formats differ in the point of a whole number,
in the texts of the infinities and in where scientific notation starts. -/
namespace LogicScript

structure FloatFormat where
  /-- Whether a whole number is written with `.0`. -/
  forcePoint : Bool
  infinity : String
  negativeInfinity : String
  /-- The decimal exponents written positionally; all of them if absent. -/
  positional : Option (Int × Int)
  deriving Repr

namespace FloatFormat

def display : FloatFormat := ⟨true, "Infinity", "-Infinity", none⟩

def datalog : FloatFormat := ⟨false, "+Inf", "-Inf", none⟩

/-- How a message quotes a number: positional from 0.0001 up to, not including, a million. -/
def message : FloatFormat := ⟨false, "+Inf", "-Inf", some (-4, 6)⟩

def zeros (n : Nat) : String := String.ofList (List.replicate n '0')

def positionalText (d : Shortest.Decimal) (forcePoint : Bool) : String :=
  let digits := toString d.digits
  if 0 ≤ d.exponent then
    let whole := digits ++ (if d.digits = 0 then "" else zeros d.exponent.toNat)
    if forcePoint then whole ++ ".0" else whole
  else
    let places := (-d.exponent).toNat
    let padded := zeros (places + 1 - digits.length) ++ digits
    let whole := padded.length - places
    String.ofList (padded.toList.take whole) ++ "." ++ String.ofList (padded.toList.drop whole)

/-- One digit, the others after a point, and an exponent of at least two digits. -/
def scientificText (d : Shortest.Decimal) : String :=
  let digits := (toString d.digits).toList
  let exponent : Int := d.exponent + digits.length - 1
  let rest := digits.drop 1
  let size := toString exponent.natAbs
  String.ofList (digits.take 1) ++ (if rest.isEmpty then "" else "." ++ String.ofList rest)
    ++ (if exponent < 0 then "e-" else "e+") ++ zeros (2 - size.length) ++ size

def write (f : FloatFormat) (x : Binary64) : String :=
  match Binary64.classify x with
  | .nan => "NaN"
  | .infinite negative => if negative then f.negativeInfinity else f.infinity
  | .finite negative m e =>
    let d : Shortest.Decimal := if m = 0 then ⟨0, 0⟩ else Shortest.ofParts m e
    let leading : Int := d.exponent + (toString d.digits).length - 1
    let text := match f.positional with
      | none => positionalText d f.forcePoint
      | some (least, limit) =>
        if least ≤ leading ∧ leading < limit then positionalText d f.forcePoint
        else scientificText d
    if negative then "-" ++ text else text

end FloatFormat
end LogicScript
