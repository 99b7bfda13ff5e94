import LogicScript.Eval.Operator
import LogicScript.Number.Word64
import Mathlib.Data.Int.ModEq
import Mathlib.Data.Rat.Floor
import Mathlib.Tactic.Linarith
import Mathlib.Tactic.Positivity

/-! The arithmetic of Ints.

Ints have 64 bits. Sums, differences and products are exact modulo two to the 64th. Division goes toward
zero, and only a division by zero fails. A single quotient is no integer of 64 bits, that of the least
integer by -1. It wraps around as well, and so quotient times divisor plus remainder gives the dividend
back in every case. -/
namespace LogicScript

namespace Number

/-- A number without its fraction. -/
def towardZero (x : ℚ) : Int := if 0 ≤ x then ⌊x⌋ else ⌈x⌉

theorem towardZero_neg (x : ℚ) : towardZero (-x) = -towardZero x := by
  unfold towardZero
  obtain hx | rfl | hx := lt_trichotomy x 0
  · rw [if_pos (by linarith), if_neg (not_le.mpr hx), Int.floor_neg]
  · simp
  · rw [if_neg (by linarith), if_pos hx.le, Int.ceil_neg]

theorem towardZero_div (a b : Int) : towardZero ((a : ℚ) / b) = a.tdiv b := by
  have hnat : ∀ m n : Nat, towardZero (m / n) = (m : Int).tdiv n := by
    intro m n
    rw [towardZero, if_pos (by positivity), Rat.floor_natCast_div_natCast, ← Int.ofNat_tdiv]
    rfl
  obtain ⟨m, rfl | rfl⟩ := a.eq_nat_or_neg <;> obtain ⟨n, rfl | rfl⟩ := b.eq_nat_or_neg <;>
    simp [neg_div, div_neg, towardZero_neg, hnat, Int.neg_tdiv, Int.tdiv_neg]

end Number

namespace Word64

variable {x y l r q m : Int64} {i j : Int}

/-- Of the integers of 64 bits, `x` is the one that is `i` modulo two to the 64th. -/
structure Represents (x : Int64) (i : Int) : Prop where
  modEq : x.toInt ≡ i [ZMOD unsignedLimit]
  lower : -(signedLimit : Int) ≤ x.toInt
  upper : x.toInt < signedLimit

/-- Every integer is represented, and by one only. -/
theorem represents_iff : Represents x i ↔ x = Int64.ofInt i := by
  rw [eq_comm, Int64.ofInt_eq_iff_bmod_eq_toInt]
  constructor
  · intro h
    calc i.bmod unsignedLimit = (i % unsignedLimit).bmod unsignedLimit := (Int.emod_bmod i _).symm
      _ = (x.toInt % unsignedLimit).bmod unsignedLimit := congrArg (Int.bmod · _) h.modEq.symm
      _ = x.toInt.bmod unsignedLimit := Int.emod_bmod x.toInt _
      _ = x.toInt := x.toInt_bmod
  · intro h
    refine ⟨?_, x.le_toInt, x.toInt_lt⟩
    rw [← h]
    exact Int.bmod_emod

theorem represents_toInt (x : Int64) : Represents x x.toInt :=
  represents_iff.mpr x.ofInt_toInt.symm

namespace Represents

theorem unique (hx : Represents x i) (hy : Represents y i) : x = y :=
  (represents_iff.mp hx).trans (represents_iff.mp hy).symm

theorem add (hx : Represents x i) (hy : Represents y j) : Represents (x + y) (i + j) := by
  rw [represents_iff] at hx hy ⊢
  rw [hx, hy, Int64.ofInt_add]

theorem sub (hx : Represents x i) (hy : Represents y j) : Represents (x - y) (i - j) := by
  rw [represents_iff] at hx hy ⊢
  rw [hx, hy, Int64.ofInt_sub]

theorem mul (hx : Represents x i) (hy : Represents y j) : Represents (x * y) (i * j) := by
  rw [represents_iff] at hx hy ⊢
  rw [hx, hy, Int64.ofInt_mul]

end Represents

theorem represents_mul_add_iff :
    Represents l (q.toInt * r.toInt + m.toInt) ↔ q * r + m = l := by
  have h := ((represents_toInt q).mul (represents_toInt r)).add (represents_toInt m)
  exact ⟨fun hl => h.unique hl, fun hl => hl ▸ h⟩

theorem represents_div (l r : Int64) : Represents (l / r) (l.toInt.tdiv r.toInt) := by
  rw [represents_iff, eq_comm, Int64.ofInt_eq_iff_bmod_eq_toInt, Int64.toInt_div]

theorem div_mul_add_mod (l r : Int64) : l / r * r + l % r = l := by
  have h := ((represents_div l r).mul (represents_toInt r)).add (represents_toInt (l % r))
  rw [Int64.toInt_mod, Int.tdiv_mul_add_tmod] at h
  exact h.unique (represents_toInt l)

/-- The quotient is exact wherever it is an integer of 64 bits. -/
theorem toInt_div_of_fits (h : ¬(l = Int64.minValue ∧ r = -1)) :
    (l / r).toInt = Number.towardZero ((l.toInt : ℚ) / r.toInt) := by
  rw [Number.towardZero_div]
  obtain hl | hr := not_and_or.mp h
  · exact Int64.toInt_div_of_ne_left l r hl
  · exact Int64.toInt_div_of_ne_right l r hr

theorem abs_toInt_mod_lt (l : Int64) (hr : r ≠ 0) : |(l % r).toInt| < |r.toInt| := by
  have hpos : 0 < r.toInt.natAbs := Int.natAbs_pos.mpr fun h => hr (Int64.toInt_inj.mp h)
  rw [Int64.toInt_mod, Int.abs_eq_natAbs, Int.abs_eq_natAbs, Int.natAbs_tmod]
  exact_mod_cast Nat.mod_lt _ hpos

theorem sign_toInt_mod (l r : Int64) : l % r = 0 ∨ (l % r).toInt.sign = l.toInt.sign := by
  rw [← Int64.toInt_inj, Int64.toInt_mod, Int.sign_tmod]
  by_cases hdvd : r.toInt ∣ l.toInt
  · exact .inl (Int.tmod_eq_zero_of_dvd hdvd)
  · exact .inr (if_neg hdvd)

/-- In 64 bits, `l` divided by `r` is `q`, and `m` remains. The least integer by -1 would be two to the
63rd, which wraps around to the least integer. -/
structure IsDivision (l r q m : Int64) : Prop where
  restored : Represents l (q.toInt * r.toInt + m.toInt)
  remainder_small : |m.toInt| < |r.toInt|
  remainder_sign : m = 0 ∨ m.toInt.sign = l.toInt.sign
  quotient : ¬(l = Int64.minValue ∧ r = -1) →
    q.toInt = Number.towardZero ((l.toInt : ℚ) / r.toInt)
  overflow : l = Int64.minValue ∧ r = -1 → q = Int64.minValue ∧ m = 0

theorem IsDivision.quotient_eq (h : IsDivision l r q m) : q = l / r := by
  by_cases hover : l = Int64.minValue ∧ r = -1
  · obtain ⟨rfl, rfl⟩ := hover
    exact (h.overflow ⟨rfl, rfl⟩).1.trans Int64.minValue_div_neg_one.symm
  · exact Int64.toInt_inj.mp ((h.quotient hover).trans (toInt_div_of_fits hover).symm)

theorem IsDivision.remainder_eq (h : IsDivision l r q m) : m = l % r := by
  have hsum : l / r * r + m = l / r * r + l % r :=
    calc l / r * r + m = q * r + m := by rw [h.quotient_eq]
      _ = l := represents_mul_add_iff.mp h.restored
      _ = l / r * r + l % r := (div_mul_add_mod l r).symm
  exact (Int64.add_right_inj _).mp hsum

theorem isDivision_iff (hr : r ≠ 0) : IsDivision l r q m ↔ q = l / r ∧ m = l % r := by
  constructor
  · exact fun h => ⟨h.quotient_eq, h.remainder_eq⟩
  · rintro ⟨rfl, rfl⟩
    exact {
      restored := represents_mul_add_iff.mpr (div_mul_add_mod l r)
      remainder_small := abs_toInt_mod_lt l hr
      remainder_sign := sign_toInt_mod l r
      quotient := toInt_div_of_fits
      overflow := by
        rintro ⟨rfl, rfl⟩
        exact ⟨Int64.minValue_div_neg_one, rfl⟩ }

end Word64

namespace Operator

open Word64

/-- The operators on Ints fail for arithmetic reasons if and only if an Int is divided by zero. -/
theorem onInts_arithmetic_iff {op : BinaryOp} {left right : Value} :
    (∃ c, onInts op left right = .error c ∧ c.kind = .arithmetic) ↔
      (op = .divide ∨ op = .remain) ∧ ∃ l, left = .int l ∧ right = .int 0 := by
  constructor
  · rintro ⟨c, hc, hkind⟩
    unfold onInts at hc
    repeat' split at hc
    all_goals cases hc
    -- what is left is a divisor of zero, and faults of other kinds
    all_goals simp_all [Cause.kind]
  · rintro ⟨rfl | rfl, l, rfl, rfl⟩
    · exact ⟨_, rfl, rfl⟩
    · exact ⟨_, rfl, rfl⟩

/-- The operators on Ints are exact modulo two to the 64th. A division fails, as an arithmetic fault,
if and only if the divisor is zero; else it goes toward zero. -/
theorem int_arithmetic (l r : Int64) :
    (∃ v, onInts .add (.int l) (.int r) = .ok (.int v) ∧ Represents v (l.toInt + r.toInt)) ∧
    (∃ v, onInts .subtract (.int l) (.int r) = .ok (.int v) ∧ Represents v (l.toInt - r.toInt)) ∧
    (∃ v, onInts .multiply (.int l) (.int r) = .ok (.int v) ∧ Represents v (l.toInt * r.toInt)) ∧
    ((∃ c, onInts .divide (.int l) (.int r) = .error c ∧ c.kind = .arithmetic) ↔ r = 0) ∧
    ((∃ c, onInts .remain (.int l) (.int r) = .error c ∧ c.kind = .arithmetic) ↔ r = 0) ∧
    (r ≠ 0 → ∃ q m, onInts .divide (.int l) (.int r) = .ok (.int q) ∧
      onInts .remain (.int l) (.int r) = .ok (.int m) ∧ IsDivision l r q m) := by
  have hl := represents_toInt l
  have hr := represents_toInt r
  refine ⟨⟨_, rfl, hl.add hr⟩, ⟨_, rfl, hl.sub hr⟩, ⟨_, rfl, hl.mul hr⟩, ?_, ?_, ?_⟩
  · rw [onInts_arithmetic_iff]
    simp
  · rw [onInts_arithmetic_iff]
    simp
  · intro hzero
    exact ⟨l / r, l % r, if_neg hzero, if_neg hzero, (isDivision_iff hzero).mpr ⟨rfl, rfl⟩⟩

/-- The least integer divided by -1 is the least integer, and nothing remains. -/
theorem leastInt_arithmetic : (-1 : Int64) ≠ 0 ∧ ∃ q m,
    onInts .divide (.int Int64.minValue) (.int (-1)) = .ok (.int q) ∧
      onInts .remain (.int Int64.minValue) (.int (-1)) = .ok (.int m) ∧
      q = Int64.minValue ∧ m = 0 := by
  have hdivisor : (-1 : Int64) ≠ 0 := by decide
  obtain ⟨-, -, -, -, -, hdivision⟩ := int_arithmetic Int64.minValue (-1)
  obtain ⟨q, m, hq, hm, h⟩ := hdivision hdivisor
  exact ⟨hdivisor, q, m, hq, hm, h.overflow ⟨rfl, rfl⟩⟩

example : onInts .remain (.int (-7)) (.int 3) = .ok (.int (-1)) := rfl

end Operator

end LogicScript
