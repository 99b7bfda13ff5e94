import LogicScript.Tree.Decode
import LogicScript.Proofs.Numerals
import Mathlib.Algebra.Order.Field.Power
import Mathlib.Tactic.Linarith
import Mathlib.Tactic.NormNum
import Mathlib.Tactic.Positivity

/-! The integers of a document.

An integer field holds the number that the document has there, or the document is refused. The only
numbers that are taken for others are doubles beyond 64 bits: they are not refused. -/
namespace LogicScript

namespace Number

structure IsDigits (cs : List Char) : Prop where
  nonempty : cs ≠ []
  digits : ∀ c ∈ cs, c.isDigit

/-- The characters are an integer in decimal: digits, after a sign if there is one. -/
inductive Decimal : List Char → Int → Prop
  | unsigned {ds} (h : IsDigits ds) : Decimal ds (Nat.ofDigitChars 10 ds 0)
  | plus {ds} (h : IsDigits ds) : Decimal ('+' :: ds) (Nat.ofDigitChars 10 ds 0)
  | minus {ds} (h : IsDigits ds) : Decimal ('-' :: ds) (-(Nat.ofDigitChars 10 ds 0 : Int))

def signedValue (negative : Bool) (n : Nat) : Int := if negative then -(n : Int) else n

theorem Decimal.parts {cs : List Char} {i : Int} (h : Decimal cs i) :
    IsDigits (splitSign cs).2 ∧
      i = signedValue (splitSign cs).1 (Nat.ofDigitChars 10 (splitSign cs).2 0) := by
  cases h with
  | unsigned h =>
    rw [splitSign_of_isDigit h.digits]
    exact ⟨h, rfl⟩
  | plus h => exact ⟨h, rfl⟩
  | minus h => exact ⟨h, rfl⟩

theorem decimal_of_parts (cs : List Char) (h : IsDigits (splitSign cs).2) :
    Decimal cs (signedValue (splitSign cs).1 (Nat.ofDigitChars 10 (splitSign cs).2 0)) := by
  unfold splitSign at h ⊢
  split at h
  · exact .plus h
  · exact .minus h
  · exact .unsigned h

theorem Decimal.unique {cs : List Char} {i j : Int} (hi : Decimal cs i) (hj : Decimal cs j) :
    i = j :=
  hi.parts.2.trans hj.parts.2.symm

theorem isDigit_of_decimalDigit? {c : Char} {d : Nat} (h : decimalDigit? c = some d) :
    c.isDigit ∧ d = c.toNat - '0'.toNat := by
  unfold decimalDigit? at h
  split at h
  · rename_i hc
    cases h
    refine ⟨?_, rfl⟩
    simp only [Char.isDigit, Bool.and_eq_true, decide_eq_true_eq]
    exact hc
  · cases h

theorem isDigit_of_readDigits {cs : List Char} {n k : Nat} (h : readDigits n cs = .ok k) :
    (∀ c ∈ cs, c.isDigit) ∧ k = Nat.ofDigitChars 10 cs n := by
  induction cs generalizing n with
  | nil =>
    cases h
    simp
  | cons c cs ih =>
    unfold readDigits at h
    split at h
    · cases h
    · rename_i d hd
      split at h
      · obtain ⟨hc, rfl⟩ := isDigit_of_decimalDigit? hd
        obtain ⟨hcs, rfl⟩ := ih h
        refine ⟨?_, by rw [Nat.ofDigitChars_cons, Nat.mul_comm 10]⟩
        simpa using ⟨hc, hcs⟩
      · cases h

theorem parts_of_readInteger {text : String} {i : Int64} (h : readInteger text = .ok i) :
    ∃ n, (splitSign text.toList).2 ≠ [] ∧ readDigits 0 (splitSign text.toList).2 = .ok n ∧
      Word64.signed? (signedValue (splitSign text.toList).1 n) = some i := by
  unfold readInteger at h
  dsimp only at h
  split at h
  · cases h
  · rename_i hdigits
    split at h
    · cases h
    · rename_i n hn
      split at h
      · cases h
        exact ⟨n, by simpa using hdigits, hn, ‹_›⟩
      · cases h

/-- A text is read as an integer of 64 bits if and only if it is that integer in decimal. -/
theorem readInteger_ok_iff {text : String} {i : Int64} :
    readInteger text = .ok i ↔ Decimal text.toList i.toInt := by
  constructor
  · intro h
    obtain ⟨n, hnonempty, hread, hsigned⟩ := parts_of_readInteger h
    obtain ⟨hdigits, rfl⟩ := isDigit_of_readDigits hread
    rw [Word64.toInt_of_signed? hsigned]
    exact decimal_of_parts _ ⟨hnonempty, hdigits⟩
  · intro h
    obtain ⟨⟨hnonempty, hdigits⟩, hvalue⟩ := h.parts
    have hsize := natAbs_toInt_lt i
    have hbound : Nat.ofDigitChars 10 (splitSign text.toList).2 0 < Word64.unsignedLimit := by
      rw [hvalue] at hsize
      unfold signedValue at hsize
      split at hsize <;> simpa using hsize
    refine readInteger_of_parts rfl hnonempty (readDigits_of_isDigit hdigits hbound) ?_
    exact (congrArg Word64.signed? hvalue).symm.trans (signed?_toInt i)

end Number

theorem readInt64_ok_iff {text : String} {i : Int64} :
    readInt64 text = .ok i ↔ Number.Decimal text.toList i.toInt := by
  rw [← Number.readInteger_ok_iff, readInt64]
  cases Number.readInteger text <;> simp [Except.mapError]

namespace Word64

theorem signed?_eq_none_iff {i : Int} :
    signed? i = none ↔ i < -(signedLimit : Int) ∨ (signedLimit : Int) ≤ i := by
  rw [signed?, ite_eq_right_iff]
  constructor
  · intro h
    by_contra hrange
    cases h (by omega)
  · intro h hrange
    omega

end Word64

namespace Binary64

/-- The number that a finite double stands for. -/
def value? (x : Binary64) : Option ℚ :=
  match classify x with
  | .finite negative m e => some ((if negative then -1 else 1) * (m * 2 ^ e))
  | _ => none

/-- The double is infinite, or a number that no integer of 64 bits reaches. -/
def IsBeyond (x : Binary64) : Prop :=
  (∃ negative, classify x = .infinite negative) ∨
    ∃ q, x.value? = some q ∧ (q < -(Word64.signedLimit : ℚ) ∨ (Word64.signedLimit : ℚ) ≤ q)

theorem mantissa_lt {x : Binary64} {negative : Bool} {m : Nat} {e : Int}
    (h : classify x = .finite negative m e) : m < 2 ^ 53 := by
  have hlow : x.bits.toNat % hiddenBit < 2 ^ 52 := Nat.mod_lt _ (by decide)
  unfold classify at h
  dsimp only at h
  split at h
  · split at h <;> cases h
  · split at h
    · cases h
      omega
    · cases h
      have hhidden : hiddenBit = 2 ^ 52 := rfl
      omega

theorem scale_spec (m : Nat) (e : Int) :
    0 < (scale m 1 e).2 ∧ (m : ℚ) * 2 ^ e = (scale m 1 e).1 / (scale m 1 e).2 := by
  unfold scale
  split
  · rename_i he
    obtain ⟨k, rfl⟩ := Int.eq_ofNat_of_zero_le he
    exact ⟨Nat.one_pos, by simp⟩
  · rename_i he
    obtain ⟨k, hk⟩ := Int.eq_ofNat_of_zero_le (show 0 ≤ -e by omega)
    obtain rfl : e = -(k : Int) := by omega
    refine ⟨by simp, ?_⟩
    simp [div_eq_mul_inv]

/-- A fraction is an integer if and only if the division leaves no remainder. -/
theorem div_eq_intCast_iff {n d : Nat} (hd : 0 < d) (i : Int) :
    (n : ℚ) / d = i ↔ n % d = 0 ∧ ((n / d : Nat) : Int) = i := by
  have hzero : (d : ℚ) ≠ 0 := by exact_mod_cast hd.ne'
  have hint : (n : ℚ) / d = i ↔ (n : Int) = i * d := by
    rw [div_eq_iff hzero]
    norm_cast
  rw [hint]
  constructor
  · intro h
    have hdvd : d ∣ n := Int.natCast_dvd_natCast.mp (Dvd.intro_left i h.symm)
    refine ⟨Nat.mod_eq_zero_of_dvd hdvd, ?_⟩
    rw [Int.natCast_div, h, Int.mul_ediv_cancel _ (by exact_mod_cast hd.ne')]
  · rintro ⟨hmod, rfl⟩
    exact_mod_cast (Nat.div_mul_cancel (Nat.dvd_of_mod_eq_zero hmod)).symm

/-- The exact integer of a double is the number that it stands for, if that is an integer. -/
theorem toInt?_eq_some_iff {x : Binary64} {i : Int} :
    x.toInt? = some i ↔ x.value? = some (i : ℚ) := by
  unfold toInt? value?
  cases classify x with
  | nan => simp
  | infinite negative => simp
  | finite negative m e =>
    obtain ⟨hd, hvalue⟩ := scale_spec m e
    simp only [Option.some.injEq, Option.ite_none_right_eq_some, hvalue]
    cases negative with
    | false =>
      have hfraction := div_eq_intCast_iff (n := (scale m 1 e).1) hd i
      simpa using hfraction.symm
    | true =>
      have hfraction := div_eq_intCast_iff (n := (scale m 1 e).1) hd (-i)
      rw [if_pos rfl, if_pos rfl, neg_one_mul, neg_eq_iff_eq_neg, neg_eq_iff_eq_neg]
      simpa using hfraction.symm

theorem exponent_nonneg {x : Binary64} {negative : Bool} {m : Nat} {e : Int}
    (hx : classify x = .finite negative m e) (h : (Word64.signedLimit : ℚ) ≤ m * 2 ^ e) :
    0 ≤ e := by
  by_contra hneg
  have hpower : (2 : ℚ) ^ e ≤ 1 := zpow_le_one_of_nonpos₀ (by norm_num) (by omega)
  have hm : (m : ℚ) < 2 ^ 53 := by exact_mod_cast mantissa_lt hx
  have hlimit : (Word64.signedLimit : ℚ) = 2 ^ 63 := by norm_num [Word64.signedLimit]
  have hsmall : (m : ℚ) * 2 ^ e ≤ m := mul_le_of_le_one_right (Nat.cast_nonneg m) hpower
  linarith

theorem isBeyond_iff {x : Binary64} {i : Int} (h : x.toInt? = some i) :
    x.IsBeyond ↔ Word64.signed? i = none := by
  rw [Word64.signed?_eq_none_iff]
  have hvalue := toInt?_eq_some_iff.mp h
  constructor
  · rintro (⟨negative, hinfinite⟩ | ⟨q, hq, hbeyond⟩)
    · simp [value?, hinfinite] at hvalue
    · cases hvalue.symm.trans hq
      exact_mod_cast hbeyond
  · intro hbeyond
    exact .inr ⟨i, hvalue, by exact_mod_cast hbeyond⟩

/-- A double beyond 64 bits has no fraction. -/
theorem IsBeyond.isWhole {x : Binary64} (h : x.IsBeyond) : Decode.isWhole x = true := by
  obtain ⟨negative, hinfinite⟩ | ⟨q, hq, hbeyond⟩ := h
  · rw [Decode.isWhole, hinfinite]
  · have hvalue := hq
    unfold value? at hvalue
    cases hx : classify x with
    | nan => simp [hx] at hvalue
    | infinite negative => simp [hx] at hvalue
    | finite negative m e =>
      simp only [hx, Option.some.injEq] at hvalue
      have hpositive : (0 : ℚ) ≤ m * 2 ^ e := by positivity
      have habs : |q| = m * 2 ^ e := by
        rw [← hvalue]
        cases negative <;> simp [abs_of_nonneg hpositive]
      have hlarge : (Word64.signedLimit : ℚ) ≤ m * 2 ^ e :=
        habs ▸ le_abs'.mpr (hbeyond.imp_left le_of_lt)
      obtain ⟨k, rfl⟩ := Int.eq_ofNat_of_zero_le (exponent_nonneg hx hlarge)
      have hint : x.toInt? = some ((if negative then -1 else 1 : Int) * (m * 2 ^ k)) := by
        rw [toInt?_eq_some_iff, hq, ← hvalue]
        cases negative <;> simp
      simp [Decode.isWhole, hx, hint]

end Binary64

namespace Document

/-- The value is an integer: a number without a fraction, or a text that is one in decimal. -/
def IsInteger : Document → Int → Prop
  | .number (.int n), i => n.toInt = i
  | .number (.uint u), i => (u.toNat : Int) = i
  | .number (.float x), i => x.value? = some (i : ℚ)
  | .number (.text s), i | .text s, i => Number.Decimal s.toList i
  | _, _ => False

theorem IsInteger.unique {d : Document} {i j : Int} (hi : d.IsInteger i) (hj : d.IsInteger j) :
    i = j := by
  unfold IsInteger at hi hj
  split at hi
  · exact hi.symm.trans hj
  · exact hi.symm.trans hj
  · exact_mod_cast Option.some.inj (hi.symm.trans hj)
  · exact hi.unique hj
  · exact hi.unique hj
  · exact hi.elim

end Document

namespace Decode

variable {entries : Entries} {key : String} {n : Int64}

/-- A double becomes the integer that it is, and one beyond 64 bits the least integer. -/
theorem integerOfFloat_eq_iff {x : Binary64} (hx : isWhole x = true) :
    integerOfFloat x = n ↔ x.value? = some (n.toInt : ℚ) ∨ n = Int64.minValue ∧ x.IsBeyond := by
  rw [← Binary64.toInt?_eq_some_iff, integerOfFloat]
  cases hint : x.toInt? with
  | none =>
    have hbeyond : x.IsBeyond := by
      unfold isWhole at hx
      cases hclass : x.classify with
      | nan => simp [hclass] at hx
      | infinite negative => exact .inl ⟨negative, hclass⟩
      | finite negative m e => simp [hclass, hint] at hx
    simp [hbeyond, eq_comm]
  | some i =>
    rw [Binary64.isBeyond_iff hint]
    cases hsigned : Word64.signed? i with
    | none =>
      have hne : i ≠ n.toInt := fun h => by
        rw [h, Number.signed?_toInt] at hsigned
        cases hsigned
      simp [hsigned, hne, eq_comm]
    | some k =>
      have hk := Word64.toInt_of_signed? hsigned
      simp [hsigned, ← Int64.toInt_inj, hk]

theorem isWhole_of_value? {x : Binary64} {i : Int} (h : x.value? = some (i : ℚ)) :
    isWhole x = true := by
  have hint := Binary64.toInt?_eq_some_iff.mpr h
  unfold isWhole
  unfold Binary64.value? at h
  cases hclass : x.classify with
  | nan => simp [hclass] at h
  | infinite negative => rfl
  | finite negative m e => simp [hint]

theorem integer_uint_iff {u : UInt64} (hvalue : value entries key = .number (.uint u)) :
    integer entries key = .ok n ↔ (u.toNat : Int) = n.toInt := by
  -- under another name, since the kernel would compute with the bounds in the definition
  obtain ⟨signed, hsigned⟩ : ∃ signed, signed = Word64.signed? := ⟨_, rfl⟩
  rw [integer, ← hsigned]
  simp only [hvalue]
  split
  · rename_i i hi
    rw [hsigned] at hi
    rw [Except.ok.injEq, ← Word64.toInt_of_signed? hi, Int64.toInt_inj]
  · rename_i hnone
    refine iff_of_false nofun fun h => ?_
    rw [hsigned, h, Number.signed?_toInt] at hnone
    cases hnone

theorem integer_float_iff {x : Binary64} (hvalue : value entries key = .number (.float x)) :
    integer entries key = .ok n ↔
      x.value? = some (n.toInt : ℚ) ∨ n = Int64.minValue ∧ x.IsBeyond := by
  simp only [integer, hvalue]
  split
  · rename_i hx
    rw [← integerOfFloat_eq_iff hx, Except.ok.injEq]
  · rename_i hx
    refine iff_of_false nofun ?_
    rintro (h | ⟨-, h⟩)
    · exact hx (isWhole_of_value? h)
    · exact hx h.isWhole

theorem integer_text_iff {s : String}
    (hvalue : value entries key = .number (.text s) ∨ value entries key = .text s) :
    integer entries key = .ok n ↔ Number.Decimal s.toList n.toInt := by
  have hread : integer entries key = (readInt64 s).mapError .badNumber := by
    obtain hvalue | hvalue := hvalue <;> rw [integer, hvalue]
  rw [hread, ← readInt64_ok_iff]
  cases readInt64 s <;> simp [Except.mapError]

/-- An integer field is the integer that the document has, or the least one for a double beyond 64
bits. -/
theorem integer_ok_iff : integer entries key = .ok n ↔
    (value entries key).IsInteger n.toInt ∨
      n = Int64.minValue ∧ ∃ x, value entries key = .number (.float x) ∧ x.IsBeyond := by
  cases hvalue : value entries key with
  | number numeral =>
    cases numeral with
    | int i => simp [integer, hvalue, Document.IsInteger, Int64.toInt_inj]
    | uint u =>
      rw [integer_uint_iff hvalue]
      simp [Document.IsInteger]
    | float x =>
      rw [integer_float_iff hvalue]
      simp [Document.IsInteger]
    | text s =>
      rw [integer_text_iff (.inl hvalue)]
      simp [Document.IsInteger]
  | text s =>
    rw [integer_text_iff (.inr hvalue)]
    simp [Document.IsInteger]
  | _ => simp [integer, hvalue, Document.IsInteger]

theorem integer_refused {i : Int} (hi : (value entries key).IsInteger i)
    (hform : ∀ x, value entries key ≠ .number (.float x))
    (hbeyond : i < -(Word64.signedLimit : Int) ∨ (Word64.signedLimit : Int) ≤ i) :
    ∃ error, integer entries key = .error error := by
  cases hread : integer entries key with
  | error error => exact ⟨error, rfl⟩
  | ok n =>
    obtain hn | ⟨-, x, hx, -⟩ := integer_ok_iff.mp hread
    · have hsigned := Number.signed?_toInt n
      rw [hn.unique hi, Word64.signed?_eq_none_iff.mpr hbeyond] at hsigned
      cases hsigned
    · exact absurd hx (hform x)

/-- An integer field holds exactly the number that the document has there, and the document is
refused if that is not an integer of 64 bits; but a double beyond 64 bits is not refused, and the
field then holds the least integer. -/
theorem integer_exact_or_beyond (entries : Entries) (key : String) :
    (∀ n, integer entries key = .ok n ↔
      (value entries key).IsInteger n.toInt ∨
        n = Int64.minValue ∧ ∃ x, value entries key = .number (.float x) ∧ x.IsBeyond) ∧
      ∀ i, (value entries key).IsInteger i → (∀ x, value entries key ≠ .number (.float x)) →
        i < -(Word64.signedLimit : Int) ∨ (Word64.signedLimit : Int) ≤ i →
        ∃ error, integer entries key = .error error :=
  ⟨fun _ => integer_ok_iff, fun _ => integer_refused⟩

/-- The value -18446744073709551616, which is a double. -/
def tooSmall : Entries := [("value", .number (.float ⟨0xC3F0000000000000⟩))]

/-- The number -18446744073709551616 is taken for -9223372036854775808. -/
theorem tooSmall_inexact : ¬ ∀ entries key n, integer entries key = .ok n →
    (value entries key).IsInteger n.toInt := by
  intro hexact
  have hvalue := hexact tooSmall "value" Int64.minValue rfl
  have hint : (⟨0xC3F0000000000000⟩ : Binary64).toInt? = some Int64.minValue.toInt :=
    Binary64.toInt?_eq_some_iff.mpr hvalue
  exact absurd hint (by decide +kernel)

end Decode

end LogicScript
