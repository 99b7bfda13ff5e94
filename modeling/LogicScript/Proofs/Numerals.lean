import LogicScript.Number.Reader

/-! The text of an integer is read back as the integer. -/
namespace LogicScript

namespace Number

theorem decimalDigit?_of_isDigit {c : Char} (h : c.isDigit) :
    decimalDigit? c = some (c.toNat - '0'.toNat) := by
  simp only [Char.isDigit, Bool.and_eq_true, decide_eq_true_eq] at h
  exact if_pos h

theorem le_ofDigitChars (n : Nat) (cs : List Char) : n ≤ Nat.ofDigitChars 10 cs n := by
  induction cs generalizing n with
  | nil => simp
  | cons c cs ih =>
    rw [Nat.ofDigitChars_cons]
    exact Nat.le_trans (by omega) (ih _)

theorem readDigits_of_isDigit {cs : List Char} (hcs : ∀ c ∈ cs, c.isDigit) {n : Nat}
    (hbound : Nat.ofDigitChars 10 cs n < Word64.unsignedLimit) :
    readDigits n cs = .ok (Nat.ofDigitChars 10 cs n) := by
  induction cs generalizing n with
  | nil => simp [readDigits]
  | cons c cs ih =>
    rw [Nat.ofDigitChars_cons, Nat.mul_comm 10 n] at hbound ⊢
    have hc := decimalDigit?_of_isDigit (hcs c List.mem_cons_self)
    have hnext := Nat.lt_of_le_of_lt (le_ofDigitChars _ cs) hbound
    simp only [readDigits, hc, if_pos hnext]
    exact ih (fun c' h => hcs c' (List.mem_cons_of_mem _ h)) hbound

theorem isDigit_of_mem_toDigits {n : Nat} : ∀ c ∈ Nat.toDigits 10 n, c.isDigit := fun _ hc =>
  Nat.isDigit_of_mem_toDigits (by decide) (by decide) hc

theorem readDigits_toDigits {n : Nat} (h : n < Word64.unsignedLimit) :
    readDigits 0 (Nat.toDigits 10 n) = .ok n := by
  have hread := readDigits_of_isDigit (n := 0) (isDigit_of_mem_toDigits (n := n))
  rw [Nat.ofDigitChars_ten_toDigits] at hread
  exact hread h

theorem splitSign_of_isDigit {cs : List Char} (hcs : ∀ c ∈ cs, c.isDigit) :
    splitSign cs = (false, cs) := by
  unfold splitSign
  split
  · exact absurd (hcs '+' List.mem_cons_self) (by decide)
  · exact absurd (hcs '-' List.mem_cons_self) (by decide)
  · rfl

theorem signed?_toInt (i : Int64) : Word64.signed? i.toInt = some i := by
  have hrange : -(Word64.signedLimit : Int) ≤ i.toInt ∧ i.toInt < Word64.signedLimit :=
    ⟨i.le_toInt, i.toInt_lt⟩
  rw [Word64.signed?, if_pos hrange, Int64.ofInt_toInt]

theorem natAbs_toInt_lt (i : Int64) : i.toInt.natAbs < Word64.unsignedLimit := by
  have hlow := i.le_toInt
  have hhigh := i.toInt_lt
  show i.toInt.natAbs < 2 ^ 64
  omega

theorem readInteger_of_parts {text : String} {negative : Bool} {digits : List Char} {n : Nat}
    {i : Int64} (hsign : splitSign text.toList = (negative, digits)) (hdigits : digits ≠ [])
    (hread : readDigits 0 digits = .ok n)
    (hvalue : Word64.signed? (if negative then -(n : Int) else n) = some i) :
    readInteger text = .ok i := by
  have hsome : digits.isEmpty = false := by simpa using hdigits
  simp only [readInteger, hsign, hsome, hread, hvalue]
  rfl

theorem readInteger_toString (i : Int64) : readInteger (toString i) = .ok i := by
  have hvalue := signed?_toInt i
  have hsize := natAbs_toInt_lt i
  show readInteger i.toInt.repr = .ok i
  cases hi : i.toInt with
  | ofNat n =>
    rw [hi] at hvalue hsize
    have hsign : splitSign (Int.ofNat n).repr.toList = (false, Nat.toDigits 10 n) := by
      simp [Int.repr, splitSign_of_isDigit isDigit_of_mem_toDigits]
    have hread : readDigits 0 (Nat.toDigits 10 n) = .ok n := readDigits_toDigits hsize
    exact readInteger_of_parts hsign Nat.toDigits_ne_nil hread hvalue
  | negSucc n =>
    rw [hi] at hvalue hsize
    have hsign : splitSign (Int.negSucc n).repr.toList = (true, Nat.toDigits 10 (n + 1)) := by
      simp [Int.repr, splitSign]
    have hread : readDigits 0 (Nat.toDigits 10 (n + 1)) = .ok (n + 1) := readDigits_toDigits hsize
    exact readInteger_of_parts hsign Nat.toDigits_ne_nil hread hvalue

end Number

theorem readInt64_toString (i : Int64) : readInt64 (toString i) = .ok i := by
  rw [readInt64, Number.readInteger_toString]
  rfl

end LogicScript
