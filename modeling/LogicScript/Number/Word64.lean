/-! Integers of 64 bits. -/
namespace LogicScript
namespace Word64

/-- Two to the 63rd, which no signed integer reaches. -/
def signedLimit : Nat := Nat.pow 2 63

/-- Two to the 64th, which no unsigned integer reaches. -/
def unsignedLimit : Nat := Nat.pow 2 64

def signed? (i : Int) : Option Int64 :=
  if -(signedLimit : Int) ≤ i ∧ i < signedLimit then some (Int64.ofInt i) else none

def unsigned? (n : Nat) : Option UInt64 :=
  if n < unsignedLimit then some (UInt64.ofNat n) else none

theorem toInt_of_signed? {i : Int} {x : Int64} (h : signed? i = some x) : x.toInt = i := by
  simp only [signed?, Option.ite_none_right_eq_some, Option.some.injEq] at h
  obtain ⟨⟨low, high⟩, rfl⟩ := h
  exact Int64.toInt_ofInt_of_le low high

theorem toNat_of_unsigned? {n : Nat} {x : UInt64} (h : unsigned? n = some x) : x.toNat = n := by
  simp only [unsigned?, Option.ite_none_right_eq_some, Option.some.injEq] at h
  obtain ⟨bound, rfl⟩ := h
  exact UInt64.toNat_ofNat_of_lt bound

end Word64
end LogicScript
