import ExactCompare.Proofs.Numeric.Canonical

/-!
# Numerics of integers

The numeric of a 64-bit integer is made by dividing by the base. It is the canonical numeric of the
integer, so it is also the one that the decimal of the integer becomes.
-/

namespace ExactCompare

-- Powers are those that `Nat` and `Int` come with.
attribute [local instance (2000)] instPowNat

namespace Numeric

variable {i : ℤ} (hi : IntegerType.int8.contains i = true)

/-! ## The stored parts -/

theorem sign_ofInt8 : (ofInt8 i hi).sign = signOf i := by
  unfold ofInt8
  split
  case isTrue hzero =>
    rw [hzero]
    rfl
  case isFalse => rfl

theorem displayScale_ofInt8 : (ofInt8 i hi).displayScale = 0 := by
  unfold ofInt8
  split <;> rfl

theorem digits_ofInt8 :
    (ofInt8 i hi).digits = Digits.trimEnd (Nat.digits base i.natAbs).reverse := by
  rw [← Digits.ofNat_eq_reverse_digits (by decide)]
  unfold ofInt8
  split
  case isTrue hzero =>
    rw [hzero]
    rfl
  case isFalse => rfl

theorem weight_ofInt8 :
    (ofInt8 i hi).weight = ((Nat.digits base i.natAbs).length - 1 : ℕ) := by
  rw [← List.length_reverse, ← Digits.ofNat_eq_reverse_digits (by decide)]
  unfold ofInt8
  split
  case isTrue hzero =>
    rw [hzero]
    rfl
  case isFalse hne =>
    have hpos := Digits.length_ofNat_pos (by decide : 2 ≤ base) (Int.natAbs_ne_zero.mpr hne)
    exact (Nat.cast_sub hpos).symm

theorem length_digits_ofInt8_le : (ofInt8 i hi).digits.length ≤ 5 := by
  have hlength := length_ofNat_natAbs_le hi
  rw [Digits.ofNat_eq_reverse_digits (by decide)] at hlength
  rw [digits_ofInt8 hi]
  exact (Digits.length_trimEnd_le _).trans hlength

/-! ## The value -/

theorem magnitude_ofInt8 : (ofInt8 i hi).magnitude = i.natAbs := by
  have hvalue : Digits.value base (Nat.digits base i.natAbs).reverse = i.natAbs := by
    rw [← Digits.ofNat_eq_reverse_digits (by decide), Digits.value_ofNat (by decide)]
  rw [magnitude_eq_digitSum, digits_ofInt8 hi, Digits.digitSum_trimEnd, digitSum_eq_value, hvalue]
  by_cases hzero : i.natAbs = 0
  · rw [hzero, Nat.cast_zero, zero_mul]
  · have hpos : 0 < (Nat.digits base i.natAbs).length :=
      List.length_pos_iff.mpr (Nat.digits_ne_nil_iff_ne_zero.mpr hzero)
    have hplace : (ofInt8 i hi).weight + 1 - (Nat.digits base i.natAbs).reverse.length = 0 := by
      rw [weight_ofInt8 hi, List.length_reverse]
      omega
    rw [hplace, zpow_zero, mul_one]

theorem rational_ofInt8 : (ofInt8 i hi).rational = i := by
  unfold rational
  rw [sign_ofInt8 hi, magnitude_ofInt8 hi, signOf]
  by_cases hneg : i < 0
  · rw [if_pos hneg, if_pos rfl, Nat.cast_natAbs, abs_of_neg hneg, Int.cast_neg, neg_neg]
  · rw [if_neg hneg, if_neg (by decide), Nat.cast_natAbs, abs_of_nonneg (not_lt.mp hneg)]

theorem displayScale_eq_decimalPlaces_ofInt8 :
    (ofInt8 i hi).displayScale = decimalPlaces (ofInt8 i hi).rational := by
  have hplaces : decimalPlaces (ofInt8 i hi).rational ≤ 0 :=
    Nat.sInf_le ⟨i, by rw [rational_ofInt8 hi, pow_zero, mul_one]⟩
  rw [displayScale_ofInt8 hi]
  omega

theorem isCanonical_ofInt8 : (ofInt8 i hi).IsCanonical := by
  by_cases hzero : i = 0
  · subst hzero
    exact isCanonical_zero 0 (Nat.zero_le _)
  · refine isCanonical_of_digits (Int.natAbs_ne_zero.mpr hzero) ?_ ?_
    · rw [sign_ofInt8 hi, isSpecial_signOf]
    · rw [digits_ofInt8 hi, Digits.ofNat_eq_reverse_digits (by decide)]

theorem ofDecimal_ofInt : ofDecimal (Decimal.ofInt i) = .ok (ofInt8 i hi) := by
  refine ofDecimal_eq_ok_iff.mpr ⟨isCanonical_ofInt8 hi, ?_, ?_⟩
  · rw [rational_ofInt8 hi]
    simp [Decimal.ofInt, Decimal.toRat]
  · rw [displayScale_ofInt8 hi]
    rfl

end Numeric

end ExactCompare
