import ExactCompare.Proofs.Decimal.Value
import ExactCompare.Proofs.Exact.Truncation

/-!
# Decimals of another scale

Another scale keeps the value of a decimal, cut off toward zero where it has more decimal places.
A value has one decimal in normal form.
-/

namespace ExactCompare

-- Powers are those that `Nat` and `Int` come with.
attribute [local instance (2000)] instPowNat

/-! ## Division toward zero -/

theorem cutOff_intCast (z : ℤ) : cutOff z = z := by
  unfold cutOff
  rw [Int.ceil_intCast, Int.floor_intCast, ite_self]

theorem cutOff_opposite (q : ℚ) : cutOff (-q) = -cutOff q := by
  unfold cutOff
  rcases lt_trichotomy q 0 with hq | rfl | hq
  · rw [if_neg (by linarith), if_pos hq, Int.floor_neg]
  · simp
  · rw [if_pos (by linarith), if_neg (by linarith), Int.ceil_neg]

theorem tdiv_eq_cutOff (u : ℤ) (m : ℕ) : u.tdiv m = cutOff ((u : ℚ) / m) := by
  have hnonneg (v : ℤ) (hv : 0 ≤ v) : v.tdiv m = cutOff ((v : ℚ) / m) := by
    have hq : (0 : ℚ) ≤ v / m := div_nonneg (by exact_mod_cast hv) (Nat.cast_nonneg m)
    unfold cutOff
    rw [if_neg (not_lt.mpr hq), Rat.floor_intCast_div_natCast, Int.tdiv_eq_ediv_of_nonneg hv]
  rcases le_total 0 u with hu | hu
  · exact hnonneg u hu
  · have hv := hnonneg (-u) (neg_nonneg.mpr hu)
    rw [Int.neg_tdiv, Int.cast_neg, neg_div, cutOff_opposite] at hv
    exact neg_injective hv

theorem cutOff_eq_self_iff (q : ℚ) : (cutOff q : ℚ) = q ↔ ∃ z : ℤ, q = z := by
  constructor
  · intro h
    exact ⟨cutOff q, h.symm⟩
  · rintro ⟨z, rfl⟩
    rw [cutOff_intCast]

namespace Decimal

/-! ## Rescaling -/

theorem withScale_eq (d : Decimal) (scale : ℤ) :
    d.withScale scale = ⟨cutOff (d.toRat * 10 ^ scale), scale⟩ := by
  have hmoved : d.toRat * 10 ^ scale = d.unscaled * 10 ^ (scale - d.scale) := by
    rw [toRat, mul_assoc, ← zpow_add₀ (by norm_num)]
    congr 2
    ring
  rw [hmoved]
  unfold withScale
  split
  case isTrue hzero =>
    have hnone := cutOff_intCast 0
    rw [Int.cast_zero] at hnone
    rw [hzero, Int.cast_zero, zero_mul, hnone]
  case isFalse =>
    split
    case isTrue hle =>
      obtain ⟨k, hk⟩ := Int.eq_ofNat_of_zero_le (sub_nonneg.mpr hle)
      have hinteger : (d.unscaled : ℚ) * 10 ^ (k : ℤ) = (d.unscaled * 10 ^ k : ℤ) := by
        rw [zpow_natCast]
        push_cast
        rfl
      rw [hk, hinteger, cutOff_intCast, Int.toNat_natCast]
    case isFalse hlt =>
      obtain ⟨k, hk⟩ := Int.eq_ofNat_of_zero_le (sub_nonneg.mpr (not_le.mp hlt).le)
      have hquotient : (d.unscaled : ℚ) * 10 ^ (-(k : ℤ)) = d.unscaled / (10 ^ k : ℕ) := by
        rw [zpow_neg, zpow_natCast, div_eq_mul_inv]
        push_cast
        rfl
      have hopposite : scale - d.scale = -(k : ℤ) := by omega
      rw [hopposite, hquotient, ← tdiv_eq_cutOff, hk, Int.toNat_natCast]
      push_cast
      rfl

theorem toRat_withScale (d : Decimal) (scale : ℤ) :
    (d.withScale scale).toRat = cutOff (d.toRat * 10 ^ scale) * 10 ^ (-scale) := by
  rw [withScale_eq, toRat]

theorem toRat_withScale_eq_iff (d : Decimal) (scale : ℤ) :
    (d.withScale scale).toRat = d.toRat ↔ ∃ z : ℤ, d.toRat * 10 ^ scale = z := by
  have hpos : (10 : ℚ) ^ scale ≠ 0 := zpow_ne_zero _ (by norm_num)
  rw [toRat_withScale, ← cutOff_eq_self_iff, zpow_neg, ← div_eq_mul_inv, div_eq_iff hpos]

/-! ## One normal form -/

theorem eq_of_toRat_of_scale {d e : Decimal} (h : d.toRat = e.toRat) (hscale : d.scale = e.scale) :
    d = e := by
  have hpos : (10 : ℚ) ^ (-e.scale) ≠ 0 := zpow_ne_zero _ (by norm_num)
  rw [toRat, toRat, hscale] at h
  have hunscaled := mul_right_cancel₀ hpos h
  cases d
  cases e
  simp_all

theorem IsNormal.eq_zero {d : Decimal} (hd : d.IsNormal) (h : d.toRat = 0) : d = ⟨0, 0⟩ := by
  rcases hd with hd | hnot
  · exact hd
  · have hpos : (10 : ℚ) ^ (-d.scale) ≠ 0 := zpow_ne_zero _ (by norm_num)
    have hzero : (d.unscaled : ℚ) = 0 := (mul_eq_zero.mp h).resolve_right hpos
    exact absurd (by rw [Int.cast_eq_zero.mp hzero]; exact dvd_zero 10) hnot

theorem toRat_mul_pow_scale (d : Decimal) : d.toRat * 10 ^ d.scale = d.unscaled := by
  rw [toRat, mul_assoc, ← zpow_add₀ (by norm_num), neg_add_cancel, zpow_zero, mul_one]

theorem IsNormal.scale_le {d e : Decimal} (hd : d.IsNormal) (h : d.toRat = e.toRat)
    (hne : d.toRat ≠ 0) : d.scale ≤ e.scale := by
  by_contra hlt
  have he := e.toRat_mul_pow_scale
  rw [← h] at he
  rcases hd with rfl | hnot
  · exact hne (by simp [toRat])
  · exact hnot (dvd_of_toRat_mul_pow he (not_le.mp hlt))

/-- **A value has one decimal in normal form.** -/
theorem IsNormal.eq_of_toRat {d e : Decimal} (hd : d.IsNormal) (he : e.IsNormal)
    (h : d.toRat = e.toRat) : d = e := by
  by_cases hzero : d.toRat = 0
  · rw [hd.eq_zero hzero, he.eq_zero (h ▸ hzero)]
  · exact eq_of_toRat_of_scale h
      (le_antisymm (hd.scale_le h hzero) (he.scale_le h.symm (h ▸ hzero)))

end Decimal

end ExactCompare
