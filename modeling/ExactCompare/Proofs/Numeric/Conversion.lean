import ExactCompare.Numeric.Conversion
import ExactCompare.Proofs.Decimal.Value
import ExactCompare.Proofs.Hash.Digits
import Mathlib.Data.Int.Log
import Mathlib.Data.Rat.Floor

/-!
# Conversions keep the value

A decimal becomes a numeric of the same value, unless it has too many decimal places or is too
large. Then the error says how many places, or the weight that its first digit would have.
-/

namespace ExactCompare

-- Powers are those that `Nat` and `Int` come with.
attribute [local instance (2000)] instPowNat

theorem Digits.digitSum_trimEnd (place : ℤ) (ds : List ℕ) :
    digitSum place (trimEnd ds) = digitSum place ds := by
  induction ds generalizing place with
  | nil => rfl
  | cons d ds ih =>
    rw [trimEnd_cons]
    split
    case isTrue hzero =>
      obtain ⟨rfl, hrest⟩ := hzero
      rw [digitSum, digitSum, ← ih, hrest, digitSum]
      simp
    case isFalse => rw [digitSum, digitSum, ih]

theorem log_eq_of_bounds {q : ℚ} {weight : ℤ} (hle : 10000 ^ weight ≤ q)
    (hlt : q < 10000 ^ (weight + 1)) : Int.log 10000 q = weight := by
  have hpos : 0 < q := lt_of_lt_of_le (by positivity) hle
  have hlower := (Int.zpow_le_iff_le_log (b := 10000) (by decide) hpos).mp (by exact_mod_cast hle)
  have hupper := (Int.lt_zpow_iff_log_lt (b := 10000) (by decide) hpos).mp (by exact_mod_cast hlt)
  omega

namespace Numeric

theorem pow_base (k : ℕ) : (10000 : ℚ) ^ k = 10 ^ (digitWidth * k) := by
  rw [pow_mul]
  norm_num [digitWidth]

theorem pow_maxIntegralDigits : (10 : ℚ) ^ maxIntegralDigits = 10000 ^ (maxWeight + 1) := by
  have hdigits : maxIntegralDigits = digitWidth * 32768 := rfl
  have hweight : maxWeight + 1 = (32768 : ℕ) := rfl
  rw [hdigits, hweight, zpow_natCast, pow_base]

theorem weight_le_iff {q : ℚ} (hq : 0 < q) :
    Int.log 10000 q ≤ maxWeight ↔ q < 10 ^ maxIntegralDigits := by
  have h := Int.lt_zpow_iff_log_lt (b := 10000) (x := maxWeight + 1) (by decide) hq
  rw [Nat.cast_ofNat] at h
  rw [pow_maxIntegralDigits, h]
  omega

/-! ## Aligned digits -/

theorem width_mul_aligned (scale : ℕ) :
    digitWidth * ((scale + rightPad scale) / digitWidth) = scale + rightPad scale := by
  unfold rightPad digitWidth
  omega

theorem pow_aligned (scale : ℕ) :
    (10 : ℚ) ^ rightPad scale * 10000 ^ (-((scale + rightPad scale) / digitWidth : ℕ) : ℤ) =
      10 ^ (-scale : ℤ) := by
  rw [zpow_neg, zpow_natCast, pow_base, width_mul_aligned, zpow_neg, zpow_natCast, pow_add]
  field_simp

section Stored

variable {magnitude scale : ℕ}

/-- The digits that are stored for `magnitude * 10 ^ (-scale)`. -/
def alignedDigits (magnitude scale : ℕ) : List ℕ :=
  Digits.ofNat base (magnitude * 10 ^ rightPad scale)

/-- The weight of the first digit that is stored. -/
def alignedWeight (magnitude scale : ℕ) : ℤ :=
  (alignedDigits magnitude scale).length - (scale + rightPad scale) / digitWidth - 1

theorem alignedWeight_eq (magnitude scale : ℕ) :
    alignedWeight magnitude scale = (alignedDigits magnitude scale).length -
      ((scale + rightPad scale) / digitWidth : ℕ) - 1 := by
  unfold alignedWeight
  push_cast
  rfl

theorem aligned_eq (magnitude scale : ℕ) :
    ((magnitude * 10 ^ rightPad scale : ℕ) : ℚ) *
        10000 ^ (-((scale + rightPad scale) / digitWidth : ℕ) : ℤ) =
      magnitude * 10 ^ (-scale : ℤ) := by
  rw [← pow_aligned]
  push_cast
  ring

theorem digitSum_aligned (magnitude scale : ℕ) :
    digitSum (alignedWeight magnitude scale) (Digits.trimEnd (alignedDigits magnitude scale)) =
      magnitude * 10 ^ (-scale : ℤ) := by
  have hplace : alignedWeight magnitude scale + 1 - (alignedDigits magnitude scale).length =
      -((scale + rightPad scale) / digitWidth : ℕ) := by
    rw [alignedWeight_eq]
    ring
  rw [Digits.digitSum_trimEnd, digitSum_eq_value, hplace, alignedDigits,
    Digits.value_ofNat (by decide), aligned_eq]

theorem log_aligned (scale : ℕ) (hmagnitude : magnitude ≠ 0) :
    Int.log 10000 ((magnitude : ℚ) * 10 ^ (-scale : ℤ)) = alignedWeight magnitude scale := by
  have hne : magnitude * 10 ^ rightPad scale ≠ 0 :=
    Nat.mul_ne_zero hmagnitude (Nat.pow_pos (by decide)).ne'
  have hlower := Digits.pow_length_ofNat_le (by decide : 2 ≤ base) hne
  have hupper := Digits.lt_pow_length_ofNat (by decide : 2 ≤ base)
    (magnitude * 10 ^ rightPad scale)
  have hlength : 0 < (alignedDigits magnitude scale).length :=
    Digits.length_ofNat_pos (by decide) hne
  have hunit : (0 : ℚ) < 10000 ^ (-((scale + rightPad scale) / digitWidth : ℕ) : ℤ) := by positivity
  rw [← aligned_eq]
  refine log_eq_of_bounds ?_ ?_
  · have hweight : alignedWeight magnitude scale =
        ((alignedDigits magnitude scale).length - 1 : ℕ) +
          -((scale + rightPad scale) / digitWidth : ℕ) := by
      rw [alignedWeight_eq]
      omega
    rw [hweight, zpow_add₀ (by norm_num), zpow_natCast]
    refine mul_le_mul_of_nonneg_right ?_ hunit.le
    exact_mod_cast hlower
  · have hweight : alignedWeight magnitude scale + 1 =
        ((alignedDigits magnitude scale).length : ℕ) +
          -((scale + rightPad scale) / digitWidth : ℕ) := by
      rw [alignedWeight_eq]
      omega
    rw [hweight, zpow_add₀ (by norm_num), zpow_natCast]
    refine mul_lt_mul_of_pos_right ?_ hunit
    exact_mod_cast hupper

end Stored

/-! ## From an unscaled integer -/

variable {unscaled : ℤ} {scale : ℕ}

theorem minWeight_le_aligned {magnitude : ℕ} (hscale : scale ≤ maxDisplayScale) :
    minWeight ≤ alignedWeight magnitude scale := by
  unfold alignedWeight rightPad minWeight digitWidth
  unfold maxDisplayScale at hscale
  omega

theorem ofUnscaled_of_scale (hscale : maxDisplayScale < scale) :
    ofUnscaled unscaled scale = .error (.scaleOutOfRange scale) :=
  dif_neg (Nat.not_le_of_lt hscale)

theorem unscaled_ne_zero_of_large {d : Decimal} (hle : 10 ^ maxIntegralDigits ≤ |d.toRat|) :
    d.unscaled ≠ 0 := by
  intro hzero
  rw [Decimal.toRat, hzero, Int.cast_zero, zero_mul, abs_zero] at hle
  exact absurd hle (not_le.mpr (by positivity))

theorem exactValue_of_magnitude {n : Numeric} {d : Decimal} (hsign : n.sign = signOf d.unscaled)
    (hmagnitude : n.magnitude = |d.toRat|) : n.exactValue = .ofRat d.toRat := by
  have hpos : (0 : ℚ) < 10 ^ (-d.scale) := by positivity
  unfold exactValue
  rw [hsign, hmagnitude, signOf]
  by_cases hneg : d.unscaled < 0
  · have hq : d.toRat < 0 := mul_neg_of_neg_of_pos (by exact_mod_cast hneg) hpos
    rw [if_pos hneg, abs_of_neg hq, neg_neg]
  · have hq : 0 ≤ d.toRat := mul_nonneg (by exact_mod_cast not_lt.mp hneg) hpos.le
    rw [if_neg hneg, abs_of_nonneg hq]

theorem exactValue_zero (k : ℕ) (hk : k ≤ maxDisplayScale) :
    exactValue { zero with displayScale := k, displayScale_le := hk } = .ofRat 0 := by
  unfold exactValue magnitude
  rfl

theorem log_abs_toRat (scale : ℕ) (hne : unscaled ≠ 0) :
    Int.log 10000 |(Decimal.mk unscaled scale).toRat| = alignedWeight unscaled.natAbs scale := by
  rw [Decimal.abs_toRat]
  exact log_aligned scale (Int.natAbs_ne_zero.mpr hne)

theorem aligned_in_range_iff (hne : unscaled ≠ 0) (hscale : scale ≤ maxDisplayScale) :
    (minWeight ≤ alignedWeight unscaled.natAbs scale ∧
      alignedWeight unscaled.natAbs scale ≤ maxWeight) ↔
        |(Decimal.mk unscaled scale).toRat| < 10 ^ maxIntegralDigits := by
  have hpos : (0 : ℚ) < |(Decimal.mk unscaled scale).toRat| := by
    rw [Decimal.abs_toRat]
    have := Int.natAbs_pos.mpr hne
    positivity
  rw [and_iff_right (minWeight_le_aligned hscale), ← log_abs_toRat scale hne, weight_le_iff hpos]

theorem ofUnscaled_of_small (hscale : scale ≤ maxDisplayScale)
    (hlt : |(Decimal.mk unscaled scale).toRat| < 10 ^ maxIntegralDigits) :
    ∃ n, ofUnscaled unscaled scale = .ok n ∧
      n.exactValue = .ofRat (Decimal.mk unscaled scale).toRat := by
  unfold ofUnscaled
  rw [dif_pos hscale]
  by_cases hzero : unscaled = 0
  · rw [if_pos hzero]
    refine ⟨_, rfl, ?_⟩
    rw [exactValue_zero, hzero, Decimal.toRat, Int.cast_zero, zero_mul]
  · rw [if_neg hzero]
    have hrange := (aligned_in_range_iff hzero hscale).mpr hlt
    refine ⟨_, dif_pos hrange, exactValue_of_magnitude rfl ?_⟩
    rw [magnitude_eq_digitSum, Decimal.abs_toRat]
    exact digitSum_aligned unscaled.natAbs scale

theorem ofUnscaled_of_large (hscale : scale ≤ maxDisplayScale)
    (hle : 10 ^ maxIntegralDigits ≤ |(Decimal.mk unscaled scale).toRat|) :
    ofUnscaled unscaled scale =
      .error (.weightOutOfRange (Int.log 10000 |(Decimal.mk unscaled scale).toRat|)) := by
  have hzero : unscaled ≠ 0 := unscaled_ne_zero_of_large hle
  have hrange := mt (aligned_in_range_iff hzero hscale).mp (not_lt.mpr hle)
  rw [log_abs_toRat scale hzero]
  unfold ofUnscaled
  rw [dif_pos hscale, if_neg hzero]
  exact dif_neg hrange

/-! ## Zeros written out -/

section Expanded

variable {d : Decimal}

theorem precision_eq (hne : d.unscaled ≠ 0) :
    d.precision = (Digits.ofNat 10 d.unscaled.natAbs).length := by
  have hpos := Digits.length_ofNat_pos (by decide : 2 ≤ 10) (Int.natAbs_ne_zero.mpr hne)
  rw [Decimal.precision, Digits.decimal]
  split
  case h_1 hnone =>
    rw [hnone] at hpos
    cases hpos
  case h_2 => rw [List.length_map]

theorem abs_toRat_of_negative (hscale : d.scale < 0) :
    |d.toRat| = (d.unscaled.natAbs * 10 ^ d.scale.natAbs : ℕ) := by
  have hexponent : -d.scale = d.scale.natAbs := by omega
  rw [Decimal.abs_toRat, hexponent, zpow_natCast]
  push_cast
  rfl

theorem pow_integralDigits (hscale : d.scale < 0) (hne : d.unscaled ≠ 0) :
    10 ^ (d.precision + d.scale.natAbs - 1) ≤ |d.toRat| ∧
      |d.toRat| < 10 ^ (d.precision + d.scale.natAbs) := by
  have hmagnitude := Int.natAbs_ne_zero.mpr hne
  have hlower := Digits.pow_length_ofNat_le (by decide : 2 ≤ 10) hmagnitude
  have hupper := Digits.lt_pow_length_ofNat (by decide : 2 ≤ 10) d.unscaled.natAbs
  have hprecision := Digits.length_ofNat_pos (by decide : 2 ≤ 10) hmagnitude
  rw [← precision_eq hne] at hlower hupper hprecision
  have hsplit : d.precision + d.scale.natAbs - 1 = (d.precision - 1) + d.scale.natAbs := by omega
  rw [abs_toRat_of_negative hscale, hsplit]
  constructor
  · exact_mod_cast (Nat.pow_add 10 _ _).trans_le (Nat.mul_le_mul_right _ hlower)
  · exact_mod_cast (Nat.mul_lt_mul_of_pos_right hupper (Nat.pow_pos (by decide))).trans_eq
      (Nat.pow_add 10 _ _).symm

theorem integralDigits_le_iff (hscale : d.scale < 0) (hne : d.unscaled ≠ 0) :
    d.precision + d.scale.natAbs ≤ maxIntegralDigits ↔ |d.toRat| < 10 ^ maxIntegralDigits := by
  obtain ⟨hlower, hupper⟩ := pow_integralDigits hscale hne
  constructor
  · intro hfits
    exact hupper.trans_le (pow_le_pow_right₀ (by norm_num) hfits)
  · intro hlt
    have := (pow_lt_pow_iff_right₀ (by norm_num : (1 : ℚ) < 10)).mp (hlower.trans_lt hlt)
    omega

theorem log_integralDigits (hscale : d.scale < 0) (hne : d.unscaled ≠ 0) :
    Int.log 10000 |d.toRat| = ((d.precision + d.scale.natAbs : ℕ) - 1) / digitWidth := by
  obtain ⟨hlower, hupper⟩ := pow_integralDigits hscale hne
  have hpos : 0 < d.precision + d.scale.natAbs := by omega
  generalize d.precision + d.scale.natAbs = count at *
  have hweight : ((count : ℤ) - 1) / digitWidth = ((count - 1) / digitWidth : ℕ) := by
    push_cast [hpos]
    rfl
  have hdiv : digitWidth * ((count - 1) / digitWidth) ≤ count - 1 ∧
      count ≤ digitWidth * ((count - 1) / digitWidth + 1) := by
    unfold digitWidth
    omega
  rw [hweight]
  refine log_eq_of_bounds ?_ ?_
  · rw [zpow_natCast, pow_base]
    exact (pow_le_pow_right₀ (by norm_num) hdiv.1).trans hlower
  · rw [← Nat.cast_succ, zpow_natCast, pow_base]
    exact hupper.trans_le (pow_le_pow_right₀ (by norm_num) hdiv.2)

theorem toRat_expanded (hscale : d.scale < 0) :
    (Decimal.mk (d.unscaled * 10 ^ d.scale.natAbs) (0 : ℕ)).toRat = d.toRat := by
  have hexponent : -d.scale = d.scale.natAbs := by omega
  simp only [Decimal.toRat]
  rw [hexponent, zpow_natCast, Nat.cast_zero, neg_zero, zpow_zero, mul_one]
  push_cast
  rfl

end Expanded

/-! ## From a decimal -/

section OfDecimal

variable {d : Decimal} (hscale : d.scale ≤ maxDisplayScale)

theorem ofDecimal_of_scale (hscale : maxDisplayScale < d.scale) :
    ofDecimal d = .error (.scaleOutOfRange d.scale) := by
  obtain ⟨unscaled, scale⟩ := d
  obtain ⟨k, rfl⟩ := Int.eq_ofNat_of_zero_le ((Int.natCast_nonneg _).trans hscale.le)
  exact ofUnscaled_of_scale (Int.ofNat_lt.mp hscale)

include hscale

theorem ofDecimal_of_small (hlt : |d.toRat| < 10 ^ maxIntegralDigits) :
    ∃ n, ofDecimal d = .ok n ∧ n.exactValue = .ofRat d.toRat := by
  unfold ofDecimal
  by_cases hsign : 0 ≤ d.scale
  · obtain ⟨unscaled, scale⟩ := d
    obtain ⟨k, rfl⟩ := Int.eq_ofNat_of_zero_le hsign
    rw [if_pos hsign]
    exact ofUnscaled_of_small (Int.ofNat_le.mp hscale) hlt
  rw [if_neg hsign]
  by_cases hzero : d.unscaled = 0
  · rw [if_pos hzero, Decimal.toRat, hzero, Int.cast_zero, zero_mul]
    exact ⟨zero, rfl, exactValue_zero 0 (Nat.zero_le _)⟩
  · have hnegative := not_le.mp hsign
    have hfits := (integralDigits_le_iff hnegative hzero).mpr hlt
    have hexpanded := toRat_expanded hnegative
    rw [if_neg hzero, ← hexpanded]
    dsimp only
    rw [if_neg (Nat.not_lt_of_le hfits)]
    exact ofUnscaled_of_small (Nat.zero_le _) (hexpanded ▸ hlt)

theorem ofDecimal_of_large (hle : 10 ^ maxIntegralDigits ≤ |d.toRat|) :
    ofDecimal d = .error (.weightOutOfRange (Int.log 10000 |d.toRat|)) := by
  unfold ofDecimal
  by_cases hsign : 0 ≤ d.scale
  · obtain ⟨unscaled, scale⟩ := d
    obtain ⟨k, rfl⟩ := Int.eq_ofNat_of_zero_le hsign
    rw [if_pos hsign]
    exact ofUnscaled_of_large (Int.ofNat_le.mp hscale) hle
  have hnegative := not_le.mp hsign
  have hzero := unscaled_ne_zero_of_large hle
  have hlarge := mt (integralDigits_le_iff hnegative hzero).mp (not_lt.mpr hle)
  rw [if_neg hsign, if_neg hzero, log_integralDigits hnegative hzero]
  dsimp only
  rw [if_pos (Nat.lt_of_not_le hlarge)]

end OfDecimal

end Numeric

end ExactCompare
