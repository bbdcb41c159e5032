import ExactCompare.Proofs.RoundTrip

/-!
# Numerics read back from their text

The text of every numeric is read. What is read is decoded like the numeric, unless the numeric has
a fraction and none of the decimals that it shows tells so.
-/

namespace ExactCompare

-- Powers are those that `Nat` and `Int` come with.
attribute [local instance (2000)] instPowNat

namespace Numeric

variable {n : Numeric}

/-- A fraction behind the decimals that are shown. -/
def HidesFraction (n : Numeric) : Prop :=
  0 < Int.fract |n.rational| ∧ Int.fract |n.rational| * 10 ^ n.displayScale < 1

/-- The value that is shown: the stored one, cut off behind the decimals that are shown. -/
def shown (n : Numeric) : ℚ := cutOff (n.rational * 10 ^ n.displayScale) / 10 ^ n.displayScale

/-! ## The value that is shown -/

theorem abs_shown (n : Numeric) :
    |n.shown| = (⌊|n.rational| * 10 ^ n.displayScale⌋₊ : ℚ) / 10 ^ n.displayScale := by
  have hpow : (0 : ℚ) < 10 ^ n.displayScale := by positivity
  rw [shown, abs_div, abs_cutOff, abs_mul, abs_of_pos hpow]

theorem floor_abs_shown (n : Numeric) : ⌊|n.shown|⌋₊ = ⌊|n.rational|⌋₊ := by
  have hpow : ((10 ^ n.displayScale : ℕ) : ℚ) = 10 ^ n.displayScale := by push_cast; rfl
  rw [abs_shown, ← hpow, Nat.floor_div_natCast, Nat.floor_natCast, ← Nat.floor_div_natCast,
    mul_div_cancel_right₀]
  positivity

theorem fract_abs_shown (n : Numeric) : Int.fract |n.shown| =
    (⌊Int.fract |n.rational| * 10 ^ n.displayScale⌋₊ : ℚ) / 10 ^ n.displayScale := by
  have hpow : (10 ^ n.displayScale : ℚ) ≠ 0 := by positivity
  have hfract {q : ℚ} (hq : 0 ≤ q) : Int.fract q = q - ⌊q⌋₊ := by
    rw [natCast_floor_eq_intCast_floor hq, Int.self_sub_floor]
  -- The digits before the point are whole steps of the last decimal.
  have hsplit : |n.rational| * 10 ^ n.displayScale =
      Int.fract |n.rational| * 10 ^ n.displayScale +
        (⌊|n.rational|⌋₊ * 10 ^ n.displayScale : ℕ) := by
    rw [hfract (abs_nonneg _)]
    push_cast
    ring
  have hnonneg : 0 ≤ Int.fract |n.rational| * 10 ^ n.displayScale :=
    mul_nonneg (Int.fract_nonneg _) (by positivity)
  rw [hfract (abs_nonneg _), floor_abs_shown, abs_shown, hsplit, Nat.floor_add_natCast hnonneg]
  push_cast
  rw [add_div, mul_div_cancel_right₀ _ hpow, add_sub_cancel_right]

theorem fract_abs_shown_eq_zero_iff (n : Numeric) : Int.fract |n.shown| = 0 ↔
    Int.fract |n.rational| * 10 ^ n.displayScale < 1 := by
  rw [fract_abs_shown, div_eq_zero_iff, or_iff_left (by positivity), Nat.cast_eq_zero,
    Nat.floor_eq_zero]

theorem shown_nonneg (h : 0 ≤ n.rational) : 0 ≤ n.shown := by
  have hscaled : 0 ≤ n.rational * 10 ^ n.displayScale := by positivity
  rw [shown, cutOff_of_nonneg hscaled]
  positivity

theorem shown_nonpos (h : n.rational ≤ 0) : n.shown ≤ 0 := by
  have hscaled : 0 ≤ -n.rational * 10 ^ n.displayScale :=
    mul_nonneg (neg_nonneg.mpr h) (by positivity)
  have hcut := cutOff_neg hscaled
  rw [neg_mul, neg_neg] at hcut
  rw [shown, hcut, neg_div]
  exact neg_nonpos.mpr (by positivity)

theorem ofRat_shown_iff (n : Numeric) :
    Decoded.ofRat n.shown = Decoded.ofRat n.rational ↔ ¬ n.HidesFraction := by
  have hflag : (Int.fract |n.shown| = 0 ↔ Int.fract |n.rational| = 0) ↔ ¬ n.HidesFraction := by
    have hnonneg := Int.fract_nonneg |n.rational|
    rw [fract_abs_shown_eq_zero_iff, HidesFraction, not_and, not_lt]
    constructor
    · intro hiff hpos
      exact not_lt.mp fun hlt => hpos.ne' (hiff.mp hlt)
    · intro hshows
      constructor
      · intro hlt
        exact le_antisymm (not_lt.mp fun hpos => absurd (hshows hpos) (not_le.mpr hlt)) hnonneg
      · intro hzero
        rw [hzero, zero_mul]
        exact one_pos
  rw [← hflag]
  constructor
  · intro h
    have hfraction := congrArg Decoded.hasFraction h
    rw [Decoded.hasFraction_ofRat, Decoded.hasFraction_ofRat, decide_eq_decide,
      not_iff_not] at hfraction
    rwa [fract_abs_eq_zero_iff, fract_abs_eq_zero_iff]
  · intro hiff
    by_cases hzero : n.shown = 0
    · -- Then the value has no integer part either.
      have hwhole : ⌊|n.rational|⌋₊ = 0 := by
        rw [← floor_abs_shown, hzero, abs_zero, Nat.floor_zero]
      have hfract : Int.fract |n.rational| = 0 := hiff.mp (by rw [hzero, abs_zero, Int.fract_zero])
      rw [hzero, Decoded.ofRat, Decoded.ofRat, hwhole, hfract, abs_zero, Nat.floor_zero,
        Int.fract_zero]
      simp only [ne_eq, not_true_eq_false, decide_false, Decoded.ofParts_zero]
    · have hsign : n.shown < 0 ↔ n.rational < 0 := by
        constructor
        · intro hneg
          exact not_le.mp fun hnonneg => absurd (shown_nonneg hnonneg) (not_le.mpr hneg)
        · intro hneg
          exact lt_of_le_of_ne (shown_nonpos hneg.le) hzero
      unfold Decoded.ofRat
      simp only [floor_abs_shown, ne_eq, hiff, hsign]

/-! ## Reading the text -/

theorem fits_shown (n : Numeric) :
    decimalPlaces n.shown ≤ 16383 ∧ |n.shown| < 10 ^ 131072 := by
  have hpow : (0 : ℚ) < 10 ^ n.displayScale := by positivity
  constructor
  · have hplaces : decimalPlaces n.shown ≤ n.displayScale :=
      Nat.sInf_le ⟨_, div_mul_cancel₀ _ hpow.ne'⟩
    exact hplaces.trans n.displayScale_le
  · calc |n.shown| ≤ |n.rational| * 10 ^ n.displayScale / 10 ^ n.displayScale := by
          rw [abs_shown]
          gcongr
          exact Nat.floor_le (by positivity)
      _ = n.magnitude := by rw [mul_div_cancel_right₀ _ hpow.ne', abs_rational]
      _ < 10 ^ 131072 := n.magnitude_lt

theorem exists_parse_shown (hfinite : n.sign.isSpecial = false) :
    ∃ m, parse n.text = .ok m ∧ m.exactValue = .ofRat n.shown := by
  obtain ⟨d, hd, -, -⟩ := exists_decimal? hfinite
  obtain ⟨digits, count, exponent, hspells, hvalue⟩ := exists_spells_text hfinite hd
  have hshown : d.toRat = n.shown := by
    rw [eq_of_decimal? hfinite hd, Decimal.toRat, zpow_neg, zpow_natCast, ← div_eq_mul_inv, shown]
  have hread : (Decimal.normalize ⟨digits, count - exponent⟩).toRat = n.shown := by
    rw [Decimal.toRat_normalize, Decimal.toRat, neg_sub, hvalue, hshown]
  rw [← hread]
  exact parse_of_fits (Decimal.isNormal_normalize _) (parse_of_spells hspells.trim)
    (hread ▸ n.fits_shown)

/-! ## Special values -/

theorem text_of_special (h : n.sign.isSpecial = true) : n.text = (ofSign n.sign).text := by
  unfold text
  cases hs : n.sign with
  | positive | negative =>
    rw [hs] at h
    cases h
  | nan | infinity | negInfinity => rfl

theorem decode_of_special (h : n.sign.isSpecial = true) :
    n.decode = (ofSign n.sign).decode := by
  unfold decode
  cases hs : n.sign with
  | positive | negative =>
    rw [hs] at h
    cases h
  | nan | infinity | negInfinity => rfl

theorem rational_of_special (h : n.sign.isSpecial = true) : n.rational = 0 := by
  have hmagnitude : n.magnitude = 0 := by
    rw [magnitude_eq_digitSum, n.special h, digitSum]
  rw [rational, hmagnitude, neg_zero, ite_self]

/-- **The text of a numeric is read** as a numeric that is decoded alike, unless it hides a
fraction. -/
theorem exists_reread (n : Numeric) :
    ∃ m, parse n.text = .ok m ∧ (m.decode = n.decode ↔ ¬ n.HidesFraction) := by
  cases h : n.sign.isSpecial with
  | true =>
    refine ⟨ofSign n.sign, text_of_special h ▸ parse_text_of_special h, ?_⟩
    rw [HidesFraction, rational_of_special h, abs_zero, Int.fract_zero]
    simp [decode_of_special h]
  | false =>
    obtain ⟨m, hm, hvalue⟩ := exists_parse_shown h
    refine ⟨m, hm, ?_⟩
    rw [m.decode_eq_ofExact, n.decode_eq_ofExact, hvalue, exactValue_of_finite h,
      Decoded.ofExact_ofRat, Decoded.ofExact_ofRat, ofRat_shown_iff]

end Numeric

end ExactCompare
