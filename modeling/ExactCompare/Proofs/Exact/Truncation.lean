import ExactCompare.Proofs.Exact.Fields
import ExactCompare.Proofs.Exact.Rounding
import ExactCompare.Proofs.Hash.Equal
import Mathlib.Algebra.Order.Floor.Semifield

/-!
# Truncating a float

Clearing the bits behind the point gives the float that is the value cut off at its point. A float
is decoded by comparing it with what is left of it.
-/

namespace ExactCompare

-- Powers are those that `Nat` and `Int` come with.
attribute [local instance (2000)] instPowNat

/-! ## Rationals -/

/-- The integer next to a rational, on the side of zero. -/
def cutOff (q : ℚ) : ℤ := if q < 0 then ⌈q⌉ else ⌊q⌋

theorem cutOff_of_nonneg {q : ℚ} (h : 0 ≤ q) : (cutOff q : ℚ) = ⌊q⌋₊ := by
  unfold cutOff
  rw [if_neg (not_lt.mpr h)]
  exact_mod_cast (Int.natCast_floor_eq_floor h).symm

theorem cutOff_neg {q : ℚ} (h : 0 ≤ q) : (cutOff (-q) : ℚ) = -⌊q⌋₊ := by
  rcases h.eq_or_lt with rfl | hpos
  · simp [cutOff]
  · unfold cutOff
    rw [if_pos (neg_neg_of_pos hpos), Int.ceil_neg, Int.cast_neg, neg_inj]
    exact_mod_cast (Int.natCast_floor_eq_floor h).symm

theorem cutOff_signed (negative : Bool) {q : ℚ} (h : 0 ≤ q) :
    (cutOff (if negative then -q else q) : ℚ) = if negative then -(⌊q⌋₊ : ℚ) else ⌊q⌋₊ := by
  cases negative
  · exact cutOff_of_nonneg h
  · exact cutOff_neg h

theorem abs_cutOff (q : ℚ) : |(cutOff q : ℚ)| = ⌊|q|⌋₊ := by
  rcases le_total 0 q with h | h
  · rw [cutOff_of_nonneg h, abs_of_nonneg h, Nat.abs_cast]
  · have hcut := cutOff_neg (neg_nonneg.mpr h)
    rw [neg_neg] at hcut
    rw [hcut, abs_of_nonpos h, abs_neg, Nat.abs_cast]

theorem cutOff_eq_iff (q : ℚ) : (cutOff q : ℚ) = q ↔ Int.fract q = 0 := by
  constructor
  · intro h
    rw [← h, Int.fract_intCast]
  · intro h
    have hfloor := Int.floor_add_fract q
    rw [h, add_zero] at hfloor
    unfold cutOff
    rw [Decoded.ceil_eq_floor h, ite_self, hfloor]

/-! ## Floats -/

namespace Binary

variable {f : BinaryFormat} {b : Binary f} {negative : Bool} {mantissa : ℕ} {exponent : ℤ}

/-- The float without its bits behind the point, or a zero if there are no others. -/
def truncate (b : Binary f) : Binary f :=
  match b.view with
  | .finite negative _ exponent =>
    if (-exponent).toNat ≤ f.fractionBits then
      ⟨b.bits - b.bits % 2 ^ (-exponent).toNat, (Nat.sub_le _ _).trans_lt b.bits_lt⟩
    else ofMagnitude negative 0 (Nat.pow_pos (by decide))
  | _ => b

/-- The size of a float is read from what is left of it, and it has a fraction if that is less. -/
def decodeByTruncating (b : Binary f) : Decoded :=
  let whole := b.truncate.rational
  if b.exponentField = f.specialExponent then
    .special (if b.fractionField ≠ 0 then .nan else if b.isNegative then .negInfinity else .infinity)
  else if b.rational = 0 then .zero
  else
    .finite (if b.rational < 0 then .negative else .positive)
      (if 2 ^ 63 < |whole| then .overflow else .finite ⌊|whole|⌋₊) (whole ≠ b.rational)

/-! ## The bits that are left -/

theorem bits_clear (b : Binary f) {places : ℕ} (h : places ≤ f.fractionBits)
    (hr : b.fractionField - b.fractionField % 2 ^ places < 2 ^ f.fractionBits) :
    b.bits - b.bits % 2 ^ places =
      (ofMagnitude b.isNegative _ (fields_lt b.exponentField_lt hr)).bits := by
  have hmod : b.bits % 2 ^ places = b.fractionField % 2 ^ places :=
    (Nat.mod_mod_of_dvd _ (Nat.pow_dvd_pow 2 h)).symm
  have hle := Nat.mod_le b.fractionField (2 ^ places)
  show _ = b.exponentField * 2 ^ f.fractionBits +
    (b.fractionField - b.fractionField % 2 ^ places) + if b.isNegative then _ else 0
  rw [hmod, b.bits_eq_fields]
  omega

theorem hidden_add_sub_mod {places : ℕ} (h : places ≤ f.fractionBits) (fraction : ℕ) :
    2 ^ f.fractionBits + fraction - (2 ^ f.fractionBits + fraction) % 2 ^ places =
      2 ^ f.fractionBits + (fraction - fraction % 2 ^ places) := by
  obtain ⟨c, hc⟩ := Nat.pow_dvd_pow 2 h
  have hmod : (2 ^ f.fractionBits + fraction) % 2 ^ places = fraction % 2 ^ places := by
    rw [hc, Nat.mul_add_mod]
  rw [hmod, Nat.add_sub_assoc (Nat.mod_le _ _)]

theorem exponentField_ne_of_view (h : b.view = .finite negative mantissa exponent) :
    b.exponentField ≠ f.specialExponent := by
  intro hspecial
  unfold view at h
  rw [if_pos hspecial] at h
  split at h <;> simp at h

theorem view_truncate (h : b.view = .finite negative mantissa exponent)
    (hplaces : (-exponent).toNat ≤ f.fractionBits) :
    b.truncate.view =
      .finite negative (mantissa - mantissa % 2 ^ (-exponent).toNat) exponent := by
  have hr : b.fractionField - b.fractionField % 2 ^ (-exponent).toNat < 2 ^ f.fractionBits :=
    (Nat.sub_le _ _).trans_lt b.fractionField_lt
  have htruncate : b.truncate = ofMagnitude b.isNegative _ (fields_lt b.exponentField_lt hr) := by
    apply eq_of_bits_eq
    rw [← bits_clear b hplaces hr]
    unfold truncate
    simp only [h, if_pos hplaces]
  obtain ⟨hsign, hexponent, hfraction⟩ := fields_ofMagnitude b.isNegative b.exponentField_lt hr
  have hspecial := exponentField_ne_of_view h
  rw [htruncate]
  unfold view at h ⊢
  rw [hsign, hexponent, hfraction, if_neg hspecial]
  rw [if_neg hspecial] at h
  split at h
  · rename_i hsub
    obtain ⟨rfl, rfl, rfl⟩ := View.finite.injEq .. ▸ h
    rw [if_pos hsub]
  · rename_i hnormal
    obtain ⟨rfl, rfl, rfl⟩ := View.finite.injEq .. ▸ h
    rw [if_neg hnormal, hidden_add_sub_mod hplaces]

theorem view_truncate_of_lt (h : b.view = .finite negative mantissa exponent)
    (hplaces : f.fractionBits < (-exponent).toNat) :
    b.truncate.view = .finite negative 0 f.minExponent := by
  have hspecial : 0 ≠ f.specialExponent := by
    have hne := exponentField_ne_of_view h
    have hlt := b.exponentField_lt
    unfold BinaryFormat.specialExponent at hne ⊢
    omega
  have hpow : 0 < 2 ^ f.exponentBits := Nat.pow_pos (by decide)
  have hzero : 0 < 2 ^ f.fractionBits := Nat.pow_pos (by decide)
  have htruncate : b.truncate = ofMagnitude negative _ (fields_lt hpow hzero) := by
    unfold truncate
    simp only [h, if_neg (Nat.not_le.mpr hplaces), Nat.zero_mul, Nat.add_zero]
  obtain ⟨hsign, hexponent, hfraction⟩ := fields_ofMagnitude negative hpow hzero
  rw [htruncate]
  unfold view
  rw [hsign, hexponent, hfraction, if_neg hspecial, if_pos rfl]

/-! ## The value that is left -/

theorem scaled_neg (mantissa k : ℕ) : scaled mantissa (-k) = mantissa / (2 ^ k : ℕ) := by
  unfold scaled
  push_cast
  rw [zpow_neg, zpow_natCast, div_eq_mul_inv]

theorem floor_scaled_neg (mantissa k : ℕ) : ⌊scaled mantissa (-k)⌋₊ = mantissa / 2 ^ k := by
  rw [scaled_neg, Nat.floor_div_eq_div]

theorem scaled_sub_mod (mantissa : ℕ) (exponent : ℤ) :
    scaled (mantissa - mantissa % 2 ^ (-exponent).toNat) exponent =
      ⌊scaled mantissa exponent⌋₊ := by
  rcases le_or_gt 0 exponent with hexponent | hexponent
  · obtain ⟨k, rfl⟩ := Int.eq_ofNat_of_zero_le hexponent
    have hplaces : (-(k : ℤ)).toNat = 0 := by omega
    have hscaled : scaled mantissa k = (mantissa * 2 ^ k : ℕ) := by simp [scaled]
    rw [hplaces, Nat.pow_zero, Nat.mod_one, Nat.sub_zero, hscaled, Nat.floor_natCast]
  · obtain ⟨k, rfl⟩ : ∃ k : ℕ, exponent = -k := ⟨(-exponent).toNat, by omega⟩
    have hwhole : mantissa - mantissa % 2 ^ k = 2 ^ k * (mantissa / 2 ^ k) := by
      have := Nat.div_add_mod mantissa (2 ^ k)
      omega
    have hunit : ((2 ^ k : ℕ) : ℚ) ≠ 0 := by positivity
    rw [neg_neg, Int.toNat_natCast, floor_scaled_neg, scaled_neg, hwhole, Nat.cast_mul,
      mul_div_cancel_left₀ _ hunit]

theorem exists_view_truncate (h : b.view = .finite negative mantissa exponent) :
    ∃ mantissa' exponent', b.truncate.view = .finite negative mantissa' exponent' ∧
      scaled mantissa' exponent' = ⌊scaled mantissa exponent⌋₊ := by
  by_cases hplaces : (-exponent).toNat ≤ f.fractionBits
  · exact ⟨_, _, view_truncate h hplaces, scaled_sub_mod mantissa exponent⟩
  · rw [Nat.not_le] at hplaces
    refine ⟨_, _, view_truncate_of_lt h hplaces, ?_⟩
    -- All bits of the mantissa are behind the point.
    obtain ⟨k, rfl⟩ : ∃ k : ℕ, exponent = -k := ⟨(-exponent).toNat, by omega⟩
    obtain ⟨-, hmantissa, -⟩ := finite_parts h
    have hlt : mantissa < 2 ^ k :=
      hmantissa.trans_le (Nat.pow_le_pow_right (by decide) (by omega))
    rw [floor_scaled_neg, Nat.div_eq_of_lt hlt]
    simp [scaled]

theorem rational_eq_of_view (h : b.view = .finite negative mantissa exponent) :
    b.rational = if negative then -scaled mantissa exponent else scaled mantissa exponent := by
  have hvalue := rational_of_view h
  rw [exactValue, if_neg (exponentField_ne_of_view h)] at hvalue
  exact ExactValue.ofRat_inj hvalue

theorem exists_view_of_finite (h : b.exponentField ≠ f.specialExponent) :
    ∃ negative mantissa exponent, b.view = .finite negative mantissa exponent := by
  unfold view
  rw [if_neg h]
  split
  · exact ⟨_, _, _, rfl⟩
  · exact ⟨_, _, _, rfl⟩

theorem rational_truncate (h : b.exponentField ≠ f.specialExponent) :
    b.truncate.rational = cutOff b.rational := by
  obtain ⟨negative, mantissa, exponent, hview⟩ := exists_view_of_finite h
  obtain ⟨mantissa', exponent', hview', hscaled⟩ := exists_view_truncate hview
  rw [rational_eq_of_view hview', rational_eq_of_view hview, hscaled,
    cutOff_signed negative (scaled_nonneg mantissa exponent)]

theorem not_isNear_iff (q : ℚ) : (2 : ℚ) ^ 63 < ⌊|q|⌋₊ ↔ ¬ IsNear q := by
  unfold IsNear Decoded.maxMagnitude
  rw [not_le]
  norm_cast

/-- What is left of a float after truncating is enough to decode it. -/
theorem decodeByTruncating_eq (b : Binary f) : b.decodeByTruncating = b.decode := by
  rw [b.decode_eq_ofExact]
  unfold decodeByTruncating exactValue
  split
  · by_cases hfraction : b.fractionField = 0
    · rw [if_neg (not_not.mpr hfraction), if_pos hfraction]
      split <;> rfl
    · rw [if_pos hfraction, if_neg hfraction]
      rfl
  · rename_i hspecial
    rw [rational_truncate hspecial, Decoded.ofExact_ofRat]
    rcases Decoded.ofRat_cases b.rational with ⟨hzero, hdecoded⟩ | ⟨hne, hdecoded⟩
    · rw [if_pos hzero, hdecoded]
    · rw [if_neg hne, hdecoded, abs_cutOff, Nat.floor_natCast]
      simp only [not_isNear_iff, ite_not, ne_eq, cutOff_eq_iff]

end Binary

end ExactCompare
