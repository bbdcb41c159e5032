import ExactCompare.Proofs.Exact.Fields

/-!
# Widening a float

A float of 32 bits has the same value as a float of 64 bits, and converting gives that float. A
subnormal becomes normal on the way.
-/

namespace ExactCompare.Binary

-- Powers are those that `Nat` and `Int` come with.
attribute [local instance (2000)] instPowNat

variable {f g : BinaryFormat}

/-! ## Floats with the highest bit in place -/

theorem exists_view {mantissa : ℕ} {exponent : ℤ} (negative : Bool)
    (hlow : 2 ^ f.fractionBits ≤ mantissa) (hhigh : mantissa < 2 ^ (f.fractionBits + 1))
    (hmin : f.minExponent ≤ exponent)
    (hmax : exponent - f.minExponent + 1 < f.specialExponent) :
    ∃ b : Binary f, b.view = .finite negative mantissa exponent := by
  obtain ⟨k, hk⟩ := Int.eq_ofNat_of_zero_le (by omega : 0 ≤ exponent - f.minExponent + 1)
  obtain ⟨r, rfl⟩ := Nat.exists_eq_add_of_le hlow
  have hspecial : f.specialExponent < 2 ^ f.exponentBits :=
    Nat.sub_lt (Nat.pow_pos (by decide)) one_pos
  have hfield : k < 2 ^ f.exponentBits := by omega
  have hr : r < 2 ^ f.fractionBits := by rw [Nat.pow_succ] at hhigh; omega
  obtain ⟨hsign, hexponent, hfraction⟩ := fields_ofMagnitude negative hfield hr
  refine ⟨ofMagnitude negative _ (fields_lt hfield hr), ?_⟩
  unfold view
  rw [hsign, hexponent, hfraction, if_neg (by omega), if_neg (by omega)]
  congr 1
  omega

/-! ## Floats of the same value -/

theorem convert_eq_of_scaled {negative : Bool} {mantissa mantissa' : ℕ} {exponent exponent' : ℤ}
    {b : Binary f} {c : Binary g} (hb : b.view = .finite negative mantissa exponent)
    (hc : c.view = .finite negative mantissa' exponent')
    (h : scaled mantissa exponent = scaled mantissa' exponent') : b.convert g = c := by
  have hquotient : ((scaleDown mantissa 1 (-exponent)).1 : ℚ) /
      (scaleDown mantissa 1 (-exponent)).2 = scaled mantissa' exponent' := by
    rw [scaleDown_quotient, Nat.cast_one, div_one, zpow_neg, div_inv_eq_mul]
    exact h
  rw [convert, hb]
  exact nearest_of_exact hc (scaleDown_den_pos _ one_pos _) hquotient

theorem exactValue_convert_of_scaled {negative : Bool} {mantissa mantissa' : ℕ}
    {exponent exponent' : ℤ} {b : Binary f} {c : Binary g}
    (hb : b.view = .finite negative mantissa exponent)
    (hc : c.view = .finite negative mantissa' exponent')
    (h : scaled mantissa exponent = scaled mantissa' exponent') :
    (b.convert g).exactValue = b.exactValue := by
  rw [convert_eq_of_scaled hb hc h, rational_of_view hb, rational_of_view hc, h]

theorem exists_normal_view (g : BinaryFormat) (negative : Bool) {mantissa : ℕ} {exponent : ℤ}
    (hpos : 0 < mantissa) (hlt : mantissa < 2 ^ (g.fractionBits + 1))
    (hmin : g.minExponent ≤ exponent + mantissa.log2 - g.fractionBits)
    (hmax : exponent + mantissa.log2 - g.fractionBits - g.minExponent + 1 < g.specialExponent) :
    ∃ c : Binary g, ∃ mantissa' exponent', c.view = .finite negative mantissa' exponent' ∧
      scaled mantissa exponent = scaled mantissa' exponent' := by
  have hlog : mantissa.log2 ≤ g.fractionBits :=
    Nat.le_of_lt_succ ((Nat.log2_lt hpos.ne').mpr hlt)
  obtain ⟨shift, hshift⟩ := Nat.exists_eq_add_of_le hlog
  have hlow : 2 ^ g.fractionBits ≤ mantissa * 2 ^ shift := by
    rw [hshift, Nat.pow_add]
    exact Nat.mul_le_mul_right _ (Nat.log2_self_le hpos.ne')
  have hhigh : mantissa * 2 ^ shift < 2 ^ (g.fractionBits + 1) := by
    have hsum : g.fractionBits + 1 = mantissa.log2 + 1 + shift := by omega
    rw [hsum, Nat.pow_add]
    exact Nat.mul_lt_mul_of_pos_right Nat.lt_log2_self (Nat.pow_pos (by decide))
  have hmin' : g.minExponent ≤ exponent - shift := by omega
  obtain ⟨c, hc⟩ := exists_view negative hlow hhigh hmin' (by omega)
  refine ⟨c, _, _, hc, ?_⟩
  unfold scaled
  push_cast
  rw [zpow_sub₀ (by norm_num), zpow_natCast]
  field_simp

/-! ## From 32 to 64 bits -/

theorem exists_wide_view {b : Binary .binary32} {negative : Bool} {mantissa : ℕ} {exponent : ℤ}
    (hb : b.view = .finite negative mantissa exponent) :
    ∃ c : Binary .binary64, ∃ mantissa' exponent', c.view = .finite negative mantissa' exponent' ∧
      scaled mantissa exponent = scaled mantissa' exponent' := by
  rcases Nat.eq_zero_or_pos mantissa with rfl | hpos
  · -- A zero has no highest bit.
    obtain ⟨c, hc⟩ : ∃ c : Binary .binary64, c.view = .finite negative 0 (-1074) := by
      cases negative
      · exact ⟨⟨0, by decide⟩, by decide⟩
      · exact ⟨⟨2 ^ 63, by decide⟩, by decide⟩
    exact ⟨c, _, _, hc, by simp [scaled]⟩
  · obtain ⟨hmin, hlt, -, hfinite, -⟩ := finite_parts hb
    have hlog : mantissa.log2 < 24 := (Nat.log2_lt hpos.ne').mpr hlt
    have hmax : (exponent - BinaryFormat.binary32.minExponent).toNat ≤ 255 :=
      Nat.le_of_mul_le_mul_right ((Nat.le_add_right _ _).trans hfinite) (by decide)
    have hmin32 : BinaryFormat.binary32.minExponent = -149 := by decide
    have hmin64 : BinaryFormat.binary64.minExponent = -1074 := by decide
    have hspecial : BinaryFormat.binary64.specialExponent = 2047 := by decide
    have hbits : BinaryFormat.binary64.fractionBits = 52 := rfl
    have hwide : mantissa < 2 ^ (BinaryFormat.binary64.fractionBits + 1) := hlt.trans (by decide)
    have hlow : BinaryFormat.binary64.minExponent ≤
        exponent + mantissa.log2 - BinaryFormat.binary64.fractionBits := by omega
    exact exists_normal_view .binary64 negative hpos hwide hlow (by omega)

/-- **Widening is exact.** It keeps the value of every float, and NaN. -/
theorem exactValue_convert (b : Binary .binary32) :
    (b.convert .binary64).exactValue = b.exactValue := by
  cases hb : b.view with
  | nan =>
    have hnan : (b.convert .binary64).view = .nan := by
      unfold convert
      rw [hb]
      decide
    rw [exactValue_of_view_nan hb, exactValue_of_view_nan hnan]
  | infinity negative =>
    have hinfinity : (b.convert .binary64).view = .infinity negative := by
      unfold convert
      rw [hb]
      cases negative <;> decide
    rw [exactValue_of_view_infinity hb, exactValue_of_view_infinity hinfinity]
  | finite negative mantissa exponent =>
    obtain ⟨c, _, _, hc, hscaled⟩ := exists_wide_view hb
    exact exactValue_convert_of_scaled hb hc hscaled

end ExactCompare.Binary
