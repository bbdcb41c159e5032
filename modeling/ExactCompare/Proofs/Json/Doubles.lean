import ExactCompare.Proofs.Exact.TwoRoundings
import ExactCompare.Proofs.Json.Floats
import ExactCompare.Proofs.ValueHashes

/-!
# Numbers that are read with one rounding

Few digits are a double, and so is a small power of ten. Their product and their quotient are then
rounded only once, so the double nearest to the number is read.

A float of 32 bits is always rounded twice, to a double first. If its last digit is near the point,
the number keeps far enough from the ends of its interval, or meets one of them.
-/

namespace ExactCompare

-- Powers are those that `Nat` and `Int` come with.
attribute [local instance (2000)] instPowNat

/-! ## The sign -/

namespace Binary

variable {f : BinaryFormat} {b c : Binary f} {negative : Bool} {mantissa : ℕ} {exponent : ℤ}

theorem fields_negate (b : Binary f) : b.negate.isNegative = !b.isNegative ∧
    b.negate.exponentField = b.exponentField ∧ b.negate.fractionField = b.fractionField := by
  have hfields := fields_lt b.exponentField_lt b.fractionField_lt
  have hmagnitude : b.bits % 2 ^ f.magnitudeBits =
      b.exponentField * 2 ^ f.fractionBits + b.fractionField := by
    rw [b.bits_eq_fields]
    split
    · rw [Nat.add_mod_right, Nat.mod_eq_of_lt hfields]
    · rw [Nat.add_zero, Nat.mod_eq_of_lt hfields]
  have hnegate : b.negate = ofMagnitude (!b.isNegative) _ hfields := by
    apply eq_of_bits_eq
    unfold negate ofMagnitude
    simp only [hmagnitude]
  rw [hnegate]
  exact fields_ofMagnitude (!b.isNegative) b.exponentField_lt b.fractionField_lt

theorem view_negate (h : b.view = .finite negative mantissa exponent) :
    b.negate.view = .finite (!negative) mantissa exponent := by
  obtain ⟨hsign, hexponent, hfraction⟩ := b.fields_negate
  have hspecial := exponentField_ne_of_view h
  unfold view at h ⊢
  rw [hsign, hexponent, hfraction, if_neg hspecial]
  rw [if_neg hspecial] at h
  split at h
  case isTrue hsub =>
    obtain ⟨rfl, rfl, rfl⟩ := View.finite.injEq .. ▸ h
    rw [if_pos hsub]
  case isFalse hnormal =>
    obtain ⟨rfl, rfl, rfl⟩ := View.finite.injEq .. ▸ h
    rw [if_neg hnormal]

theorem view_signed (negative : Bool) (h : b.view = .finite false mantissa exponent) :
    (if negative then b.negate else b).view = .finite negative mantissa exponent := by
  cases negative with
  | false => exact h
  | true => exact view_negate h

theorem exists_magnitude (hb : b.view = .finite negative mantissa exponent) :
    ∃ c : Binary f, c.view = .finite false mantissa exponent := by
  cases negative with
  | false => exact ⟨b, hb⟩
  | true => exact ⟨b.negate, view_negate hb⟩

/-! ## Products and quotients -/

/-- The value of a float without its sign. -/
structure HasMagnitude (b : Binary f) (q : ℚ) : Prop where
  den_pos : 0 < b.magnitude.2
  value : (b.magnitude.1 : ℚ) / b.magnitude.2 = q

theorem hasMagnitude_of_view (h : b.view = .finite negative mantissa exponent) :
    b.HasMagnitude (scaled mantissa exponent) := by
  have hmagnitude : b.magnitude = scaleDown mantissa 1 (-exponent) := by
    unfold magnitude
    rw [h]
  constructor
  · rw [hmagnitude]
    exact scaleDown_den_pos _ one_pos _
  · rw [hmagnitude, scaleDown_quotient, Nat.cast_one, div_one, zpow_neg, div_inv_eq_mul, scaled]

variable {x y : Binary f} {p q : ℚ}

theorem product_of_roundsTo (hb : b.view = .finite false mantissa exponent) (hpos : 0 < mantissa)
    (hx : x.HasMagnitude p) (hy : y.HasMagnitude q) (h : RoundsTo f mantissa exponent (p * q)) :
    x.product y = b := by
  refine nearest_of_roundsTo hb hpos (Nat.mul_pos hx.den_pos hy.den_pos) ?_
  rw [Nat.cast_mul, Nat.cast_mul, mul_div_mul_comm, hx.value, hy.value]
  exact h

theorem quotient_of_roundsTo (hb : b.view = .finite false mantissa exponent) (hpos : 0 < mantissa)
    (hx : x.HasMagnitude p) (hy : y.HasMagnitude q) (hq : q ≠ 0)
    (h : RoundsTo f mantissa exponent (p / q)) : x.quotient y = b := by
  have hnum : 0 < y.magnitude.1 := by
    refine Nat.pos_of_ne_zero fun hzero => hq ?_
    rw [← hy.value, hzero, Nat.cast_zero, zero_div]
  refine nearest_of_roundsTo hb hpos (Nat.mul_pos hx.den_pos hnum) ?_
  rw [Nat.cast_mul, Nat.cast_mul, ← div_div_div_eq, hx.value, hy.value]
  exact h

end Binary

namespace Json

open Binary (RoundsTo scaled)

/-! ## Exact doubles -/

theorem hasMagnitude_nearest {c k : ℕ} (hpos : 0 < c) (hlt : c < 2 ^ 53) (hk : k ≤ 900) :
    (Binary.nearest .binary64 false (c * 2 ^ k) 1).HasMagnitude (c * 2 ^ k) := by
  have hlog : c.log2 < 53 := (Nat.log2_lt hpos.ne').mpr hlt
  have hmin : BinaryFormat.binary64.minExponent = -1074 := by decide
  have hspecial : BinaryFormat.binary64.specialExponent = 2047 := by decide
  have hbits : BinaryFormat.binary64.fractionBits = 52 := rfl
  have hlow : BinaryFormat.binary64.minExponent ≤
      k + c.log2 - BinaryFormat.binary64.fractionBits := by omega
  obtain ⟨b, mantissa, exponent, hb, hscaled⟩ := Binary.exists_normal_view .binary64 false hpos hlt
    hlow (by omega)
  have hvalue : scaled mantissa exponent = c * 2 ^ k := by
    rw [← hscaled, scaled, zpow_natCast]
  have hnearest : Binary.nearest .binary64 false (c * 2 ^ k) 1 = b := by
    refine Binary.nearest_of_exact hb one_pos ?_
    rw [hvalue]
    push_cast
    rw [div_one]
  rw [hnearest, ← hvalue]
  exact Binary.hasMagnitude_of_view hb

theorem hasMagnitude_ofInt {c : ℕ} (hpos : 0 < c) (hlt : c < 2 ^ 53) :
    (Binary.ofInt .binary64 c).HasMagnitude c := by
  have hexact := hasMagnitude_nearest hpos hlt (Nat.zero_le 900)
  rw [Nat.pow_zero, Nat.mul_one, pow_zero, mul_one] at hexact
  exact hexact

theorem hasMagnitude_powerOfTen {k : ℕ} (hk : k ≤ 22) :
    (powerOfTen k).HasMagnitude (10 ^ k) := by
  have hlt : 5 ^ k < 2 ^ 53 := (Nat.pow_le_pow_right (by decide) hk).trans_lt (by decide)
  have hsmall : k ≤ 900 := hk.trans (by decide)
  have hexact := hasMagnitude_nearest (Nat.pow_pos (by decide)) hlt hsmall
  have hten : 5 ^ k * 2 ^ k = 10 ^ k := (Nat.mul_pow 5 2 k).symm
  have hten' : ((5 ^ k : ℕ) : ℚ) * 2 ^ k = 10 ^ k := by exact_mod_cast hten
  rw [hten, hten'] at hexact
  exact hexact

/-! ## One rounding -/

variable {b : Double} {mantissa c : ℕ} {exponent place : ℤ}

theorem double?_of_roundsTo (hb : b.view = .finite false mantissa exponent) (hpos : 0 < mantissa)
    (hc : 0 < c) (hlt : c < 2 ^ 53) (hplace : place.natAbs ≤ 22)
    (h : RoundsTo .binary64 mantissa exponent (c * 10 ^ place)) : double? c place = some b := by
  have hdigits := hasMagnitude_ofInt hc hlt
  have hpower := hasMagnitude_powerOfTen hplace
  have hfinite : Double.isFinite b = true := bne_iff_ne.mpr (Binary.exponentField_ne_of_view hb)
  unfold double?
  rw [scaleByTen, if_pos (hplace.trans (by decide))]
  dsimp only
  split
  case isTrue hnonneg =>
    obtain ⟨k, rfl⟩ := Int.eq_ofNat_of_zero_le hnonneg
    rw [zpow_natCast] at h
    rw [Binary.product_of_roundsTo hb hpos hdigits hpower h, if_pos hfinite]
  case isFalse hneg =>
    obtain ⟨k, rfl⟩ : ∃ k : ℕ, place = -k := ⟨(-place).toNat, by omega⟩
    rw [zpow_neg, zpow_natCast, ← div_eq_mul_inv] at h
    have hk : (-(k : ℤ)).natAbs = k := by omega
    rw [hk] at hpower ⊢
    rw [Binary.quotient_of_roundsTo hb hpos hdigits hpower (by positivity) h]

end Json

/-! ## Floats that are read back -/

namespace Binary

variable {f : BinaryFormat}

/-- What is read back from the text of a finite float. Its digits are rounded, and scaled by a
rounded power of ten, and the result is rounded again. -/
def reread (b : Binary f) : Option (Binary f) :=
  match b.view with
  | .finite negative mantissa exponent =>
    let (c, place) := spelling f mantissa exponent
    (Json.double? c place).map fun x => (if negative then x.negate else x).convert f
  | _ => none

/-- The digits of a float are a double, and so is the power of ten at their place. -/
def IsShort (b : Float8) : Prop :=
  ∃ negative mantissa exponent, b.view = .finite negative mantissa exponent ∧
    (spelling .binary64 mantissa exponent).1 < 2 ^ 53 ∧
    (spelling .binary64 mantissa exponent).2.natAbs ≤ 22

theorem reread_of_view {b : Binary f} {negative : Bool} {mantissa : ℕ} {exponent : ℤ}
    (h : b.view = .finite negative mantissa exponent) :
    b.reread = (Json.double? (spelling f mantissa exponent).1 (spelling f mantissa exponent).2).map
      fun x => (if negative then x.negate else x).convert f := by
  unfold reread
  rw [h]

theorem reread_of_zero {b : Binary f} {negative : Bool} {exponent : ℤ}
    (hb : b.view = .finite negative 0 exponent) : b.reread = some b := by
  let zero : Float8 := ⟨0, by decide⟩
  have hzero : zero.view = .finite false 0 (-1074) := by decide
  have hread : Json.double? 0 (-1) = some zero := by decide +kernel
  have hscaled : scaled 0 (-1074) = scaled 0 exponent := by
    rw [scaled_eq_zero_iff.mpr rfl, scaled_eq_zero_iff.mpr rfl]
  have hspelling : spelling f 0 exponent = (0, -1) := if_pos rfl
  rw [reread_of_view hb, hspelling, hread, Option.map_some,
    convert_eq_of_scaled (view_signed negative hzero) hb hscaled]

/-- **A short double is read back** as it is. -/
theorem IsShort.reread {b : Float8} (h : b.IsShort) : b.reread = some b := by
  obtain ⟨negative, mantissa, exponent, hb, hfew, hplace⟩ := h
  rcases Nat.eq_zero_or_pos mantissa with rfl | hpos
  · exact reread_of_zero hb
  · have hmin := (isNarrow_binary64.bounds hb).1
    obtain ⟨c, hc⟩ := exists_magnitude hb
    have hread := Json.double?_of_roundsTo hc hpos (spelling_pos hpos (by omega)) hfew hplace
      (roundsTo_spelling hpos (by omega))
    rw [reread_of_view hb, hread, Option.map_some,
      convert_eq_of_scaled (view_signed negative hc) hb rfl]

/-! ## Floats of 32 bits -/

/-- The last digit of the float stands at most nine places from the point. -/
def EndsNearPoint (b : Float4) : Prop :=
  ∃ negative mantissa exponent, b.view = .finite negative mantissa exponent ∧
    (spelling .binary32 mantissa exponent).2.natAbs ≤ 9

theorem convert_of_roundsTo {g : BinaryFormat} {x : Binary f} {b : Binary g} {negative : Bool}
    {mantissa mantissa' : ℕ} {exponent exponent' : ℤ}
    (hx : x.view = .finite negative mantissa' exponent')
    (hb : b.view = .finite negative mantissa exponent) (hpos : 0 < mantissa)
    (h : RoundsTo g mantissa exponent (scaled mantissa' exponent')) : x.convert g = b := by
  have hquotient : ((scaleDown mantissa' 1 (-exponent')).1 : ℚ) /
      (scaleDown mantissa' 1 (-exponent')).2 = scaled mantissa' exponent' := by
    rw [scaleDown_quotient, Nat.cast_one, div_one, zpow_neg, div_inv_eq_mul, scaled]
  rw [convert, hx]
  exact nearest_of_roundsTo hb hpos (scaleDown_den_pos _ one_pos _) (hquotient ▸ h)

theorem spelling_few {b : Float4} {negative : Bool} {mantissa : ℕ} {exponent : ℤ}
    (h : b.view = .finite negative mantissa exponent) (hpos : 0 < mantissa) :
    (spelling .binary32 mantissa exponent).1 < 2 ^ 29 ∨
      (spelling .binary32 mantissa exponent).2 = -1 ∧
        (spelling .binary32 mantissa exponent).1 < 2 ^ 47 := by
  obtain ⟨hmin, -, -⟩ := isNarrow_binary32.bounds h
  obtain ⟨-, hlt, -⟩ := finite_parts h
  have hmantissa : mantissa < 2 ^ 24 := hlt
  have hdecimal : IsDecimalOf .binary32 mantissa exponent _ _ :=
    isDecimalOf_shortest hpos (by omega)
  have hfew := hdecimal.le
  have hmax : (Layout.ofFormat .binary32).maxWhole = 13 := rfl
  unfold spelling Layout.spelling
  rw [if_neg hpos.ne', hmax]
  generalize shortestDecimal .binary32 mantissa exponent = d at hfew ⊢
  obtain ⟨n, grid⟩ := d
  dsimp only at hfew ⊢
  split
  case isTrue hfilled =>
    have hlt := filled_lt (by omega : (Digits.decimal n).length + grid.toNat ≤ 13)
    exact .inr ⟨rfl, hlt.trans (by decide)⟩
  case isFalse => exact .inl (by omega)

/-- **A float of 32 bits that ends near the point is read back** as it is. -/
theorem EndsNearPoint.reread {b : Float4} (h : b.EndsNearPoint) : b.reread = some b := by
  obtain ⟨negative, mantissa, exponent, hb, hplace⟩ := h
  rcases Nat.eq_zero_or_pos mantissa with rfl | hpos
  · exact reread_of_zero hb
  have hmin := (isNarrow_binary32.bounds hb).1
  have hcpos := spelling_pos (f := .binary32) hpos (by omega : -100000 ≤ exponent)
  have hrounds := roundsTo_spelling (f := .binary32) hpos (by omega : -100000 ≤ exponent)
  have hfew := spelling_few hb hpos
  obtain ⟨-, hlt, -⟩ := finite_parts hb
  have hmantissa : mantissa < 2 ^ 24 := hlt
  rw [reread_of_view hb]
  generalize (spelling .binary32 mantissa exponent).1 = c at hcpos hrounds hfew ⊢
  generalize (spelling .binary32 mantissa exponent).2 = place at hplace hrounds hfew ⊢
  have hfive {k : ℕ} (hk : k ≤ 9) : 5 ^ k ≤ 5 ^ 9 := Nat.pow_le_pow_right (by decide) hk
  have hc : c * 5 ^ place.toNat < 2 ^ 50 := by
    rcases hfew with hfew | ⟨rfl, hfew⟩
    · calc c * 5 ^ place.toNat ≤ 2 ^ 29 * 5 ^ 9 :=
            Nat.mul_le_mul hfew.le (hfive (by omega))
        _ < 2 ^ 50 := by decide
    · calc c * 5 ^ (-1 : ℤ).toNat = c := Nat.mul_one c
        _ < 2 ^ 50 := hfew.trans (by decide)
  -- The decimal is apart from every end that it does not meet.
  have hgap (a : ℕ) (ha : a ≤ 4 * mantissa + 2)
      (hne : (c : ℚ) * 10 ^ place ≠ a * 2 ^ (exponent - 2)) :
      (c : ℚ) * 10 ^ place < |(c : ℚ) * 10 ^ place - a * 2 ^ (exponent - 2)| * 2 ^ 53 := by
    have ha' : a * 5 ^ (-place).toNat < 2 ^ 50 := by
      calc a * 5 ^ (-place).toNat ≤ 2 ^ 27 * 5 ^ 9 :=
            Nat.mul_le_mul (by omega) (hfive (by omega))
        _ < 2 ^ 50 := by decide
    refine (lt_gap_of_decimal hc ha' hne).trans_le ?_
    gcongr
    · norm_num
    · decide
  obtain ⟨x, mantissa', exponent', hx, hpos', hwide, hnarrow⟩ :=
    exists_wide_roundsTo hb hpos hrounds hgap
  rw [Json.double?_of_roundsTo hx hpos' hcpos (by omega) (by omega) hwide, Option.map_some,
    convert_of_roundsTo (view_signed negative hx) hb hpos hnarrow]

end Binary

end ExactCompare
