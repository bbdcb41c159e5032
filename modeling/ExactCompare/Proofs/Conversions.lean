import ExactCompare.Proofs.Numeric.Shown

/-!
# Conversions are exact

A decimal of any scale, in normal form or not, becomes the canonical numeric of its value, or is
refused because it has too many decimal places or is too large. A large exponent is judged by a
count of digits, which refuses what writing out its zeros would refuse.
-/

namespace ExactCompare

-- Powers are those that `Nat` and `Int` come with.
attribute [local instance (2000)] instPowNat

namespace Numeric

/-- The stored parts of a numeric that was made from a decimal. -/
structure IsConversionOf (n : Numeric) (d : Decimal) : Prop where
  negative : n.sign = .negative ↔ d.toRat < 0
  positive : n.sign = .positive ↔ 0 ≤ d.toRat
  displayScale : (n.displayScale : ℤ) = max d.scale 0
  digits_lt : ∀ digit ∈ n.digits, digit < 10000
  first : ∀ digit ∈ n.digits.head?, digit ≠ 0
  last : ∀ digit ∈ n.digits.getLast?, digit ≠ 0
  zero : d.toRat = 0 → n.digits = [] ∧ n.weight = 0
  value : n.exactValue = .ofRat d.toRat
  decimal : ∃ e, n.decimal? = some e ∧ e.scale = n.displayScale ∧ e.toRat = d.toRat

variable {d : Decimal} {n : Numeric}

theorem isConversionOf_of_ofDecimal (h : ofDecimal d = .ok n) : n.IsConversionOf d := by
  obtain ⟨hcanonical, hvalue, hshown⟩ := ofDecimal_eq_ok_iff.mp h
  have hsign := hcanonical.sign_eq
  rw [hvalue] at hsign
  constructor
  case negative => rw [hcanonical.negative_iff, hvalue]
  case positive =>
    rw [hsign]
    split
    case isTrue hlt => exact iff_of_false nofun (not_le.mpr hlt)
    case isFalse hlt => exact iff_of_true rfl (not_lt.mp hlt)
  case displayScale => exact hshown
  case digits_lt => exact n.digits_lt
  case first => exact hcanonical.first
  case last => exact hcanonical.last
  case zero =>
    intro hzero
    have hmagnitude : n.magnitude = 0 := by rw [← abs_rational, hvalue, hzero, abs_zero]
    have hnil := hcanonical.magnitude_eq_zero_iff.mp hmagnitude
    exact ⟨hnil, (hcanonical.zero hnil).2⟩
  case value => rw [exactValue_of_finite hcanonical.finite, hvalue]
  case decimal =>
    obtain ⟨e, he, hscale, hexact⟩ := exists_decimal? hcanonical.finite
    exact ⟨e, he, hscale, (hexact.mpr (showsAll_of_ofDecimal h)).trans hvalue⟩

theorem alike_of_ofDecimal {e : Decimal} {m : Numeric} (hm : ofDecimal d = .ok m)
    (hn : ofDecimal e = .ok n) (h : d.toRat = e.toRat) : m.Alike n := by
  obtain ⟨hcanonical, hvalue, -⟩ := ofDecimal_eq_ok_iff.mp hm
  obtain ⟨hcanonical', hvalue', -⟩ := ofDecimal_eq_ok_iff.mp hn
  exact hcanonical.alike hcanonical' (hvalue.trans (h.trans hvalue'.symm))

theorem exists_ofDecimal_iff : (∃ n, ofDecimal d = .ok n) ↔
    d.scale ≤ maxDisplayScale ∧ |d.toRat| < 10 ^ maxIntegralDigits := by
  constructor
  · rintro ⟨n, hn⟩
    exact fits_of_ofDecimal hn
  · rintro ⟨hscale, hsmall⟩
    obtain ⟨n, hn, -⟩ := ofDecimal_of_small hscale hsmall
    exact ⟨n, hn⟩

/-! ## Counting digits or writing zeros out -/

theorem ofDecimal_of_negative_scale (hscale : d.scale < 0) :
    ofDecimal d = ofUnscaled (d.unscaled * 10 ^ d.scale.natAbs) 0 := by
  unfold ofDecimal
  rw [if_neg (not_le.mpr hscale)]
  split
  case isTrue hzero =>
    rw [hzero, Int.zero_mul]
    rfl
  case isFalse hzero =>
    dsimp only
    split
    case isFalse => rfl
    case isTrue hlarge =>
      have hexpanded := toRat_expanded hscale
      have hle := not_lt.mp (mt (integralDigits_le_iff hscale hzero).mpr (Nat.not_le_of_lt hlarge))
      have hrefused := ofUnscaled_of_large (Nat.zero_le _) (hexpanded ▸ hle)
      rw [hrefused, hexpanded, log_integralDigits hscale hzero]

end Numeric

/-- What becomes of a decimal. -/
structure Decimal.ConvertsExactly (d : Decimal) : Prop where
  ok_iff : (∃ n, Numeric.ofDecimal d = .ok n) ↔ d.scale ≤ 16383 ∧ |d.toRat| < 10 ^ 131072
  converted : ∀ n, Numeric.ofDecimal d = .ok n → n.IsConversionOf d
  too_fine : 16383 < d.scale → Numeric.ofDecimal d = .error (.scaleOutOfRange d.scale)
  too_large : d.scale ≤ 16383 → 10 ^ 131072 ≤ |d.toRat| →
    Numeric.ofDecimal d = .error (.weightOutOfRange (Int.log 10000 |d.toRat|))
  alike : ∀ e m n, e.toRat = d.toRat → Numeric.ofDecimal e = .ok m → Numeric.ofDecimal d = .ok n →
    m.Alike n
  regrouped : 0 ≤ d.scale →
    Numeric.ofDecimal d = Numeric.ofDecimalDigits d.unscaled d.scale.toNat
  expanded : d.scale < 0 →
    Numeric.ofDecimal d = Numeric.ofDecimalDigits (d.unscaled * 10 ^ d.scale.natAbs) 0

/-- **Conversions are exact.** They depend on the value and the scale alone, and both ways of
bounding a decimal refuse the same ones with the same weight. -/
theorem conversions_are_exact (d : Decimal) : d.ConvertsExactly where
  ok_iff := Numeric.exists_ofDecimal_iff
  converted _ := Numeric.isConversionOf_of_ofDecimal
  too_fine := Numeric.ofDecimal_of_scale
  too_large := Numeric.ofDecimal_of_large
  alike _ _ _ hvalue hm hn := Numeric.alike_of_ofDecimal hm hn hvalue
  regrouped hscale := by
    rw [Numeric.ofDecimalDigits_eq, Numeric.ofDecimal, if_pos hscale]
  expanded hscale := by
    rw [Numeric.ofDecimalDigits_eq, Numeric.ofDecimal_of_negative_scale hscale]

/-- The point stands between two stored digits, and the zeros at the end are dropped. -/
example : (Numeric.ofDecimal ⟨-12003400, 3⟩).toOption.map (fun n => (n.weight, n.digits)) =
    some (1, [1, 2003, 4000]) := by decide +kernel

end ExactCompare
