import ExactCompare.Proofs.Exact.Compare
import ExactCompare.Proofs.Numeric.Shown
import ExactCompare.Serial

/-!
# The stored value and the text of it

Comparisons and hashes go by all the stored digits. The decimal and the text of a numeric have only
the decimals that it shows. They stand for the stored value exactly if nothing stands behind these.
-/

namespace ExactCompare

-- Powers are those that `Nat` and `Int` come with.
attribute [local instance (2000)] instPowNat

namespace Numeric

variable {n : Numeric}

/-! ## Comparing and hashing -/

theorem magnitude_eq_of_exactValue {m : Numeric} (h : m.exactValue = .ofRat n.rational) :
    m.magnitude = n.magnitude := by
  have hvalue := (exactValue_of_finite (finite_of_exactValue h)).symm.trans h
  rw [← abs_rational, ← abs_rational, ExactValue.ofRat_inj hvalue]

/-- What decoding, comparing and hashing take a numeric for. -/
structure UsedAs (n : Numeric) (q : ℚ) : Prop where
  decoded : n.decode = .ofRat q
  compared : ∀ i, IntegerType.int8.contains i = true →
    compareInt i n.decode = .ordered (cmp (i : ℚ) q)
  hashed : ∀ m : Numeric, m.exactValue = .ofRat q →
    (Hash.CountsZeros m.digits ↔ Hash.CountsZeros n.digits) → Hash.numeric m = Hash.numeric n ∧
      ∀ seed, Hash.numericExtended m seed = Hash.numericExtended n seed

theorem usedAs_rational (hfinite : n.sign.isSpecial = false) : n.UsedAs n.rational := by
  have hvalue := exactValue_of_finite hfinite
  have hdecoded : n.decode = .ofRat n.rational := by rw [n.decode_eq_ofExact, hvalue]; rfl
  constructor
  case decoded => exact hdecoded
  case compared =>
    intro i hi
    rw [hdecoded, compareInt_ofRat (natAbs_le_of_contains hi)]
  case hashed =>
    intro m hm hcounts
    have hfinite' := finite_of_exactValue hm
    have hmagnitude := magnitude_eq_of_exactValue hm
    exact ⟨Hash.numeric_eq_of_magnitude hfinite' hfinite hmagnitude hcounts,
      Hash.numericExtended_eq_of_magnitude hfinite' hfinite hmagnitude hcounts⟩

/-! ## The decimal and the text -/

/-- The decimal and the text that a numeric is given out as. -/
structure ReportedAs (n : Numeric) (d : Decimal) : Prop where
  decimal : n.decimal? = some d
  scale : d.scale = n.displayScale
  unscaled : d.unscaled = cutOff (n.rational * 10 ^ n.displayScale)
  written : Numeric.codec.write n = .string n.text
  spelled : ∃ digits count exponent, Decimal.Spells n.text.toList digits count exponent ∧
    (digits : ℚ) * 10 ^ (exponent - count : ℤ) = d.toRat

theorem exists_reportedAs (hfinite : n.sign.isSpecial = false) :
    ∃ d, n.ReportedAs d ∧ (d.toRat = n.rational ↔ n.ShowsAll) := by
  obtain ⟨d, hd, hscale, hexact⟩ := exists_decimal? hfinite
  have hunscaled : d.unscaled = cutOff (n.rational * 10 ^ n.displayScale) := by
    rw [eq_of_decimal? hfinite hd, zpow_natCast]
  exact ⟨d, ⟨hd, hscale, hunscaled, rfl, exists_spells_text hfinite hd⟩, hexact⟩

/-- The numeric `1.5`, with no decimals to show the half. -/
def hiddenHalf : Numeric :=
  { zero with digits := [1, 5000], digits_lt := by decide, special := by decide }

theorem rational_hiddenHalf : hiddenHalf.rational = 3 / 2 := by
  rw [rational, if_neg (by decide), magnitude_eq_digitSum]
  norm_num [hiddenHalf, zero, ofSign, digitSum]

theorem rational_halfBelowMinimum :
    halfBelowMinimum.rational = -92233720368547758085 / 10 := by
  rw [rational, if_pos (by decide), magnitude_eq_digitSum]
  norm_num [halfBelowMinimum, digitSum]

end Numeric

/-! ## The theorem -/

/-- **The stored value is reported** exactly if all of it is shown. It is compared in any case, and
hashed as far as leading zeros can be counted. -/
theorem stored_value_is_reported_iff (n : Numeric) (hfinite : n.sign.isSpecial = false) :
    n.UsedAs n.rational ∧
      ∃ d, n.ReportedAs d ∧ (d.toRat = n.rational ↔ n.ShowsAll) :=
  ⟨Numeric.usedAs_rational hfinite, Numeric.exists_reportedAs hfinite⟩

theorem stored_value_is_reported_below_minimum :
    let n := Numeric.halfBelowMinimum
    n.sign.isSpecial = false ∧ n.UsedAs n.rational ∧
      ∃ d, n.ReportedAs d ∧ d.toRat = -92233720368547758085 / 10 := by
  intro n
  obtain ⟨hused, d, hd, hiff⟩ := stored_value_is_reported_iff n rfl
  have hshows : n.ShowsAll := by
    refine ⟨-92233720368547758085, ?_⟩
    rw [Numeric.rational_halfBelowMinimum]
    norm_num [n, Numeric.halfBelowMinimum]
  exact ⟨rfl, hused, d, hd, (hiff.mpr hshows).trans Numeric.rational_halfBelowMinimum⟩

/-- One and a half is stored and compared as such, and given out as one. -/
theorem hidden_half_is_not_reported :
    let n := Numeric.hiddenHalf
    Numeric.ofParts .positive 0 0 [1, 5000] = .ok n ∧
      n.exactValue = .ofRat (3 / 2) ∧
      compareInt 1 n.decode = .ordered .lt ∧
      n.decimal? = some ⟨1, 0⟩ ∧ n.text = "1" ∧
      ¬ ∃ d, n.decimal? = some d ∧ d.toRat = 3 / 2 := by
  intro n
  have hdecimal : n.decimal? = some ⟨1, 0⟩ := by decide +kernel
  refine ⟨by decide +kernel, ?_, by decide +kernel, hdecimal, by decide +kernel, ?_⟩
  · rw [Numeric.exactValue_of_finite rfl, Numeric.rational_hiddenHalf]
  · rintro ⟨d, hd, hvalue⟩
    obtain rfl := Option.some.inj (hdecimal.symm.trans hd)
    norm_num [Decimal.toRat] at hvalue

end ExactCompare
