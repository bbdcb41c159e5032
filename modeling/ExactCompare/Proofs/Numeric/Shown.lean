import ExactCompare.Numeric.Text
import ExactCompare.Proofs.Decimal.Printing
import ExactCompare.Proofs.Numeric.Canonical

/-!
# The decimals that are shown

A finite numeric is given out as a decimal with the decimals that it shows. What stands behind
them is cut off.
-/

namespace ExactCompare.Numeric

-- Powers are those that `Nat` and `Int` come with.
attribute [local instance (2000)] instPowNat

variable {n : Numeric}

/-- All the digits as one integer, with the place of the last one as its scale. -/
def wholeDecimal (n : Numeric) : Decimal :=
  ⟨n.unscaled, -(n.weight + 1 - n.digits.length) * digitWidth⟩

theorem toRat_wholeDecimal (n : Numeric) : n.wholeDecimal.toRat = n.rational := by
  have hplace : (10 : ℚ) ^ (-(-(n.weight + 1 - n.digits.length) * digitWidth)) =
      10000 ^ (n.weight + 1 - n.digits.length) := by
    have hexponent : -(-(n.weight + 1 - n.digits.length) * (digitWidth : ℤ)) =
        digitWidth * (n.weight + 1 - n.digits.length) := by ring
    rw [hexponent, zpow_mul, zpow_natCast]
    norm_num [digitWidth]
  have hmagnitude := digitSum_eq_value n.weight n.digits
  rw [← magnitude_eq_digitSum] at hmagnitude
  unfold wholeDecimal Decimal.toRat rational unscaled
  rw [hplace, hmagnitude]
  split <;> push_cast <;> ring

/-- **What a finite numeric is given out as.** Its value is cut off at the display scale. -/
theorem decimal?_eq (h : n.sign.isSpecial = false) : n.decimal? =
    some ⟨cutOff (n.rational * 10 ^ (n.displayScale : ℤ)), n.displayScale⟩ := by
  rw [← toRat_wholeDecimal, ← Decimal.withScale_eq]
  unfold decimal?
  rw [if_neg (by simp [h])]
  rfl

theorem eq_of_decimal? {d : Decimal} (hfinite : n.sign.isSpecial = false)
    (h : n.decimal? = some d) :
    d = ⟨cutOff (n.rational * 10 ^ (n.displayScale : ℤ)), n.displayScale⟩ := by
  rw [decimal?_eq hfinite, Option.some.injEq] at h
  exact h.symm

/-- A numeric shows its whole value if this is an integer at the display scale. -/
def ShowsAll (n : Numeric) : Prop := ∃ z : ℤ, n.rational * 10 ^ n.displayScale = z

theorem exists_decimal? (h : n.sign.isSpecial = false) :
    ∃ d, n.decimal? = some d ∧ d.scale = n.displayScale ∧ (d.toRat = n.rational ↔ n.ShowsAll) := by
  refine ⟨_, decimal?_eq h, rfl, ?_⟩
  rw [← toRat_wholeDecimal, ← Decimal.withScale_eq, Decimal.toRat_withScale_eq_iff,
    toRat_wholeDecimal, ShowsAll, zpow_natCast]

theorem text_of_decimal {d : Decimal} (hfinite : n.sign.isSpecial = false)
    (h : n.decimal? = some d) : n.text = d.text := by
  unfold text
  cases hs : n.sign with
  | positive | negative => rw [h]
  | nan | infinity | negInfinity =>
    rw [hs] at hfinite
    cases hfinite

theorem scaleFits_displayScale (n : Numeric) : Decimal.scaleFits n.displayScale = true := by
  have hle := n.displayScale_le
  unfold maxDisplayScale at hle
  rw [Decimal.scaleFits_iff]
  omega

theorem exists_spells_text {d : Decimal} (hfinite : n.sign.isSpecial = false)
    (h : n.decimal? = some d) :
    ∃ digits count exponent, Decimal.Spells n.text.toList digits count exponent ∧
      (digits : ℚ) * 10 ^ (exponent - count : ℤ) = d.toRat := by
  rw [text_of_decimal hfinite h, Decimal.text, String.toList_ofList]
  apply d.spells_chars
  rw [eq_of_decimal? hfinite h]
  exact n.scaleFits_displayScale

theorem showsAll_of_ofDecimal {d : Decimal} (h : ofDecimal d = .ok n) : n.ShowsAll := by
  obtain ⟨-, hvalue, hshown⟩ := ofDecimal_eq_ok_iff.mp h
  have hscale : n.displayScale = d.scale.toNat := by omega
  unfold ShowsAll
  rw [hvalue, hscale]
  exact ⟨_, d.toRat_mul_pow⟩

end ExactCompare.Numeric
