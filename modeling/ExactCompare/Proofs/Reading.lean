import ExactCompare.Numeric.Text
import ExactCompare.Proofs.Decimal.Spelling
import ExactCompare.Proofs.Exact.Compare
import ExactCompare.Proofs.Exact.Decode
import ExactCompare.Proofs.Numeric.Conversion

/-!
# Text is compared without loss

A decimal text spells a rational. An integer is compared with the numeric that is read from the text
as it would be with this rational. No numeric is read only if the rational has too many decimal
places or is too large, and then the error says which of them it is.
-/

namespace ExactCompare

-- Powers are those that `Nat` and `Int` come with.
attribute [local instance (2000)] instPowNat

/-! ## Names of special values -/

theorem Numeric.special?_eq_none {name : String} (h : 'n' ∉ Text.lower name.toList) :
    special? name = none := by
  have hne (special : String) (hn : 'n' ∈ special.toList) : Text.lowered name ≠ special := by
    rintro rfl
    rw [Text.lowered, String.toList_ofList] at hn
    exact h hn
  unfold special?
  split
  case h_8 => rfl
  all_goals exact absurd ‹_› (hne _ (by decide))

theorem Decimal.IsDecimalChar.toLower_ne {c : Char} (h : IsDecimalChar c) : c.toLower ≠ 'n' := by
  rcases h with hdigit | hmark
  · have hupper : c.isUpper = false := by
      have hrange : c.toNat ≤ 57 := by
        simp only [Char.isDigit, Bool.and_eq_true, decide_eq_true_eq] at hdigit
        exact UInt32.le_iff_toNat_le.mp hdigit.2
      rw [← Bool.not_eq_true, Text.isUpper_iff]
      omega
    rw [Text.toLower_of_not_isUpper hupper]
    exact ne_of_isDigit hdigit rfl
  · simp only [List.mem_cons, List.not_mem_nil, or_false] at hmark
    rcases hmark with rfl | rfl | rfl | rfl | rfl | rfl <;> decide

theorem Numeric.special?_of_spells {text : String} {digits exponent : ℤ} {count : ℕ}
    (h : Decimal.Spells (Text.trim text.toList) digits count exponent) :
    special? (Text.trimmed text) = none := by
  apply special?_eq_none
  rw [Text.trimmed, String.toList_ofList, Text.lower, List.mem_map]
  rintro ⟨c, hc, hlower⟩
  exact (h.chars c hc).toLower_ne hlower

/-! ## The value that is read -/

namespace Numeric

/-- What it takes to read a text as the rational `q` without loss. -/
structure ReadsAs (text : String) (q : ℚ) : Prop where
  ok_iff : (∃ n, parse text = .ok n) ↔ decimalPlaces q ≤ 16383 ∧ |q| < 10 ^ 131072
  compared : ∀ n, parse text = .ok n → ∀ i, IntegerType.int8.contains i = true →
    compareInt i n.decode = .ordered (cmp (i : ℚ) q)
  too_fine : 16383 < decimalPlaces q → parse text = .error (.scaleOutOfRange (decimalPlaces q))
  too_large : decimalPlaces q ≤ 16383 → 10 ^ 131072 ≤ |q| →
    parse text = .error (.weightOutOfRange (Int.log 10000 |q|))

theorem parse_of_spells {text : String} {digits exponent : ℤ} {count : ℕ}
    (h : Decimal.Spells (Text.trim text.toList) digits count exponent) :
    parse text = ofDecimal (Decimal.normalize ⟨digits, count - exponent⟩) := by
  have hread := Decimal.read_ok_iff.mpr ⟨digits, count, exponent, h, rfl⟩
  have hparse : Decimal.parse text = .ok (Decimal.normalize ⟨digits, count - exponent⟩) := by
    rw [Decimal.parse, hread]
    rfl
  rw [parse, special?_of_spells h]
  dsimp only
  rw [hparse]

section Normal

variable {text : String} {d : Decimal} (hd : d.IsNormal) (hparse : parse text = ofDecimal d)

include hd hparse

theorem parse_of_too_fine (h : 16383 < decimalPlaces d.toRat) :
    parse text = .error (.scaleOutOfRange (decimalPlaces d.toRat)) := by
  have hplaces := hd.decimalPlaces_toRat
  have hscale : d.scale = decimalPlaces d.toRat := by omega
  rw [hparse, ← hscale]
  refine ofDecimal_of_scale ?_
  rw [hscale]
  exact_mod_cast h

theorem parse_of_too_large (h : decimalPlaces d.toRat ≤ 16383) (hle : 10 ^ 131072 ≤ |d.toRat|) :
    parse text = .error (.weightOutOfRange (Int.log 10000 |d.toRat|)) :=
  hparse.trans (ofDecimal_of_large (Int.toNat_le.mp (hd.decimalPlaces_toRat ▸ h)) hle)

theorem parse_of_fits (h : decimalPlaces d.toRat ≤ 16383 ∧ |d.toRat| < 10 ^ 131072) :
    ∃ n, parse text = .ok n ∧ n.exactValue = .ofRat d.toRat :=
  hparse ▸ ofDecimal_of_small (Int.toNat_le.mp (hd.decimalPlaces_toRat ▸ h.1)) h.2

theorem fits_of_parse {n : Numeric} (hn : parse text = .ok n) :
    decimalPlaces d.toRat ≤ 16383 ∧ |d.toRat| < 10 ^ 131072 := by
  have hplaces : decimalPlaces d.toRat ≤ 16383 := by
    by_contra hmany
    rw [parse_of_too_fine hd hparse (not_le.mp hmany)] at hn
    cases hn
  refine ⟨hplaces, ?_⟩
  by_contra hle
  rw [parse_of_too_large hd hparse hplaces (not_lt.mp hle)] at hn
  cases hn

theorem readsAs_of_normal : ReadsAs text d.toRat := by
  constructor
  case ok_iff =>
    constructor
    · rintro ⟨n, hn⟩
      exact fits_of_parse hd hparse hn
    · intro hfits
      obtain ⟨n, hn, -⟩ := parse_of_fits hd hparse hfits
      exact ⟨n, hn⟩
  case compared =>
    intro n hn i hi
    obtain ⟨m, hm, hvalue⟩ := parse_of_fits hd hparse (fits_of_parse hd hparse hn)
    obtain rfl : m = n := Except.ok.inj (hm.symm.trans hn)
    rw [m.decode_eq_ofExact, hvalue, Decoded.ofExact_ofRat,
      compareInt_ofRat (natAbs_le_of_contains hi)]
  case too_fine => exact parse_of_too_fine hd hparse
  case too_large => exact parse_of_too_large hd hparse

end Normal

end Numeric

/-- **Text is compared without loss.** A text that is accepted as a decimal spells a rational, and it
is read as every rational that it spells. -/
theorem text_is_compared_without_loss (text : String) (d : Decimal)
    (haccepted : Decimal.read (Text.trim text.toList) = .ok d) :
    (∃ digits count exponent, Decimal.Spells (Text.trim text.toList) digits count exponent) ∧
      ∀ digits count exponent, Decimal.Spells (Text.trim text.toList) digits count exponent →
        Numeric.ReadsAs text (digits * 10 ^ (exponent - count : ℤ)) := by
  constructor
  · obtain ⟨digits, count, exponent, hspells, -⟩ := Decimal.read_ok_iff.mp haccepted
    exact ⟨digits, count, exponent, hspells⟩
  · intro digits count exponent hspells
    have hvalue : (Decimal.normalize ⟨digits, count - exponent⟩).toRat =
        digits * 10 ^ (exponent - count : ℤ) := by
      rw [Decimal.toRat_normalize, Decimal.toRat, neg_sub]
    rw [← hvalue]
    exact Numeric.readsAs_of_normal (Decimal.isNormal_normalize _)
      (Numeric.parse_of_spells hspells)

theorem text_is_compared_without_loss_below_minimum :
    let text := " -922_337.205e+13\n"
    Decimal.read (Text.trim text.toList) = .ok ⟨-922337205, -10⟩ ∧
      ∃ n, Numeric.parse text = .ok n ∧
        compareInt (-9223372036854775808) n.decode = .ordered .gt := by
  intro text
  have haccepted : Decimal.read (Text.trim text.toList) = .ok ⟨-922337205, -10⟩ := by
    decide +kernel
  obtain ⟨⟨digits, count, exponent, hspells⟩, hreads⟩ :=
    text_is_compared_without_loss text _ haccepted
  have hvalue := Decimal.read_ok_iff.mpr ⟨digits, count, exponent, hspells, rfl⟩
  obtain ⟨rfl, hscale⟩ : -922337205 = digits ∧ -10 = count - exponent := by
    simpa using haccepted.symm.trans hvalue
  have hexponent : exponent - count = 10 := by omega
  have hread := hreads _ _ _ hspells
  rw [hexponent] at hread
  have hplaces : decimalPlaces (((-922337205 : ℤ) : ℚ) * 10 ^ (10 : ℤ)) ≤ 0 :=
    Nat.sInf_le ⟨-9223372050000000000, by norm_num⟩
  have hsmall : |((-922337205 : ℤ) : ℚ) * 10 ^ (10 : ℤ)| < 10 ^ 131072 :=
    calc _ < (10 : ℚ) ^ 19 := by norm_num
      _ ≤ 10 ^ 131072 := pow_le_pow_right₀ (by norm_num) (by decide)
  obtain ⟨n, hn⟩ := hread.ok_iff.mpr ⟨hplaces.trans (Nat.zero_le _), hsmall⟩
  refine ⟨haccepted, n, hn, ?_⟩
  rw [hread.compared n hn _ (by decide), (cmp_eq_gt_iff _ _).mpr (by norm_num)]

end ExactCompare
