import ExactCompare.Proofs.Decimal.Printing

/-!
# Decimals and the texts that denote them

A text denotes the rational that it spells. What is read from it is the one decimal in normal form
that has this value, however the value is spelled. Its own text is one of the spellings, so it is
read back.
-/

namespace ExactCompare

-- Powers are those that `Nat` and `Int` come with.
attribute [local instance (2000)] instPowNat

namespace Decimal

variable {text : String} {d : Decimal} {p q : ℚ}

/-! ## What a text denotes -/

/-- The value of a text, between blanks. -/
def Denotes (text : String) (q : ℚ) : Prop :=
  ∃ digits count exponent, Spells (Text.trim text.toList) digits count exponent ∧
    digits * 10 ^ (exponent - count : ℤ) = q

theorem IsNormal.normalize_eq (hd : d.IsNormal) : d.normalize = d :=
  (isNormal_normalize d).eq_of_toRat hd (toRat_normalize d)

theorem denotes_of_parse (h : parse text = .ok d) : Denotes text d.toRat := by
  obtain ⟨spelled, hread, rfl⟩ := map_ok_iff.mp h
  obtain ⟨digits, count, exponent, hspells, rfl⟩ := read_ok_iff.mp hread
  refine ⟨digits, count, exponent, hspells, ?_⟩
  rw [toRat_normalize, toRat, neg_sub]

theorem isNormal_of_parse (h : parse text = .ok d) : d.IsNormal := by
  obtain ⟨spelled, -, rfl⟩ := map_ok_iff.mp h
  exact isNormal_normalize spelled

theorem parse_of_denotes (hd : d.IsNormal) (h : Denotes text d.toRat) : parse text = .ok d := by
  obtain ⟨digits, count, exponent, hspells, hvalue⟩ := h
  refine map_ok_iff.mpr ⟨_, read_ok_iff.mpr ⟨digits, count, exponent, hspells, rfl⟩, ?_⟩
  refine (isNormal_normalize _).eq_of_toRat hd ?_
  rw [toRat_normalize, toRat, neg_sub, hvalue]

theorem exists_parse_of_denotes (h : Denotes text q) :
    ∃ d : Decimal, parse text = .ok d ∧ d.toRat = q := by
  obtain ⟨digits, count, exponent, -, rfl⟩ := id h
  let d : Decimal := normalize ⟨digits, count - exponent⟩
  have hvalue : d.toRat = digits * 10 ^ (exponent - count : ℤ) := by
    rw [toRat_normalize, toRat, neg_sub]
  exact ⟨d, parse_of_denotes (isNormal_normalize _) (hvalue ▸ h), hvalue⟩

theorem denotes_iff_of_parse (h : parse text = .ok d) : Denotes text q ↔ q = d.toRat := by
  constructor
  · intro hdenotes
    obtain ⟨e, he, rfl⟩ := exists_parse_of_denotes hdenotes
    obtain rfl := Except.ok.inj (he.symm.trans h)
    rfl
  · rintro rfl
    exact denotes_of_parse h

theorem exists_parse_iff : (∃ d, parse text = .ok d) ↔ ∃ q, Denotes text q := by
  constructor
  · rintro ⟨d, h⟩
    exact ⟨d.toRat, denotes_of_parse h⟩
  · rintro ⟨q, h⟩
    obtain ⟨d, hd, -⟩ := exists_parse_of_denotes h
    exact ⟨d, hd⟩

/-! ## Spellings of one value -/

theorem exists_denotes_iff {s t : String} {e : Decimal} (hs : parse s = .ok d)
    (ht : parse t = .ok e) : (∃ q, Denotes s q ∧ Denotes t q) ↔ d = e := by
  simp only [denotes_iff_of_parse hs, denotes_iff_of_parse ht, exists_eq_left]
  constructor
  · exact (isNormal_of_parse hs).eq_of_toRat (isNormal_of_parse ht)
  · rintro rfl
    rfl

theorem parse_text_of_parse (h : parse text = .ok d) (hscale : scaleFits d.scale = true) :
    parse d.text = .ok d := by
  rw [parse_text d hscale, (isNormal_of_parse h).normalize_eq]

end Decimal

/-! ## The theorem -/

/-- **Decimals are canonical and print back.** A text is accepted if it denotes a value, and texts
of one value give one decimal. Where the scale of the decimal has 64 bits, its own text is among
them. -/
theorem decimals_are_canonical :
    (∀ text, (∃ d, Decimal.parse text = .ok d) ↔ ∃ q, Decimal.Denotes text q) ∧
    (∀ s t d e, Decimal.parse s = .ok d → Decimal.parse t = .ok e →
      ((∃ q, Decimal.Denotes s q ∧ Decimal.Denotes t q) ↔ d = e)) ∧
    ∀ text d, Decimal.parse text = .ok d → Decimal.scaleFits d.scale = true →
      Decimal.parse d.text = .ok d ∧ ∀ q, Decimal.Denotes d.text q ↔ Decimal.Denotes text q := by
  refine ⟨fun _ => Decimal.exists_parse_iff, fun _ _ _ _ => Decimal.exists_denotes_iff, ?_⟩
  intro text d h hscale
  have hprinted := Decimal.parse_text_of_parse h hscale
  refine ⟨hprinted, fun q => ?_⟩
  rw [Decimal.denotes_iff_of_parse hprinted, Decimal.denotes_iff_of_parse h]

theorem decimals_are_canonical_tiny :
    let s := " -00.012_300e-4\n"
    let t := "-123e-8"
    let d : Decimal := ⟨-123, 8⟩
    Decimal.parse s = .ok d ∧ Decimal.parse t = .ok d ∧
      (∃ q, Decimal.Denotes s q ∧ Decimal.Denotes t q) ∧
      d.text = "-0.00000123" ∧ Decimal.parse d.text = .ok d := by
  intro s t d
  have hs : Decimal.parse s = .ok d := by decide +kernel
  have ht : Decimal.parse t = .ok d := by decide +kernel
  obtain ⟨-, hsame, hprinted⟩ := decimals_are_canonical
  exact ⟨hs, ht, (hsame s t d d hs ht).mpr rfl, by decide +kernel,
    (hprinted s d hs (by decide)).1⟩

end ExactCompare
