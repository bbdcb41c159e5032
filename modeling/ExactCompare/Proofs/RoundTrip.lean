import ExactCompare.Proofs.Numeric.Denoting
import ExactCompare.Proofs.Numeric.Integers
import ExactCompare.Serial

/-!
# Texts of numerics read back

The text of a numeric that shows its whole value is read as the canonical numeric of this value. So
a numeric that comes from a text or from an integer is read back as it is, and one that comes from
a decimal is read back up to the decimals that it shows.
-/

namespace ExactCompare

-- Powers are those that `Nat` and `Int` come with.
attribute [local instance (2000)] instPowNat

namespace Numeric

variable {m n : Numeric}

/-- The text of `n`, in JSON and without, is read as `m`. -/
structure ReadsBackAs (n m : Numeric) : Prop where
  parsed : parse n.text = .ok m
  written : codec.write n = .string n.text
  read : codec.read (.string n.text) = .ok m

theorem readsBackAs_of_parse (h : parse n.text = .ok m) : n.ReadsBackAs m := by
  refine ⟨h, rfl, ?_⟩
  unfold codec Json.Codec.ofText Json.readParsed Json.readText
  dsimp only [bind, Except.bind]
  rw [h]
  rfl

/-! ## Special values -/

theorem parse_text_of_special {sign : Sign} (h : sign.isSpecial = true) :
    parse (ofSign sign).text = .ok (ofSign sign) := by
  apply parse_of_names
  cases sign with
  | positive | negative => cases h
  | nan | infinity | negInfinity => decide +kernel

/-! ## Finite values -/

theorem decimalPlaces_le (hshows : n.ShowsAll) : decimalPlaces n.rational ≤ n.displayScale :=
  Nat.sInf_le hshows

/-- **The text of a canonical numeric that shows its whole value** is read as this value. -/
theorem exists_parse_text (hcanonical : n.IsCanonical) (hshows : n.ShowsAll) :
    ∃ m, parse n.text = .ok m ∧ m.Alike n ∧ m.displayScale = decimalPlaces n.rational := by
  obtain ⟨d, hd, -, hexact⟩ := exists_decimal? hcanonical.finite
  obtain ⟨digits, count, exponent, hspells, hvalue⟩ := exists_spells_text hcanonical.finite hd
  rw [hexact.mpr hshows] at hvalue
  -- The same digits, with no more decimals shown than the value needs.
  let m : Numeric := { n with
    displayScale := decimalPlaces n.rational
    displayScale_le := (decimalPlaces_le hshows).trans n.displayScale_le }
  have hm : m.IsCanonical := ⟨hcanonical.finite, hcanonical.first, hcanonical.last, hcanonical.zero⟩
  exact ⟨m, (parse_ok_iff_of_spells hspells.trim).mpr ⟨hm, hvalue.symm, rfl⟩, ⟨rfl, rfl, rfl⟩, rfl⟩

theorem showsAll_of_displayScale (h : n.displayScale = decimalPlaces n.rational) : n.ShowsAll := by
  have hplaces : {k | ∃ z : ℤ, n.rational * 10 ^ k = z}.Nonempty := by
    rw [← toRat_wholeDecimal]
    exact ⟨_, _, n.wholeDecimal.toRat_mul_pow⟩
  rw [ShowsAll, h]
  exact Nat.sInf_mem hplaces

theorem IsReduced.parse_text (h : n.IsReduced) : parse n.text = .ok n := by
  cases h with
  | special hspecial => exact parse_text_of_special hspecial
  | finite hcanonical hshown =>
    have hshows := showsAll_of_displayScale hshown
    obtain ⟨m, hm, halike, hplaces⟩ := exists_parse_text hcanonical hshows
    rw [hm, halike.eq (hplaces.trans hshown.symm)]

end Numeric

/-! ## The theorem -/

/-- **Text round trips.** What is read from the text of a numeric is the numeric, or one that is
like it if decimals were shown that are not needed. Texts that denote one value are read alike. -/
theorem numeric_text_round_trips :
    (∀ text n, Numeric.parse text = .ok n → n.ReadsBackAs n) ∧
    (∀ (i : ℤ) (hi : IntegerType.int8.contains i = true),
      (Numeric.ofInt8 i hi).ReadsBackAs (Numeric.ofInt8 i hi)) ∧
    (∀ d n, Numeric.ofDecimal d = .ok n → ∃ m, n.ReadsBackAs m ∧ m.Alike n) ∧
    (∀ text n, Numeric.parse text = .ok n →
      ∀ v, Numeric.Denotes text v ↔ v = n.exactValue) ∧
    ∀ s t v, Numeric.Denotes s v → Numeric.Denotes t v → Numeric.parse s = Numeric.parse t := by
  refine ⟨?_, ?_, ?_, ?_, ?_⟩
  · intro text n h
    exact Numeric.readsBackAs_of_parse (Numeric.isReduced_of_parse h).parse_text
  · intro i hi
    have hreduced : (Numeric.ofInt8 i hi).IsReduced := .finite (Numeric.isCanonical_ofInt8 hi)
      (Numeric.displayScale_eq_decimalPlaces_ofInt8 hi)
    exact Numeric.readsBackAs_of_parse hreduced.parse_text
  · intro d n h
    obtain ⟨m, hm, halike, -⟩ := Numeric.exists_parse_text
      (Numeric.isCanonical_of_ofDecimal h).1 (Numeric.showsAll_of_ofDecimal h)
    exact ⟨m, Numeric.readsBackAs_of_parse hm, halike⟩
  · intro text n h v
    exact Numeric.denotes_iff_of_parse h
  · intro s t v hs ht
    exact Numeric.parse_eq_of_denotes hs ht rfl

theorem numeric_text_round_trips_tiny :
    (∃ n, Numeric.parse " -0.000_000_001_230\n" = .ok n ∧ n.text = "-1.23E-9" ∧
      n.ReadsBackAs n) ∧
    ∃ n, Numeric.ofDecimal ⟨-1230, 12⟩ = .ok n ∧ n.text = "-1.230E-9" ∧
      ∃ m, n.ReadsBackAs m ∧ m.Alike n := by
  obtain ⟨hparsed, -, hconverted, -⟩ := numeric_text_round_trips
  have hread : (Numeric.parse " -0.000_000_001_230\n").map Numeric.text = .ok "-1.23E-9" := by
    decide +kernel
  have hmade : (Numeric.ofDecimal ⟨-1230, 12⟩).map Numeric.text = .ok "-1.230E-9" := by
    decide +kernel
  constructor
  · cases h : Numeric.parse " -0.000_000_001_230\n" with
    | error e =>
      rw [h] at hread
      cases hread
    | ok n =>
      rw [h] at hread
      exact ⟨n, rfl, Except.ok.inj hread, hparsed _ n h⟩
  · cases h : Numeric.ofDecimal ⟨-1230, 12⟩ with
    | error e =>
      rw [h] at hmade
      cases hmade
    | ok n =>
      rw [h] at hmade
      exact ⟨n, rfl, Except.ok.inj hmade, hconverted _ n h⟩

end ExactCompare
