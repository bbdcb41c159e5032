import ExactCompare.Proofs.Exact.Widening
import ExactCompare.Proofs.Hash.Equal
import ExactCompare.Proofs.Numeric.Parts

/-!
# Hashes belong to values

Numerics of one magnitude hash alike, however they are stored, as long as their leading zeros can be
counted: a magnitude behind more zeros than that is hashed as zero. Floats of one value hash alike,
in either format. Within a format only NaN and zero have more than one bit pattern, and for these
the hash does not read the bits.
-/

namespace ExactCompare

-- Powers are those that `Nat` and `Int` come with.
attribute [local instance (2000)] instPowNat

/-! ## The bit patterns of a value -/

namespace Binary

variable {f : BinaryFormat} {b c : Binary f}

def IsZero (b : Binary f) : Prop := ∃ negative exponent, b.view = .finite negative 0 exponent

theorem scaled_eq_zero_iff {mantissa : ℕ} {exponent : ℤ} :
    scaled mantissa exponent = 0 ↔ mantissa = 0 := by
  have hpow : (2 : ℚ) ^ exponent ≠ 0 := zpow_ne_zero _ (by norm_num)
  simp [scaled, hpow]

theorem fields_of_view_infinity {negative : Bool} (h : b.view = .infinity negative) :
    b.exponentField = f.specialExponent ∧ b.fractionField = 0 ∧ b.isNegative = negative := by
  unfold view at h
  split_ifs at h with hspecial hfraction
  exact ⟨hspecial, hfraction, View.infinity.inj h⟩

theorem eq_of_view_infinity {negative : Bool} (hb : b.view = .infinity negative)
    (hc : c.view = .infinity negative) : b = c := by
  obtain ⟨hexponent, hfraction, hsign⟩ := fields_of_view_infinity hb
  obtain ⟨hexponent', hfraction', hsign'⟩ := fields_of_view_infinity hc
  apply eq_of_bits_eq
  rw [b.bits_eq_fields, c.bits_eq_fields, hexponent, hexponent', hfraction, hfraction', hsign,
    hsign']

theorem eq_of_view_finite {negative : Bool} {mantissa mantissa' : ℕ} {exponent exponent' : ℤ}
    (hb : b.view = .finite negative mantissa exponent)
    (hc : c.view = .finite negative mantissa' exponent')
    (h : scaled mantissa exponent = scaled mantissa' exponent') : b = c :=
  (convert_eq_of_scaled hb hb rfl).symm.trans (convert_eq_of_scaled hb hc h)

theorem eq_zero_of_eq_neg {x y : ℚ} (hx : 0 ≤ x) (hy : 0 ≤ y) (h : x = -y) : x = 0 ∧ y = 0 := by
  constructor <;> linarith

theorem eq_of_exactValue_finite {negative negative' : Bool} {mantissa mantissa' : ℕ}
    {exponent exponent' : ℤ} (hb : b.view = .finite negative mantissa exponent)
    (hc : c.view = .finite negative' mantissa' exponent')
    (h : b.exactValue = c.exactValue) : b.IsZero ∧ c.IsZero ∨ b = c := by
  have hvalue := ExactValue.ofRat_inj
    ((rational_of_view hb).symm.trans (h.trans (rational_of_view hc)))
  have hnonneg := scaled_nonneg mantissa exponent
  have hnonneg' := scaled_nonneg mantissa' exponent'
  have hzero (h : scaled mantissa exponent = 0 ∧ scaled mantissa' exponent' = 0) :
      b.IsZero ∧ c.IsZero := by
    obtain rfl := scaled_eq_zero_iff.mp h.1
    obtain rfl := scaled_eq_zero_iff.mp h.2
    exact ⟨⟨_, _, hb⟩, _, _, hc⟩
  cases negative with
  | false =>
    cases negative' with
    | false => exact .inr (eq_of_view_finite hb hc hvalue)
    | true => exact .inl (hzero (eq_zero_of_eq_neg hnonneg hnonneg' hvalue))
  | true =>
    cases negative' with
    | false => exact .inl (hzero (eq_zero_of_eq_neg hnonneg' hnonneg hvalue.symm).symm)
    | true => exact .inr (eq_of_view_finite hb hc (neg_injective hvalue))

theorem view_of_exactValue_nan (h : b.exactValue = .nan) : b.view = .nan := by
  cases hb : b.view with
  | nan => rfl
  | infinity negative =>
    rw [exactValue_of_view_infinity hb] at h
    cases negative <;> cases h
  | finite negative mantissa exponent =>
    rw [rational_of_view hb] at h
    cases h

theorem view_of_exactValue_infinity {negative : Bool}
    (h : b.exactValue = if negative then .negInfinity else .infinity) :
    b.view = .infinity negative := by
  cases hb : b.view with
  | nan =>
    rw [exactValue_of_view_nan hb] at h
    cases negative <;> cases h
  | infinity negative' =>
    rw [exactValue_of_view_infinity hb] at h
    cases negative <;> cases negative' <;>
      first | rfl | simp [ExactValue.infinity, ExactValue.negInfinity] at h
  | finite negative' mantissa exponent =>
    rw [rational_of_view hb] at h
    cases negative <;> simp [ExactValue.ofRat, ExactValue.infinity, ExactValue.negInfinity] at h

theorem eq_of_exactValue (h : b.exactValue = c.exactValue) :
    b.view = .nan ∧ c.view = .nan ∨ b.IsZero ∧ c.IsZero ∨ b = c := by
  cases hb : b.view with
  | nan => exact .inl ⟨rfl, view_of_exactValue_nan (h.symm.trans (exactValue_of_view_nan hb))⟩
  | infinity negative =>
    have hc := view_of_exactValue_infinity (h.symm.trans (exactValue_of_view_infinity hb))
    exact .inr (.inr (eq_of_view_infinity hb hc))
  | finite negative mantissa exponent =>
    cases hc : c.view with
    | nan =>
      have hnan := view_of_exactValue_nan (h.trans (exactValue_of_view_nan hc))
      cases hb.symm.trans hnan
    | infinity negative' =>
      have hinfinity := view_of_exactValue_infinity (h.trans (exactValue_of_view_infinity hc))
      cases hb.symm.trans hinfinity
    | finite negative' mantissa' exponent' => exact .inr (eq_of_exactValue_finite hb hc h)

end Binary

namespace Hash

/-! ## Floats -/

theorem float8Bytes?_of_isZero {b : Float8} (h : b.IsZero) : float8Bytes? b = none := by
  obtain ⟨negative, exponent, hb⟩ := h
  simp only [float8Bytes?, hb]

theorem float8Bytes?_of_nan {b : Float8} (h : b.view = .nan) :
    float8Bytes? b = some (float8Bytes?.littleEndian (Binary.nan .binary64).bits) := by
  rw [float8Bytes?, h]

theorem float8Bytes?_eq_of_exactValue {b c : Float8} (h : b.exactValue = c.exactValue) :
    float8Bytes? b = float8Bytes? c := by
  rcases Binary.eq_of_exactValue h with ⟨hb, hc⟩ | ⟨hb, hc⟩ | rfl
  · rw [float8Bytes?_of_nan hb, float8Bytes?_of_nan hc]
  · rw [float8Bytes?_of_isZero hb, float8Bytes?_of_isZero hc]
  · rfl

/-! ## Zeros that cannot be counted -/

section Uncounted

variable {a : Numeric} (ha : a.sign.isSpecial = false) (hcounts : ¬ CountsZeros a.digits)

include ha hcounts

theorem numeric_of_not_countsZeros : numeric a = 0xFFFFFFFF := by
  rw [numeric_of_finite ha, digits, significant?_of_not_countsZeros hcounts]

theorem numericExtended_of_not_countsZeros (seed : UInt64) :
    numericExtended a seed = seed - 1 := by
  rw [numericExtended_of_finite ha, digitsExtended, significant?_of_not_countsZeros hcounts]

end Uncounted

end Hash

/-! ## Any inexact value -/

namespace Inexact

theorem exists_float8 {v : Inexact} (h : v.type ≠ .numeric) :
    ∃ b : Float8, b.exactValue = v.exactValue ∧ v.hash = Hash.float8 b ∧
      ∀ seed, v.hashExtended seed = Hash.float8Extended b seed := by
  cases v with
  | numeric n => exact absurd rfl h
  | float4 b => exact ⟨b.convert .binary64, b.exactValue_convert, rfl, fun _ => rfl⟩
  | float8 b => exact ⟨b, rfl, rfl, fun _ => rfl⟩

theorem hash_eq_of_exactValue {v w : Inexact} (hv : v.type ≠ .numeric) (hw : w.type ≠ .numeric)
    (h : v.exactValue = w.exactValue) :
    v.hash = w.hash ∧ ∀ seed, v.hashExtended seed = w.hashExtended seed := by
  obtain ⟨b, hb, hhash, hextended⟩ := exists_float8 hv
  obtain ⟨c, hc, hhash', hextended'⟩ := exists_float8 hw
  have hbytes := Hash.float8Bytes?_eq_of_exactValue (hb.trans (h.trans hc.symm))
  refine ⟨?_, fun seed => ?_⟩
  · rw [hhash, hhash', Hash.float8, Hash.float8, hbytes]
  · rw [hextended, hextended', Hash.float8Extended, Hash.float8Extended, hbytes]

end Inexact

/-! ## Long padding -/

theorem areDigits_padded (zeros : ℕ) : AreDigits (List.replicate zeros 0 ++ [1]) := by
  intro d hd
  rcases List.mem_append.mp hd with hd | hd
  · rw [List.eq_of_mem_replicate hd]
    decide
  · rw [List.mem_singleton.mp hd]
    decide

namespace Numeric

/-- The digit one behind zeros. -/
def paddedOne (weight : ℤ) (zeros : ℕ) (hmin : minWeight ≤ weight) (hmax : weight ≤ maxWeight) :
    Numeric where
  sign := .positive
  weight := weight
  displayScale := 0
  digits := List.replicate zeros 0 ++ [1]
  weight_ge := hmin
  weight_le := hmax
  displayScale_le := Nat.zero_le _
  digits_lt := areDigits_padded zeros
  special := nofun

variable {weight : ℤ} {zeros : ℕ} {hmin : minWeight ≤ weight} {hmax : weight ≤ maxWeight}

theorem ofParts_paddedOne :
    ofParts .positive weight 0 (List.replicate zeros 0 ++ [1]) =
      .ok (paddedOne weight zeros hmin hmax) := by
  refine ofParts_ok_iff.mpr ⟨rfl, rfl, rfl, ?_⟩
  rw [paddedOne, List.map_append, List.map_replicate]
  rfl

theorem magnitude_paddedOne :
    (paddedOne weight zeros hmin hmax).magnitude = 10000 ^ (weight - zeros) := by
  have hzeros : digitSum weight (List.replicate zeros 0) = 0 :=
    (digitSum_eq_zero_iff weight _).mpr fun d hd => List.eq_of_mem_replicate hd
  rw [magnitude_eq_digitSum, paddedOne, digitSum_append, hzeros, List.length_replicate, zero_add]
  simp [digitSum]

end Numeric

namespace Hash

variable {weight : ℤ} {zeros : ℕ} {hmin : Numeric.minWeight ≤ weight}
  {hmax : weight ≤ Numeric.maxWeight}

theorem dropWhile_padded (zeros : ℕ) :
    (List.replicate zeros 0 ++ [1]).dropWhile (· == 0) = [1] := by
  rw [List.dropWhile_append_of_pos fun d hd => beq_iff_eq.mpr (List.eq_of_mem_replicate hd)]
  rfl

theorem skipped_padded (zeros : ℕ) : skipped (List.replicate zeros 0 ++ [1]) = zeros := by
  rw [skipped, dropWhile_padded, List.length_append, List.length_replicate, Nat.add_sub_cancel]

theorem not_all_zeros_padded (zeros : ℕ) : ¬ ∀ d ∈ List.replicate zeros 0 ++ [1], d = 0 :=
  fun h => absurd (h 1 (List.mem_append_right _ (List.mem_singleton.mpr rfl))) one_ne_zero

theorem significant?_padded (h : zeros ≤ maxSkipped) :
    significant? (List.replicate zeros 0 ++ [1]) weight =
      some ([1], wrapWeight (weight - zeros)) := by
  rw [significant?_of_counted (not_all_zeros_padded zeros) ((skipped_padded zeros).trans_le h),
    skipped_padded, dropWhile_padded]
  rfl

theorem not_countsZeros_padded (h : maxSkipped < zeros) :
    ¬ CountsZeros (List.replicate zeros 0 ++ [1]) := by
  rw [CountsZeros, skipped_padded, not_or, Nat.not_le]
  exact ⟨not_all_zeros_padded zeros, h⟩

theorem numeric_paddedOne (h : zeros ≤ maxSkipped) :
    numeric (.paddedOne weight zeros hmin hmax) =
      bytes [1, 0] ^^^ word32 (wrapWeight (weight - zeros)) := by
  rw [numeric_of_finite rfl, Numeric.paddedOne, digits, significant?_padded h]
  rfl

theorem numericExtended_paddedOne (h : zeros ≤ maxSkipped) (seed : UInt64) :
    numericExtended (.paddedOne weight zeros hmin hmax) seed =
      bytesExtended [1, 0] seed ^^^ word64 (wrapWeight (weight - zeros)) := by
  rw [numericExtended_of_finite rfl, Numeric.paddedOne, digitsExtended, significant?_padded h]
  rfl

end Hash

/-! ## The theorem -/

/-- Both have no magnitude, or one and the same. -/
def Numeric.SameMagnitude (a b : Numeric) : Prop :=
  a.sign.isSpecial = true ∧ b.sign.isSpecial = true ∨
    a.sign.isSpecial = false ∧ b.sign.isSpecial = false ∧ a.magnitude = b.magnitude

/-- **Hashes belong to values.** Two numerics without a magnitude, or of the same magnitude, hash
alike, with every seed, if the leading zeros of both can be counted or those of neither. Where they
cannot be counted, the magnitude is hashed as zero. Two floats of the same value, of one format or
of both, always hash alike: all NaNs, both zeros, and any number that both formats have. -/
theorem equal_values_hash_alike (a b : Numeric) (v w : Inexact) :
    (a.SameMagnitude b → (Hash.CountsZeros a.digits ↔ Hash.CountsZeros b.digits) →
      Hash.numeric a = Hash.numeric b ∧
        ∀ seed, Hash.numericExtended a seed = Hash.numericExtended b seed) ∧
      (a.sign.isSpecial = false → ¬ Hash.CountsZeros a.digits →
        Hash.numeric a = Hash.numeric .zero ∧
          ∀ seed, Hash.numericExtended a seed = Hash.numericExtended .zero seed) ∧
      (v.type ≠ .numeric → w.type ≠ .numeric → v.exactValue = w.exactValue →
        v.hash = w.hash ∧ ∀ seed, v.hashExtended seed = w.hashExtended seed) := by
  refine ⟨fun h hcounts => ?_, fun ha hcounts => ?_, Inexact.hash_eq_of_exactValue⟩
  · rcases h with ⟨ha, hb⟩ | ⟨ha, hb, h⟩
    · refine ⟨?_, fun seed => ?_⟩
      · rw [Hash.numeric, Hash.numeric, if_pos ha, if_pos hb]
      · rw [Hash.numericExtended, Hash.numericExtended, if_pos ha, if_pos hb]
    · exact ⟨Hash.numeric_eq_of_magnitude ha hb h hcounts,
        Hash.numericExtended_eq_of_magnitude ha hb h hcounts⟩
  · exact ⟨Hash.numeric_of_not_countsZeros ha hcounts,
      Hash.numericExtended_of_not_countsZeros ha hcounts⟩

/-- The least magnitude above zero that a float of 32 bits has. -/
def Binary.leastSubnormal : Float4 where
  bits := 1
  bits_lt := by decide

/-- The same number as a double, where it has its highest bit in place. -/
def Binary.widenedSubnormal : Float8 where
  bits := 0x36A0000000000000
  bits_lt := by decide

def Numeric.one : Numeric :=
  { zero with digits := [1], digits_lt := by decide, special := by decide }

/-- Minus one, with a zero on either side. -/
def Numeric.paddedMinusOne : Numeric where
  sign := .negative
  weight := 1
  displayScale := 2
  digits := [0, 1, 0]
  weight_ge := by decide
  weight_le := by decide
  displayScale_le := by decide
  digits_lt := by decide
  special := nofun

theorem Binary.exactValue_leastSubnormal :
    leastSubnormal.exactValue = widenedSubnormal.exactValue := by
  have hwiden : leastSubnormal.convert .binary64 = widenedSubnormal := by decide +kernel
  rw [← exactValue_convert, hwiden]

theorem Numeric.magnitude_one : one.magnitude = paddedMinusOne.magnitude := by
  simp [magnitude_eq_digitSum, digitSum, one, paddedMinusOne, zero, ofSign]

theorem equal_values_hash_alike_at_padded_and_widened :
    (Hash.numeric .one = Hash.numeric .paddedMinusOne ∧
      ∀ seed, Hash.numericExtended .one seed = Hash.numericExtended .paddedMinusOne seed) ∧
      (Inexact.float4 .leastSubnormal).hash = (Inexact.float8 .widenedSubnormal).hash ∧
      ∀ seed, (Inexact.float4 .leastSubnormal).hashExtended seed =
        (Inexact.float8 .widenedSubnormal).hashExtended seed := by
  obtain ⟨hnumerics, -, hfloats⟩ := equal_values_hash_alike .one .paddedMinusOne
    (.float4 .leastSubnormal) (.float8 .widenedSubnormal)
  refine ⟨hnumerics ?_ ?_, hfloats ?_ ?_ ?_⟩
  · exact .inr ⟨rfl, rfl, Numeric.magnitude_one⟩
  · exact iff_of_true (.inr (by decide)) (.inr (by decide))
  · decide
  · decide
  · exact Binary.exactValue_leastSubnormal

/-- One zero more than can be counted hides a digit that other padding shows. -/
theorem long_padding_is_hashed_as_zero :
    ∃ a b : Numeric,
      Numeric.ofParts .positive 32767 0 (List.replicate 2147483648 0 ++ [1]) = .ok a ∧
      Numeric.ofParts .positive (-32768) 0 (List.replicate 2147418113 0 ++ [1]) = .ok b ∧
      a.SameMagnitude b ∧
      Hash.numeric a ≠ Hash.numeric b ∧ Hash.numericExtended a 0 ≠ Hash.numericExtended b 0 := by
  refine ⟨.paddedOne 32767 2147483648 (by decide) (by decide),
    .paddedOne (-32768) 2147418113 (by decide) (by decide), Numeric.ofParts_paddedOne,
    Numeric.ofParts_paddedOne, .inr ⟨rfl, rfl, ?_⟩, ?_, ?_⟩
  · have hplace : (32767 : ℤ) - (2147483648 : ℕ) = -32768 - (2147418113 : ℕ) := by decide
    rw [Numeric.magnitude_paddedOne, Numeric.magnitude_paddedOne, hplace]
  · rw [Hash.numeric_of_not_countsZeros rfl (Hash.not_countsZeros_padded (by decide)),
      Hash.numeric_paddedOne (by decide)]
    decide +kernel
  · rw [Hash.numericExtended_of_not_countsZeros rfl (Hash.not_countsZeros_padded (by decide)),
      Hash.numericExtended_paddedOne (by decide)]
    decide +kernel

end ExactCompare
