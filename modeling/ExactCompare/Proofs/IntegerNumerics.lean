import ExactCompare.Proofs.Exact.Rounding
import ExactCompare.Proofs.Numeric.Denoting
import ExactCompare.Proofs.Numeric.Integers

/-!
# The numeric of an integer

There are three ways from a 64-bit integer to a numeric: dividing by the base, converting its
decimal, and reading its text, where zeros at the end are first counted and then written out again.
All three give one numeric.
-/

namespace ExactCompare

-- Powers are those that `Nat` and `Int` come with.
attribute [local instance (2000)] instPowNat

namespace Decimal

/-! ## The text of an integer -/

theorem writes_digitChar {d : ℕ} (h : d < 10) : Writes [Nat.digitChar d] d :=
  ⟨[d], by simpa using h, rfl, by simp⟩

theorem writes_toDigits (n : ℕ) : Writes (Nat.toDigits 10 n) n := by
  induction n using Nat.strongRecOn with
  | ind n ih =>
    by_cases hn : n < 10
    · rw [Nat.toDigits_of_lt_base hn]
      exact writes_digitChar hn
    · have hwrites := (ih (n / 10) (by omega)).append (writes_digitChar (Nat.mod_lt n (by decide)))
      rw [Nat.toDigits_of_base_le (by decide) (Nat.le_of_not_lt hn)]
      rwa [List.length_singleton, Nat.pow_one, Nat.div_add_mod'] at hwrites

theorem toList_toString (i : ℤ) :
    (toString i).toList = signed (i < 0) (Nat.toDigits 10 i.natAbs) := by
  rw [Int.toString_eq_repr, Int.repr_eq_if]
  by_cases hneg : i < 0
  · have habs : (-i).toNat = i.natAbs := by omega
    rw [if_neg (not_le.mpr hneg), decide_eq_true hneg, habs, String.toList_append, Nat.toList_repr]
    rfl
  · have habs : i.toNat = i.natAbs := by omega
    rw [if_pos (not_lt.mp hneg), decide_eq_false hneg, habs, Nat.toList_repr]
    rfl

theorem spells_toString (i : ℤ) : Spells (toString i).toList i 0 0 := by
  have hspells := spellsMagnitude_zeros (writes_toDigits i.natAbs) Nat.toDigits_ne_nil 0 (i < 0)
  rw [List.replicate_zero, List.append_nil, Nat.pow_zero, Nat.mul_one,
    signedValue_natAbs] at hspells
  rw [toList_toString]
  exact hspells

end Decimal

namespace Numeric

variable {i : ℤ} (hi : IntegerType.int8.contains i = true)

/-! ## Reading and decoding -/

theorem denotes_toString (i : ℤ) : Denotes (toString i) (.ofRat i) := by
  have hspells := Decimal.spells_toString i
  have hvalue : (i : ℚ) = i * 10 ^ ((0 : ℤ) - (0 : ℕ) : ℤ) := by norm_num
  rw [hvalue]
  exact .number hspells.trim

theorem parse_toString : parse (toString i) = .ok (ofInt8 i hi) := by
  have hspells := Decimal.spells_toString i
  rw [parse_ok_iff_of_spells hspells.trim]
  refine ⟨isCanonical_ofInt8 hi, ?_, displayScale_eq_decimalPlaces_ofInt8 hi⟩
  rw [rational_ofInt8 hi]
  norm_num

theorem exactInteger?_ofInt8 : (ofInt8 i hi).decode.exactInteger? = some i := by
  have hvalue := exactValue_of_finite (isCanonical_ofInt8 hi).finite
  have hnear : IsNear (i : ℚ) := by
    unfold IsNear
    rw [← Int.cast_abs, ← Nat.cast_natAbs, Nat.floor_natCast]
    exact natAbs_le_of_contains hi
  rw [rational_ofInt8 hi] at hvalue
  rw [decode_eq_ofExact, hvalue, Decoded.ofExact_ofRat,
    Decoded.exactInteger?_ofRat (Int.fract_intCast i), if_pos hnear, Int.floor_intCast]

/-- The ways from the integer `i` to the numeric `n`, the stored parts, and the way back. The digits
in base 10000 come lowest first, as they are divided out, and zero has none. -/
structure IsNumericOf (n : Numeric) (i : ℤ) : Prop where
  converted : ofDecimal (Decimal.ofInt i) = .ok n
  read : parse (toString i) = .ok n
  denoted : ∀ text, Denotes text (.ofRat i) → parse text = .ok n
  sign : n.sign = if i < 0 then .negative else .positive
  weight : n.weight = ((Nat.digits 10000 i.natAbs).length - 1 : ℕ)
  displayScale : n.displayScale = 0
  digits : n.digits = ((Nat.digits 10000 i.natAbs).dropWhile (· == 0)).reverse
  length_digits : n.digits.length ≤ 5
  decoded : n.decode.exactInteger? = some i

end Numeric

/-- **The numeric of an integer** is one and the same, however it is made. -/
theorem integer_numerics_agree (i : ℤ) (hi : IntegerType.int8.contains i = true) :
    (Numeric.ofInt8 i hi).IsNumericOf i where
  converted := Numeric.ofDecimal_ofInt hi
  read := Numeric.parse_toString hi
  denoted text h := by
    rw [Numeric.parse_eq_of_denotes h (Numeric.denotes_toString i) rfl, Numeric.parse_toString hi]
  sign := Numeric.sign_ofInt8 hi
  weight := Numeric.weight_ofInt8 hi
  displayScale := Numeric.displayScale_ofInt8 hi
  digits := by
    rw [Numeric.digits_ofInt8 hi, Digits.trimEnd, List.reverse_reverse]
    rfl
  length_digits := Numeric.length_digits_ofInt8_le hi
  decoded := Numeric.exactInteger?_ofInt8 hi

theorem integer_numerics_agree_minimum :
    IntegerType.int8.contains (-9223372036854775808) = true ∧
      ∃ n : Numeric, n.IsNumericOf (-9223372036854775808) ∧
        n.digits = [922, 3372, 368, 5477, 5808] :=
  ⟨rfl, _, integer_numerics_agree (-9223372036854775808) rfl, by decide +kernel⟩

/-- Zeros at the end are not stored. -/
example : (Numeric.ofInt8 1200000000000 rfl).digits = [1, 2000] := by decide +kernel

end ExactCompare
