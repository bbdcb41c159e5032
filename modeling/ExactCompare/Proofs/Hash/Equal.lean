import ExactCompare.Proofs.Exact.Compare
import ExactCompare.Proofs.Exact.Nearest
import ExactCompare.Proofs.Hash.Digits

/-!
# Equal values hash alike

An integer that equals an inexact value has the hash of the value. The two float
types share the hash of doubles.
-/

namespace ExactCompare

-- Powers are those that `Nat` and `Int` come with.
attribute [local instance (2000)] instPowNat

theorem eq_natAbs_of_signed {m : ℚ} {n : Int} (negative : Bool) (hm : 0 ≤ m)
    (h : (if negative then -m else m) = n) : m = n.natAbs := by
  rw [Nat.cast_natAbs, Int.cast_abs, ← h]
  split
  · rw [abs_neg, abs_of_nonneg hm]
  · rw [abs_of_nonneg hm]

/-! ## Numerics -/

theorem Numeric.parts_of_exactValue {v : Numeric} {n : Int} (h : v.exactValue = .ofRat n) :
    v.sign.isSpecial = false ∧ v.magnitude = n.natAbs := by
  have hfinite := finite_of_exactValue h
  have hvalue := ExactValue.ofRat_inj ((exactValue_of_finite hfinite).symm.trans h)
  refine ⟨hfinite, ?_⟩
  rw [← abs_rational, hvalue, Nat.cast_natAbs, Int.cast_abs]

/-! ## Floats -/

namespace Binary

variable {f : BinaryFormat} {b : Binary f} {n : Int}

theorem view_of_exactValue (h : b.exactValue = .ofRat n) :
    ∃ negative mantissa exponent, b.view = .finite negative mantissa exponent ∧
      scaled mantissa exponent = n.natAbs ∧ (n ≠ 0 → negative = decide (n < 0)) := by
  cases hv : b.view with
  | nan =>
    rw [exactValue_of_view_nan hv] at h
    simp [ExactValue.ofRat] at h
  | infinity negative =>
    rw [exactValue_of_view_infinity hv] at h
    cases negative <;> simp [ExactValue.ofRat, ExactValue.infinity, ExactValue.negInfinity] at h
  | finite negative mantissa exponent =>
    rw [rational_of_view hv] at h
    have hsigned := ExactValue.ofRat_inj h
    have hnonneg := scaled_nonneg mantissa exponent
    refine ⟨_, _, _, rfl, eq_natAbs_of_signed negative hnonneg hsigned, fun hn => ?_⟩
    cases negative with
    | false =>
      have : (0 : ℚ) ≤ n := hsigned ▸ hnonneg
      exact (decide_eq_false (not_lt.mpr (by exact_mod_cast this))).symm
    | true =>
      have : (n : ℚ) ≤ 0 := hsigned ▸ neg_nonpos.mpr hnonneg
      exact (decide_eq_true (lt_of_le_of_ne (by exact_mod_cast this) hn)).symm

theorem eq_nearest_of_exactValue (h : b.exactValue = .ofRat n) :
    ∃ negative, b = nearest f negative n.natAbs 1 ∧ (n ≠ 0 → negative = decide (n < 0)) := by
  obtain ⟨negative, mantissa, exponent, hv, hscaled, hneg⟩ := view_of_exactValue h
  exact ⟨negative, (nearest_of_exact hv one_pos (by simp [hscaled])).symm, hneg⟩

theorem convert_eq_nearest_of_exactValue (g : BinaryFormat) (h : b.exactValue = .ofRat n) :
    ∃ negative, b.convert g = nearest g negative n.natAbs 1 ∧
      (n ≠ 0 → negative = decide (n < 0)) := by
  obtain ⟨negative, mantissa, exponent, hv, hscaled, hneg⟩ := view_of_exactValue h
  refine ⟨negative, ?_, hneg⟩
  have hquotient : ((scaleDown mantissa 1 (-exponent)).1 : ℚ) /
      (scaleDown mantissa 1 (-exponent)).2 = n.natAbs / (1 : ℕ) := by
    rw [scaleDown_quotient, Nat.cast_one, div_one, div_one, zpow_neg, div_inv_eq_mul]
    exact hscaled
  rw [convert, hv]
  exact nearest_congr negative (scaleDown_den_pos _ one_pos _) one_pos hquotient

end Binary

namespace Hash

theorem float8Bytes?_nearest {negative : Bool} {n : Int}
    (h : n ≠ 0 → negative = decide (n < 0)) :
    float8Bytes? (Binary.nearest .binary64 negative n.natAbs 1) =
      float8Bytes? (Binary.ofInt .binary64 n) := by
  by_cases hn : n = 0
  · subst hn
    cases negative <;> rfl
  · rw [h hn]
    rfl

theorem float8Bytes?_ofInt {v : Float8} {n : Int} (h : v.exactValue = .ofRat n) :
    float8Bytes? (Binary.ofInt .binary64 n) = float8Bytes? v := by
  obtain ⟨negative, rfl, hneg⟩ := Binary.eq_nearest_of_exactValue h
  exact (float8Bytes?_nearest hneg).symm

theorem float8Bytes?_convert {v : Float4} {n : Int} (h : v.exactValue = .ofRat n) :
    float8Bytes? (Binary.ofInt .binary64 n) = float8Bytes? (v.convert .binary64) := by
  obtain ⟨negative, hv, hneg⟩ := Binary.convert_eq_nearest_of_exactValue .binary64 h
  rw [hv, float8Bytes?_nearest hneg]

end Hash

/-! ## Any inexact value -/

/-- The type whose hash the values of a type have. -/
def InexactType.hashTarget : InexactType → InexactType
  | .numeric => .numeric
  | .float4 | .float8 => .float8

theorem Hash.natAbs_lt_of_contains {t : IntegerType} {n : Int} (h : t.contains n = true) :
    n.natAbs < Numeric.base ^ maxDigits :=
  (natAbs_le_of_contains h).trans_lt (by decide)

theorem Inexact.hash_of_exactValue {t : IntegerType} {n : Int} (hn : t.contains n = true)
    {v : Inexact} (h : v.exactValue = .ofRat n) : Hash.integer n v.type.hashTarget = v.hash := by
  cases v with
  | numeric v =>
    obtain ⟨hsign, hmagnitude⟩ := Numeric.parts_of_exactValue h
    exact Hash.integerAsNumeric_eq (Hash.natAbs_lt_of_contains hn) hmagnitude hsign
  | float4 v =>
    show Hash.float8 _ = Hash.float8 _
    rw [Hash.float8, Hash.float8, Hash.float8Bytes?_convert h]
  | float8 v =>
    show Hash.float8 _ = Hash.float8 _
    rw [Hash.float8, Hash.float8, Hash.float8Bytes?_ofInt h]

theorem Inexact.hashExtended_of_exactValue {t : IntegerType} {n : Int}
    (hn : t.contains n = true) {v : Inexact} (h : v.exactValue = .ofRat n) (seed : UInt64) :
    Hash.integerExtended n v.type.hashTarget seed = v.hashExtended seed := by
  cases v with
  | numeric v =>
    obtain ⟨hsign, hmagnitude⟩ := Numeric.parts_of_exactValue h
    exact Hash.integerAsNumericExtended_eq (Hash.natAbs_lt_of_contains hn) hmagnitude hsign seed
  | float4 v =>
    show Hash.float8Extended _ seed = Hash.float8Extended _ seed
    rw [Hash.float8Extended, Hash.float8Extended, Hash.float8Bytes?_convert h]
  | float8 v =>
    show Hash.float8Extended _ seed = Hash.float8Extended _ seed
    rw [Hash.float8Extended, Hash.float8Extended, Hash.float8Bytes?_ofInt h]

end ExactCompare
