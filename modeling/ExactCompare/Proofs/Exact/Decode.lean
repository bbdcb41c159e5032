import ExactCompare.Proofs.Exact.Digits
import Mathlib.Data.Rat.Floor
import Mathlib.Tactic.FieldSimp

/-!
# Decoding is exact

Decoding a value gives the sign, the integer part and the fraction flag of what
the value stands for.
-/

namespace ExactCompare

-- Powers are those that `Nat` and `Int` come with.
attribute [local instance (2000)] instPowNat

/-! ## The decoded form of an exact value -/

def Decoded.ofRat (q : ℚ) : Decoded := .ofParts (q < 0) ⌊|q|⌋₊ (Int.fract |q| ≠ 0)

def Decoded.ofExact : ExactValue → Decoded
  | .nan => .special .nan
  | .number ⊥ => .special .negInfinity
  | .number (some ⊤) => .special .infinity
  | .number (some (some q)) => .ofRat q

theorem ExactValue.ofRat_inj {p q : ℚ} (h : ofRat p = ofRat q) : p = q := by
  simp only [ofRat, number.injEq] at h
  exact_mod_cast h

theorem Decoded.ofExact_ofRat (q : ℚ) : Decoded.ofExact (.ofRat q) = .ofRat q := rfl

theorem Decoded.ofParts_zero (negative : Bool) : Decoded.ofParts negative 0 false = .zero := rfl

theorem Decoded.ofParts_eq_ofRat (negative : Bool) (m : ℚ) (hm : 0 ≤ m) :
    Decoded.ofParts negative ⌊m⌋₊ (Int.fract m ≠ 0) = .ofRat (if negative then -m else m) := by
  rcases hm.eq_or_lt with rfl | hpos
  · simp [ofRat, ofParts_zero]
  · cases negative
    · simp [ofRat, abs_of_pos hpos, hpos.not_gt]
    · simp [ofRat, abs_of_pos hpos, hpos]

theorem Decoded.ofParts_of_split (negative : Bool) (m : ℚ) (whole : ℕ) (rest : ℚ)
    (hm : m = whole + rest) (hrest : 0 ≤ rest) (hlt : rest < 1) :
    Decoded.ofParts negative whole (rest ≠ 0) = .ofRat (if negative then -m else m) := by
  have hfloor : ⌊m⌋₊ = whole := by
    rw [hm, add_comm, Nat.floor_add_natCast hrest, Nat.floor_eq_zero.mpr hlt, zero_add]
  have hfract : Int.fract m = rest := by
    rw [hm, Int.fract_natCast_add, Int.fract_eq_self.mpr ⟨hrest, hlt⟩]
  rw [← ofParts_eq_ofRat negative m (by rw [hm]; positivity), hfloor, hfract]

/-! ## Numerics -/

namespace Numeric

theorem digitSum_stored (n : Numeric) :
    digitSum n.weight (n.digits.take n.wholeDigits) = n.whole := by
  have hlen := List.length_take_le n.wholeDigits n.digits
  rw [digitSum_eq_value, whole]
  by_cases hw : 0 ≤ n.weight + 1
  · have hexp : n.weight + 1 - (n.digits.take n.wholeDigits).length =
        ((n.wholeDigits - (n.digits.take n.wholeDigits).length : ℕ) : ℤ) := by
      unfold wholeDigits at hlen ⊢; omega
    rw [hexp, zpow_natCast]
    simp [base]
  · have hnone : n.wholeDigits = 0 := by unfold wholeDigits; omega
    simp [hnone, Digits.value_eq_foldl]

/-- What stands after the point. -/
def rest (n : Numeric) : ℚ := digitSum (n.weight - n.wholeDigits) (n.digits.drop n.wholeDigits)

theorem magnitude_eq_split (n : Numeric) : n.magnitude = n.whole + n.rest := by
  rw [magnitude_eq_digitSum, ← digitSum_stored, rest]
  conv_lhs => rw [← List.take_append_drop n.wholeDigits n.digits, digitSum_append]
  congr 1
  by_cases hlen : n.wholeDigits ≤ n.digits.length
  · rw [List.length_take_of_le hlen]
  · rw [List.drop_eq_nil_of_le (by omega), digitSum, digitSum]

theorem rest_lt_one (n : Numeric) : n.rest < 1 := by
  have hdigits : ∀ d ∈ n.digits.drop n.wholeDigits, d < base := fun d hd =>
    n.digits_lt d (List.mem_of_mem_drop hd)
  refine (digitSum_lt _ _ hdigits).trans_le ?_
  refine zpow_le_one_of_nonpos₀ (by norm_num) ?_
  unfold wholeDigits; omega

theorem any_ne_zero_iff (n : Numeric) :
    (n.digits.drop n.wholeDigits).any (· != 0) = decide (n.rest ≠ 0) := by
  rw [rest, Bool.eq_iff_iff, decide_eq_true_iff, ne_eq, digitSum_eq_zero_iff]
  simp

theorem magnitude_nonneg (n : Numeric) : 0 ≤ n.magnitude := by
  rw [magnitude_eq_digitSum]
  exact digitSum_nonneg _ _

theorem decode_eq_ofExact (n : Numeric) : n.decode = .ofExact n.exactValue := by
  have hparts := fun negative => Decoded.ofParts_of_split negative _ _ _ n.magnitude_eq_split
    (digitSum_nonneg _ _) n.rest_lt_one
  unfold decode exactValue
  rw [any_ne_zero_iff]
  cases n.sign with
  | positive => exact hparts false
  | negative => exact hparts true
  | nan | infinity | negInfinity => rfl

/-- The numeric `-9223372036854775808.5`, with zero digits at both ends. -/
def halfBelowMinimum : Numeric where
  sign := .negative
  weight := 5
  displayScale := 1
  digits := [0, 922, 3372, 368, 5477, 5808, 5000, 0]
  weight_ge := by decide
  weight_le := by decide
  displayScale_le := by decide
  digits_lt := by decide
  special := by decide

example : halfBelowMinimum.decode = .finite .negative (.finite Decoded.maxMagnitude) true := by
  decide

/-- What a finite numeric stands for. -/
def rational (n : Numeric) : ℚ := if n.sign = .negative then -n.magnitude else n.magnitude

theorem exactValue_of_finite {n : Numeric} (h : n.sign.isSpecial = false) :
    n.exactValue = .ofRat n.rational := by
  unfold exactValue rational
  cases hs : n.sign with
  | positive | negative => rfl
  | nan | infinity | negInfinity =>
    rw [hs] at h
    cases h

theorem finite_of_exactValue {n : Numeric} {q : ℚ} (h : n.exactValue = .ofRat q) :
    n.sign.isSpecial = false := by
  unfold exactValue at h
  cases hs : n.sign with
  | positive | negative => rfl
  | nan | infinity | negInfinity =>
    rw [hs] at h
    simp [ExactValue.ofRat, ExactValue.infinity, ExactValue.negInfinity] at h

theorem abs_rational (n : Numeric) : |n.rational| = n.magnitude := by
  unfold rational
  split
  · rw [abs_neg, abs_of_nonneg n.magnitude_nonneg]
  · exact abs_of_nonneg n.magnitude_nonneg

end Numeric

/-! ## Floats -/

namespace Binary

variable {f : BinaryFormat}

/-- The mantissa times its power of two. -/
def scaled (mantissa : ℕ) (exponent : ℤ) : ℚ := mantissa * 2 ^ exponent

theorem scaled_nonneg (mantissa : ℕ) (exponent : ℤ) : 0 ≤ scaled mantissa exponent := by
  unfold scaled; positivity

theorem minExponent_eq (f : BinaryFormat) : f.minExponent = 1 - f.bias - f.fractionBits := by
  unfold BinaryFormat.minExponent BinaryFormat.bias; omega

theorem rational_of_view {b : Binary f} {negative : Bool} {mantissa : ℕ} {exponent : ℤ}
    (h : b.view = .finite negative mantissa exponent) :
    b.exactValue = .ofRat (if negative then -scaled mantissa exponent else scaled mantissa exponent) := by
  have hfraction : (2 : ℚ) ^ (-(f.fractionBits : ℤ)) = (2 ^ f.fractionBits)⁻¹ := by
    rw [zpow_neg, zpow_natCast]
  unfold view at h
  split at h
  · split at h <;> simp at h
  rename_i hspecial
  rw [exactValue, if_neg hspecial, rational]
  split at h
  · rename_i hsub
    obtain ⟨rfl, rfl, rfl⟩ := View.finite.injEq .. ▸ h
    rw [if_pos hsub, scaled, minExponent_eq, sub_eq_add_neg _ (f.fractionBits : ℤ),
      zpow_add₀ (by norm_num), hfraction]
    congr 1
    split <;> ring
  · rename_i hnormal
    obtain ⟨rfl, rfl, rfl⟩ := View.finite.injEq .. ▸ h
    have hexp : f.minExponent + b.exponentField - 1 = b.exponentField - f.bias + -f.fractionBits := by
      rw [minExponent_eq]; ring
    rw [if_neg hnormal, scaled, hexp, zpow_add₀ (by norm_num), hfraction]
    have hpos : (2 : ℚ) ^ f.fractionBits ≠ 0 := by positivity
    congr 1
    push_cast
    split <;> field_simp

theorem exactValue_of_view_nan {b : Binary f} (h : b.view = .nan) : b.exactValue = .nan := by
  unfold view at h
  split_ifs at h with hspecial hfraction
  rw [exactValue, if_pos hspecial, if_neg hfraction]

theorem exactValue_of_view_infinity {b : Binary f} {negative : Bool}
    (h : b.view = .infinity negative) :
    b.exactValue = if negative then .negInfinity else .infinity := by
  unfold view at h
  split_ifs at h with hspecial hfraction
  obtain rfl := View.infinity.inj h
  rw [exactValue, if_pos hspecial, if_pos hfraction]

theorem ofParts_scaled_nonneg (negative : Bool) (mantissa : ℕ) {exponent : ℤ} (h : 0 ≤ exponent) :
    Decoded.ofParts negative (mantissa * 2 ^ exponent.toNat) false =
      .ofRat (if negative then -scaled mantissa exponent else scaled mantissa exponent) := by
  have hscaled : scaled mantissa exponent = (mantissa * 2 ^ exponent.toNat : ℕ) + 0 := by
    obtain ⟨k, rfl⟩ := Int.eq_ofNat_of_zero_le h
    simp [scaled]
  have := Decoded.ofParts_of_split negative _ _ _ hscaled le_rfl one_pos
  simpa using this

theorem ofParts_scaled_neg (negative : Bool) (mantissa : ℕ) {exponent : ℤ} (h : exponent < 0) :
    Decoded.ofParts negative (mantissa / 2 ^ (-exponent).toNat)
        (mantissa % 2 ^ (-exponent).toNat != 0) =
      .ofRat (if negative then -scaled mantissa exponent else scaled mantissa exponent) := by
  obtain ⟨k, rfl⟩ : ∃ k : ℕ, exponent = -k := ⟨(-exponent).toNat, by omega⟩
  simp only [neg_neg, Int.toNat_natCast]
  have hunit : (0 : ℚ) < (2 ^ k : ℕ) := by positivity
  have hmod : ((mantissa % 2 ^ k : ℕ) : ℚ) < (2 ^ k : ℕ) := by
    exact_mod_cast Nat.mod_lt _ (by positivity)
  have hsplit : scaled mantissa (-k) =
      (mantissa / 2 ^ k : ℕ) + ((mantissa % 2 ^ k : ℕ) : ℚ) / (2 ^ k : ℕ) := by
    have hdiv := congrArg (Nat.cast (R := ℚ)) (Nat.div_add_mod mantissa (2 ^ k))
    rw [scaled, zpow_neg, zpow_natCast, ← hdiv]
    push_cast at hunit ⊢
    field_simp
  have hparts := Decoded.ofParts_of_split negative _ _ _ hsplit (by positivity)
    ((div_lt_one hunit).mpr hmod)
  rw [← hparts]
  congr 1
  rw [Bool.eq_iff_iff, decide_eq_true_iff, bne_iff_ne, ne_eq, ne_eq, div_eq_zero_iff]
  simp

theorem decode_eq_ofExact (b : Binary f) : b.decode = .ofExact b.exactValue := by
  unfold decode
  split
  · rename_i h
    rw [exactValue_of_view_nan h]
    rfl
  · rename_i h
    rw [exactValue_of_view_infinity h]
    rfl
  · rename_i h
    rw [exactValue_of_view_infinity h]
    rfl
  · rename_i negative mantissa exponent h
    rw [rational_of_view h, Decoded.ofExact_ofRat]
    split
    · rename_i hexp
      exact ofParts_scaled_nonneg negative mantissa hexp
    · rename_i hexp
      exact ofParts_scaled_neg negative mantissa (by omega)

end Binary

/-! ## Any inexact value -/

theorem Inexact.decode_eq_ofExact (v : Inexact) : v.decode = .ofExact v.exactValue := by
  cases v with
  | numeric n => exact n.decode_eq_ofExact
  | float4 b => exact Binary.decode_eq_ofExact b
  | float8 b => exact Binary.decode_eq_ofExact b

end ExactCompare
