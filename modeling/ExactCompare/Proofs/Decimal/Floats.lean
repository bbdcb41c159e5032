import ExactCompare.Proofs.Decimal.Value
import ExactCompare.Serial
import Mathlib.Data.Nat.Prime.Basic

/-!
# Decimals of floats

The exact decimal of a float has as many places as it needs, so there is a zero at its end only if
the float is a multiple of ten. The one exception is below the smallest normal float, where the
twos in the mantissa stay.
-/

namespace ExactCompare

-- Powers are those that `Nat` and `Int` come with.
attribute [local instance (2000)] instPowNat

/-! ## Powers of two in a mantissa -/

theorem exists_eq_two_pow_mul (m k : ℕ) :
    let j := (m.gcd (2 ^ k)).log2
    j ≤ k ∧ ∃ rest, m = 2 ^ j * rest ∧ (j = k ∨ ¬ 2 ∣ rest) := by
  intro j
  obtain ⟨i, hi, hgcd⟩ := (Nat.dvd_prime_pow Nat.prime_two).mp (Nat.gcd_dvd_right m (2 ^ k))
  have hj : j = i := by
    show (m.gcd (2 ^ k)).log2 = i
    rw [hgcd, Nat.log2_two_pow]
  rw [hj]
  obtain ⟨rest, hrest⟩ : 2 ^ i ∣ m := hgcd ▸ Nat.gcd_dvd_left m (2 ^ k)
  refine ⟨hi, rest, hrest, or_iff_not_imp_left.mpr fun hne heven => ?_⟩
  have hdvd : 2 ^ (i + 1) ∣ m := by
    rw [hrest, pow_succ]
    exact Nat.mul_dvd_mul_left _ heven
  have hshared : 2 ^ (i + 1) ∣ 2 ^ i := hgcd ▸ Nat.dvd_gcd hdvd (Nat.pow_dvd_pow 2 (by omega))
  have := (Nat.pow_dvd_pow_iff_le_right (by decide)).mp hshared
  omega

theorem ten_dvd_iff {n : ℕ} : 10 ∣ n ↔ 2 ∣ n ∧ 5 ∣ n := by omega

theorem two_dvd_mul_five_pow_iff {n k : ℕ} : 2 ∣ n * 5 ^ k ↔ 2 ∣ n := by
  rw [Nat.prime_two.dvd_mul, or_iff_left]
  exact fun h => by simpa using Nat.prime_two.dvd_of_dvd_pow h

theorem ten_dvd_mul_five_pow_iff {n k : ℕ} (hk : k ≠ 0) : 10 ∣ n * 5 ^ k ↔ 2 ∣ n := by
  rw [ten_dvd_iff, two_dvd_mul_five_pow_iff, and_iff_left]
  exact Dvd.dvd.mul_left (dvd_pow_self 5 hk) n

namespace Decimal

theorem isNormal_iff_natAbs {d : Decimal} (hd : d.unscaled ≠ 0) :
    d.IsNormal ↔ ¬ 10 ∣ d.unscaled.natAbs := by
  have hne : d ≠ ⟨0, 0⟩ := fun h => hd (congrArg unscaled h)
  rw [IsNormal, or_iff_right hne, Int.natCast_dvd.symm]
  rfl

end Decimal

namespace Binary

variable {f : BinaryFormat} {b : Binary f} {negative : Bool} {mantissa : ℕ} {exponent : ℤ}

/-! ## The criterion -/

/-- A subnormal float has an odd mantissa. Any other float is not a multiple of ten, unless it is
zero. -/
def EndsNormally (b : Binary f) : Prop :=
  match b.view with
  | .finite _ mantissa exponent =>
    mantissa = 0 ∨
      if b.exponentField = 0 ∧ exponent < 0 then ¬ 2 ∣ mantissa
      else ∀ z : ℤ, (mantissa : ℚ) * 2 ^ exponent ≠ 10 * z
  | _ => True

theorem exists_eq_ten_mul_iff {m : ℕ} {e : ℤ} :
    (∃ z : ℤ, (m : ℚ) * 2 ^ e = 10 * z) ↔ 10 * 2 ^ (-e).toNat ∣ m * 2 ^ e.toNat := by
  have hscale : (2 : ℚ) ^ e * 2 ^ (-e).toNat = 2 ^ e.toNat := by
    rw [← zpow_natCast, ← zpow_natCast, ← zpow_add₀ two_ne_zero]
    congr 1
    omega
  have hpos : (2 : ℚ) ^ (-e).toNat ≠ 0 := by positivity
  have hiff (z : ℤ) : (m : ℚ) * 2 ^ e = 10 * z ↔
      ((m * 2 ^ e.toNat : ℕ) : ℤ) = (10 * 2 ^ (-e).toNat : ℕ) * z := by
    rw [← mul_left_inj' hpos, mul_assoc, hscale, ← Int.cast_inj (α := ℚ)]
    push_cast
    rw [mul_right_comm]
  simp only [hiff]
  exact Int.natCast_dvd_natCast

theorem natAbs_unscaled_toDecimal (h : b.view = .finite negative mantissa exponent)
    (hm : mantissa ≠ 0) :
    b.toDecimal.unscaled.natAbs =
      if 0 ≤ exponent then mantissa * 2 ^ exponent.toNat
      else
        let shared :=
          if b.exponentField = 0 then 0 else (mantissa.gcd (2 ^ (-exponent).toNat)).log2
        mantissa / 2 ^ shared * 5 ^ ((-exponent).toNat - shared) := by
  have hsigned : (if negative then -mantissa else mantissa : ℤ).natAbs = mantissa := by
    cases negative <;> simp
  unfold toDecimal
  split
  case h_1 hzero =>
    rw [h, View.finite.injEq] at hzero
    exact absurd hzero.2.1 hm
  case h_2 hview =>
    rw [h, View.finite.injEq] at hview
    obtain ⟨rfl, rfl, rfl⟩ := hview
    dsimp only
    split
    · rw [Int.natAbs_mul, hsigned, Int.natAbs_pow]
      rfl
    · rw [Int.natAbs_mul, Int.natAbs_tdiv, hsigned, Int.natAbs_pow, Int.natAbs_pow]
      rfl
  case h_3 hother => exact absurd h (hother _ _ _)

theorem exists_natAbs_unscaled_toDecimal (h : b.view = .finite negative mantissa exponent)
    (hm : mantissa ≠ 0) (he : exponent < 0) :
    ∃ j rest, mantissa = 2 ^ j * rest ∧ j ≤ (-exponent).toNat ∧
      b.toDecimal.unscaled.natAbs = rest * 5 ^ ((-exponent).toNat - j) ∧
      if b.exponentField = 0 then j = 0 else j = (-exponent).toNat ∨ ¬ 2 ∣ rest := by
  rw [natAbs_unscaled_toDecimal h hm, if_neg (not_le.mpr he)]
  split
  case isTrue => exact ⟨0, mantissa, by simp⟩
  case isFalse =>
    obtain ⟨hle, rest, hrest, htwos⟩ := exists_eq_two_pow_mul mantissa (-exponent).toNat
    refine ⟨_, rest, hrest, hle, ?_, htwos⟩
    dsimp only
    rw [Nat.div_eq_of_eq_mul_right (Nat.two_pow_pos _) hrest]

theorem isNormal_toDecimal_of_nonneg (h : b.view = .finite negative mantissa exponent)
    (hm : mantissa ≠ 0) (he : 0 ≤ exponent) :
    b.toDecimal.IsNormal ↔ ∀ z : ℤ, (mantissa : ℚ) * 2 ^ exponent ≠ 10 * z := by
  have hvalue := natAbs_unscaled_toDecimal h hm
  rw [if_pos he] at hvalue
  have hne : b.toDecimal.unscaled ≠ 0 := by
    rw [← Int.natAbs_ne_zero, hvalue]
    exact Nat.mul_ne_zero hm (Nat.two_pow_pos _).ne'
  have hwhole : (-exponent).toNat = 0 := by omega
  rw [Decimal.isNormal_iff_natAbs hne, hvalue, ← not_exists, exists_eq_ten_mul_iff, hwhole,
    Nat.pow_zero, Nat.mul_one]

theorem isNormal_toDecimal_of_neg (h : b.view = .finite negative mantissa exponent)
    (hm : mantissa ≠ 0) (he : exponent < 0) :
    b.toDecimal.IsNormal ↔
      if b.exponentField = 0 then ¬ 2 ∣ mantissa
      else ∀ z : ℤ, (mantissa : ℚ) * 2 ^ exponent ≠ 10 * z := by
  obtain ⟨j, rest, rfl, hle, hvalue, htwos⟩ := exists_natAbs_unscaled_toDecimal h hm he
  have hrest : rest ≠ 0 := right_ne_zero_of_mul hm
  have hne : b.toDecimal.unscaled ≠ 0 := by
    rw [← Int.natAbs_ne_zero, hvalue]
    exact Nat.mul_ne_zero hrest (Nat.pow_pos (by decide)).ne'
  rw [Decimal.isNormal_iff_natAbs hne, hvalue]
  have hplaces : (-exponent).toNat ≠ 0 := by omega
  split at htwos
  case isTrue hfield =>
    subst htwos
    rw [if_pos hfield, Nat.sub_zero, ten_dvd_mul_five_pow_iff hplaces, Nat.pow_zero, Nat.one_mul]
  case isFalse hfield =>
    have hunits : exponent.toNat = 0 := by omega
    rw [if_neg hfield, ← not_exists, exists_eq_ten_mul_iff, not_iff_not, hunits, Nat.pow_zero,
      Nat.mul_one]
    rcases htwos with rfl | hodd
    · rw [Nat.sub_self, Nat.pow_zero, Nat.mul_one, Nat.mul_comm 10,
        Nat.mul_dvd_mul_iff_left (Nat.two_pow_pos _)]
    · refine iff_of_false ?_ ?_
      · exact fun hten => hodd (two_dvd_mul_five_pow_iff.mp (ten_dvd_iff.mp hten).1)
      · -- A multiple of ten units has more twos than an odd rest leaves.
        intro hunit
        have hmore : 2 ^ j * 2 ∣ 10 * 2 ^ (-exponent).toNat := by
          rw [Nat.mul_comm]
          exact Nat.mul_dvd_mul (by decide) (Nat.pow_dvd_pow 2 hle)
        exact hodd (Nat.dvd_of_mul_dvd_mul_left (Nat.two_pow_pos j) (hmore.trans hunit))

/-- **The decimal of a float is normal** if the float meets the criterion. -/
theorem isNormal_toDecimal_iff (b : Binary f) : b.toDecimal.IsNormal ↔ b.EndsNormally := by
  unfold EndsNormally
  split
  case h_1 negative mantissa exponent h =>
    by_cases hm : mantissa = 0
    · subst hm
      refine iff_of_true (.inl ?_) (.inl rfl)
      unfold toDecimal
      rw [h]
      rfl
    rw [or_iff_right hm]
    rcases le_or_gt 0 exponent with he | he
    · rw [isNormal_toDecimal_of_nonneg h hm he, if_neg fun hsmall => not_lt.mpr he hsmall.2]
    · rw [isNormal_toDecimal_of_neg h hm he]
      simp only [he, and_true]
  case h_2 h =>
    refine iff_of_true (.inl ?_) trivial
    unfold toDecimal
    split
    · rfl
    · rename_i hview
      exact absurd hview (h _ _ _)
    · rfl

end Binary

end ExactCompare
