import ExactCompare.Decimal
import ExactCompare.Proofs.Exact.Digits
import Mathlib.Data.Nat.Digits.Lemmas
import Mathlib.Order.Lattice.Nat
import Mathlib.Tactic.FieldSimp
import Mathlib.Tactic.Ring

/-!
# What decimals stand for

A number is between two powers of its base that its count of digits tells. Normal form keeps the
value. Its scale is the number of decimal places that the value needs, or says how many zeros the
value ends in.
-/

namespace ExactCompare

-- Powers are those that `Nat` and `Int` come with.
attribute [local instance (2000)] instPowNat

namespace Digits

/-! ## Digits and their number -/

theorem value_eq_ofDigits (base : ℕ) (ds : List ℕ) :
    value base ds = Nat.ofDigits base ds.reverse := by
  induction ds with
  | nil => rfl
  | cons d ds ih =>
    rw [value_cons, ih, List.reverse_cons, Nat.ofDigits_append, Nat.ofDigits_singleton,
      List.length_reverse]
    ring

theorem lt_pow_length_ofNat {base : ℕ} (hbase : 2 ≤ base) (n : ℕ) :
    n < base ^ (ofNat base n).length := by
  have hlt := Nat.ofDigits_lt_base_pow_length (b := base) (l := (ofNat base n).reverse) hbase
    fun d hd => lt_of_mem_ofNat (by omega) (List.mem_reverse.mp hd)
  rwa [← value_eq_ofDigits, value_ofNat hbase, List.length_reverse] at hlt

theorem length_ofNat_pos {base n : ℕ} (hbase : 2 ≤ base) (hn : n ≠ 0) :
    0 < (ofNat base n).length := by
  by_contra hnone
  have hupper := lt_pow_length_ofNat hbase n
  rw [Nat.eq_zero_of_not_pos hnone, Nat.pow_zero] at hupper
  omega

theorem pow_length_ofNat_le {base n : ℕ} (hbase : 2 ≤ base) (hn : n ≠ 0) :
    base ^ ((ofNat base n).length - 1) ≤ n := by
  by_contra hlt
  have hlength := length_ofNat_le (by omega) (Nat.lt_of_not_le hlt)
  have hpos := length_ofNat_pos hbase hn
  omega

/-! ## Zeros at the end -/

theorem dropZeros_spec {k n : ℕ} (h : ¬ 10 ^ (2 ^ k : ℕ) ∣ n) :
    (dropZeros k n).1 * 10 ^ (dropZeros k n).2 = n ∧ ¬ 10 ∣ (dropZeros k n).1 := by
  induction k generalizing n with
  | zero => exact ⟨Nat.mul_one n, h⟩
  | succ k ih =>
    rw [dropZeros]
    split
    case isTrue hzeros =>
      obtain ⟨m, rfl⟩ := Nat.dvd_of_mod_eq_zero hzeros
      have hpos : 0 < 10 ^ (2 ^ k : ℕ) := Nat.pow_pos (by decide)
      rw [Nat.mul_div_cancel_left m hpos]
      have hm : ¬ 10 ^ (2 ^ k : ℕ) ∣ m := by
        rintro ⟨l, rfl⟩
        refine h ⟨l, ?_⟩
        rw [Nat.pow_succ, Nat.mul_two, Nat.pow_add, Nat.mul_assoc]
      obtain ⟨hvalue, hrest⟩ := ih hm
      refine ⟨?_, hrest⟩
      dsimp only
      rw [Nat.pow_add, ← Nat.mul_assoc, hvalue, Nat.mul_comm]
    case isFalse hnot => exact ih (mt Nat.mod_eq_zero_of_dvd hnot)

theorem not_pow_halvings_dvd {n : ℕ} (hn : n ≠ 0) : ¬ 10 ^ (2 ^ halvings n : ℕ) ∣ n := by
  intro hdvd
  have hle := Nat.le_of_dvd (Nat.pos_of_ne_zero hn) hdvd
  have hlt := lt_two_pow_two_pow_halvings n
  have hpow : 2 ^ (2 ^ halvings n : ℕ) ≤ 10 ^ (2 ^ halvings n : ℕ) :=
    Nat.pow_le_pow_left (by decide) _
  omega

end Digits

/-- The least number of decimal places that a rational can be written with, or zero if no number
is enough. -/
noncomputable def decimalPlaces (q : ℚ) : ℕ := sInf {k | ∃ z : ℤ, q * 10 ^ k = z}

namespace Decimal

def toRat (d : Decimal) : ℚ := d.unscaled * 10 ^ (-d.scale)

/-- Zero is written in one way. Any other number has no zero at the end of its unscaled integer. -/
def IsNormal (d : Decimal) : Prop := d = ⟨0, 0⟩ ∨ ¬ (10 : ℤ) ∣ d.unscaled

theorem abs_toRat (d : Decimal) : |d.toRat| = d.unscaled.natAbs * 10 ^ (-d.scale) := by
  rw [toRat, abs_mul, abs_of_pos (by positivity : (0 : ℚ) < 10 ^ (-d.scale)), Nat.cast_natAbs,
    Int.cast_abs]

theorem natAbs_dropZeros {n : ℤ} (hn : n ≠ 0) :
    let dropped := Digits.dropZeros (Digits.halvings n.natAbs) n.natAbs
    n = n.sign * dropped.1 * 10 ^ dropped.2 ∧ ¬ (10 : ℤ) ∣ n.sign * dropped.1 := by
  intro dropped
  have hnot := Digits.not_pow_halvings_dvd (Int.natAbs_ne_zero.mpr hn)
  obtain ⟨hvalue, hrest⟩ := Digits.dropZeros_spec hnot
  constructor
  · calc n = n.sign * n.natAbs := (Int.sign_mul_natAbs n).symm
      _ = n.sign * (dropped.1 * 10 ^ dropped.2 : ℕ) := by rw [hvalue]
      _ = n.sign * dropped.1 * 10 ^ dropped.2 := by push_cast; ring
  · rw [Int.dvd_natAbs.symm, Int.natAbs_mul, Int.natAbs_sign_of_ne_zero hn]
    simpa using mod_cast hrest

theorem toRat_normalize (d : Decimal) : d.normalize.toRat = d.toRat := by
  unfold normalize
  split
  case isTrue hzero => simp [toRat, hzero]
  case isFalse hne =>
    obtain ⟨hvalue, -⟩ := natAbs_dropZeros hne
    generalize Digits.dropZeros _ _ = dropped at hvalue ⊢
    have hscale : -(d.scale - dropped.2) = dropped.2 + -d.scale := by ring
    have hrat : (d.unscaled : ℚ) = (d.unscaled.sign * dropped.1 : ℤ) * 10 ^ dropped.2 := by
      exact_mod_cast hvalue
    dsimp only [toRat]
    rw [hscale, zpow_add₀ (by norm_num), zpow_natCast, ← mul_assoc, ← hrat]

theorem isNormal_normalize (d : Decimal) : d.normalize.IsNormal := by
  unfold normalize
  split
  case isTrue => exact .inl rfl
  case isFalse hne => exact .inr (natAbs_dropZeros hne).2

theorem toRat_mul_pow (d : Decimal) : d.toRat * 10 ^ d.scale.toNat =
    (d.unscaled * 10 ^ (-d.scale).toNat : ℤ) := by
  have hexponent : -d.scale + d.scale.toNat = (-d.scale).toNat := by omega
  rw [toRat, mul_assoc, ← zpow_natCast, ← zpow_add₀ (by norm_num), hexponent, zpow_natCast]
  push_cast
  rfl

theorem dvd_of_toRat_mul_pow {d : Decimal} {k z : ℤ} (h : d.toRat * 10 ^ k = z)
    (hk : k < d.scale) : (10 : ℤ) ∣ d.unscaled := by
  obtain ⟨j, hj⟩ : ∃ j : ℕ, d.scale = k + (j + 1 : ℕ) := ⟨(d.scale - k - 1).toNat, by omega⟩
  have hexponent : -d.scale + k = -((j + 1 : ℕ) : ℤ) := by omega
  rw [toRat, mul_assoc, ← zpow_add₀ (by norm_num), hexponent, zpow_neg, zpow_natCast] at h
  have hunscaled : (d.unscaled : ℚ) = z * 10 ^ (j + 1) := by
    rw [← h]
    field_simp
  refine ⟨z * 10 ^ j, ?_⟩
  have : (d.unscaled : ℚ) = (10 * (z * 10 ^ j) : ℤ) := by
    rw [hunscaled]
    push_cast
    ring
  exact_mod_cast this

theorem IsNormal.decimalPlaces_toRat {d : Decimal} (hd : d.IsNormal) :
    decimalPlaces d.toRat = d.scale.toNat := by
  refine IsLeast.csInf_eq ⟨⟨_, d.toRat_mul_pow⟩, ?_⟩
  rintro k ⟨z, hz⟩
  by_contra hlt
  rcases hd with rfl | hnot
  · exact hlt (Nat.zero_le k)
  · rw [← zpow_natCast] at hz
    exact hnot (dvd_of_toRat_mul_pow hz (Int.lt_toNat.mp (Nat.lt_of_not_le hlt)))

end Decimal

end ExactCompare
