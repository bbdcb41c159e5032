import ExactCompare.Digits
import ExactCompare.Decoded
import ExactCompare.Proofs.Exact.Spec
import Mathlib.Algebra.Order.Field.Power
import Mathlib.Tactic.Linarith
import Mathlib.Tactic.Ring
import Mathlib.Tactic.Positivity

/-!
# Sums of digits

The digits of a numeric, read as a rational one place at a time.
-/

namespace ExactCompare

-- Powers are those that `Nat` and `Int` come with.
attribute [local instance (2000)] instPowNat

/-- The sum of digits of which the first stands at a place. -/
def digitSum (place : ℤ) : List ℕ → ℚ
  | [] => 0
  | d :: ds => d * 10000 ^ place + digitSum (place - 1) ds

theorem digitSum_eq_sum (place : ℤ) (ds : List ℕ) :
    digitSum place ds = ∑ i : Fin ds.length, (ds[i] : ℚ) * 10000 ^ (place - (i : ℕ) : ℤ) := by
  induction ds generalizing place with
  | nil => simp [digitSum]
  | cons d ds ih =>
    rw [digitSum, ih]
    simp only [List.length_cons, Fin.sum_univ_succ]
    congr 1
    · simp
    · refine Finset.sum_congr rfl fun i _ => ?_
      have h : place - 1 - (i : ℕ) = place - ((i.succ : Fin (ds.length + 1)) : ℕ) := by
        rw [Fin.val_succ]; push_cast; ring
      rw [h]
      rfl

theorem magnitude_eq_digitSum (n : Numeric) : n.magnitude = digitSum n.weight n.digits :=
  (digitSum_eq_sum n.weight n.digits).symm

theorem digitSum_append (place : ℤ) (a b : List ℕ) :
    digitSum place (a ++ b) = digitSum place a + digitSum (place - a.length) b := by
  induction a generalizing place with
  | nil => simp [digitSum]
  | cons d a ih =>
    rw [List.cons_append, digitSum, digitSum, ih, List.length_cons, add_assoc]
    congr 3
    push_cast; ring

/-! ## Bounds -/

theorem digitSum_nonneg (place : ℤ) (ds : List ℕ) : 0 ≤ digitSum place ds := by
  induction ds generalizing place with
  | nil => simp [digitSum]
  | cons d ds ih =>
    rw [digitSum]
    have := ih (place - 1)
    positivity

theorem pow_place_succ (place : ℤ) : (10000 : ℚ) ^ (place + 1) = 10000 ^ place * 10000 := by
  rw [zpow_add_one₀ (by norm_num)]

theorem digitSum_lt (place : ℤ) (ds : List ℕ) (h : ∀ d ∈ ds, d < Numeric.base) :
    digitSum place ds < 10000 ^ (place + 1) := by
  induction ds generalizing place with
  | nil => rw [digitSum]; positivity
  | cons d ds ih =>
    have hrest := ih (place - 1) fun e he => h e (List.mem_cons_of_mem _ he)
    have hd : (d : ℚ) + 1 ≤ 10000 := by
      have := h d List.mem_cons_self
      exact_mod_cast this
    have hpos : (0 : ℚ) < 10000 ^ place := by positivity
    rw [sub_add_cancel] at hrest
    rw [digitSum, pow_place_succ]
    nlinarith

theorem digitSum_eq_zero_iff (place : ℤ) (ds : List ℕ) :
    digitSum place ds = 0 ↔ ∀ d ∈ ds, d = 0 := by
  induction ds generalizing place with
  | nil => simp [digitSum]
  | cons d ds ih =>
    have hpos : (0 : ℚ) < 10000 ^ place := by positivity
    have hhead : (0 : ℚ) ≤ d * 10000 ^ place := by positivity
    rw [digitSum, add_eq_zero_iff_of_nonneg hhead (digitSum_nonneg _ _), ih]
    simp [hpos.ne']

/-! ## Digits as one integer -/

theorem value_cons (base d : ℕ) (ds : List ℕ) :
    Digits.value base (d :: ds) = d * base ^ ds.length + Digits.value base ds := by
  have := Digits.value_append base [d] ds
  rwa [Digits.value_eq_foldl base [d], List.foldl_cons, List.foldl_nil, Nat.zero_mul,
    Nat.zero_add, List.singleton_append] at this

theorem digitSum_eq_value (place : ℤ) (ds : List ℕ) :
    digitSum place ds = Digits.value Numeric.base ds * 10000 ^ (place + 1 - ds.length) := by
  induction ds generalizing place with
  | nil => simp [digitSum, Digits.value_eq_foldl]
  | cons d ds ih =>
    have hplace : place = ds.length + (place + 1 - (ds.length + 1 : ℕ)) := by push_cast; ring
    have hrest : place - 1 + 1 - (ds.length : ℤ) = place + 1 - (ds.length + 1 : ℕ) := by
      push_cast; ring
    have hpow : (10000 : ℚ) ^ place = 10000 ^ ds.length * 10000 ^ (place + 1 - (ds.length + 1 : ℕ)) := by
      conv_lhs => rw [hplace]
      rw [zpow_add₀ (by norm_num), zpow_natCast]
    rw [digitSum, ih, hrest, List.length_cons, value_cons, hpow]
    simp only [Numeric.base]
    push_cast
    ring

end ExactCompare
