import ExactCompare.Routine
import ExactCompare.Proofs.Exact.Decode
import Mathlib.Order.Compare

/-!
# Comparisons are exact

The comparison of an integer with a decoded value is the comparison with what the
value stands for. So is the answer of every operator and of every sort support.
-/

namespace ExactCompare

-- Powers are those that `Nat` and `Int` come with.
attribute [local instance (2000)] instPowNat

/-! ## Operators and orderings -/

namespace ComparisonOp

theorem accepts_cmp {α : Type} [LinearOrder α] (op : ComparisonOp) (x y : α) :
    op.accepts (cmp x y) = true ↔ op.Holds x y := by
  rcases lt_trichotomy x y with h | rfl | h
  · rw [(cmp_eq_lt_iff x y).mpr h]
    cases op <;> simp [accepts, Holds, h, h.le, h.ne, h.not_gt, h.not_ge]
  · rw [(cmp_eq_eq_iff x x).mpr rfl]
    cases op <;> simp [accepts, Holds]
  · rw [(cmp_eq_gt_iff x y).mpr h]
    cases op <;> simp [accepts, Holds, h, h.le, h.ne', h.not_gt, h.not_ge]

theorem holds_commute {α : Type} [LinearOrder α] (op : ComparisonOp) (x y : α) :
    op.commute.Holds x y ↔ op.Holds y x := by
  cases op <;> simp [commute, Holds, eq_comm]

end ComparisonOp

namespace ExactValue

theorem satisfies_commute (op : ComparisonOp) (x y : ExactValue) :
    Satisfies op.commute x y ↔ Satisfies op y x := by
  cases x <;> cases y
  · exact op.holds_commute _ _
  all_goals cases op <;> simp [Satisfies, ComparisonOp.commute]

theorem sortOrder_swap (x y : ExactValue) : sortOrder x y = -sortOrder y x := by
  cases x with
  | nan => cases y <;> rfl
  | number x =>
    cases y with
    | nan => rfl
    | number y =>
      simp only [sortOrder]
      rcases lt_trichotomy x y with h | rfl | h
      · simp [h, h.not_gt]
      · simp
      · simp [h, h.not_gt]

end ExactValue

/-! ## Comparing with a decoded value -/

/-- The outcome of comparing an integer with an exact value. -/
def Outcome.ofExact (n : Int) : ExactValue → Outcome
  | .nan => .nan
  | .number x => .ordered (cmp (((n : ℚ) : WithTop ℚ) : ExtendedRat) x)

theorem cmp_coe (p q : ℚ) :
    cmp ((p : WithTop ℚ) : ExtendedRat) ((q : WithTop ℚ) : ExtendedRat) = cmp p q := by
  rcases lt_trichotomy p q with h | rfl | h
  · rw [(cmp_eq_lt_iff p q).mpr h, cmp_eq_lt_iff]
    exact_mod_cast h
  · rw [(cmp_eq_eq_iff p p).mpr rfl, (cmp_eq_eq_iff _ _).mpr rfl]
  · rw [(cmp_eq_gt_iff p q).mpr h, cmp_eq_gt_iff]
    exact_mod_cast h

theorem compareInt_ofParts (n : Int) (whole : ℕ) (fraction : Bool) :
    compareInt n (.ofParts false whole fraction) =
      .ordered (if whole ≤ Decoded.maxMagnitude then
          if n < whole then .lt else if whole < n then .gt else if fraction then .lt else .eq
        else .lt) := by
  unfold Decoded.ofParts
  split
  · rename_i hzero
    simp only [Bool.and_eq_true, decide_eq_true_eq, Bool.not_eq_true'] at hzero
    obtain ⟨rfl, rfl⟩ := hzero
    rcases lt_trichotomy n 0 with h | rfl | h
    · simp [compareInt, Decoded.zero, Decoded.Sign.toInt, compare_lt_iff_lt.mpr h, h]
    · simp [compareInt, Decoded.zero, Decoded.Sign.toInt]
    · simp [compareInt, Decoded.zero, Decoded.Sign.toInt, compare_gt_iff_gt.mpr h, h, h.not_gt]
  · by_cases hmax : whole ≤ Decoded.maxMagnitude
    · rcases lt_trichotomy n whole with h | rfl | h
      · simp [compareInt, Decoded.Sign.toInt, hmax, compare_lt_iff_lt.mpr h, h]
      · cases fraction <;> simp [compareInt, Decoded.Sign.toInt, hmax]
      · simp [compareInt, Decoded.Sign.toInt, hmax, compare_gt_iff_gt.mpr h, h, h.not_gt]
    · simp [compareInt, hmax]

theorem compareInt_ofParts_negative (n : Int) (whole : ℕ) (fraction : Bool) :
    compareInt n (.ofParts true whole fraction) =
      (compareInt (-n) (.ofParts false whole fraction)).reversed := by
  have hswap (m : Int) : compare n (-m) = (compare (-n) m).swap := by
    rcases lt_trichotomy (-n) m with h | h | h
    · rw [compare_lt_iff_lt.mpr h, compare_gt_iff_gt.mpr (by omega)]; rfl
    · rw [compare_eq_iff_eq.mpr h, compare_eq_iff_eq.mpr (by omega)]; rfl
    · rw [compare_gt_iff_gt.mpr h, compare_lt_iff_lt.mpr (by omega)]; rfl
  unfold Decoded.ofParts
  split
  · have := hswap 0
    simp only [compareInt, Decoded.zero, Decoded.Sign.toInt, Int.zero_mul, Int.neg_zero] at this ⊢
    rw [this]
    cases compare (-n) 0 <;> rfl
  · by_cases hmax : whole ≤ Decoded.maxMagnitude
    · have := hswap whole
      simp only [compareInt, hmax, Decoded.Sign.toInt, if_true, if_false, Bool.false_eq_true,
        Int.one_mul, Int.neg_mul] at this ⊢
      rw [this]
      cases compare (-n) whole <;> cases fraction <;> rfl
    · simp [compareInt, hmax, Outcome.reversed, Outcome.ordered]

theorem Outcome.reversed_ordered (o : Ordering) : (ordered o).reversed = ordered o.swap := rfl

theorem compareInt_nonneg {n : Int} {m : ℚ} (hn : n ≤ Decoded.maxMagnitude) (hm : 0 ≤ m) :
    compareInt n (.ofParts false ⌊m⌋₊ (Int.fract m ≠ 0)) = .ordered (cmp (n : ℚ) m) := by
  have hsplit : (⌊m⌋₊ : ℚ) + Int.fract m = m := by
    rw [natCast_floor_eq_intCast_floor hm]
    exact Int.floor_add_fract m
  have hfract := Int.fract_nonneg m
  have hlt := Int.fract_lt_one m
  rw [compareInt_ofParts]
  congr 1
  generalize ho : cmp (n : ℚ) m = o
  symm
  split_ifs with hmax hbelow habove hfraction
  · rw [← ho, cmp_eq_lt_iff]
    have : (n : ℚ) < ⌊m⌋₊ := by exact_mod_cast hbelow
    linarith
  · rw [← ho, cmp_eq_gt_iff]
    have : ((⌊m⌋₊ : Int) : ℚ) + 1 ≤ n := by exact_mod_cast habove
    push_cast at this
    linarith
  · rw [← ho, cmp_eq_lt_iff]
    have heq : n = (⌊m⌋₊ : Int) := by omega
    have hpos : 0 < Int.fract m := hfract.lt_of_ne' (by simpa using hfraction)
    rw [heq]
    push_cast
    linarith
  · rw [← ho, cmp_eq_eq_iff]
    have heq : n = (⌊m⌋₊ : Int) := by omega
    have hzero : Int.fract m = 0 := by simpa using hfraction
    rw [heq]
    push_cast
    linarith
  · rw [← ho, cmp_eq_lt_iff]
    have : (n : ℚ) < ⌊m⌋₊ := by
      have : n < (⌊m⌋₊ : Int) := by omega
      exact_mod_cast this
    linarith

theorem compareInt_ofRat {n : Int} (hn : n.natAbs ≤ Decoded.maxMagnitude) (q : ℚ) :
    compareInt n (.ofRat q) = .ordered (cmp (n : ℚ) q) := by
  unfold Decoded.ofRat
  by_cases hq : q < 0
  · rw [decide_eq_true hq, compareInt_ofParts_negative,
      compareInt_nonneg (by omega) (abs_nonneg q), abs_of_neg hq]
    rw [Outcome.reversed_ordered, cmp_swap, Int.cast_neg]
    congr 1
    rcases lt_trichotomy (n : ℚ) q with h | h | h
    · rw [(cmp_eq_lt_iff _ _).mpr h, (cmp_eq_lt_iff _ _).mpr (by linarith)]
    · rw [(cmp_eq_eq_iff _ _).mpr h, (cmp_eq_eq_iff _ _).mpr (by linarith)]
    · rw [(cmp_eq_gt_iff _ _).mpr h, (cmp_eq_gt_iff _ _).mpr (by linarith)]
  · rw [decide_eq_false hq, compareInt_nonneg (by omega) (abs_nonneg q),
      abs_of_nonneg (not_lt.mp hq)]

theorem compareInt_ofExact {n : Int} (hn : n.natAbs ≤ Decoded.maxMagnitude) (v : ExactValue) :
    compareInt n (.ofExact v) = .ofExact n v := by
  match v with
  | .nan => rfl
  | .number ⊥ => rfl
  | .number (some ⊤) => rfl
  | .number (some (some q)) =>
    show compareInt n (.ofRat q) = .ordered (cmp _ ((q : WithTop ℚ) : ExtendedRat))
    rw [compareInt_ofRat hn, cmp_coe]

theorem natAbs_le_of_contains {t : IntegerType} {n : Int} (h : t.contains n = true) :
    n.natAbs ≤ Decoded.maxMagnitude := by
  rw [IntegerType.contains_iff] at h
  cases t <;> simp only [IntegerType.min, IntegerType.max, Decoded.maxMagnitude] at h ⊢ <;> omega

end ExactCompare
