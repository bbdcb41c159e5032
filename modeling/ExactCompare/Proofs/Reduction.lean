import ExactCompare.Reduction
import ExactCompare.Proofs.Exact.Rounding

/-!
# Reductions keep their meaning

A comparison with a constant becomes a constant answer or a comparison with an
integer of the column's type, and the answers stay the same.
-/

namespace ExactCompare

/-! ## Bounds -/

theorem ComparisonOp.accepts_compare (op : ComparisonOp) (n m : Int) :
    op.accepts (compare n m) = true ↔ op.Holds n m := by
  rw [← cmp_eq_compare, op.accepts_cmp]

theorem ComparisonOp.accepts_cmp_intCast (op : ComparisonOp) (n m : Int) :
    op.accepts (cmp (n : ℚ) m) = op.accepts (compare n m) := by
  rw [Bool.eq_iff_iff, op.accepts_cmp, op.accepts_compare]
  cases op <;> simp [Holds]

namespace Reduction

theorem evaluate_constant (answer : Bool) (n : Int) (kept : Int → Bool) :
    (constant answer).evaluate (some n) kept = some answer := rfl

theorem atPlace_ne_unchanged (op : ComparisonOp) (p : Place) : atPlace op p ≠ .unchanged := by
  cases p <;> exact nofun

theorem contains_of_atPlace {op op' : ComparisonOp} {t : IntegerType} {s : Decoded.Sign}
    {bound : Option Int} {n : Int} (h : atPlace op (place t s bound) = .native op' n) :
    t.contains n = true := by
  unfold place at h
  rw [IntegerType.contains_iff]
  split at h
  · split_ifs at h with habove hbelow
    · simp [atPlace] at h
    · simp [atPlace] at h
    · simp only [atPlace, native.injEq] at h
      omega
  · split_ifs at h <;> simp [atPlace] at h

theorem evaluate_atPlace_some (op : ComparisonOp) {t : IntegerType} (s : Decoded.Sign)
    (bound : Int) {n : Int} (hn : t.contains n = true) (kept : Int → Bool) :
    (atPlace op (place t s (some bound))).evaluate (some n) kept =
      some (op.accepts (compare n bound)) := by
  rw [IntegerType.contains_iff] at hn
  unfold place
  simp only
  split_ifs with habove hbelow
  · rw [compare_lt_iff_lt.mpr (by omega : n < bound)]; rfl
  · rw [compare_gt_iff_gt.mpr (by omega : n > bound)]; rfl
  · rfl

theorem evaluate_atPlace_none (op : ComparisonOp) {t : IntegerType} {q : ℚ} (hq : ¬ IsNear q)
    {n : Int} (hn : t.contains n = true) (kept : Int → Bool) :
    (atPlace op (place t (Decoded.ofRat q).sign none)).evaluate (some n) kept =
      some (op.accepts (cmp (n : ℚ) q)) := by
  have hfar := lt_of_not_isNear hq (natAbs_le_of_contains hn)
  generalize ho : cmp (n : ℚ) q = o
  simp only [place, Decoded.sign_ofRat]
  split_ifs at hfar ⊢
  · rw [← ho, (cmp_eq_gt_iff _ _).mpr hfar]
    rfl
  · rw [← ho, (cmp_eq_lt_iff _ _).mpr hfar]
    rfl

theorem evaluate_placed {op placed : ComparisonOp} {t : IntegerType} {q : ℚ} {bound n : Int}
    (hn : t.contains n = true) (kept : Int → Bool)
    (hnear : placed.accepts (compare n bound) = op.accepts (cmp (n : ℚ) q))
    (hfar : ¬ IsNear q → placed.accepts (cmp (n : ℚ) q) = op.accepts (cmp (n : ℚ) q)) :
    (atPlace placed (place t (Decoded.ofRat q).sign (if IsNear q then some bound else none))).evaluate
      (some n) kept = some (op.accepts (cmp (n : ℚ) q)) := by
  by_cases hq : IsNear q
  · rw [if_pos hq, evaluate_atPlace_some _ _ _ hn, hnear]
  · rw [if_neg hq, evaluate_atPlace_none _ hq hn, hfar hq]

/-! ## A constant with a fraction -/

section Fraction

variable {q : ℚ} (hfract : Int.fract q ≠ 0) (n : Int)

include hfract

theorem intCast_ne : (n : ℚ) ≠ q := by
  rintro rfl
  exact hfract (Int.fract_intCast n)

theorem accepts_eq_of_fract (op : ComparisonOp) (hop : op = .eq ∨ op = .ne) :
    op.accepts (cmp (n : ℚ) q) = (op == .ne) := by
  have hne := intCast_ne hfract n
  rw [Bool.eq_iff_iff, op.accepts_cmp]
  rcases hop with rfl | rfl <;> simp [ComparisonOp.Holds, hne]

theorem accepts_le_of_fract (op : ComparisonOp) (hop : op = .lt ∨ op = .le) :
    ComparisonOp.le.accepts (cmp (n : ℚ) q) = op.accepts (cmp (n : ℚ) q) := by
  have hne := intCast_ne hfract n
  rw [Bool.eq_iff_iff, ComparisonOp.accepts_cmp, op.accepts_cmp]
  rcases hop with rfl | rfl
  · exact ⟨fun h => lt_of_le_of_ne h hne, le_of_lt⟩
  · exact Iff.rfl

theorem accepts_ge_of_fract (op : ComparisonOp) (hop : op = .gt ∨ op = .ge) :
    ComparisonOp.ge.accepts (cmp (n : ℚ) q) = op.accepts (cmp (n : ℚ) q) := by
  have hne := intCast_ne hfract n
  rw [Bool.eq_iff_iff, ComparisonOp.accepts_cmp, op.accepts_cmp]
  rcases hop with rfl | rfl
  · exact ⟨fun h => lt_of_le_of_ne h hne.symm, le_of_lt⟩
  · exact Iff.rfl

end Fraction

theorem accepts_le_floor (n : Int) (q : ℚ) :
    ComparisonOp.le.accepts (compare n ⌊q⌋) = ComparisonOp.le.accepts (cmp (n : ℚ) q) := by
  rw [Bool.eq_iff_iff, ComparisonOp.accepts_compare, ComparisonOp.accepts_cmp]
  exact Int.le_floor

theorem accepts_ge_ceil (n : Int) (q : ℚ) :
    ComparisonOp.ge.accepts (compare n ⌈q⌉) = ComparisonOp.ge.accepts (cmp (n : ℚ) q) := by
  rw [Bool.eq_iff_iff, ComparisonOp.accepts_compare, ComparisonOp.accepts_cmp]
  exact Int.ceil_le

/-! ## Any constant -/

theorem evaluate_ofFinite (op : ComparisonOp) {t : IntegerType} (q : ℚ) {n : Int}
    (hn : t.contains n = true) (kept : Int → Bool) :
    (ofFinite op t (.ofRat q)).evaluate (some n) kept = some (op.accepts (cmp (n : ℚ) q)) := by
  have hiff : (Decoded.ofRat q).hasFraction = true ↔ Int.fract q ≠ 0 := by
    rw [Decoded.hasFraction_ofRat, decide_eq_true_eq]
  unfold ofFinite
  by_cases hfract : Int.fract q ≠ 0
  · rw [if_pos (hiff.mpr hfract)]
    have hle := accepts_le_of_fract hfract n
    have hge := accepts_ge_of_fract hfract n
    rw [Decoded.floor?_ofRat, Decoded.ceil?_ofRat]
    cases op with
    | eq => rw [evaluate_constant, accepts_eq_of_fract hfract n .eq (.inl rfl)]
    | ne => rw [evaluate_constant, accepts_eq_of_fract hfract n .ne (.inr rfl)]
    | lt =>
      exact evaluate_placed hn kept ((accepts_le_floor n q).trans (hle .lt (.inl rfl)))
        fun _ => hle .lt (.inl rfl)
    | le => exact evaluate_placed hn kept (accepts_le_floor n q) fun _ => rfl
    | gt =>
      exact evaluate_placed hn kept ((accepts_ge_ceil n q).trans (hge .gt (.inl rfl)))
        fun _ => hge .gt (.inl rfl)
    | ge => exact evaluate_placed hn kept (accepts_ge_ceil n q) fun _ => rfl
  · rw [if_neg (mt hiff.mp hfract)]
    have hfract : Int.fract q = 0 := not_not.mp hfract
    have hq : q = (⌊q⌋ : Int) := by
      have := Int.floor_add_fract q
      rw [hfract, add_zero] at this
      exact this.symm
    rw [Decoded.exactInteger?_ofRat hfract]
    refine evaluate_placed hn kept ?_ fun _ => rfl
    rw [← op.accepts_cmp_intCast, ← hq]

theorem ofFinite_ne_unchanged (op : ComparisonOp) (t : IntegerType) (d : Decoded) :
    ofFinite op t d ≠ .unchanged := by
  unfold ofFinite
  dsimp only
  split
  · cases op with
    | eq | ne => exact nofun
    | lt | le | gt | ge => exact atPlace_ne_unchanged _ _
  · exact atPlace_ne_unchanged _ _

theorem contains_of_ofFinite {op op' : ComparisonOp} {t : IntegerType} {d : Decoded} {n : Int}
    (h : ofFinite op t d = .native op' n) : t.contains n = true := by
  unfold ofFinite at h
  dsimp only at h
  split at h
  · cases op with
    | eq | ne => simp at h
    | lt | le | gt | ge => exact contains_of_atPlace h
  · exact contains_of_atPlace h

theorem ofComparison_ofRat (op : ComparisonOp) (t : IntegerType) (q : ℚ) :
    ofComparison op t (.ofRat q) = ofFinite op t (.ofRat q) := by
  rcases Decoded.ofRat_cases q with ⟨-, h⟩ | ⟨-, h⟩
  all_goals rw [h]; rfl

theorem evaluate_ofComparison (op : ComparisonOp) {t : IntegerType} (v : ExactValue) {n : Int}
    (hn : t.contains n = true) (kept : Int → Bool) :
    (ofComparison op t (.ofExact v)).evaluate (some n) kept =
      some ((compareInt n (.ofExact v)).satisfies op) := by
  match v with
  | .nan => rfl
  | .number ⊥ => rfl
  | .number (some ⊤) => rfl
  | .number (some (some q)) =>
    show (ofComparison op t (.ofRat q)).evaluate _ _ = some ((compareInt n (.ofRat q)).satisfies op)
    rw [ofComparison_ofRat, evaluate_ofFinite op q hn,
      compareInt_ofRat (natAbs_le_of_contains hn)]
    rfl

/-! ## The theorem -/

/-- **Reductions keep their meaning.** The comparison of a column with a constant is
never left as it is, a native bound is in the range of the column's type, and every
value of the type gets the answer of the comparison. -/
theorem reduction_keeps_answers (op : ComparisonOp) (t : IntegerType) (v : Inexact) :
    ofComparison op t v.decode ≠ .unchanged ∧
    (∀ op' bound, ofComparison op t v.decode = .native op' bound → t.contains bound = true) ∧
    ∀ n, t.contains n = true → ∀ kept, (ofComparison op t v.decode).evaluate (some n) kept =
      some ((compareInt n v.decode).satisfies op) := by
  refine ⟨?_, ?_, fun n hn kept => ?_⟩
  · cases v.decode with
    | special s => cases s <;> exact nofun
    | finite s part fraction => exact ofFinite_ne_unchanged op t _
  · intro op' bound h
    cases hd : v.decode with
    | special s => rw [hd] at h; cases s <;> simp [ofComparison] at h
    | finite s part fraction => rw [hd] at h; exact contains_of_ofFinite h
  · rw [v.decode_eq_ofExact]
    exact evaluate_ofComparison op _ hn kept

theorem reduction_keeps_answers_below_minimum :
    let d := (Inexact.numeric .halfBelowMinimum).decode
    let n : Int := -9223372036854775808
    IntegerType.int8.contains n = true ∧
      ∀ kept, (ofComparison .lt .int8 d).evaluate (some n) kept =
        some ((compareInt n d).satisfies .lt) :=
  ⟨rfl, (reduction_keeps_answers .lt .int8 (.numeric .halfBelowMinimum)).2.2 _ rfl⟩

end Reduction

end ExactCompare
