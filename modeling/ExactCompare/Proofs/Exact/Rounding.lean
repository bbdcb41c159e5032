import ExactCompare.Proofs.Exact.Compare

/-!
# Rounding a decoded value

The floor, the ceiling and the exact integer of a decoded rational are those of the
rational, unless it is too far from zero. Then there are none.
-/

namespace ExactCompare

/-- A rational whose integer part is kept. -/
def IsNear (q : ℚ) : Prop := ⌊|q|⌋₊ ≤ Decoded.maxMagnitude

instance (q : ℚ) : Decidable (IsNear q) := inferInstanceAs (Decidable (_ ≤ _))

theorem fract_abs_eq_zero_iff (q : ℚ) : Int.fract |q| = 0 ↔ Int.fract q = 0 := by
  rcases le_total 0 q with h | h
  · rw [abs_of_nonneg h]
  · rw [abs_of_nonpos h, Int.fract_neg_eq_zero]

namespace Decoded

theorem ofRat_cases (q : ℚ) :
    q = 0 ∧ ofRat q = zero ∨
    q ≠ 0 ∧ ofRat q = finite (if q < 0 then .negative else .positive)
      (if IsNear q then .finite ⌊|q|⌋₊ else .overflow) (Int.fract q ≠ 0) := by
  by_cases hq : q = 0
  · subst hq
    exact .inl ⟨rfl, by simp [ofRat, ofParts_zero]⟩
  · refine .inr ⟨hq, ?_⟩
    have hparts : ¬ (⌊|q|⌋₊ = 0 ∧ Int.fract q = 0) := by
      rintro ⟨hfloor, hfract⟩
      rw [← fract_abs_eq_zero_iff, Int.fract_eq_iff] at hfract
      obtain ⟨-, -, z, hz⟩ := hfract
      rw [sub_zero] at hz
      have hlt : |q| < 1 := Nat.floor_eq_zero.mp hfloor
      have hpos : 0 < |q| := abs_pos.mpr hq
      rw [hz] at hlt hpos
      have : z < 1 := by exact_mod_cast hlt
      have : 0 < z := by exact_mod_cast hpos
      omega
    have hnot : (decide (⌊|q|⌋₊ = 0) && !decide (Int.fract q ≠ 0)) = false := by simpa using hparts
    simp only [ofRat, ofParts, ne_eq, fract_abs_eq_zero_iff] at hnot ⊢
    rw [hnot, if_neg Bool.false_ne_true]
    simp only [decide_eq_true_eq]
    rfl

theorem sign_ofRat (q : ℚ) : (ofRat q).sign = .negative ↔ q < 0 := by
  rcases ofRat_cases q with ⟨rfl, h⟩ | ⟨-, h⟩
  · simp [h, zero, sign]
  · by_cases hq : q < 0 <;> simp [h, sign, hq]

theorem hasFraction_ofRat (q : ℚ) : (ofRat q).hasFraction = decide (Int.fract q ≠ 0) := by
  rcases ofRat_cases q with ⟨rfl, h⟩ | ⟨-, h⟩
  · simp [h, zero, hasFraction]
  · rw [h, hasFraction]

theorem truncated?_ofRat (q : ℚ) :
    (ofRat q).truncated? = if IsNear q then some (if q < 0 then ⌈q⌉ else ⌊q⌋) else none := by
  rcases ofRat_cases q with ⟨rfl, h⟩ | ⟨-, h⟩
  · simp [h, zero, truncated?, IsNear, Sign.toInt]
  · rw [h]
    by_cases hnear : IsNear q
    · by_cases hq : q < 0
      · have := Int.natCast_floor_eq_floor (abs_nonneg q)
        rw [abs_of_neg hq, Int.floor_neg] at this
        simp [truncated?, hnear, hq, Sign.toInt, abs_of_neg hq, this]
      · have := Int.natCast_floor_eq_floor (not_lt.mp hq)
        simp [truncated?, hnear, hq, Sign.toInt, abs_of_nonneg (not_lt.mp hq), this]
    · simp [truncated?, hnear]

theorem ceil_eq_floor_add_one {q : ℚ} (h : Int.fract q ≠ 0) : ⌈q⌉ = ⌊q⌋ + 1 :=
  Int.ceil_eq_floor_add_one_iff_notMem q |>.mpr fun ⟨z, hz⟩ => h (by rw [← hz, Int.fract_intCast])

theorem ceil_eq_floor {q : ℚ} (h : Int.fract q = 0) : ⌈q⌉ = ⌊q⌋ := by
  have := Int.floor_add_fract q
  rw [h, add_zero] at this
  rw [← this, Int.ceil_intCast, Int.floor_intCast]

theorem floor?_ofRat (q : ℚ) : (ofRat q).floor? = if IsNear q then some ⌊q⌋ else none := by
  unfold floor?
  rw [truncated?_ofRat, hasFraction_ofRat]
  by_cases hnear : IsNear q
  · by_cases hq : q < 0
    · by_cases hfract : Int.fract q = 0
      · simp [hnear, hq, hfract, ceil_eq_floor hfract]
      · simp [hnear, hq, hfract, (sign_ofRat q).mpr hq, ceil_eq_floor_add_one hfract]
    · have : (ofRat q).sign ≠ .negative := mt (sign_ofRat q).mp hq
      simp [hnear, hq, this]
  · simp [hnear]

theorem sign_ofRat_positive (q : ℚ) : (ofRat q).sign = .positive ↔ 0 < q := by
  rcases ofRat_cases q with ⟨rfl, h⟩ | ⟨hne, h⟩
  · simp [h, zero, sign]
  · rcases lt_or_gt_of_ne hne with hq | hq
    · simp [h, sign, hq, hq.not_gt]
    · simp [h, sign, hq, hq.not_gt]

theorem ceil?_ofRat (q : ℚ) : (ofRat q).ceil? = if IsNear q then some ⌈q⌉ else none := by
  unfold ceil?
  rw [truncated?_ofRat, hasFraction_ofRat]
  by_cases hnear : IsNear q
  · by_cases hfract : Int.fract q = 0
    · by_cases hq : q < 0 <;> simp [hnear, hq, hfract, ceil_eq_floor hfract]
    · have hne : q ≠ 0 := by rintro rfl; exact hfract Int.fract_zero
      rcases lt_or_gt_of_ne hne with hq | hq
      · have : (ofRat q).sign ≠ .positive := mt (sign_ofRat_positive q).mp hq.not_gt
        simp [hnear, hq, this]
      · simp [hnear, hq.not_gt, hfract, (sign_ofRat_positive q).mpr hq,
          ceil_eq_floor_add_one hfract]
  · simp [hnear]

theorem exactInteger?_ofRat {q : ℚ} (h : Int.fract q = 0) :
    (ofRat q).exactInteger? = if IsNear q then some ⌊q⌋ else none := by
  unfold exactInteger?
  rw [hasFraction_ofRat, truncated?_ofRat]
  simp [h, ceil_eq_floor h]

end Decoded

theorem lt_of_not_isNear {q : ℚ} (h : ¬ IsNear q) {n : Int}
    (hn : n.natAbs ≤ Decoded.maxMagnitude) : if q < 0 then q < n else (n : ℚ) < q := by
  unfold IsNear at h
  have hfar : (n.natAbs : ℚ) + 1 ≤ |q| := by
    have := Nat.floor_le (abs_nonneg q)
    have hlt : n.natAbs + 1 ≤ ⌊|q|⌋₊ := by omega
    have : (n.natAbs : ℚ) + 1 ≤ ⌊|q|⌋₊ := by exact_mod_cast hlt
    linarith
  have habs : |(n : ℚ)| = n.natAbs := by rw [Nat.cast_natAbs]; push_cast; rfl
  have hbounds := abs_le.mp habs.le
  split
  · rename_i hq
    rw [abs_of_neg hq] at hfar
    linarith [hbounds.1]
  · rename_i hq
    rw [abs_of_nonneg (not_lt.mp hq)] at hfar
    linarith [hbounds.2]

end ExactCompare
