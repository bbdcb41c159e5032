import ExactCompare.Proofs.Exact.RoundsTo

/-!
# The shortest decimal

The decimal that a float is written as is one of the rationals that round to the float, and its
digits fit into 64 bits.
-/

namespace ExactCompare.Binary

-- Powers are those that `Nat` and `Int` come with.
attribute [local instance (2000)] instPowNat

/-! ## One grid -/

theorem contains_iff {r : RoundingInterval} {num den : ℕ} (hden : 0 < den) (c : ℕ) :
    r.contains num den c = true ↔ r.Holds (c * (num / den)) := by
  have hd : (0 : ℚ) < den := by exact_mod_cast hden
  have hle (a : ℕ) : a * den ≤ c * num ↔ (a : ℚ) ≤ c * (num / den) := by
    rw [← mul_div_assoc, le_div_iff₀ hd]
    exact_mod_cast Iff.rfl
  have hge (a : ℕ) : c * num ≤ a * den ↔ (c : ℚ) * (num / den) ≤ a := by
    rw [← mul_div_assoc, div_le_iff₀ hd]
    exact_mod_cast Iff.rfl
  unfold RoundingInterval.contains RoundingInterval.Holds
  split
  · rw [Bool.and_eq_true, decide_eq_true_iff, decide_eq_true_iff, hle, hge]
  · rw [Bool.and_eq_true, decide_eq_true_iff, decide_eq_true_iff, ← not_le, ← not_le, hle, hge,
      not_le, not_le]

theorem zpow_eq_toNat (a : ℚ) (k : ℤ) : a ^ k.toNat / a ^ (-k).toNat = a ^ k := by
  rcases le_total 0 k with h | h
  · obtain ⟨k, rfl⟩ := Int.eq_ofNat_of_zero_le h
    simp
  · obtain ⟨k, rfl⟩ : ∃ n : ℕ, k = -n := ⟨(-k).toNat, by omega⟩
    simp

theorem gridStep_pos (grid exponent : ℤ) :
    0 < (gridStep grid exponent).1 ∧ 0 < (gridStep grid exponent).2 := by
  unfold gridStep
  exact ⟨Nat.mul_pos (Nat.pow_pos (by decide)) (Nat.pow_pos (by decide)),
    Nat.mul_pos (Nat.pow_pos (by decide)) (Nat.pow_pos (by decide))⟩

theorem gridStep_quotient (grid exponent : ℤ) :
    ((gridStep grid exponent).1 : ℚ) / (gridStep grid exponent).2 =
      10 ^ grid / 2 ^ (exponent - 2) := by
  have hten := zpow_eq_toNat 10 grid
  have htwo := zpow_eq_toNat 2 (exponent - 2)
  unfold gridStep
  rw [← hten, ← htwo]
  push_cast
  field_simp

variable {r : RoundingInterval} {num den c : ℕ}

theorem contains_of_onGrid? (h : r.onGrid? num den = some c) : r.contains num den c = true := by
  unfold RoundingInterval.onGrid? at h
  dsimp only at h
  split at h
  · cases h
  · rename_i hbelow _
    cases h
    exact hbelow
  · rename_i _ habove
    cases h
    exact habove
  · rename_i hbelow habove
    split at h
    · cases h
      exact hbelow
    split at h
    · cases h
      exact habove
    · cases h
      rcases Nat.mod_two_eq_zero_or_one (r.value * den / num) with hparity | hparity
      · rw [hparity]
        exact hbelow
      · rw [hparity]
        exact habove

theorem not_contains_of_onGrid? (h : r.onGrid? num den = none) :
    r.contains num den (r.value * den / num) = false ∧
      r.contains num den (r.value * den / num + 1) = false := by
  unfold RoundingInterval.onGrid? at h
  dsimp only at h
  split at h
  · rename_i hbelow habove
    exact ⟨hbelow, habove⟩
  · cases h
  · cases h
  · split at h
    · cases h
    split at h <;> cases h

/-! ## The grids in a row -/

theorem searchGrids_spec {exponent last : ℤ}
    (hlast : ∃ c, r.onGrid? (gridStep last exponent).1 (gridStep last exponent).2 = some c)
    {tries : ℕ} {grid : ℤ} (hle : last ≤ grid) (htries : grid - last < tries) :
    ∃ c g, searchGrids r exponent tries grid = (c, g) ∧ last ≤ g ∧ g ≤ grid ∧
      r.onGrid? (gridStep g exponent).1 (gridStep g exponent).2 = some c ∧
      (g = grid ∨
        r.onGrid? (gridStep (g + 1) exponent).1 (gridStep (g + 1) exponent).2 = none) := by
  induction tries generalizing grid with
  | zero => omega
  | succ tries ih =>
    rw [searchGrids]
    dsimp only
    cases hgrid : r.onGrid? (gridStep grid exponent).1 (gridStep grid exponent).2 with
    | some c => exact ⟨c, grid, rfl, hle, le_rfl, hgrid, .inl rfl⟩
    | none =>
      have hne : last ≠ grid := by
        rintro rfl
        obtain ⟨c, hc⟩ := hlast
        rw [hgrid] at hc
        cases hc
      obtain ⟨c, g, hsearch, hlow, hhigh, hc, hcoarser⟩ :=
        ih (by omega) (by omega : grid - 1 - last < tries)
      refine ⟨c, g, hsearch, hlow, by omega, hc, .inr ?_⟩
      rcases hcoarser with rfl | hcoarser
      · rwa [Int.sub_add_cancel]
      · exact hcoarser

/-! ## The finest grid -/

section Float

variable {f : BinaryFormat} {mantissa : ℕ} {exponent : ℤ}

theorem value_interval (f : BinaryFormat) (mantissa : ℕ) (exponent : ℤ) :
    (interval f mantissa exponent).value = 4 * mantissa := rfl

theorem exists_onGrid? (hpos : 0 < mantissa) :
    ∃ c, (interval f mantissa exponent).onGrid? (gridStep (min exponent 0) exponent).1
      (gridStep (min exponent 0) exponent).2 = some c := by
  obtain ⟨hnum, hden⟩ := gridStep_pos (min exponent 0) exponent
  have hstep := gridStep_quotient (min exponent 0) exponent
  obtain ⟨z, hz⟩ : ∃ z : ℕ, (z : ℚ) * (10 ^ min exponent 0 / 2 ^ (exponent - 2)) =
      4 * mantissa := by
    rcases le_total 0 exponent with h | h
    · obtain ⟨k, rfl⟩ := Int.eq_ofNat_of_zero_le h
      refine ⟨mantissa * 2 ^ k, ?_⟩
      rw [min_eq_right h, zpow_sub₀ (by norm_num)]
      push_cast
      field_simp
      norm_num
    · obtain ⟨k, rfl⟩ : ∃ k : ℕ, exponent = -k := ⟨(-exponent).toNat, by omega⟩
      refine ⟨mantissa * 5 ^ k, ?_⟩
      rw [min_eq_left h, zpow_sub₀ (by norm_num), zpow_neg, zpow_neg, zpow_natCast, zpow_natCast,
        (by norm_num : (10 : ℚ) = 2 * 5), mul_pow]
      push_cast
      field_simp
  cases hgrid : (interval f mantissa exponent).onGrid? (gridStep (min exponent 0) exponent).1
      (gridStep (min exponent 0) exponent).2 with
  | some c => exact ⟨c, rfl⟩
  | none =>
    exfalso
    have hout := (not_contains_of_onGrid? hgrid).1
    have hbelow : (interval f mantissa exponent).value * (gridStep (min exponent 0) exponent).2 /
        (gridStep (min exponent 0) exponent).1 = z := by
      refine Nat.div_eq_of_eq_mul_left hnum ?_
      rw [← hstep, ← mul_div_assoc, div_eq_iff (by exact_mod_cast hden.ne')] at hz
      rw [value_interval]
      exact_mod_cast hz.symm
    rw [hbelow] at hout
    have hin := (contains_iff (r := interval f mantissa exponent) hden z).mpr (by
      rw [hstep, hz]
      exact holds_of_value_le hpos le_rfl (by linarith))
    rw [hout] at hin
    cases hin

/-! ## The coarsest grid -/

theorem two_zpow_le_ten_zpow {A B : ℕ} (hlow : 2 ^ A ≤ 10 ^ B) (hhigh : 10 ^ B ≤ 2 * 2 ^ A)
    (hA : A ≠ 0) {bits grid : ℤ} (hgrid : B * bits ≤ A * grid) (hbits : -A ≤ bits) :
    (2 : ℚ) ^ (bits - 1) ≤ 10 ^ grid := by
  have hlow' : (2 : ℚ) ^ A ≤ 10 ^ B := by exact_mod_cast hlow
  have hhigh' : (10 : ℚ) ^ B ≤ 2 ^ (A + 1) := by
    rw [pow_succ']
    exact_mod_cast hhigh
  refine le_of_pow_le_pow_left₀ hA (by positivity) ?_
  have hpower (x : ℚ) (y : ℤ) : (x ^ y) ^ A = x ^ (A * y) := by
    rw [← zpow_natCast, ← zpow_mul, mul_comm]
  rw [hpower, hpower]
  refine le_trans ?_ (zpow_le_zpow_right₀ (by norm_num) hgrid)
  rcases le_total 0 bits with h | h
  · obtain ⟨k, rfl⟩ := Int.eq_ofNat_of_zero_le h
    calc (2 : ℚ) ^ (A * (k - 1) : ℤ)
        ≤ 2 ^ (A * k : ℤ) := zpow_le_zpow_right₀ (by norm_num) (by gcongr; omega)
      _ = (2 ^ A) ^ k := by rw [zpow_mul, zpow_natCast, zpow_natCast]
      _ ≤ (10 ^ B) ^ k := by gcongr
      _ = 10 ^ (B * k : ℤ) := by rw [zpow_mul, zpow_natCast, zpow_natCast]
  · obtain ⟨k, rfl⟩ : ∃ k : ℕ, bits = -k := ⟨(-bits).toNat, by omega⟩
    calc (2 : ℚ) ^ (A * (-k - 1) : ℤ)
        ≤ 2 ^ (((A + 1 : ℕ) : ℤ) * -k) := by
          refine zpow_le_zpow_right₀ (by norm_num) ?_
          push_cast
          linarith
      _ = ((2 ^ (A + 1)) ^ k)⁻¹ := by rw [zpow_mul, zpow_natCast, zpow_neg, zpow_natCast]
      _ ≤ ((10 ^ B) ^ k)⁻¹ := by gcongr
      _ = 10 ^ (B * -k : ℤ) := by rw [zpow_mul, zpow_natCast, zpow_neg, zpow_natCast]

theorem two_zpow_le_coarsest {bits : ℤ} (hbits : -100000 ≤ bits) :
    (2 : ℚ) ^ (bits - 1) ≤ 10 ^ coarsestGrid bits := by
  refine two_zpow_le_ten_zpow (A := 100000) (B := 30103) (by decide +kernel) (by decide +kernel)
    (by decide) ?_ hbits
  rw [coarsestGrid, Int.fdiv_eq_ediv_of_nonneg _ (by decide)]
  push_cast
  omega

theorem min_le_coarsest {exponent : ℤ} {bits : ℤ} (h : exponent + 1 ≤ bits) :
    min exponent 0 ≤ coarsestGrid bits := by
  rw [coarsestGrid, Int.fdiv_eq_ediv_of_nonneg _ (by decide)]
  omega

/-! ## The shortest decimal -/

theorem two_le_of_onGrid?_none (hpos : 0 < mantissa) {grid : ℤ}
    (h : (interval f mantissa exponent).onGrid? (gridStep grid exponent).1
      (gridStep grid exponent).2 = none) : (2 : ℚ) ≤ 10 ^ grid / 2 ^ (exponent - 2) := by
  obtain ⟨hnum, hden⟩ := gridStep_pos grid exponent
  have hstep := gridStep_quotient grid exponent
  have habove := (not_contains_of_onGrid? h).2
  rw [value_interval] at habove
  have hfloor := Nat.div_mul_le_self (4 * mantissa * (gridStep grid exponent).2)
    (gridStep grid exponent).1
  have hnext := Nat.lt_div_mul_add hnum (a := 4 * mantissa * (gridStep grid exponent).2)
  generalize 4 * mantissa * (gridStep grid exponent).2 / (gridStep grid exponent).1 = below
    at habove hfloor hnext
  generalize (gridStep grid exponent).1 = num at hstep hnum habove hfloor hnext
  generalize (gridStep grid exponent).2 = den at hstep hden habove hfloor hnext
  have hd : (0 : ℚ) < den := by exact_mod_cast hden
  have hbelow : (below : ℚ) * (num / den) ≤ 4 * mantissa := by
    rw [← mul_div_assoc, div_le_iff₀ hd]
    exact_mod_cast hfloor
  have hover : (4 : ℚ) * mantissa ≤ (below + 1 : ℕ) * (num / den) := by
    rw [← mul_div_assoc, le_div_iff₀ hd]
    rw [← Nat.succ_mul] at hnext
    exact_mod_cast hnext.le
  rw [← hstep]
  by_contra hshort
  have hunder : ((below + 1 : ℕ) : ℚ) * (num / den) < 4 * mantissa + 2 := by
    push_cast
    linarith
  have hin := (contains_iff (r := interval f mantissa exponent) hden (below + 1)).mpr
    (holds_of_value_le hpos hover hunder)
  rw [habove] at hin
  cases hin

/-- What the shortest decimal of a float is found to be. -/
structure IsDecimalOf (f : BinaryFormat) (mantissa : ℕ) (exponent : ℤ) (c : ℕ) (grid : ℤ) : Prop
    where
  rounds : RoundsTo f mantissa exponent (c * 10 ^ grid)
  pos : 0 < c
  le : c ≤ 20 * mantissa + 10
  grid_ge : min exponent 0 ≤ grid
  grid_le : grid ≤ coarsestGrid (mantissa.log2 + 1 + exponent)

theorem isDecimalOf_shortest (hpos : 0 < mantissa) (hmin : -100000 ≤ exponent) :
    IsDecimalOf f mantissa exponent (shortestDecimal f mantissa exponent).1
      (shortestDecimal f mantissa exponent).2 := by
  have hcoarsest := min_le_coarsest (by omega : exponent + 1 ≤ mantissa.log2 + 1 + exponent)
  have hfinest : ∃ c, (interval f mantissa exponent).onGrid? (gridStep (min exponent 0) exponent).1
      (gridStep (min exponent 0) exponent).2 = some c := exists_onGrid? hpos
  have htries : coarsestGrid (mantissa.log2 + 1 + exponent) - min exponent 0 <
      (coarsestGrid (mantissa.log2 + 1 + exponent) - min exponent 0 + 1).toNat := by omega
  obtain ⟨c, grid, hsearch, hge, hle, hc, hcoarser⟩ := searchGrids_spec hfinest hcoarsest htries
  have hshortest : shortestDecimal f mantissa exponent = (c, grid) := hsearch
  have hholds := (contains_iff (gridStep_pos grid exponent).2 c).mp (contains_of_onGrid? hc)
  rw [gridStep_quotient] at hholds
  rw [hshortest]
  -- The coarser grid has no number inside, or the step is longer than the float is large.
  have hstep : (1 : ℚ) / 5 ≤ 10 ^ grid / 2 ^ (exponent - 2) := by
    rcases hcoarser with rfl | hnone
    · have hlarge := two_zpow_le_coarsest (by omega : -100000 ≤ mantissa.log2 + 1 + exponent)
      rw [le_div_iff₀ (by positivity)]
      refine le_trans ?_ hlarge
      have hone : (2 : ℚ) ^ (exponent - 2) ≤ 2 ^ (mantissa.log2 + 1 + exponent - 1 : ℤ) :=
        zpow_le_zpow_right₀ (by norm_num) (by omega)
      have hunit : (0 : ℚ) < 2 ^ (exponent - 2) := by positivity
      linarith
    · have hlong := two_le_of_onGrid?_none hpos hnone
      rw [zpow_add_one₀ (by norm_num), mul_div_right_comm] at hlong
      linarith
  obtain ⟨hlow, hhigh, -⟩ := hholds.bounds
  rw [high_interval] at hhigh
  push_cast at hhigh
  constructor
  case rounds =>
    rw [RoundsTo, mul_div_assoc]
    exact hholds
  case pos =>
    refine Nat.pos_of_ne_zero ?_
    rintro rfl
    rw [Nat.cast_zero, zero_mul] at hlow
    have hone : (1 : ℚ) ≤ mantissa := by exact_mod_cast hpos
    rcases low_interval_cases f hpos exponent with ⟨-, hend⟩ | ⟨-, hend⟩
    · linarith
    · linarith
  case le =>
    have hfew : (c : ℚ) * (1 / 5) ≤ 4 * mantissa + 2 := by
      refine le_trans ?_ hhigh
      gcongr
    have hfew' : (c : ℚ) ≤ 20 * mantissa + 10 := by linarith
    exact_mod_cast hfew'
  case grid_ge => exact hge
  case grid_le => exact hle

end Float

end ExactCompare.Binary
