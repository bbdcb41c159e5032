import ExactCompare.Binary.Shortest
import ExactCompare.Proofs.Exact.Nearest

/-!
# The rationals that round to a float

Every rational in the interval around a float has this float as its nearest one. Just below a power
of two rounding finds the exponent of the float below, and still comes up to the power.
-/

namespace ExactCompare.Binary

-- Powers are those that `Nat` and `Int` come with.
attribute [local instance (2000)] instPowNat

/-! ## The rationals that round to a float -/

/-- A rational in the interval, in quarters of the last bit. -/
def RoundingInterval.Holds (r : RoundingInterval) (x : ℚ) : Prop :=
  if r.closed then r.low ≤ x ∧ x ≤ r.high else r.low < x ∧ x < r.high

theorem RoundingInterval.holds_of_lt {r : RoundingInterval} {x : ℚ} (hlow : r.low < x)
    (hhigh : x < r.high) : r.Holds x := by
  unfold Holds
  split
  · exact ⟨hlow.le, hhigh.le⟩
  · exact ⟨hlow, hhigh⟩

theorem RoundingInterval.Holds.bounds {r : RoundingInterval} {x : ℚ} (h : r.Holds x) :
    r.low ≤ x ∧ x ≤ r.high ∧ (x = r.low ∨ x = r.high → r.closed = true) := by
  unfold Holds at h
  split at h
  case isTrue hclosed => exact ⟨h.1, h.2, fun _ => hclosed⟩
  case isFalse =>
    refine ⟨h.1.le, h.2.le, ?_⟩
    rintro (rfl | rfl)
    · exact absurd h.1 (lt_irrefl _)
    · exact absurd h.2 (lt_irrefl _)

/-- The interval of a float. The gap below a power of two is half as wide, but for the smallest. -/
def interval (f : BinaryFormat) (mantissa : ℕ) (exponent : ℤ) : RoundingInterval :=
  .ofMantissa mantissa (mantissa == 2 ^ f.fractionBits && f.minExponent < exponent)

/-- The rational rounds to `mantissa * 2 ^ exponent`. -/
def RoundsTo (f : BinaryFormat) (mantissa : ℕ) (exponent : ℤ) (q : ℚ) : Prop :=
  (interval f mantissa exponent).Holds (q / 2 ^ (exponent - 2))

section Interval

variable {mantissa : ℕ}

theorem high_interval (f : BinaryFormat) (mantissa : ℕ) (exponent : ℤ) :
    (interval f mantissa exponent).high = 4 * mantissa + 2 := rfl

theorem closed_interval_iff (f : BinaryFormat) (mantissa : ℕ) (exponent : ℤ) :
    (interval f mantissa exponent).closed = true ↔ mantissa % 2 = 0 := by
  simp [interval, RoundingInterval.ofMantissa]

theorem low_interval_cases (f : BinaryFormat) (hpos : 0 < mantissa) (exponent : ℤ) :
    (mantissa = 2 ^ f.fractionBits ∧ f.minExponent < exponent) ∧
      ((interval f mantissa exponent).low : ℚ) = 4 * mantissa - 1 ∨
    ¬ (mantissa = 2 ^ f.fractionBits ∧ f.minExponent < exponent) ∧
      ((interval f mantissa exponent).low : ℚ) = 4 * mantissa - 2 := by
  simp only [interval, RoundingInterval.ofMantissa, Bool.and_eq_true, beq_iff_eq,
    decide_eq_true_eq]
  split
  case isTrue hnarrow =>
    refine .inl ⟨hnarrow, ?_⟩
    push_cast [Nat.cast_sub (by omega : 1 ≤ 4 * mantissa)]
    rfl
  case isFalse hwide =>
    refine .inr ⟨hwide, ?_⟩
    push_cast [Nat.cast_sub (by omega : 2 ≤ 4 * mantissa)]
    rfl

theorem low_interval_lt (f : BinaryFormat) (hpos : 0 < mantissa) (exponent : ℤ) :
    ((interval f mantissa exponent).low : ℚ) < 4 * mantissa := by
  rcases low_interval_cases f hpos exponent with ⟨-, hlow⟩ | ⟨-, hlow⟩ <;> linarith

theorem holds_of_value_le {f : BinaryFormat} {exponent : ℤ} (hpos : 0 < mantissa) {x : ℚ}
    (hlow : 4 * mantissa ≤ x) (hhigh : x < 4 * mantissa + 2) :
    (interval f mantissa exponent).Holds x := by
  refine RoundingInterval.holds_of_lt ((low_interval_lt f hpos exponent).trans_le hlow) ?_
  rw [high_interval]
  push_cast
  exact hhigh

theorem div_quarter (q : ℚ) (exponent : ℤ) : q / 2 ^ (exponent - 2) = 4 * (q / 2 ^ exponent) := by
  rw [zpow_sub₀ (by norm_num)]
  field_simp
  norm_num

end Interval

/-! ## Rounding -/

theorem roundQuotient_of_near {n d m : ℕ} (hlow : 2 * (d * m) ≤ 2 * n + d)
    (hhigh : 2 * n ≤ 2 * (d * m) + d)
    (heven : 2 * (d * m) = 2 * n + d ∨ 2 * n = 2 * (d * m) + d → m % 2 = 0) (hd : 0 < d) :
    roundQuotient n d = m := by
  have hn := Nat.div_add_mod n d
  have hrest := Nat.mod_lt n hd
  unfold roundQuotient
  generalize n / d = low at hn ⊢
  generalize n % d = rest at hn hrest ⊢
  dsimp only
  rcases Nat.lt_trichotomy low m with hlt | rfl | hgt
  · -- The quotient is just below the integer.
    obtain rfl : m = low + 1 := by
      by_contra hne
      have hfar := Nat.mul_le_mul_left d (by omega : low + 2 ≤ m)
      rw [Nat.mul_add] at hfar
      omega
    rw [Nat.mul_add] at hlow hhigh heven
    split
    · omega
    split
    · rfl
    · have := heven (by omega)
      omega
  · split
    · rfl
    split
    · omega
    · have := heven (by omega)
      omega
  · have hfar := Nat.mul_le_mul_left d (by omega : m + 1 ≤ low)
    rw [Nat.mul_add] at hfar
    omega

theorem roundQuotient_of_bounds {n d m : ℕ} (hd : 0 < d) (hlow : (m : ℚ) - 1 / 2 ≤ n / d)
    (hhigh : (n : ℚ) / d ≤ m + 1 / 2)
    (heven : (n : ℚ) / d = m - 1 / 2 ∨ (n : ℚ) / d = m + 1 / 2 → m % 2 = 0) :
    roundQuotient n d = m := by
  have hd' : (0 : ℚ) < d := by exact_mod_cast hd
  rw [le_div_iff₀ hd'] at hlow
  rw [div_le_iff₀ hd'] at hhigh
  rw [div_eq_iff hd'.ne', div_eq_iff hd'.ne'] at heven
  have hlow' : (2 * (d * m) : ℚ) ≤ 2 * n + d := by linarith
  have hhigh' : (2 * n : ℚ) ≤ 2 * (d * m) + d := by linarith
  refine roundQuotient_of_near (by exact_mod_cast hlow') (by exact_mod_cast hhigh') ?_ hd
  intro hend
  apply heven
  rcases hend with hend | hend
  · have hend' : (2 * (d * m) : ℚ) = 2 * n + d := by exact_mod_cast hend
    exact .inl (by linarith)
  · have hend' : (2 * n : ℚ) = 2 * (d * m) + d := by exact_mod_cast hend
    exact .inr (by linarith)

section Nearest

variable {f : BinaryFormat} {mantissa : ℕ} {exponent : ℤ} {q : ℚ}

theorem RoundsTo.bounds (h : RoundsTo f mantissa exponent q) (hpos : 0 < mantissa) :
    (mantissa : ℚ) - 1 / 2 ≤ q / 2 ^ exponent ∧ q / 2 ^ exponent ≤ mantissa + 1 / 2 ∧
      (q / 2 ^ exponent = mantissa - 1 / 2 ∨ q / 2 ^ exponent = mantissa + 1 / 2 →
        mantissa % 2 = 0) ∧
      (mantissa = 2 ^ f.fractionBits → f.minExponent < exponent →
        (mantissa : ℚ) - 1 / 4 ≤ q / 2 ^ exponent) := by
  rw [RoundsTo, div_quarter] at h
  generalize q / 2 ^ exponent = y at h ⊢
  obtain ⟨hlow, hhigh, hclosed⟩ := h.bounds
  rw [closed_interval_iff] at hclosed
  rw [high_interval] at hhigh hclosed
  push_cast at hhigh hclosed
  rcases low_interval_cases f hpos exponent with ⟨-, hend⟩ | ⟨hwide, hend⟩
  · rw [hend] at hlow hclosed
    refine ⟨by linarith, by linarith, fun htie => hclosed ?_, fun _ _ => by linarith⟩
    rcases htie with htie | htie
    · linarith
    · exact .inr (by linarith)
  · rw [hend] at hlow hclosed
    refine ⟨by linarith, by linarith, fun htie => hclosed ?_, fun hm he => absurd ⟨hm, he⟩ hwide⟩
    rcases htie with htie | htie
    · exact .inl (by linarith)
    · exact .inr (by linarith)

theorem RoundsTo.exponent_eq (h : RoundsTo f mantissa exponent q) (hpos : 0 < mantissa)
    (hq : 0 < q) (hmin : f.minExponent ≤ exponent) (hlt : mantissa < 2 ^ (f.fractionBits + 1))
    (habove : 2 ^ (f.fractionBits + exponent) ≤ q ∨ exponent = f.minExponent) :
    max f.minExponent (Int.log 2 q - f.fractionBits) = exponent := by
  obtain ⟨-, hhigh, -⟩ := h.bounds hpos
  have hlt' : (mantissa : ℚ) + 1 ≤ 2 ^ (f.fractionBits + 1) := by exact_mod_cast hlt
  have hlog : Int.log 2 q < f.fractionBits + 1 + exponent := by
    rw [← lt_two_zpow_iff hq, zpow_add₀ (by norm_num), ← div_lt_iff₀ (by positivity)]
    have hpow : (2 : ℚ) ^ (f.fractionBits + 1 : ℤ) = 2 ^ (f.fractionBits + 1) := by
      exact_mod_cast zpow_natCast (2 : ℚ) (f.fractionBits + 1)
    linarith
  rcases habove with hlow | rfl
  · rw [two_zpow_le_iff hq] at hlow
    omega
  · omega

theorem RoundsTo.below (h : RoundsTo f mantissa exponent q) (hpos : 0 < mantissa) (hq : 0 < q)
    (hnormal : 2 ^ f.fractionBits ≤ mantissa) (hmin : f.minExponent < exponent)
    (hbelow : q < 2 ^ (f.fractionBits + exponent)) :
    mantissa = 2 ^ f.fractionBits ∧ q / 2 ^ exponent < mantissa ∧
      max f.minExponent (Int.log 2 q - f.fractionBits) = exponent - 1 := by
  obtain ⟨hlow, -, -, hnarrow⟩ := h.bounds hpos
  have hunit : (0 : ℚ) < 2 ^ exponent := by positivity
  have hlt : q / 2 ^ exponent < 2 ^ f.fractionBits := by
    rw [div_lt_iff₀ hunit, ← zpow_natCast, ← zpow_add₀ (by norm_num)]
    exact hbelow
  have hm : mantissa = 2 ^ f.fractionBits := by
    refine le_antisymm (Nat.le_of_lt_succ ?_) hnormal
    have hlt' : (mantissa : ℚ) < 2 ^ f.fractionBits + 1 := by linarith
    exact_mod_cast hlt'
  have hm' : (mantissa : ℚ) = 2 ^ f.fractionBits := by exact_mod_cast hm
  refine ⟨hm, hm'.symm ▸ hlt, ?_⟩
  have hhalf : (2 : ℚ) ^ (f.fractionBits + exponent - 1) ≤ q := by
    have hpow : (1 : ℚ) ≤ 2 ^ f.fractionBits := one_le_pow₀ (by norm_num)
    have hsplit : (2 : ℚ) ^ (f.fractionBits + exponent - 1) =
        2 ^ f.fractionBits / 2 * 2 ^ exponent := by
      rw [zpow_sub₀ (by norm_num), zpow_add₀ (by norm_num), zpow_natCast]
      ring
    rw [hsplit, ← le_div_iff₀ hunit]
    linarith
  rw [two_zpow_le_iff hq] at hhalf
  rw [lt_two_zpow_iff hq] at hbelow
  omega

variable {num den : ℕ}

theorem RoundsTo.roundQuotient_eq (h : RoundsTo f mantissa exponent (num / den))
    (hpos : 0 < mantissa) (hden : 0 < den) :
    roundQuotient (scaleDown num den exponent).1 (scaleDown num den exponent).2 = mantissa := by
  obtain ⟨hlow, hhigh, heven, -⟩ := h.bounds hpos
  have hscaled := scaleDown_quotient num den exponent
  refine roundQuotient_of_bounds (scaleDown_den_pos _ hden _) ?_ ?_ ?_
  · rwa [hscaled]
  · rwa [hscaled]
  · rwa [hscaled]

theorem RoundsTo.roundQuotient_below (h : RoundsTo f mantissa exponent (num / den))
    (hpos : 0 < mantissa) (hden : 0 < den) (hm : mantissa = 2 ^ f.fractionBits)
    (hmin : f.minExponent < exponent) (hunder : (num / den / 2 ^ exponent : ℚ) < mantissa) :
    roundQuotient (scaleDown num den (exponent - 1)).1 (scaleDown num den (exponent - 1)).2 =
      2 * mantissa := by
  obtain ⟨-, -, -, hnarrow⟩ := h.bounds hpos
  have hquarter := hnarrow hm hmin
  have hscaled := scaleDown_quotient num den (exponent - 1)
  have hdouble : (num / den / 2 ^ (exponent - 1) : ℚ) = 2 * (num / den / 2 ^ exponent) := by
    rw [zpow_sub₀ (by norm_num)]
    field_simp
  refine roundQuotient_of_bounds (scaleDown_den_pos _ hden _) ?_ ?_ fun _ => by omega
  · rw [hscaled, hdouble]
    push_cast
    linarith
  · rw [hscaled, hdouble]
    push_cast
    linarith

/-- **What rounds to a float has it as its nearest float.** -/
theorem nearest_of_roundsTo {b : Binary f} {negative : Bool}
    (hb : b.view = .finite negative mantissa exponent) (hpos : 0 < mantissa) (hden : 0 < den)
    (h : RoundsTo f mantissa exponent (num / den)) : nearest f negative num den = b := by
  obtain ⟨hmin, hlt, hnormal, hfinite, hbits⟩ := finite_parts hb
  obtain ⟨hlow, -⟩ := h.bounds hpos
  have hunit : (0 : ℚ) < 2 ^ exponent := by positivity
  have hq : (0 : ℚ) < num / den := by
    have hm : (1 : ℚ) ≤ mantissa := by exact_mod_cast hpos
    have hscaled : (0 : ℚ) < num / den / 2 ^ exponent := by linarith
    exact (div_pos_iff_of_pos_right hunit).mp hscaled
  have hnum : num ≠ 0 := by
    rintro rfl
    simp at hq
  have hmagnitude : nearestBits f num den =
      (exponent - f.minExponent).toNat * 2 ^ f.fractionBits + mantissa := by
    unfold nearestBits
    simp only [quotientLog2_eq_log hnum hden.ne']
    by_cases hbelow : (num / den : ℚ) < 2 ^ (f.fractionBits + exponent) ∧ f.minExponent < exponent
    · obtain ⟨hm, hunder, hplace⟩ := h.below hpos hq (by omega) hbelow.2 hbelow.1
      rw [hplace, h.roundQuotient_below hpos hden hm hbelow.2 hunder]
      obtain ⟨k, hk⟩ : ∃ k : ℕ, exponent - f.minExponent = k + 1 :=
        ⟨(exponent - f.minExponent - 1).toNat, by omega⟩
      have hk' : exponent - 1 - f.minExponent = k := by omega
      have hnext : ((k : ℤ) + 1).toNat = k + 1 := by omega
      rw [hk, hk', hnext, Int.toNat_natCast, hm]
      ring
    · have habove : 2 ^ (f.fractionBits + exponent) ≤ (num / den : ℚ) ∨
          exponent = f.minExponent := by
        rcases not_and_or.mp hbelow with hge | hle
        · exact .inl (not_lt.mp hge)
        · exact .inr (le_antisymm (not_lt.mp hle) hmin)
      rw [h.exponent_eq hpos hq hmin hlt habove, h.roundQuotient_eq hpos hden]
  apply eq_of_bits_eq
  simp only [nearest, ofMagnitude, if_neg hnum, hmagnitude, Nat.add_zero,
    Nat.min_eq_left hfinite, hbits]

end Nearest

end ExactCompare.Binary
