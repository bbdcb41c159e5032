import ExactCompare.Proofs.Exact.RoundsTo
import ExactCompare.Proofs.Exact.Widening

/-!
# Rounding twice

A rational that is rounded to a wide float and then to a narrow one ends at the narrow float that
it rounds to at once, if it is not too near to an end of the interval of this float.
-/

namespace ExactCompare.Binary

-- Powers are those that `Nat` and `Int` come with.
attribute [local instance (2000)] instPowNat

variable {f : BinaryFormat} {mantissa : ℕ} {exponent : ℤ} {q : ℚ}

/-! ## The nearest float of a rational -/

theorem exists_nearest_even {y : ℚ} (hy : 0 ≤ y) :
    ∃ n : ℕ, |n - y| ≤ 1 / 2 ∧ (|n - y| = 1 / 2 → n % 2 = 0) ∧ ⌊y⌋₊ ≤ n ∧ n ≤ ⌊y⌋₊ + 1 := by
  have hlow := Nat.floor_le hy
  have hhigh := Nat.lt_floor_add_one y
  generalize ⌊y⌋₊ = k at hlow hhigh ⊢
  have hbelow : |(k : ℚ) - y| = y - k := by rw [abs_sub_comm, abs_of_nonneg (by linarith)]
  have habove : |((k + 1 : ℕ) : ℚ) - y| = k + 1 - y := by
    push_cast
    exact abs_of_nonneg (by linarith)
  rcases lt_trichotomy (y - k) (1 / 2) with h | h | h
  · exact ⟨k, by linarith, fun htie => by linarith, le_rfl, Nat.le_succ k⟩
  · rcases Nat.mod_two_eq_zero_or_one k with hparity | hparity
    · exact ⟨k, by linarith, fun _ => hparity, le_rfl, Nat.le_succ k⟩
    · exact ⟨k + 1, by linarith, fun _ => by omega, Nat.le_succ k, le_rfl⟩
  · exact ⟨k + 1, by linarith, fun htie => by linarith, Nat.le_succ k, le_rfl⟩

theorem roundsTo_of_near (hf : f.fractionBits ≠ 0) (hpos : 0 < mantissa)
    (hnear : |mantissa - q / 2 ^ exponent| ≤ 1 / 2)
    (htie : |mantissa - q / 2 ^ exponent| = 1 / 2 → mantissa % 2 = 0)
    (hnarrow : mantissa = 2 ^ f.fractionBits → (mantissa : ℚ) - 1 / 4 ≤ q / 2 ^ exponent) :
    RoundsTo f mantissa exponent q := by
  rw [RoundsTo, div_quarter]
  generalize q / 2 ^ exponent = y at hnear htie hnarrow ⊢
  have hbounds := abs_le.mp hnear
  unfold RoundingInterval.Holds
  rw [high_interval]
  push_cast
  split
  case isTrue =>
    refine ⟨?_, by linarith⟩
    rcases low_interval_cases f hpos exponent with ⟨hm, hlow⟩ | ⟨-, hlow⟩
    · linarith [hnarrow hm.1]
    · linarith
  case isFalse hopen =>
    -- An odd mantissa is no power of two, and no tie goes to it.
    rw [closed_interval_iff] at hopen
    have hstrict := abs_lt.mp (lt_of_le_of_ne hnear fun h => hopen (htie h))
    refine ⟨?_, by linarith⟩
    rcases low_interval_cases f hpos exponent with ⟨hm, -⟩ | ⟨-, hlow⟩
    · refine absurd ?_ hopen
      rw [hm.1]
      exact Nat.mod_eq_zero_of_dvd (dvd_pow_self 2 hf)
    · linarith

theorem exists_nearest_mantissa {place : ℤ} (hq : 0 < q)
    (hplace : Int.log 2 q = place + f.fractionBits) :
    ∃ n : ℕ, 2 ^ f.fractionBits ≤ n ∧ n ≤ 2 ^ (f.fractionBits + 1) ∧
      (2 : ℚ) ^ f.fractionBits ≤ q / 2 ^ place ∧ |n - q / 2 ^ place| ≤ 1 / 2 ∧
      (|n - q / 2 ^ place| = 1 / 2 → n % 2 = 0) ∧
      |n * 2 ^ place - q| * 2 ^ (f.fractionBits + 1) ≤ q := by
  have hunit : (0 : ℚ) < 2 ^ place := by positivity
  have hsplit (k : ℕ) : (2 : ℚ) ^ (k + place) = 2 ^ k * 2 ^ place := by
    rw [zpow_add₀ (by norm_num), zpow_natCast]
  have hlow : (2 : ℚ) ^ f.fractionBits ≤ q / 2 ^ place := by
    rw [le_div_iff₀ hunit, ← hsplit, two_zpow_le_iff hq]
    omega
  have hhigh : q / 2 ^ place < (2 : ℚ) ^ (f.fractionBits + 1) := by
    rw [div_lt_iff₀ hunit, ← hsplit, lt_two_zpow_iff hq]
    push_cast
    omega
  obtain ⟨n, hnear, htie, hge, hle⟩ := exists_nearest_even (by positivity : 0 ≤ q / 2 ^ place)
  have hge' : 2 ^ f.fractionBits ≤ n := by
    refine le_trans (Nat.le_floor ?_) hge
    exact_mod_cast hlow
  have hle' : n ≤ 2 ^ (f.fractionBits + 1) := by
    refine hle.trans (Nat.succ_le_of_lt ((Nat.floor_lt (by positivity)).mpr ?_))
    exact_mod_cast hhigh
  have hscaled : |n * 2 ^ place - q| = |n - q / 2 ^ place| * 2 ^ place := by
    rw [← abs_of_pos hunit, ← abs_mul, abs_of_pos hunit, sub_mul, div_mul_cancel₀ _ hunit.ne']
  have hpower := (le_div_iff₀ hunit).mp hlow
  refine ⟨n, hge', hle', hlow, hnear, htie, ?_⟩
  calc |n * 2 ^ place - q| * 2 ^ (f.fractionBits + 1)
      = |n - q / 2 ^ place| * 2 ^ place * 2 ^ (f.fractionBits + 1) := by rw [hscaled]
    _ ≤ 1 / 2 * 2 ^ place * 2 ^ (f.fractionBits + 1) := by gcongr
    _ = 2 ^ f.fractionBits * 2 ^ place := by ring
    _ ≤ q := hpower

theorem exists_roundsTo (hf : f.fractionBits ≠ 0) (hq : 0 < q)
    (hmin : f.minExponent ≤ Int.log 2 q - f.fractionBits)
    (hmax : Int.log 2 q - f.fractionBits - f.minExponent + 2 < f.specialExponent) :
    ∃ (b : Binary f) (mantissa : ℕ) (exponent : ℤ), b.view = .finite false mantissa exponent ∧
      0 < mantissa ∧ RoundsTo f mantissa exponent q ∧
      |scaled mantissa exponent - q| * 2 ^ (f.fractionBits + 1) ≤ q := by
  obtain ⟨place, hplace⟩ : ∃ place : ℤ, Int.log 2 q = place + f.fractionBits :=
    ⟨_, (sub_add_cancel _ _).symm⟩
  rw [hplace, add_sub_cancel_right] at hmin hmax
  obtain ⟨n, hge, hle, hlow, hnear, htie, herror⟩ := exists_nearest_mantissa hq hplace
  have hpos : 0 < 2 ^ f.fractionBits := Nat.pow_pos (by decide)
  rcases hle.lt_or_eq with hlt | heq
  · obtain ⟨b, hb⟩ := exists_view false hge hlt hmin (by omega)
    refine ⟨b, n, place, hb, by omega, roundsTo_of_near hf (by omega) hnear htie ?_, herror⟩
    intro hn
    have hn' : (n : ℚ) = 2 ^ f.fractionBits := by exact_mod_cast hn
    linarith
  · -- Rounding up reaches the next power of two.
    obtain ⟨b, hb⟩ := exists_view false le_rfl (Nat.pow_lt_pow_succ (by decide))
      (by omega : f.minExponent ≤ place + 1) (by omega)
    have hn : (n : ℚ) = 2 * 2 ^ f.fractionBits := by
      rw [heq, pow_succ']
      push_cast
      ring
    have hhalf : q / 2 ^ (place + 1) = q / 2 ^ place / 2 := by
      rw [zpow_add_one₀ (by norm_num), div_div]
    have hdistance : |((2 ^ f.fractionBits : ℕ) : ℚ) - q / 2 ^ (place + 1)| ≤ 1 / 4 := by
      have hbounds := abs_le.mp hnear
      rw [hhalf, abs_le]
      push_cast
      constructor <;> linarith
    have hscaled : scaled (2 ^ f.fractionBits) (place + 1) = n * 2 ^ place := by
      rw [scaled, zpow_add_one₀ (by norm_num), hn]
      push_cast
      ring
    refine ⟨b, _, _, hb, hpos, roundsTo_of_near hf hpos ?_ ?_ fun _ => ?_, hscaled ▸ herror⟩
    · linarith
    · intro htie
      linarith
    · linarith [(abs_le.mp hdistance).2]

/-! ## Gaps between rationals -/

theorem step_le_of_ne {a b : ℕ} {i j : ℤ} (hij : i ≤ j) (hne : (a : ℚ) * 2 ^ i ≠ b * 2 ^ j) :
    (2 : ℚ) ^ i ≤ |(a : ℚ) * 2 ^ i - b * 2 ^ j| := by
  obtain ⟨k, rfl⟩ : ∃ k : ℕ, j = i + k := ⟨(j - i).toNat, by omega⟩
  have hsplit : (b : ℚ) * 2 ^ (i + k) = (b * 2 ^ k : ℕ) * 2 ^ i := by
    rw [zpow_add₀ (by norm_num), zpow_natCast]
    push_cast
    ring
  rw [hsplit] at hne ⊢
  have hone : (1 : ℚ) ≤ |(a : ℚ) - (b * 2 ^ k : ℕ)| := by
    have hint : (a : ℤ) - (b * 2 ^ k : ℕ) ≠ 0 := by
      intro hzero
      have heq : a = b * 2 ^ k := by exact_mod_cast sub_eq_zero.mp hzero
      exact hne (congrArg (fun n : ℕ => (n : ℚ) * 2 ^ i) heq)
    exact_mod_cast Int.one_le_abs hint
  rw [← sub_mul, abs_mul, abs_of_pos (by positivity : (0 : ℚ) < 2 ^ i)]
  exact le_mul_of_one_le_left (by positivity) hone

theorem lt_gap_of_ne {a b bits : ℕ} {i j : ℤ} (ha : a < 2 ^ bits) (hb : b < 2 ^ bits)
    (hne : (a : ℚ) * 2 ^ i ≠ b * 2 ^ j) :
    (a : ℚ) * 2 ^ i < |(a : ℚ) * 2 ^ i - b * 2 ^ j| * 2 ^ (bits + 1) := by
  have hfew {n : ℕ} {k : ℤ} (hn : n < 2 ^ bits) (hstep : 2 ^ k ≤ |(a : ℚ) * 2 ^ i - b * 2 ^ j|) :
      (n : ℚ) * 2 ^ k < |(a : ℚ) * 2 ^ i - b * 2 ^ j| * 2 ^ bits := by
    have hn' : (n : ℚ) < 2 ^ bits := by exact_mod_cast hn
    have hk : (0 : ℚ) < 2 ^ k := by positivity
    calc (n : ℚ) * 2 ^ k < 2 ^ bits * 2 ^ k := by gcongr
      _ ≤ 2 ^ bits * |(a : ℚ) * 2 ^ i - b * 2 ^ j| := by gcongr
      _ = _ := mul_comm _ _
  have hdouble : |(a : ℚ) * 2 ^ i - b * 2 ^ j| ≤ |(a : ℚ) * 2 ^ i - b * 2 ^ j| * 2 ^ bits :=
    le_mul_of_one_le_right (abs_nonneg _) (one_le_pow₀ (by norm_num))
  rw [pow_succ, ← mul_assoc, mul_two]
  rcases le_total i j with hij | hji
  · linarith [hfew ha (step_le_of_ne hij hne), abs_nonneg ((a : ℚ) * 2 ^ i - b * 2 ^ j)]
  · have hstep := step_le_of_ne hji hne.symm
    rw [abs_sub_comm] at hstep
    linarith [hfew hb hstep, le_abs_self ((a : ℚ) * 2 ^ i - b * 2 ^ j)]

theorem lt_gap_of_decimal {c a bits : ℕ} {place i : ℤ} (hc : c * 5 ^ place.toNat < 2 ^ bits)
    (ha : a * 5 ^ (-place).toNat < 2 ^ bits) (hne : (c : ℚ) * 10 ^ place ≠ a * 2 ^ i) :
    (c : ℚ) * 10 ^ place < |(c : ℚ) * 10 ^ place - a * 2 ^ i| * 2 ^ (bits + 1) := by
  have hten (k : ℕ) : (10 : ℚ) ^ k = 5 ^ k * 2 ^ k := by rw [← mul_pow]; norm_num
  rcases le_total 0 place with h | h
  · obtain ⟨k, rfl⟩ := Int.eq_ofNat_of_zero_le h
    have hdecimal : (c : ℚ) * 10 ^ (k : ℤ) = (c * 5 ^ k : ℕ) * 2 ^ (k : ℤ) := by
      rw [zpow_natCast, zpow_natCast, hten]
      push_cast
      ring
    rw [Int.toNat_natCast] at hc
    rw [Int.toNat_of_nonpos (by omega), Nat.pow_zero, Nat.mul_one] at ha
    rw [hdecimal] at hne ⊢
    exact lt_gap_of_ne hc ha hne
  · -- The power of ten is moved to the other side.
    obtain ⟨k, rfl⟩ : ∃ k : ℕ, place = -k := ⟨(-place).toNat, by omega⟩
    have hpow : (0 : ℚ) < 10 ^ k := by positivity
    have hdecimal : (c : ℚ) * 10 ^ (-k : ℤ) = c * 2 ^ (0 : ℤ) / 10 ^ k := by
      rw [zpow_neg, zpow_natCast, zpow_zero, mul_one, div_eq_mul_inv]
    have hfloat : (a : ℚ) * 2 ^ i = (a * 5 ^ k : ℕ) * 2 ^ (i + k) / 10 ^ k := by
      rw [hten, zpow_add₀ (by norm_num), zpow_natCast]
      push_cast
      field_simp
    rw [Int.toNat_of_nonpos (by omega), Nat.pow_zero, Nat.mul_one] at hc
    rw [neg_neg, Int.toNat_natCast] at ha
    rw [hdecimal, hfloat, Ne, div_left_inj' hpow.ne'] at hne
    rw [hdecimal, hfloat, ← sub_div, abs_div, abs_of_pos hpow, div_mul_eq_mul_div]
    exact div_lt_div_of_pos_right (lt_gap_of_ne hc ha hne) hpow

/-! ## The second rounding -/

theorem RoundsTo.of_near (h : RoundsTo f mantissa exponent q) {p : ℚ}
    (hfar : ∀ a : ℕ, a ≤ 4 * mantissa + 2 → |p - q| < |q - a * 2 ^ (exponent - 2)|) :
    RoundsTo f mantissa exponent p := by
  have hunit : (0 : ℚ) < 2 ^ (exponent - 2) := by positivity
  have hle : (interval f mantissa exponent).low ≤ 4 * mantissa := by
    simp only [interval, RoundingInterval.ofMantissa]
    omega
  obtain ⟨hqlow, hqhigh, -⟩ := RoundingInterval.Holds.bounds h
  rw [le_div_iff₀ hunit] at hqlow
  rw [div_le_iff₀ hunit, high_interval] at hqhigh
  have hlow := hfar _ (by omega : (interval f mantissa exponent).low ≤ 4 * mantissa + 2)
  have hhigh := hfar (4 * mantissa + 2) le_rfl
  rw [abs_of_nonneg (sub_nonneg.mpr hqlow), abs_lt] at hlow
  rw [abs_of_nonpos (sub_nonpos.mpr hqhigh), abs_lt] at hhigh
  apply RoundingInterval.holds_of_lt
  · rw [lt_div_iff₀ hunit]
    linarith
  · rw [div_lt_iff₀ hunit, high_interval]
    linarith

theorem roundsTo_scaled (f : BinaryFormat) (hpos : 0 < mantissa) (exponent : ℤ) :
    RoundsTo f mantissa exponent (scaled mantissa exponent) := by
  have hvalue : scaled mantissa exponent / 2 ^ exponent = mantissa := by
    rw [scaled, mul_div_cancel_right₀ _ (by positivity)]
  rw [RoundsTo, div_quarter, hvalue]
  exact holds_of_value_le hpos le_rfl (by linarith)

theorem RoundsTo.log_bounds (h : RoundsTo f mantissa exponent q) (hpos : 0 < mantissa) {bits : ℕ}
    (hlt : mantissa < 2 ^ bits) :
    0 < q ∧ exponent - 1 ≤ Int.log 2 q ∧ Int.log 2 q < exponent + bits + 1 := by
  have hunit : (0 : ℚ) < 2 ^ exponent := by positivity
  obtain ⟨hlow, hhigh, -⟩ := h.bounds hpos
  rw [le_div_iff₀ hunit] at hlow
  rw [div_le_iff₀ hunit] at hhigh
  have hone : (1 : ℚ) ≤ mantissa := by exact_mod_cast hpos
  have hmantissa : (mantissa : ℚ) ≤ 2 ^ bits := by exact_mod_cast hlt.le
  have hhalf : (2 : ℚ) ^ (exponent - 1) ≤ q := by
    calc (2 : ℚ) ^ (exponent - 1) = 1 / 2 * 2 ^ exponent := by
          rw [zpow_sub_one₀ (by norm_num)]
          ring
      _ ≤ (mantissa - 1 / 2) * 2 ^ exponent := by
          gcongr
          linarith
      _ ≤ q := hlow
  have hdouble : q < (2 : ℚ) ^ (exponent + bits + 1) := by
    calc q ≤ (mantissa + 1 / 2) * 2 ^ exponent := hhigh
      _ < 2 * 2 ^ bits * 2 ^ exponent := by
          gcongr
          linarith
      _ = 2 ^ (exponent + bits + 1) := by
          rw [zpow_add_one₀ (by norm_num), zpow_add₀ (by norm_num), zpow_natCast]
          ring
  have hq : 0 < q := lt_of_lt_of_le (by positivity) hhalf
  exact ⟨hq, (two_zpow_le_iff hq _).mp hhalf, (lt_two_zpow_iff hq _).mp hdouble⟩

theorem log_mul_zpow {a : ℕ} (ha : a ≠ 0) (place : ℤ) :
    Int.log 2 (a * 2 ^ place : ℚ) = place + a.log2 := by
  have hunit : (0 : ℚ) < 2 ^ place := by positivity
  have hpos : (0 : ℚ) < a * 2 ^ place := by positivity
  have hlow : (2 : ℚ) ^ (place + a.log2) ≤ a * 2 ^ place := by
    rw [zpow_add₀ (by norm_num), mul_comm]
    exact mul_le_mul_of_nonneg_right (zpow_log2_le ha) hunit.le
  have hhigh : (a * 2 ^ place : ℚ) < 2 ^ (place + (a.log2 + 1)) := by
    rw [zpow_add₀ (by norm_num) place, mul_comm (2 ^ place)]
    exact mul_lt_mul_of_pos_right (lt_zpow_log2 a) hunit
  rw [two_zpow_le_iff hpos] at hlow
  rw [lt_two_zpow_iff hpos] at hhigh
  omega

theorem exists_exact {a : ℕ} {place : ℤ} (hq : 0 < q) (hqa : q = a * 2 ^ place)
    (hlt : a < 2 ^ (f.fractionBits + 1)) (hmin : f.minExponent ≤ Int.log 2 q - f.fractionBits)
    (hmax : Int.log 2 q - f.fractionBits - f.minExponent + 1 < f.specialExponent) :
    ∃ (b : Binary f) (mantissa : ℕ) (exponent : ℤ), b.view = .finite false mantissa exponent ∧
      0 < mantissa ∧ RoundsTo f mantissa exponent q ∧ scaled mantissa exponent = q := by
  have hpos : 0 < a := by
    refine Nat.pos_of_ne_zero ?_
    rintro rfl
    rw [Nat.cast_zero, zero_mul] at hqa
    exact hq.ne' hqa
  rw [hqa, log_mul_zpow hpos.ne'] at hmin hmax
  obtain ⟨b, mantissa, exponent, hb, hscaled⟩ := exists_normal_view f false hpos hlt hmin hmax
  have hvalue : scaled mantissa exponent = q := by
    rw [← hscaled, hqa, scaled]
  have hpos' : 0 < mantissa := by
    refine Nat.pos_of_ne_zero ?_
    rintro rfl
    rw [scaled, Nat.cast_zero, zero_mul] at hvalue
    exact hq.ne hvalue
  have hself := roundsTo_scaled f hpos' exponent
  rw [hvalue] at hself
  exact ⟨b, mantissa, exponent, hb, hpos', hself, hvalue⟩

/-- **Rounding to 64 bits first** does no harm to a rational that is an end of the interval around
its float of 32 bits, or is not too near to one. -/
theorem exists_wide_roundsTo {b : Binary .binary32} {negative : Bool}
    (hb : b.view = .finite negative mantissa exponent) (hpos : 0 < mantissa)
    (h : RoundsTo .binary32 mantissa exponent q)
    (hgap : ∀ a : ℕ, a ≤ 4 * mantissa + 2 → q ≠ a * 2 ^ (exponent - 2) →
      q < |q - a * 2 ^ (exponent - 2)| * 2 ^ 53) :
    ∃ (c : Binary .binary64) (mantissa' : ℕ) (exponent' : ℤ),
      c.view = .finite false mantissa' exponent' ∧ 0 < mantissa' ∧
        RoundsTo .binary64 mantissa' exponent' q ∧
        RoundsTo .binary32 mantissa exponent (scaled mantissa' exponent') := by
  obtain ⟨hmin, hlt, -, hfinite, -⟩ := finite_parts hb
  have hmax : (exponent - BinaryFormat.binary32.minExponent).toNat ≤ 255 :=
    Nat.le_of_mul_le_mul_right ((Nat.le_add_right _ _).trans hfinite) (by decide)
  have hmin32 : BinaryFormat.binary32.minExponent = -149 := by decide
  have hmin64 : BinaryFormat.binary64.minExponent = -1074 := by decide
  have hspecial : BinaryFormat.binary64.specialExponent = 2047 := by decide
  have hbits : BinaryFormat.binary64.fractionBits = 52 := rfl
  have hmantissa : mantissa < 2 ^ 24 := hlt
  -- The rational is far from the ends of the range of doubles.
  obtain ⟨hq, hlog, hlog'⟩ := h.log_bounds hpos hmantissa
  by_cases hend : ∃ a : ℕ, a ≤ 4 * mantissa + 2 ∧ q = a * 2 ^ (exponent - 2)
  · obtain ⟨a, ha, hqa⟩ := hend
    have hlt' : a < 2 ^ 53 := by omega
    obtain ⟨c, mantissa', exponent', hc, hpos', hself, hvalue⟩ :=
      exists_exact (f := .binary64) hq hqa hlt' (by omega) (by omega)
    exact ⟨c, mantissa', exponent', hc, hpos', hself, hvalue ▸ h⟩
  · obtain ⟨c, mantissa', exponent', hc, hpos', hrounds, hnear⟩ :=
      exists_roundsTo (f := .binary64) (by decide) hq (by omega) (by omega)
    refine ⟨c, mantissa', exponent', hc, hpos', hrounds, h.of_near fun a ha => ?_⟩
    have hfar := hgap a ha fun heq => hend ⟨a, ha, heq⟩
    have hchain : |scaled mantissa' exponent' - q| * 2 ^ 53 <
        |q - a * 2 ^ (exponent - 2)| * 2 ^ 53 := lt_of_le_of_lt hnear hfar
    exact lt_of_mul_lt_mul_right hchain (by positivity)

end ExactCompare.Binary
