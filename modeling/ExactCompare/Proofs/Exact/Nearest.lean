import ExactCompare.Binary.Rounding
import ExactCompare.Proofs.Exact.Decode
import Mathlib.Data.Int.Log

/-!
# The nearest float

The float nearest to a quotient depends on the quotient alone, and a float is the
nearest one to itself.
-/

namespace ExactCompare.Binary

-- Powers are those that `Nat` and `Int` come with.
attribute [local instance (2000)] instPowNat

/-! ## Scaling a quotient -/

theorem scaleDown_den_pos (num : ℕ) {den : ℕ} (hden : 0 < den) (exponent : ℤ) :
    0 < (scaleDown num den exponent).2 := by
  unfold scaleDown
  split
  · exact Nat.mul_pos hden (Nat.pow_pos (by decide))
  · exact hden

theorem scaleDown_quotient (num den : ℕ) (exponent : ℤ) :
    ((scaleDown num den exponent).1 : ℚ) / (scaleDown num den exponent).2 =
      num / den / 2 ^ exponent := by
  unfold scaleDown
  split
  · obtain ⟨k, rfl⟩ := Int.eq_ofNat_of_zero_le ‹0 ≤ exponent›
    simp only [Int.toNat_natCast, zpow_natCast]
    push_cast
    rw [div_div]
  · obtain ⟨k, rfl⟩ : ∃ k : ℕ, exponent = -k := ⟨(-exponent).toNat, by omega⟩
    simp only [neg_neg, Int.toNat_natCast, zpow_neg, zpow_natCast]
    push_cast
    field_simp

/-! ## The highest power of two -/

theorem zpow_log2_le {n : ℕ} (hn : n ≠ 0) : (2 : ℚ) ^ (n.log2 : ℤ) ≤ n := by
  rw [zpow_natCast]
  exact_mod_cast Nat.log2_self_le hn

theorem lt_zpow_log2 (n : ℕ) : (n : ℚ) < 2 ^ (n.log2 + 1 : ℤ) := by
  rw [← Nat.cast_succ, zpow_natCast]
  exact_mod_cast Nat.lt_log2_self

theorem quotient_bounds {num den : ℕ} (hnum : num ≠ 0) (hden : den ≠ 0) :
    (2 : ℚ) ^ ((num.log2 : ℤ) - den.log2 - 1) ≤ num / den ∧
      (num : ℚ) / den < 2 ^ ((num.log2 : ℤ) - den.log2 + 1) := by
  have hpos : (0 : ℚ) < den := by positivity
  constructor
  · rw [le_div_iff₀ hpos]
    calc (2 : ℚ) ^ ((num.log2 : ℤ) - den.log2 - 1) * den
        ≤ 2 ^ ((num.log2 : ℤ) - den.log2 - 1) * 2 ^ (den.log2 + 1 : ℤ) := by
          gcongr
          exact (lt_zpow_log2 den).le
      _ = 2 ^ (num.log2 : ℤ) := by
          rw [← zpow_add₀ (by norm_num)]
          congr 1
          ring
      _ ≤ num := zpow_log2_le hnum
  · rw [div_lt_iff₀ hpos]
    calc (num : ℚ) < 2 ^ (num.log2 + 1 : ℤ) := lt_zpow_log2 num
      _ = 2 ^ ((num.log2 : ℤ) - den.log2 + 1) * 2 ^ (den.log2 : ℤ) := by
          rw [← zpow_add₀ (by norm_num)]
          congr 1
          ring
      _ ≤ 2 ^ ((num.log2 : ℤ) - den.log2 + 1) * den := by
          gcongr
          exact zpow_log2_le hden

theorem two_zpow_le_iff {q : ℚ} (hq : 0 < q) (x : ℤ) : (2 : ℚ) ^ x ≤ q ↔ x ≤ Int.log 2 q := by
  exact_mod_cast Int.zpow_le_iff_le_log (b := 2) Nat.one_lt_two hq

theorem lt_two_zpow_iff {q : ℚ} (hq : 0 < q) (x : ℤ) : q < (2 : ℚ) ^ x ↔ Int.log 2 q < x := by
  exact_mod_cast Int.lt_zpow_iff_log_lt (b := 2) Nat.one_lt_two hq

theorem quotientLog2_eq_log {num den : ℕ} (hnum : num ≠ 0) (hden : den ≠ 0) :
    quotientLog2 num den = Int.log 2 (num / den : ℚ) := by
  have hq : (0 : ℚ) < num / den := by positivity
  obtain ⟨hlow, hhigh⟩ := quotient_bounds hnum hden
  rw [two_zpow_le_iff hq] at hlow
  rw [lt_two_zpow_iff hq] at hhigh
  have hd := scaleDown_den_pos num (Nat.pos_of_ne_zero hden) (num.log2 - den.log2)
  have hscaled := scaleDown_quotient num den (num.log2 - den.log2)
  have hiff : (scaleDown num den (num.log2 - den.log2)).1 <
      (scaleDown num den (num.log2 - den.log2)).2 ↔
        (num / den : ℚ) < 2 ^ ((num.log2 : ℤ) - den.log2) := by
    rw [← div_lt_one (by positivity : (0 : ℚ) < 2 ^ ((num.log2 : ℤ) - den.log2)), ← hscaled,
      div_lt_one (by exact_mod_cast hd)]
    norm_cast
  unfold quotientLog2
  dsimp only
  split
  · rename_i hlt
    rw [hiff, lt_two_zpow_iff hq] at hlt
    omega
  · rename_i hge
    rw [hiff, lt_two_zpow_iff hq] at hge
    omega

/-! ## The nearest integer -/

theorem roundQuotient_mul_right (n d : ℕ) {k : ℕ} (hk : 0 < k) :
    roundQuotient (n * k) (d * k) = roundQuotient n d := by
  have hlow : 2 * (n % d * k) < d * k ↔ 2 * (n % d) < d := by
    rw [← Nat.mul_assoc, Nat.mul_lt_mul_right hk]
  have hhigh : d * k < 2 * (n % d * k) ↔ d < 2 * (n % d) := by
    rw [← Nat.mul_assoc, Nat.mul_lt_mul_right hk]
  unfold roundQuotient
  simp only [Nat.mul_div_mul_right n d hk, Nat.mul_mod_mul_right, hlow, hhigh]

theorem mul_eq_mul_of_quotient_eq {n d n' d' : ℕ} (hd : 0 < d) (hd' : 0 < d')
    (h : (n : ℚ) / d = n' / d') : n * d' = n' * d := by
  rw [div_eq_div_iff (by positivity) (by positivity)] at h
  exact_mod_cast h

theorem roundQuotient_congr {n d n' d' : ℕ} (hd : 0 < d) (hd' : 0 < d')
    (h : (n : ℚ) / d = n' / d') : roundQuotient n d = roundQuotient n' d' := by
  rw [← roundQuotient_mul_right n d hd', mul_eq_mul_of_quotient_eq hd hd' h, Nat.mul_comm d d',
    roundQuotient_mul_right n' d' hd]

theorem roundQuotient_of_eq {n d m : ℕ} (hd : 0 < d) (h : (n : ℚ) / d = m) :
    roundQuotient n d = m := by
  have hone : (n : ℚ) / d = (m : ℕ) / (1 : ℕ) := by rw [h, Nat.cast_one, div_one]
  rw [roundQuotient_congr hd one_pos hone]
  simp [roundQuotient, Nat.mod_one]

/-! ## The nearest float of a quotient -/

section Nearest

variable {f : BinaryFormat} {num den num' den' : ℕ}

theorem nearestBits_congr (hnum : num ≠ 0) (hden : 0 < den) (hnum' : num' ≠ 0) (hden' : 0 < den')
    (h : (num : ℚ) / den = num' / den') : nearestBits f num den = nearestBits f num' den' := by
  unfold nearestBits
  simp only [quotientLog2_eq_log hnum hden.ne', quotientLog2_eq_log hnum' hden'.ne', h]
  congr 1
  refine roundQuotient_congr (scaleDown_den_pos _ hden _) (scaleDown_den_pos _ hden' _) ?_
  rw [scaleDown_quotient, scaleDown_quotient, h]

theorem nearest_congr (negative : Bool) (hden : 0 < den) (hden' : 0 < den')
    (h : (num : ℚ) / den = num' / den') : nearest f negative num den = nearest f negative num' den' := by
  have hzero : num = 0 ↔ num' = 0 := by
    have hcross := mul_eq_mul_of_quotient_eq hden hden' h
    constructor
    · rintro rfl
      rw [Nat.zero_mul, eq_comm, Nat.mul_eq_zero] at hcross
      exact hcross.resolve_right hden.ne'
    · rintro rfl
      rw [Nat.zero_mul, Nat.mul_eq_zero] at hcross
      exact hcross.resolve_right hden'.ne'
  unfold nearest
  by_cases hnum : num = 0
  · simp only [hnum, hzero.mp hnum, if_true]
  · simp only [hnum, mt hzero.mpr hnum, if_false,
      nearestBits_congr hnum hden (mt hzero.mpr hnum) hden' h]

end Nearest

/-! ## A float is nearest to itself -/

section Exact

variable {f : BinaryFormat} {b : Binary f}

theorem eq_of_bits_eq {b c : Binary f} (h : b.bits = c.bits) : b = c := by
  cases b
  cases c
  cases h
  rfl

theorem bits_eq_fields (b : Binary f) :
    b.bits = b.exponentField * 2 ^ f.fractionBits + b.fractionField +
      if b.isNegative then 2 ^ f.magnitudeBits else 0 := by
  have hlt := b.bits_lt
  have hfraction := Nat.div_add_mod' b.bits (2 ^ f.fractionBits)
  have hexponent := Nat.div_add_mod' (b.bits / 2 ^ f.fractionBits) (2 ^ f.exponentBits)
  have hmagnitude : 2 ^ f.exponentBits * 2 ^ f.fractionBits = 2 ^ f.magnitudeBits := by
    rw [BinaryFormat.magnitudeBits, Nat.pow_add]
  have hsign : b.bits / 2 ^ f.fractionBits / 2 ^ f.exponentBits =
      if b.isNegative then 1 else 0 := by
    rw [Nat.div_div_eq_div_mul, Nat.mul_comm, hmagnitude]
    rw [BinaryFormat.width, Nat.pow_succ] at hlt
    by_cases hneg : 2 ^ f.magnitudeBits ≤ b.bits
    · rw [isNegative, if_pos (decide_eq_true hneg)]
      exact Nat.div_eq_of_lt_le (by omega) (by omega)
    · rw [isNegative, if_neg (by simpa using hneg)]
      exact Nat.div_eq_of_lt (by omega)
  rw [hsign] at hexponent
  rw [exponentField, fractionField, ← hmagnitude]
  calc b.bits
      = b.bits / 2 ^ f.fractionBits * 2 ^ f.fractionBits + b.bits % 2 ^ f.fractionBits :=
        hfraction.symm
    _ = ((if b.isNegative then 1 else 0) * 2 ^ f.exponentBits +
          b.bits / 2 ^ f.fractionBits % 2 ^ f.exponentBits) * 2 ^ f.fractionBits +
          b.bits % 2 ^ f.fractionBits := by rw [hexponent]
    _ = _ := by split <;> ring

theorem finite_parts {negative : Bool} {mantissa : ℕ} {exponent : ℤ}
    (h : b.view = .finite negative mantissa exponent) :
    f.minExponent ≤ exponent ∧ mantissa < 2 ^ (f.fractionBits + 1) ∧
      (exponent = f.minExponent ∨ 2 ^ f.fractionBits ≤ mantissa) ∧
      (exponent - f.minExponent).toNat * 2 ^ f.fractionBits + mantissa ≤
        f.specialExponent * 2 ^ f.fractionBits ∧
      b.bits = (exponent - f.minExponent).toNat * 2 ^ f.fractionBits + mantissa +
        if negative then 2 ^ f.magnitudeBits else 0 := by
  have hfraction : b.fractionField < 2 ^ f.fractionBits := Nat.mod_lt _ (Nat.pow_pos (by decide))
  have hexponent : b.exponentField < 2 ^ f.exponentBits := Nat.mod_lt _ (Nat.pow_pos (by decide))
  have hbits := b.bits_eq_fields
  unfold view at h
  split at h
  · split at h <;> simp at h
  rename_i hspecial
  have hfinite : (b.exponentField + 1) * 2 ^ f.fractionBits ≤
      f.specialExponent * 2 ^ f.fractionBits := by
    refine Nat.mul_le_mul_right _ ?_
    unfold BinaryFormat.specialExponent at hspecial ⊢
    omega
  rw [Nat.add_mul] at hfinite
  split at h
  · rename_i hsub
    obtain ⟨rfl, rfl, rfl⟩ := View.finite.injEq .. ▸ h
    rw [hsub, Nat.zero_mul, Nat.zero_add] at hbits hfinite
    rw [Int.sub_self, Int.toNat_zero, Nat.zero_mul, Nat.zero_add]
    exact ⟨le_rfl, by rw [Nat.pow_succ]; omega, .inl rfl, by omega, hbits⟩
  · rename_i hnormal
    obtain ⟨rfl, rfl, rfl⟩ := View.finite.injEq .. ▸ h
    obtain ⟨k, hk⟩ := Nat.exists_eq_add_one_of_ne_zero hnormal
    have hplace : (f.minExponent + b.exponentField - 1 - f.minExponent).toNat = k := by omega
    rw [hk, Nat.add_mul] at hbits hfinite
    rw [hplace]
    exact ⟨by omega, by rw [Nat.pow_succ]; omega, .inr (by omega), by omega, by omega⟩

theorem exponent_of_scaled {mantissa : ℕ} {exponent : ℤ} (hpos : 0 < mantissa)
    (hmin : f.minExponent ≤ exponent) (hlt : mantissa < 2 ^ (f.fractionBits + 1))
    (hnormal : exponent = f.minExponent ∨ 2 ^ f.fractionBits ≤ mantissa) :
    max f.minExponent (Int.log 2 (scaled mantissa exponent) - f.fractionBits) = exponent := by
  have hq : 0 < scaled mantissa exponent := by unfold scaled; positivity
  have hhigh : Int.log 2 (scaled mantissa exponent) < f.fractionBits + 1 + exponent := by
    rw [← lt_two_zpow_iff hq, scaled, zpow_add₀ (by norm_num)]
    gcongr
    exact_mod_cast hlt
  rcases hnormal with rfl | hnormal
  · omega
  · have hlow : f.fractionBits + exponent ≤ Int.log 2 (scaled mantissa exponent) := by
      rw [← two_zpow_le_iff hq, scaled, zpow_add₀ (by norm_num)]
      gcongr
      exact_mod_cast hnormal
    omega

theorem nearest_of_exact {negative : Bool} {mantissa num den : ℕ} {exponent : ℤ}
    (h : b.view = .finite negative mantissa exponent) (hden : 0 < den)
    (hq : (num : ℚ) / den = scaled mantissa exponent) : nearest f negative num den = b := by
  obtain ⟨hmin, hlt, hnormal, hfinite, hbits⟩ := finite_parts h
  have hmagnitude : (if num = 0 then 0 else nearestBits f num den) =
      (exponent - f.minExponent).toNat * 2 ^ f.fractionBits + mantissa := by
    have hd : (den : ℚ) ≠ 0 := by positivity
    split
    · rename_i hnum
      rw [hnum, Nat.cast_zero, zero_div, scaled, eq_comm, mul_eq_zero] at hq
      have hmantissa : mantissa = 0 := by
        exact_mod_cast hq.resolve_right (by positivity)
      subst hmantissa
      have : 0 < 2 ^ f.fractionBits := Nat.pow_pos (by decide)
      have hexponent : exponent = f.minExponent := by omega
      rw [hexponent, Int.sub_self, Int.toNat_zero, Nat.zero_mul]
    · rename_i hnum
      have hpos : 0 < mantissa := by
        refine Nat.pos_of_ne_zero fun hzero => hnum ?_
        rw [hzero, scaled, Nat.cast_zero, zero_mul, div_eq_zero_iff] at hq
        exact_mod_cast hq.resolve_right hd
      unfold nearestBits
      simp only [quotientLog2_eq_log hnum hden.ne', hq, exponent_of_scaled hpos hmin hlt hnormal]
      congr 1
      refine roundQuotient_of_eq (scaleDown_den_pos _ hden _) ?_
      rw [scaleDown_quotient, hq, scaled, mul_div_assoc, div_self (by positivity), mul_one]
  apply eq_of_bits_eq
  simp only [nearest, ofMagnitude, hmagnitude, Nat.add_zero, Nat.min_eq_left hfinite, hbits]

end Exact

end ExactCompare.Binary
