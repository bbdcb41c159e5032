import ExactCompare.Hash.Integer
import ExactCompare.Proofs.Exact.Digits
import Mathlib.Data.List.TakeWhile

/-!
# Digits that stand for one number hash alike

Without the zeros at either end, the digits of a number are unique. So the hash of
digits depends on their sum alone, as long as the zeros in front can be counted. An
integer hashes like every numeric that is equal to it.
-/

namespace ExactCompare

-- Powers are those that `Nat` and `Int` come with.
attribute [local instance (2000)] instPowNat

/-! ## Trailing zeros -/

theorem Digits.trimEnd_nil : trimEnd [] = [] := rfl

theorem Digits.trimEnd_cons (d : ℕ) (ds : List ℕ) :
    trimEnd (d :: ds) = if d = 0 ∧ trimEnd ds = [] then [] else d :: trimEnd ds := by
  simp only [trimEnd, List.reverse_cons, List.dropWhile_append, List.reverse_eq_nil_iff]
  by_cases hrest : ds.reverse.dropWhile (· == 0) = []
  · by_cases hd : d = 0 <;> simp [hrest, hd]
  · simp [hrest]

theorem Digits.trimEnd_eq_nil {ds : List ℕ} (h : ∀ d ∈ ds, d = 0) : trimEnd ds = [] := by
  induction ds with
  | nil => rfl
  | cons d ds ih =>
    rw [trimEnd_cons, if_pos]
    exact ⟨h d List.mem_cons_self, ih fun e he => h e (List.mem_cons_of_mem _ he)⟩

def AreDigits (ds : List ℕ) : Prop := ∀ d ∈ ds, d < Numeric.base

theorem AreDigits.tail {d : ℕ} {ds : List ℕ} (h : AreDigits (d :: ds)) : AreDigits ds :=
  fun e he => h e (List.mem_cons_of_mem _ he)

theorem digitSum_cons_inj {place : ℤ} {d e : ℕ} {ds es : List ℕ} (hds : AreDigits ds)
    (hes : AreDigits es) (h : digitSum place (d :: ds) = digitSum place (e :: es)) :
    d = e ∧ digitSum (place - 1) ds = digitSum (place - 1) es := by
  have hlt (x y : ℕ) (xs ys : List ℕ) (hxs : AreDigits xs)
      (hxy : digitSum place (x :: xs) = digitSum place (y :: ys)) : ¬ x < y := by
    intro hlt
    have hpos : (0 : ℚ) < 10000 ^ place := by positivity
    have hrest := digitSum_lt (place - 1) xs hxs
    have hnonneg := digitSum_nonneg (place - 1) ys
    have hle : (x : ℚ) + 1 ≤ y := by exact_mod_cast hlt
    rw [digitSum, digitSum] at hxy
    rw [sub_add_cancel] at hrest
    nlinarith
  have hde : d = e := by
    have := hlt d e ds es hds h
    have := hlt e d es ds hes h.symm
    omega
  subst hde
  rw [digitSum, digitSum] at h
  exact ⟨rfl, add_left_cancel h⟩

theorem trimEnd_eq_of_digitSum_eq {place : ℤ} {a b : List ℕ} (ha : AreDigits a)
    (hb : AreDigits b) (h : digitSum place a = digitSum place b) :
    Digits.trimEnd a = Digits.trimEnd b := by
  induction a generalizing place b with
  | nil =>
    rw [digitSum] at h
    rw [Digits.trimEnd_nil, Digits.trimEnd_eq_nil ((digitSum_eq_zero_iff place b).mp h.symm)]
  | cons d ds ih =>
    cases b with
    | nil => rw [Digits.trimEnd_eq_nil ((digitSum_eq_zero_iff place _).mp h), Digits.trimEnd_nil]
    | cons e es =>
      obtain ⟨rfl, hrest⟩ := digitSum_cons_inj ha.tail hb.tail h
      rw [Digits.trimEnd_cons, Digits.trimEnd_cons, ih ha.tail hb.tail hrest]

/-! ## Leading zeros -/

namespace Hash

theorem skipped_zero_cons (ds : List ℕ) : skipped (0 :: ds) = skipped ds + 1 := by
  have hle := (List.dropWhile_sublist (l := ds) (· == 0)).length_le
  simp only [skipped, List.dropWhile_cons, BEq.rfl, if_true, List.length_cons]
  omega

theorem skipped_cons_of_ne_zero {d : ℕ} (hd : d ≠ 0) (ds : List ℕ) : skipped (d :: ds) = 0 := by
  simp [skipped, hd]

end Hash

theorem digitSum_skipped (place : ℤ) (ds : List ℕ) :
    digitSum (place - Hash.skipped ds) (ds.dropWhile (· == 0)) = digitSum place ds := by
  induction ds generalizing place with
  | nil => simp [digitSum]
  | cons d ds ih =>
    by_cases hd : d = 0
    · subst hd
      rw [Hash.skipped_zero_cons, digitSum, ← ih (place - 1)]
      simp only [List.dropWhile_cons, BEq.rfl, if_true, Nat.cast_zero, zero_mul, zero_add]
      congr 1
      push_cast; ring
    · simp [Hash.skipped_cons_of_ne_zero hd, hd]

theorem AreDigits.dropWhile {ds : List ℕ} (h : AreDigits ds) :
    AreDigits (ds.dropWhile (· == 0)) := fun d hd => h d ((List.dropWhile_sublist _).mem hd)

theorem head_dropWhile_ne_zero {ds rest : List ℕ} {d : ℕ}
    (h : ds.dropWhile (· == 0) = d :: rest) : d ≠ 0 := by
  have := List.head?_dropWhile_not (· == 0) ds
  rw [h] at this
  simpa using this

theorem place_le_of_digitSum_eq {p r : ℤ} {d : ℕ} {ds es : List ℕ} (hd : d ≠ 0)
    (hes : AreDigits es) (h : digitSum p (d :: ds) = digitSum r es) : p ≤ r := by
  have hlt := digitSum_lt r es hes
  have hle : (10000 : ℚ) ^ p ≤ digitSum p (d :: ds) := by
    have hpos : (0 : ℚ) < 10000 ^ p := by positivity
    have hrest := digitSum_nonneg (p - 1) ds
    have hone : (1 : ℚ) ≤ d := by exact_mod_cast Nat.one_le_iff_ne_zero.mpr hd
    rw [digitSum]
    nlinarith
  have := (zpow_lt_zpow_iff_right₀ (by norm_num : (1 : ℚ) < 10000)).mp
    (hle.trans_lt (h ▸ hlt))
  omega

theorem dropWhile_eq_of_digitSum_eq {p r : ℤ} {a b : List ℕ} (ha : AreDigits a) (hb : AreDigits b)
    (h : digitSum p a = digitSum r b) (hne : digitSum p a ≠ 0) :
    p - Hash.skipped a = r - Hash.skipped b ∧
      Digits.trimEnd (a.dropWhile (· == 0)) = Digits.trimEnd (b.dropWhile (· == 0)) := by
  have hsum := h
  rw [← digitSum_skipped p a, ← digitSum_skipped r b] at hsum
  cases hra : a.dropWhile (· == 0) with
  | nil =>
    rw [← digitSum_skipped, hra] at hne
    exact absurd rfl hne
  | cons d ds =>
    cases hrb : b.dropWhile (· == 0) with
    | nil =>
      rw [h, ← digitSum_skipped, hrb] at hne
      exact absurd rfl hne
    | cons e es =>
      have hda := ha.dropWhile
      have hdb := hb.dropWhile
      rw [hra] at hda hsum
      rw [hrb] at hdb hsum
      have hplace : p - Hash.skipped a = r - Hash.skipped b :=
        le_antisymm (place_le_of_digitSum_eq (head_dropWhile_ne_zero hra) hdb hsum)
          (place_le_of_digitSum_eq (head_dropWhile_ne_zero hrb) hda hsum.symm)
      exact ⟨hplace, trimEnd_eq_of_digitSum_eq hda hdb (hplace ▸ hsum)⟩

namespace Hash

/-! ## What is hashed -/

variable {ds : List ℕ} {place : ℤ}

/-- The zeros in front can be counted, or no digit above zero stands behind them. -/
def CountsZeros (ds : List ℕ) : Prop := (∀ d ∈ ds, d = 0) ∨ skipped ds ≤ maxSkipped

theorem significant?_of_not_countsZeros (h : ¬ CountsZeros ds) : significant? ds place = none := by
  rw [CountsZeros, not_or] at h
  unfold significant?
  split
  · rfl
  · rw [if_neg h.2]

theorem dropWhile_eq_nil_iff : ds.dropWhile (· == 0) = [] ↔ ∀ d ∈ ds, d = 0 := by
  simp [List.dropWhile_eq_nil_iff]

theorem significant?_of_zeros (h : ∀ d ∈ ds, d = 0) : significant? ds place = none := by
  rw [significant?, dropWhile_eq_nil_iff.mpr h]

theorem significant?_of_counted (hne : ¬ ∀ d ∈ ds, d = 0) (hle : skipped ds ≤ maxSkipped) :
    significant? ds place = some (Digits.trimEnd (ds.dropWhile (· == 0)),
      wrapWeight (place - skipped ds)) := by
  unfold significant?
  split
  case h_1 hnil => exact absurd (dropWhile_eq_nil_iff.mp hnil) hne
  case h_2 => exact if_pos hle

theorem countsZeros_of_natCast {m : ℕ} (hds : AreDigits ds) (hplace : place ≤ maxSkipped)
    (h : digitSum place ds = m) : CountsZeros ds := by
  rcases Nat.eq_zero_or_pos m with rfl | hpos
  · exact .inl ((digitSum_eq_zero_iff place ds).mp (h.trans Nat.cast_zero))
  · refine .inr (Nat.le_of_not_lt fun hgt => ?_)
    have hlt := digitSum_lt (place - skipped ds) _ hds.dropWhile
    have hone : (10000 : ℚ) ^ (place - skipped ds + 1) ≤ 1 :=
      zpow_le_one_of_nonpos₀ (by norm_num) (by omega)
    have hm : (1 : ℚ) ≤ m := by exact_mod_cast hpos
    rw [digitSum_skipped, h] at hlt
    linarith

section Equal

variable {a b : List ℕ} {p r : ℤ} (ha : AreDigits a) (hb : AreDigits b)
  (h : digitSum p a = digitSum r b) (hcounts : CountsZeros a ↔ CountsZeros b)

include ha hb h hcounts

theorem significant?_eq_of_digitSum_eq : significant? a p = significant? b r := by
  by_cases hcount : CountsZeros a
  case neg =>
    rw [significant?_of_not_countsZeros hcount,
      significant?_of_not_countsZeros (mt hcounts.mpr hcount)]
  by_cases hzeros : ∀ d ∈ a, d = 0
  case pos =>
    have hzeros' := (digitSum_eq_zero_iff r b).mp (h ▸ (digitSum_eq_zero_iff p a).mpr hzeros)
    rw [significant?_of_zeros hzeros, significant?_of_zeros hzeros']
  have hne : digitSum p a ≠ 0 := mt (digitSum_eq_zero_iff p a).mp hzeros
  have hzeros' : ¬ ∀ d ∈ b, d = 0 := mt (digitSum_eq_zero_iff r b).mpr (h ▸ hne)
  -- Even weights that wrap around are the same, as they come from one and the same place.
  obtain ⟨hplace, hdigits⟩ := dropWhile_eq_of_digitSum_eq ha hb h hne
  rw [significant?_of_counted hzeros (hcount.resolve_left hzeros),
    significant?_of_counted hzeros' ((hcounts.mp hcount).resolve_left hzeros'), hplace, hdigits]

theorem digits_eq_of_digitSum_eq : digits a p = digits b r := by
  rw [digits, digits, significant?_eq_of_digitSum_eq ha hb h hcounts]

theorem digitsExtended_eq_of_digitSum_eq (seed : UInt64) :
    digitsExtended a p seed = digitsExtended b r seed := by
  rw [digitsExtended, digitsExtended, significant?_eq_of_digitSum_eq ha hb h hcounts]

end Equal

/-! ## Numerics -/

theorem numeric_of_finite {v : Numeric} (hsign : v.sign.isSpecial = false) :
    numeric v = digits v.digits v.weight := by
  rw [numeric, hsign]
  rfl

theorem numericExtended_of_finite {v : Numeric} (hsign : v.sign.isSpecial = false)
    (seed : UInt64) : numericExtended v seed = digitsExtended v.digits v.weight seed := by
  rw [numericExtended, hsign]
  rfl

section Magnitude

variable {a b : Numeric} (ha : a.sign.isSpecial = false) (hb : b.sign.isSpecial = false)
  (h : a.magnitude = b.magnitude) (hcounts : CountsZeros a.digits ↔ CountsZeros b.digits)

include h

theorem digitSum_eq_of_magnitude_eq : digitSum a.weight a.digits = digitSum b.weight b.digits := by
  rw [← magnitude_eq_digitSum, ← magnitude_eq_digitSum, h]

include ha hb hcounts

theorem numeric_eq_of_magnitude : numeric a = numeric b := by
  rw [numeric_of_finite ha, numeric_of_finite hb]
  exact digits_eq_of_digitSum_eq a.digits_lt b.digits_lt (digitSum_eq_of_magnitude_eq h) hcounts

theorem numericExtended_eq_of_magnitude (seed : UInt64) :
    numericExtended a seed = numericExtended b seed := by
  rw [numericExtended_of_finite ha, numericExtended_of_finite hb]
  exact digitsExtended_eq_of_digitSum_eq a.digits_lt b.digits_lt (digitSum_eq_of_magnitude_eq h)
    hcounts seed

end Magnitude

/-! ## The digits of an integer -/

theorem fillSlots_lt (slots magnitude : ℕ) : AreDigits (fillSlots slots magnitude).1 := by
  fun_induction fillSlots slots magnitude with
  | case1 | case2 => exact nofun
  | case3 slots magnitude _ rest left hfill ih =>
    intro d hd
    rcases List.mem_cons.mp hd with rfl | hd
    · exact Nat.mod_lt _ (by decide)
    · exact ih d (hfill ▸ hd)

theorem value_fillSlots (slots magnitude : ℕ) :
    Digits.value Numeric.base (fillSlots slots magnitude).1.reverse +
      (fillSlots slots magnitude).2 * Numeric.base ^ (fillSlots slots magnitude).1.length =
        magnitude := by
  fun_induction fillSlots slots magnitude with
  | case1 | case2 => simp [Digits.value_eq_foldl]
  | case3 slots magnitude _ rest left hfill ih =>
    rw [hfill] at ih
    have hdigit : Digits.value Numeric.base [magnitude % Numeric.base] =
        magnitude % Numeric.base := by simp [Digits.value_eq_foldl]
    have hdiv := Nat.div_add_mod magnitude Numeric.base
    simp only [List.reverse_cons, Digits.value_append, hdigit, List.length_cons, List.length_nil,
      zero_add, pow_succ] at ih ⊢
    calc _ = Numeric.base * (Digits.value Numeric.base rest.reverse +
            left * Numeric.base ^ rest.length) + magnitude % Numeric.base := by ring
      _ = magnitude := by rw [ih, hdiv]

theorem fillSlots_left (slots magnitude : ℕ) (h : magnitude < Numeric.base ^ slots) :
    (fillSlots slots magnitude).2 = 0 := by
  fun_induction fillSlots slots magnitude with
  | case1 magnitude => simpa using h
  | case2 => rfl
  | case3 slots magnitude _ rest left hfill ih =>
    have hdiv : magnitude / Numeric.base < Numeric.base ^ slots :=
      Nat.div_lt_of_lt_mul (by rwa [Nat.mul_comm, ← Nat.pow_succ])
    have := ih hdiv
    rwa [hfill] at this

theorem integerDigits_lt (n : Int) : AreDigits (integerDigits n).1 := fun d hd =>
  fillSlots_lt _ _ d (List.mem_reverse.mp hd)

theorem digitSum_integerDigits {n : Int} (hn : n.natAbs < Numeric.base ^ maxDigits) :
    digitSum (integerDigits n).2 (integerDigits n).1 = n.natAbs := by
  have hvalue := value_fillSlots maxDigits n.natAbs
  rw [fillSlots_left _ _ hn, Nat.zero_mul, Nat.add_zero] at hvalue
  rw [integerDigits, digitSum_eq_value]
  simp only [List.length_reverse, hvalue, sub_add_cancel, sub_self, zpow_zero, mul_one]

theorem length_fillSlots_le (slots magnitude : ℕ) :
    (fillSlots slots magnitude).1.length ≤ slots := by
  fun_induction fillSlots slots magnitude with
  | case1 | case2 => exact Nat.zero_le _
  | case3 slots magnitude _ rest left hfill ih =>
    rw [hfill] at ih
    exact Nat.succ_le_succ ih

theorem countsZeros_integerDigits {n : Int} (hn : n.natAbs < Numeric.base ^ maxDigits) :
    CountsZeros (integerDigits n).1 := by
  have hlength := length_fillSlots_le maxDigits n.natAbs
  refine countsZeros_of_natCast (integerDigits_lt n) ?_ (digitSum_integerDigits hn)
  simp only [integerDigits, maxDigits, maxSkipped] at hlength ⊢
  omega

/-! ## Integers and numerics -/

section Numeric

variable {n : Int} {v : Numeric} (hn : n.natAbs < Numeric.base ^ maxDigits)
  (hmagnitude : v.magnitude = n.natAbs) (hsign : v.sign.isSpecial = false)

include hmagnitude

theorem countsZeros_of_magnitude : CountsZeros v.digits := by
  have hweight := v.weight_le
  refine countsZeros_of_natCast v.digits_lt ?_ ((magnitude_eq_digitSum v).symm.trans hmagnitude)
  simp only [Numeric.maxWeight, maxSkipped] at hweight ⊢
  omega

include hn

theorem digitSum_eq_of_magnitude :
    digitSum (integerDigits n).2 (integerDigits n).1 = digitSum v.weight v.digits := by
  rw [digitSum_integerDigits hn, ← magnitude_eq_digitSum, hmagnitude]

include hsign

theorem integerAsNumeric_eq : integerAsNumeric n = numeric v := by
  rw [numeric_of_finite hsign]
  exact digits_eq_of_digitSum_eq (integerDigits_lt n) v.digits_lt
    (digitSum_eq_of_magnitude hn hmagnitude)
    (iff_of_true (countsZeros_integerDigits hn) (countsZeros_of_magnitude hmagnitude))

theorem integerAsNumericExtended_eq (seed : UInt64) :
    integerAsNumericExtended n seed = numericExtended v seed := by
  rw [numericExtended_of_finite hsign]
  exact digitsExtended_eq_of_digitSum_eq (integerDigits_lt n) v.digits_lt
    (digitSum_eq_of_magnitude hn hmagnitude)
    (iff_of_true (countsZeros_integerDigits hn) (countsZeros_of_magnitude hmagnitude)) seed

end Numeric

end Hash

end ExactCompare
