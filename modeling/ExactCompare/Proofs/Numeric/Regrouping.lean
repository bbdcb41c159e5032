import ExactCompare.Proofs.Numeric.Conversion
import ExactCompare.Proofs.Numeric.Parts

/-!
# Regrouping decimal digits

The digits of a numeric can be had from decimal digits. They are put in groups of four, with zeros
at both ends so that the point is between two groups, and groups of zeros at the ends are dropped.
This gives what dividing by the base gives.
-/

namespace ExactCompare

-- Powers are those that `Nat` and `Int` come with.
attribute [local instance (2000)] instPowNat

namespace Digits

/-! ## The digits of a number are unique -/

theorem head?_ofNat {base n : ℕ} (hbase : 2 ≤ base) : ∀ d ∈ (ofNat base n).head?, d ≠ 0 := by
  rintro d hd rfl
  obtain ⟨rest, hrest⟩ := List.head?_eq_some_iff.mp hd
  have hn : n ≠ 0 := by
    rintro rfl
    have hnone := length_ofNat_le (by omega : 0 < base) (Nat.pow_pos (by omega) : 0 < base ^ 0)
    simp [hrest] at hnone
  -- With a zero in front, the other digits are too few for the number.
  have hlower := pow_length_ofNat_le hbase hn
  have hvalue := value_ofNat hbase n
  have hupper := Nat.ofDigits_lt_base_pow_length (b := base) (l := rest.reverse) hbase
    fun e he => lt_of_mem_ofNat (n := n) (by omega) (by simp_all)
  rw [hrest, value_cons, Nat.zero_mul, Nat.zero_add, value_eq_ofDigits] at hvalue
  rw [hvalue, List.length_reverse] at hupper
  rw [hrest, List.length_cons, Nat.add_sub_cancel] at hlower
  omega

theorem reverse_digits_value {base : ℕ} {ds : List ℕ} (hbase : 2 ≤ base)
    (hlt : ∀ d ∈ ds, d < base) (hfirst : ∀ d ∈ ds.head?, d ≠ 0) :
    (Nat.digits base (value base ds)).reverse = ds := by
  have hlast (hne : ds.reverse ≠ []) : ds.reverse.getLast hne ≠ 0 := by
    apply hfirst
    rw [List.getLast_reverse]
    exact List.head?_eq_some_head _
  rw [value_eq_ofDigits, Nat.digits_ofDigits base hbase _ (by simpa using hlt) hlast,
    List.reverse_reverse]

theorem ofNat_eq_reverse_digits {base : ℕ} (hbase : 2 ≤ base) (n : ℕ) :
    ofNat base n = (Nat.digits base n).reverse := by
  have h := reverse_digits_value hbase (fun d => lt_of_mem_ofNat (n := n) (by omega))
    (head?_ofNat hbase)
  rw [value_ofNat hbase] at h
  exact h.symm

theorem eq_ofNat_of_value {base n : ℕ} {ds : List ℕ} (hbase : 2 ≤ base)
    (hlt : ∀ d ∈ ds, d < base) (hfirst : ∀ d ∈ ds.head?, d ≠ 0) (hvalue : value base ds = n) :
    ds = ofNat base n := by
  rw [ofNat_eq_reverse_digits hbase, ← hvalue, reverse_digits_value hbase hlt hfirst]

/-! ## Zeros in front -/

theorem value_replicate_zero_append (base k : ℕ) (ds : List ℕ) :
    value base (List.replicate k 0 ++ ds) = value base ds := by
  induction k with
  | zero => rfl
  | succ k ih =>
    rw [List.replicate_succ, List.cons_append, value_cons, Nat.zero_mul, Nat.zero_add, ih]

theorem value_dropWhile_zero (base : ℕ) (ds : List ℕ) :
    value base (ds.dropWhile (· == 0)) = value base ds := by
  induction ds with
  | nil => rfl
  | cons d ds ih =>
    rw [List.dropWhile_cons]
    split
    case isTrue hd =>
      rw [ih, value_cons, beq_iff_eq.mp hd, Nat.zero_mul, Nat.zero_add]
    case isFalse => rfl

theorem value_append_replicate_zero (base k : ℕ) (ds : List ℕ) :
    value base (ds ++ List.replicate k 0) = value base ds * base ^ k := by
  have hzeros := value_replicate_zero_append base k []
  rw [List.append_nil] at hzeros
  rw [value_append, hzeros, List.length_replicate]
  rfl

end Digits

namespace Numeric

/-! ## Groups of four -/

/-- Decimal digits in groups of four, from the front. -/
def grouped (ds : List ℕ) : List ℕ :=
  if ds = [] then []
  else Digits.value 10 (ds.take digitWidth) :: grouped (ds.drop digitWidth)
termination_by ds.length
decreasing_by
  rename_i hne
  have := List.length_pos_iff.mpr hne
  rw [List.length_drop, digitWidth]
  omega

theorem length_take_of_dvd {ds : List ℕ} (hne : ds ≠ []) (h : digitWidth ∣ ds.length) :
    (ds.take digitWidth).length = digitWidth ∧ digitWidth ∣ (ds.drop digitWidth).length := by
  have hpos := List.length_pos_iff.mpr hne
  have hle := Nat.le_of_dvd hpos h
  refine ⟨List.length_take_of_le hle, ?_⟩
  rw [List.length_drop]
  exact Nat.dvd_sub h (dvd_refl digitWidth)

theorem length_grouped {ds : List ℕ} (h : digitWidth ∣ ds.length) :
    digitWidth * (grouped ds).length = ds.length := by
  fun_induction grouped ds with
  | case1 => rfl
  | case2 ds hne ih =>
    obtain ⟨hfour, hrest⟩ := length_take_of_dvd hne h
    have hsplit : ds.length = (ds.take digitWidth).length + (ds.drop digitWidth).length := by
      rw [← List.length_append, List.take_append_drop]
    rw [List.length_cons, Nat.mul_succ, ih hrest, hsplit, hfour, Nat.add_comm]

theorem value_grouped {ds : List ℕ} (h : digitWidth ∣ ds.length) :
    Digits.value base (grouped ds) = Digits.value 10 ds := by
  fun_induction grouped ds with
  | case1 => rfl
  | case2 ds hne ih =>
    obtain ⟨-, hrest⟩ := length_take_of_dvd hne h
    have hpow : base ^ (grouped (ds.drop digitWidth)).length =
        10 ^ (ds.drop digitWidth).length := by
      rw [← length_grouped hrest, Nat.pow_mul]
      rfl
    have hsplit := Digits.value_append 10 (ds.take digitWidth) (ds.drop digitWidth)
    rw [List.take_append_drop] at hsplit
    rw [value_cons, ih hrest, hpow, hsplit]

theorem grouped_lt {ds : List ℕ} (hds : ∀ d ∈ ds, d < 10) : AreDigits (grouped ds) := by
  fun_induction grouped ds with
  | case1 => exact nofun
  | case2 ds hne ih =>
    have hgroup : Digits.value 10 (ds.take digitWidth) < 10 ^ (ds.take digitWidth).length := by
      have h := Nat.ofDigits_lt_base_pow_length (b := 10) (l := (ds.take digitWidth).reverse)
        (by decide) fun d hd => hds d (List.mem_of_mem_take (List.mem_reverse.mp hd))
      rwa [← Digits.value_eq_ofDigits, List.length_reverse] at h
    have hwidth : 10 ^ (ds.take digitWidth).length ≤ base :=
      Nat.pow_le_pow_right (by decide) (List.length_take_le _ _)
    exact List.forall_mem_cons.mpr
      ⟨hgroup.trans_le hwidth, ih fun d hd => hds d (List.mem_of_mem_drop hd)⟩

/-! ## The stored digits from decimal ones -/

/-- The decimal digits of `magnitude`, filled up with zeros behind it to the next group, then in
front of it. -/
def filled (magnitude scale : ℕ) : List ℕ :=
  let ds := Digits.ofNat 10 magnitude ++ List.replicate (rightPad scale) 0
  List.replicate ((digitWidth - ds.length % digitWidth) % digitWidth) 0 ++ ds

/-- The stored digits of `magnitude * 10 ^ (-scale)` and the weight of the first. A group of zeros
in front that is dropped lowers the weight. -/
def regrouped (magnitude scale : ℕ) : List ℕ × ℤ :=
  let groups := grouped (filled magnitude scale)
  let weight : ℤ := groups.length - (scale + rightPad scale) / digitWidth - 1
  let rest := groups.dropWhile (· == 0)
  (Digits.trimEnd rest, weight - (groups.length - rest.length))

theorem dvd_length_filled (magnitude scale : ℕ) :
    digitWidth ∣ (filled magnitude scale).length := by
  unfold filled digitWidth
  simp only [List.length_append, List.length_replicate]
  omega

theorem value_filled (magnitude scale : ℕ) :
    Digits.value 10 (filled magnitude scale) = magnitude * 10 ^ rightPad scale := by
  unfold filled
  rw [Digits.value_replicate_zero_append, Digits.value_append_replicate_zero,
    Digits.value_ofNat (by decide)]

theorem filled_lt (magnitude scale : ℕ) : ∀ d ∈ filled magnitude scale, d < 10 := by
  intro d hd
  unfold filled at hd
  simp only [List.mem_append, List.mem_replicate] at hd
  rcases hd with ⟨-, rfl⟩ | hd | ⟨-, rfl⟩
  · decide
  · exact Digits.lt_of_mem_ofNat (by decide) hd
  · decide

theorem dropWhile_grouped (magnitude scale : ℕ) :
    (grouped (filled magnitude scale)).dropWhile (· == 0) = alignedDigits magnitude scale := by
  refine Digits.eq_ofNat_of_value (by decide) ?_ ?_ ?_
  · intro d hd
    exact grouped_lt (filled_lt magnitude scale) d ((List.dropWhile_sublist _).mem hd)
  · intro d hd
    obtain ⟨rest, hrest⟩ := List.head?_eq_some_iff.mp hd
    exact head_dropWhile_ne_zero hrest
  · rw [Digits.value_dropWhile_zero, value_grouped (dvd_length_filled magnitude scale),
      value_filled]

theorem regrouped_eq (magnitude scale : ℕ) : regrouped magnitude scale =
    (Digits.trimEnd (alignedDigits magnitude scale), alignedWeight magnitude scale) := by
  unfold regrouped
  dsimp only
  rw [dropWhile_grouped, alignedWeight]
  congr 1
  ring

/-! ## Numerics by regrouping -/

/-- The numeric of `unscaled * 10 ^ (-scale)`, made from the decimal digits of `unscaled`. -/
def ofDecimalDigits (unscaled : ℤ) (scale : ℕ) : Except NumericError Numeric :=
  if maxDisplayScale < scale then .error (.scaleOutOfRange scale)
  else if unscaled = 0 then ofParts .positive 0 scale []
  else
    let (digits, weight) := regrouped unscaled.natAbs scale
    ofParts (signOf unscaled) weight scale (digits.map Int.ofNat)

theorem isSpecial_signOf (n : ℤ) : (signOf n).isSpecial = false := by
  unfold signOf
  split <;> rfl

theorem ofParts_of_error {sign : Sign} {weight : ℤ} {scale : ℕ} {digits : List ℤ}
    {e : NumericError} (h : partsError? sign weight scale digits = some e) :
    ofParts sign weight scale digits = .error e := by
  unfold ofParts
  split
  · rename_i e' herror
    rw [h, Option.some.injEq] at herror
    rw [herror]
  · rename_i hnone
    rw [h] at hnone
    cases hnone

theorem partsError?_of_weight {sign : Sign} {weight : ℤ} {scale : ℕ} {digits : List ℕ}
    (hsign : sign.isSpecial = false) (hscale : scale ≤ maxDisplayScale) (hdigits : AreDigits digits)
    (hweight : ¬ (minWeight ≤ weight ∧ weight ≤ maxWeight)) :
    partsError? sign weight scale (digits.map Int.ofNat) = some (.weightOutOfRange weight) := by
  have hfind : (digits.map Int.ofNat).find? (!isDigit ·) = none := by
    simp only [List.find?_eq_none, Bool.not_eq_true', Bool.not_eq_false, isDigit_iff]
    intro d hd
    obtain ⟨e, he, rfl⟩ := List.mem_map.mp hd
    exact ⟨Int.natCast_nonneg e, Int.ofNat_lt.mpr (hdigits e he)⟩
  unfold partsError?
  simp [hsign, hfind, hweight, Nat.not_lt_of_le hscale]

/-- Both ways of making a numeric from an integer and a scale are one. -/
theorem ofDecimalDigits_eq (unscaled : ℤ) (scale : ℕ) :
    ofDecimalDigits unscaled scale = ofUnscaled unscaled scale := by
  unfold ofDecimalDigits
  split
  case isTrue hscale => exact (ofUnscaled_of_scale hscale).symm
  case isFalse hscale =>
    have hfits := Nat.le_of_not_lt hscale
    unfold ofUnscaled
    rw [dif_pos hfits]
    split
    case isTrue => exact ofParts_ok_iff.mpr ⟨rfl, rfl, rfl, rfl⟩
    case isFalse hne =>
      rw [regrouped_eq]
      dsimp only
      split
      case isTrue hweight => exact ofParts_ok_iff.mpr ⟨rfl, rfl, rfl, rfl⟩
      case isFalse hweight =>
        exact ofParts_of_error (partsError?_of_weight (isSpecial_signOf unscaled) hfits
          (digits_lt_base (unscaled.natAbs * 10 ^ rightPad scale)) hweight)

end Numeric

end ExactCompare
