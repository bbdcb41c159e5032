import ExactCompare.Proofs.Hash.Equal
import ExactCompare.Proofs.Numeric.Regrouping

/-!
# Canonical numerics

A canonical numeric has no zero digit at either end, and zero has no digits at all. A value has one
canonical numeric, up to the number of decimals that are shown. Every numeric that is made from a
decimal is canonical.
-/

namespace ExactCompare

-- Powers are those that `Nat` and `Int` come with.
attribute [local instance (2000)] instPowNat

namespace Digits

/-! ## Without zeros at the end -/

theorem getLast?_trimEnd (ds : List ℕ) : ∀ d ∈ (trimEnd ds).getLast?, d ≠ 0 := by
  intro d hd
  rw [trimEnd, List.getLast?_reverse] at hd
  obtain ⟨rest, hrest⟩ := List.head?_eq_some_iff.mp hd
  exact head_dropWhile_ne_zero hrest

theorem trimEnd_of_last {ds : List ℕ} (h : ∀ d ∈ ds.getLast?, d ≠ 0) : trimEnd ds = ds := by
  rw [← List.head?_reverse] at h
  unfold trimEnd
  cases hds : ds.reverse with
  | nil => simpa using hds.symm
  | cons d rest =>
    have hd : d ≠ 0 := h d (by rw [hds]; rfl)
    rw [List.dropWhile_cons_of_neg (by simpa using hd), ← hds, List.reverse_reverse]

theorem length_trimEnd_le (ds : List ℕ) : (trimEnd ds).length ≤ ds.length := by
  rw [trimEnd, List.length_reverse, ← ds.length_reverse]
  exact (List.dropWhile_sublist _).length_le

theorem trimEnd_cons_of_first {d : ℕ} (ds : List ℕ) (hd : d ≠ 0) :
    trimEnd (d :: ds) = d :: trimEnd ds := by
  rw [trimEnd_cons, if_neg]
  exact fun h => hd h.1

end Digits

namespace Numeric

variable {m n : Numeric}

/-! ## The canonical form -/

/-- The digits have no zero at either end. Zero has no digits, no sign and no weight. -/
structure IsCanonical (n : Numeric) : Prop where
  finite : n.sign.isSpecial = false
  first : ∀ d ∈ n.digits.head?, d ≠ 0
  last : ∀ d ∈ n.digits.getLast?, d ≠ 0
  zero : n.digits = [] → n.sign = .positive ∧ n.weight = 0

/-- Numerics that may differ in the number of decimals they show, and in nothing else. -/
structure Alike (m n : Numeric) : Prop where
  sign : m.sign = n.sign
  weight : m.weight = n.weight
  digits : m.digits = n.digits

theorem Alike.eq (h : m.Alike n) (hscale : m.displayScale = n.displayScale) : m = n := by
  obtain ⟨hsign, hweight, hdigits⟩ := h
  cases m
  cases n
  simp_all

theorem IsCanonical.magnitude_eq_zero_iff (h : n.IsCanonical) :
    n.magnitude = 0 ↔ n.digits = [] := by
  rw [magnitude_eq_digitSum, digitSum_eq_zero_iff]
  constructor
  · intro hzeros
    cases hds : n.digits with
    | nil => rfl
    | cons d ds =>
      have hhead : n.digits.head? = some d := by rw [hds]; rfl
      exact absurd (hzeros d (by rw [hds]; exact List.mem_cons_self)) (h.first d hhead)
  · intro hnil
    rw [hnil]
    exact List.forall_mem_nil _

theorem IsCanonical.negative_iff (h : n.IsCanonical) : n.sign = .negative ↔ n.rational < 0 := by
  have hnonneg := n.magnitude_nonneg
  unfold rational
  constructor
  · intro hsign
    rw [if_pos hsign, neg_lt_zero]
    refine lt_of_le_of_ne hnonneg fun hzero => ?_
    have hpositive := (h.zero (h.magnitude_eq_zero_iff.mp hzero.symm)).1
    rw [hsign] at hpositive
    cases hpositive
  · intro hlt
    by_contra hsign
    rw [if_neg hsign] at hlt
    exact absurd hlt (not_lt.mpr hnonneg)

theorem IsCanonical.sign_eq (h : n.IsCanonical) :
    n.sign = if n.rational < 0 then .negative else .positive := by
  split
  case isTrue hlt => exact h.negative_iff.mpr hlt
  case isFalse hlt =>
    have hsign := mt h.negative_iff.mp hlt
    have hfinite := h.finite
    cases hs : n.sign with
    | positive => rfl
    | negative => exact absurd hs hsign
    | nan | infinity | negInfinity =>
      rw [hs] at hfinite
      cases hfinite

theorem IsCanonical.weight_le (hm : m.IsCanonical) (hdigits : m.digits ≠ [])
    (h : m.magnitude = n.magnitude) : m.weight ≤ n.weight := by
  rw [magnitude_eq_digitSum, magnitude_eq_digitSum] at h
  obtain ⟨d, ds, hds⟩ := List.exists_cons_of_ne_nil hdigits
  have hfirst := hm.first d (by rw [hds]; rfl)
  rw [hds] at h
  exact place_le_of_digitSum_eq hfirst n.digits_lt h

/-- **A value has one canonical form.** -/
theorem IsCanonical.alike (hm : m.IsCanonical) (hn : n.IsCanonical)
    (h : m.rational = n.rational) : m.Alike n := by
  have hmagnitude : m.magnitude = n.magnitude := by rw [← abs_rational, ← abs_rational, h]
  have hsign : m.sign = n.sign := by rw [hm.sign_eq, hn.sign_eq, h]
  by_cases hnil : m.digits = []
  · have hzero := hm.magnitude_eq_zero_iff.mpr hnil
    have hnil' := hn.magnitude_eq_zero_iff.mp (hmagnitude ▸ hzero)
    refine ⟨hsign, ?_, hnil.trans hnil'.symm⟩
    rw [(hm.zero hnil).2, (hn.zero hnil').2]
  · have hnil' : n.digits ≠ [] := fun hnil' =>
      hnil (hm.magnitude_eq_zero_iff.mp (hmagnitude ▸ hn.magnitude_eq_zero_iff.mpr hnil'))
    have hweight := le_antisymm (hm.weight_le hnil hmagnitude)
      (hn.weight_le hnil' hmagnitude.symm)
    rw [magnitude_eq_digitSum, magnitude_eq_digitSum, hweight] at hmagnitude
    have hdigits := trimEnd_eq_of_digitSum_eq m.digits_lt n.digits_lt hmagnitude
    rw [Digits.trimEnd_of_last hm.last, Digits.trimEnd_of_last hn.last] at hdigits
    exact ⟨hsign, hweight, hdigits⟩

/-! ## Numerics from decimals -/

variable {unscaled : ℤ} {scale : ℕ}

theorem isCanonical_zero (k : ℕ) (hk : k ≤ maxDisplayScale) :
    IsCanonical { zero with displayScale := k, displayScale_le := hk } :=
  ⟨rfl, nofun, nofun, fun _ => ⟨rfl, rfl⟩⟩

theorem isCanonical_of_digits {number : ℕ} (hnumber : number ≠ 0)
    (hsign : n.sign.isSpecial = false)
    (hdigits : n.digits = Digits.trimEnd (Digits.ofNat base number)) : n.IsCanonical := by
  have hbase : 2 ≤ base := by decide
  obtain ⟨d, ds, hds⟩ :=
    List.exists_cons_of_length_pos (Digits.length_ofNat_pos hbase hnumber)
  have hd : d ≠ 0 := Digits.head?_ofNat hbase d (by rw [hds]; rfl)
  rw [hds, Digits.trimEnd_cons_of_first ds hd] at hdigits
  refine ⟨hsign, ?_, ?_, ?_⟩
  · rw [hdigits]
    rintro e ⟨rfl⟩
    exact hd
  · rw [hdigits, ← Digits.trimEnd_cons_of_first ds hd]
    exact Digits.getLast?_trimEnd (d :: ds)
  · rw [hdigits]
    exact fun hnil => absurd hnil (List.cons_ne_nil _ _)

theorem isCanonical_of_ofUnscaled (h : ofUnscaled unscaled scale = .ok n) :
    n.IsCanonical ∧ n.displayScale = scale := by
  unfold ofUnscaled at h
  split at h
  case isFalse => cases h
  case isTrue hfits =>
    split at h
    case isTrue =>
      obtain rfl := Except.ok.inj h
      exact ⟨isCanonical_zero scale hfits, rfl⟩
    case isFalse hne =>
      dsimp only at h
      split at h
      case isFalse => cases h
      case isTrue =>
        obtain rfl := Except.ok.inj h
        have hnumber : unscaled.natAbs * 10 ^ rightPad scale ≠ 0 :=
          Nat.mul_ne_zero (Int.natAbs_ne_zero.mpr hne) (Nat.pow_pos (by decide)).ne'
        exact ⟨isCanonical_of_digits hnumber (isSpecial_signOf unscaled) rfl, rfl⟩

/-! ## The conversion gives the canonical form -/

variable {d : Decimal}

theorem isCanonical_of_ofDecimal (h : ofDecimal d = .ok n) :
    n.IsCanonical ∧ (n.displayScale : ℤ) = max d.scale 0 := by
  unfold ofDecimal at h
  split at h
  case isTrue hscale =>
    obtain ⟨hcanonical, hshown⟩ := isCanonical_of_ofUnscaled h
    exact ⟨hcanonical, by rw [hshown, Int.toNat_of_nonneg hscale, max_eq_left hscale]⟩
  case isFalse hscale =>
    have hmax : max d.scale 0 = 0 := max_eq_right (not_le.mp hscale).le
    rw [hmax]
    split at h
    case isTrue =>
      obtain rfl := Except.ok.inj h
      exact ⟨isCanonical_zero 0 (Nat.zero_le _), rfl⟩
    case isFalse =>
      dsimp only at h
      split at h
      case isTrue => cases h
      case isFalse =>
        obtain ⟨hcanonical, hshown⟩ := isCanonical_of_ofUnscaled h
        exact ⟨hcanonical, by rw [hshown]; rfl⟩

theorem fits_of_ofDecimal (h : ofDecimal d = .ok n) :
    d.scale ≤ maxDisplayScale ∧ |d.toRat| < 10 ^ maxIntegralDigits := by
  have hscale : d.scale ≤ maxDisplayScale := by
    by_contra hfine
    rw [ofDecimal_of_scale (not_le.mp hfine)] at h
    cases h
  refine ⟨hscale, ?_⟩
  by_contra hlarge
  rw [ofDecimal_of_large hscale (not_lt.mp hlarge)] at h
  cases h

theorem rational_of_ofDecimal (h : ofDecimal d = .ok n) : n.rational = d.toRat := by
  obtain ⟨hscale, hsmall⟩ := fits_of_ofDecimal h
  obtain ⟨m, hm, hvalue⟩ := ofDecimal_of_small hscale hsmall
  obtain rfl := Except.ok.inj (hm.symm.trans h)
  rw [exactValue_of_finite (isCanonical_of_ofDecimal h).1.finite] at hvalue
  exact ExactValue.ofRat_inj hvalue

theorem magnitude_lt (n : Numeric) : n.magnitude < 10 ^ maxIntegralDigits := by
  rw [magnitude_eq_digitSum, pow_maxIntegralDigits]
  have hweight : n.weight + 1 ≤ maxWeight + 1 := by
    have := n.weight_le
    omega
  exact (digitSum_lt _ _ n.digits_lt).trans_le (zpow_le_zpow_right₀ (by norm_num) hweight)

/-- **What a conversion gives.** The numeric of a decimal is the canonical numeric of its value that
shows the decimals of its scale. -/
theorem ofDecimal_eq_ok_iff : ofDecimal d = .ok n ↔
    n.IsCanonical ∧ n.rational = d.toRat ∧ (n.displayScale : ℤ) = max d.scale 0 := by
  constructor
  · intro h
    obtain ⟨hcanonical, hshown⟩ := isCanonical_of_ofDecimal h
    exact ⟨hcanonical, rational_of_ofDecimal h, hshown⟩
  · rintro ⟨hcanonical, hvalue, hshown⟩
    have hscale : d.scale ≤ maxDisplayScale := by
      have := n.displayScale_le
      omega
    have hsmall : |d.toRat| < 10 ^ maxIntegralDigits := by
      rw [← hvalue, abs_rational]
      exact n.magnitude_lt
    obtain ⟨m, hm, -⟩ := ofDecimal_of_small hscale hsmall
    obtain ⟨hcanonical', hshown'⟩ := isCanonical_of_ofDecimal hm
    have halike := hcanonical'.alike hcanonical ((rational_of_ofDecimal hm).trans hvalue.symm)
    rw [hm, halike.eq (by exact_mod_cast hshown'.trans hshown.symm)]

end Numeric

end ExactCompare
