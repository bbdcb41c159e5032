import ExactCompare.Comparison
import Mathlib.Data.Int.Order.Basic
import Mathlib.Order.Compare

/-!
# Rounding agrees with comparing

The floor and the ceiling of a decoded value are where the comparison with integers changes. Both
say that it is an integer in the same cases, and where there is nothing to round, all integers
compare alike.
-/

namespace ExactCompare

namespace Decoded

/-! ## Values without a sign -/

/-- A value with a fraction is above or below zero. -/
def IsSigned (d : Decoded) : Prop := d.hasFraction = true → d.sign ≠ .zero

theorem isSigned_special (s : Special) : (special s).IsSigned := nofun

theorem isSigned_ofParts (negative : Bool) (whole : Nat) (fraction : Bool) :
    (ofParts negative whole fraction).IsSigned := by
  unfold ofParts
  split
  · nofun
  · intro _
    unfold sign
    cases negative <;> nofun

end Decoded

theorem Numeric.isSigned_decode (n : Numeric) : n.decode.IsSigned := by
  unfold decode
  split
  · exact Decoded.isSigned_special _
  · exact Decoded.isSigned_special _
  · exact Decoded.isSigned_special _
  · exact Decoded.isSigned_ofParts _ _ _

theorem Binary.isSigned_decode {f : BinaryFormat} (b : Binary f) : b.decode.IsSigned := by
  unfold decode
  split
  · exact Decoded.isSigned_special _
  · exact Decoded.isSigned_special _
  · exact Decoded.isSigned_special _
  · split
    · exact Decoded.isSigned_ofParts _ _ _
    · exact Decoded.isSigned_ofParts _ _ _

theorem Inexact.isSigned_decode (v : Inexact) : v.decode.IsSigned := by
  cases v with
  | numeric n => exact n.isSigned_decode
  | float4 b => exact b.isSigned_decode
  | float8 b => exact b.isSigned_decode

namespace Decoded

variable {d : Decoded} {t : Int}

/-! ## The comparison next to the cut-off value -/

theorem compareInt_of_truncated (ht : d.truncated? = some t) (n : Int) :
    compareInt n d = .ordered (if n < t then .lt else if t < n then .gt
      else if d.hasFraction then if d.sign = .negative then .gt else .lt else .eq) := by
  cases d with
  | special s => cases ht
  | finite s part fraction =>
    cases part with
    | overflow => cases ht
    | finite magnitude =>
      obtain rfl := Option.some.inj ht
      unfold compareInt
      rcases lt_trichotomy n (s.toInt * magnitude) with h | h | h
      · simp [compare_lt_iff_lt.mpr h, h]
      · subst h
        have htie : compare (s.toInt * magnitude) (s.toInt * magnitude) = .eq :=
          compare_eq_iff_eq.mpr rfl
        simp only [htie, lt_irrefl, if_false, hasFraction, sign]
        cases fraction <;> rfl
      · simp [compare_gt_iff_gt.mpr h, h, h.not_gt]

theorem compareInt_of_not_truncated (ht : d.truncated? = none) (n m : Int) :
    compareInt n d = compareInt m d := by
  cases d with
  | special s => cases s <;> rfl
  | finite s part fraction =>
    cases part with
    | overflow => rfl
    | finite magnitude => cases ht

theorem exactIntegerEqual_of_not_truncated (ht : d.truncated? = none) (n : Int) :
    (compareInt n d).exactIntegerEqual = false := by
  cases d with
  | special s => cases s <;> rfl
  | finite s part fraction =>
    cases part with
    | overflow => cases s <;> rfl
    | finite magnitude => cases ht

/-! ## Rounding -/

theorem floor?_of_truncated (ht : d.truncated? = some t) :
    d.floor? = some (if d.hasFraction ∧ d.sign = .negative then t - 1 else t) := by
  simp [floor?, ht]

theorem ceil?_of_truncated (ht : d.truncated? = some t) :
    d.ceil? = some (if d.hasFraction ∧ d.sign = .positive then t + 1 else t) := by
  simp [ceil?, ht]

theorem le_floor_iff (ht : d.truncated? = some t) (n : Int) :
    n ≤ (if d.hasFraction ∧ d.sign = .negative then t - 1 else t) ↔
      (compareInt n d).ordering ≠ .gt := by
  rw [compareInt_of_truncated ht, Outcome.ordered]
  by_cases hbelow : d.hasFraction ∧ d.sign = .negative
  · simp only [hbelow, and_self, if_true]
    split_ifs
    all_goals simp
    all_goals omega
  · rw [if_neg hbelow]
    split_ifs with hlt hgt hfraction hsign
    · simp [hlt.le]
    · simp [hgt]
    · exact absurd ⟨hfraction, hsign⟩ hbelow
    all_goals simp [le_of_not_gt hgt]

theorem ceil_le_iff (hsigned : d.IsSigned) (ht : d.truncated? = some t) (n : Int) :
    (if d.hasFraction ∧ d.sign = .positive then t + 1 else t) ≤ n ↔
      (compareInt n d).ordering ≠ .lt := by
  rw [compareInt_of_truncated ht, Outcome.ordered]
  by_cases habove : d.hasFraction ∧ d.sign = .positive
  · simp only [habove, and_self, if_true, reduceCtorEq, if_false]
    split_ifs
    all_goals simp
    all_goals omega
  · rw [if_neg habove]
    have hnegative : d.hasFraction = true → d.sign = .negative := by
      intro hfraction
      have hne := hsigned hfraction
      cases hsign : d.sign with
      | negative => rfl
      | zero => exact absurd hsign hne
      | positive => exact absurd ⟨hfraction, hsign⟩ habove
    split_ifs <;> simp_all

/-! ## Both at once -/

/-- Rounding agrees with comparing. -/
structure RoundsAsCompared (d : Decoded) : Prop where
  /-- The integers up to the floor are those that are not above the value. -/
  floor : ∀ f, d.floor? = some f → ∀ n : Int, n ≤ f ↔ (compareInt n d).ordering ≠ .gt
  /-- The integers from the ceiling on are those that are not below it. -/
  ceil : ∀ c, d.ceil? = some c → ∀ n : Int, c ≤ n ↔ (compareInt n d).ordering ≠ .lt
  /-- A value is an integer when the comparison with that integer says so. -/
  exact : ∀ n : Int, d.exactInteger? = some n ↔ (compareInt n d).exactIntegerEqual = true
  /-- There is a floor, and a ceiling, when there is a cut-off value. -/
  together : d.floor?.isSome = d.truncated?.isSome ∧ d.ceil?.isSome = d.truncated?.isSome
  /-- Where there is none, every integer is on the same side. -/
  beyond : d.truncated? = none →
    ∀ n m : Int, (compareInt n d).ordering = (compareInt m d).ordering

theorem exactInteger?_eq_some_iff (n : Int) :
    d.exactInteger? = some n ↔ (compareInt n d).exactIntegerEqual = true := by
  cases ht : d.truncated? with
  | none => simp [exactInteger?, ht, exactIntegerEqual_of_not_truncated ht]
  | some t =>
    rw [compareInt_of_truncated ht, Outcome.ordered]
    by_cases hfraction : d.hasFraction = true
    · -- An integer on either side of a fraction is never equal to it.
      simp only [exactInteger?, hfraction, if_true, reduceCtorEq, false_iff]
      unfold Outcome.exactIntegerEqual
      split_ifs <;> decide
    · simp only [exactInteger?, hfraction, if_false, ht, Option.some.injEq, Bool.false_eq_true]
      unfold Outcome.exactIntegerEqual
      split_ifs
      all_goals simp
      all_goals omega

theorem IsSigned.roundsAsCompared (hsigned : d.IsSigned) : d.RoundsAsCompared where
  floor f hf n := by
    cases ht : d.truncated? with
    | none => simp [floor?, ht] at hf
    | some t =>
      obtain rfl := Option.some.inj ((floor?_of_truncated ht).symm.trans hf)
      exact le_floor_iff ht n
  ceil c hc n := by
    cases ht : d.truncated? with
    | none => simp [ceil?, ht] at hc
    | some t =>
      obtain rfl := Option.some.inj ((ceil?_of_truncated ht).symm.trans hc)
      exact ceil_le_iff hsigned ht n
  exact := exactInteger?_eq_some_iff
  together := by simp [floor?, ceil?]
  beyond ht n m := by rw [compareInt_of_not_truncated ht n m]

end Decoded

/-- **Rounding agrees with comparing.** For every column value: an integer is up to its floor when
it is not above the value, and from its ceiling on when it is not below; the value is an integer
when the comparison says so; and it has a floor, a ceiling and a cut-off value in the same cases,
all integers comparing alike in the others. -/
theorem rounding_agrees_with_comparing (v : Inexact) : v.decode.RoundsAsCompared :=
  v.isSigned_decode.roundsAsCompared

end ExactCompare
