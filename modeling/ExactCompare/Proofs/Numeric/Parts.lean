import ExactCompare.Numeric
import Mathlib.Data.Nat.Notation
import Mathlib.Data.Int.Notation

/-!
# Numerics from parts

Parts that pass the checks are stored as they are given, and the parts of every numeric pass.
-/

namespace ExactCompare.Numeric

variable {sign : Sign} {weight : ℤ} {displayScale : ℕ} {digits : List ℤ}

theorem isDigit_iff (d : ℤ) : isDigit d = true ↔ 0 ≤ d ∧ d < base := by
  unfold isDigit
  rw [Bool.and_eq_true, decide_eq_true_iff, decide_eq_true_iff]

theorem partsError?_eq_none_iff : partsError? sign weight displayScale digits = none ↔
    (sign.isSpecial = true → digits = []) ∧ displayScale ≤ maxDisplayScale ∧
      (∀ d ∈ digits, 0 ≤ d ∧ d < base) ∧ minWeight ≤ weight ∧ weight ≤ maxWeight := by
  have hdigits : digits.find? (!isDigit ·) = none ↔ ∀ d ∈ digits, 0 ≤ d ∧ d < base := by
    simp only [List.find?_eq_none, Bool.not_eq_true', Bool.not_eq_false, isDigit_iff]
  have hspecial : (sign.isSpecial && !digits.isEmpty) = true ↔
      ¬ (sign.isSpecial = true → digits = []) := by simp
  rw [← hdigits]
  unfold partsError?
  split
  · rename_i h
    exact iff_of_false (by simp) fun hparts => hspecial.mp h hparts.1
  rename_i h
  rw [hspecial, Decidable.not_not] at h
  split
  · rename_i hscale
    exact iff_of_false (by simp) fun hparts => absurd hparts.2.1 (by omega)
  · rename_i hscale
    split
    · rename_i d hfind
      exact iff_of_false (by simp) fun hparts => by simp [hfind] at hparts
    · rename_i hfind
      simpa [hfind, Nat.le_of_not_lt hscale] using fun _ _ => h

theorem ofParts_ok_iff {n : Numeric} : ofParts sign weight displayScale digits = .ok n ↔
    n.sign = sign ∧ n.weight = weight ∧ n.displayScale = displayScale ∧
      n.digits.map Int.ofNat = digits := by
  constructor
  · intro h
    unfold ofParts at h
    split at h
    · cases h
    · rename_i hparts
      obtain rfl := Except.ok.inj h
      refine ⟨rfl, rfl, rfl, ?_⟩
      obtain ⟨-, -, hdigits, -⟩ := partsError?_eq_none_iff.mp hparts
      have hkept : ∀ d ∈ digits, (Int.ofNat ∘ Int.toNat) d = id d := fun d hd =>
        Int.toNat_of_nonneg (hdigits d hd).1
      rw [List.map_map, List.map_congr_left hkept, List.map_id]
  · rintro ⟨rfl, rfl, rfl, rfl⟩
    have hparts : partsError? n.sign n.weight n.displayScale (n.digits.map Int.ofNat) = none := by
      rw [partsError?_eq_none_iff]
      refine ⟨fun hsign => by rw [n.special hsign]; rfl, n.displayScale_le, ?_, n.weight_ge,
        n.weight_le⟩
      intro d hd
      obtain ⟨e, he, rfl⟩ := List.mem_map.mp hd
      exact ⟨Int.natCast_nonneg e, Int.ofNat_lt.mpr (n.digits_lt e he)⟩
    unfold ofParts
    split
    · rename_i e herror
      rw [hparts] at herror
      cases herror
    · have hdigits : (n.digits.map Int.ofNat).map Int.toNat = n.digits := by
        rw [List.map_map]
        exact List.map_id n.digits
      simp only [hdigits]

end ExactCompare.Numeric
