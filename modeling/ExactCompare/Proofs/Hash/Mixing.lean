import ExactCompare.Hash.Bytes
import Mathlib.Logic.Function.Basic

/-!
# Mixing keeps states apart

Each step of mixing can be taken back: a word that goes into another one is still there
afterwards. So different states never become the same.
-/

namespace ExactCompare.Hash.State

open Function

variable {f : State → UInt32 → State}

theorem turn_injective : Injective turn := by
  rintro ⟨a, b, c⟩ ⟨a', b', c'⟩ h
  simp only [turn, mk.injEq] at h
  obtain ⟨rfl, rfl, rfl⟩ := h
  rfl

theorem mixStep_injective (n : UInt32) : Injective (mixStep · n) := by
  rintro ⟨a, b, c⟩ ⟨a', b', c'⟩ h
  simp only [mixStep, mk.injEq] at h
  obtain ⟨ha, rfl, hc⟩ := h
  obtain rfl := (UInt32.add_left_inj b).mp hc
  have hsub := (UInt32.xor_left_inj (rotateLeft c n)).mp ha
  obtain rfl := (UInt32.sub_left_inj c).mp hsub
  rfl

theorem finalStep_injective (n : UInt32) : Injective (finalStep · n) := by
  rintro ⟨a, b, c⟩ ⟨a', b', c'⟩ h
  simp only [finalStep, mk.injEq] at h
  obtain ⟨rfl, rfl, hc⟩ := h
  have hxor := (UInt32.sub_left_inj (rotateLeft b n)).mp hc
  obtain rfl := (UInt32.xor_left_inj b).mp hxor
  rfl

theorem foldl_turn_injective (hf : ∀ n, Injective (f · n)) (rotations : List UInt32) :
    Injective fun s : State => rotations.foldl (fun s n => (f s n).turn) s := by
  induction rotations with
  | nil => exact injective_id
  | cons n rotations ih => exact ih.comp (turn_injective.comp (hf n))

theorem mix_injective : Injective mix := foldl_turn_injective mixStep_injective _

theorem finalMix_injective : Injective finalMix :=
  turn_injective.comp (turn_injective.comp (foldl_turn_injective finalStep_injective _))

end ExactCompare.Hash.State
