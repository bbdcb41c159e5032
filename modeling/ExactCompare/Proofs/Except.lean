/-!
# Steps that may fail

A computation of several steps succeeds exactly if each of its steps does.
-/

namespace ExactCompare

theorem bind_ok_iff {ε α β : Type} {x : Except ε α} {f : α → Except ε β} {b : β} :
    (do let a ← x; f a) = .ok b ↔ ∃ a, x = .ok a ∧ f a = .ok b := by
  cases x with
  | error e => exact ⟨nofun, nofun⟩
  | ok a =>
    constructor
    · intro h
      exact ⟨a, rfl, h⟩
    · rintro ⟨_, ⟨rfl⟩, h⟩
      exact h

theorem map_ok_iff {ε α β : Type} {x : Except ε α} {f : α → β} {b : β} :
    (do let a ← x; return f a) = .ok b ↔ ∃ a, x = .ok a ∧ f a = b := by
  rw [bind_ok_iff]
  simp only [pure, Except.pure, Except.ok.injEq]

end ExactCompare
