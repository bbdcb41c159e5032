import ExactCompare.Proofs.Exact.Nearest

/-!
# The fields of a float

A float that is put together from an exponent and a fraction has these fields.
-/

namespace ExactCompare.Binary

-- Powers are those that `Nat` and `Int` come with.
attribute [local instance (2000)] instPowNat

variable {f : BinaryFormat}

theorem exponentField_lt (b : Binary f) : b.exponentField < 2 ^ f.exponentBits :=
  Nat.mod_lt _ (Nat.pow_pos (by decide))

theorem fractionField_lt (b : Binary f) : b.fractionField < 2 ^ f.fractionBits :=
  Nat.mod_lt _ (Nat.pow_pos (by decide))

theorem fields_lt {k r : ℕ} (hk : k < 2 ^ f.exponentBits) (hr : r < 2 ^ f.fractionBits) :
    k * 2 ^ f.fractionBits + r < 2 ^ f.magnitudeBits := by
  calc k * 2 ^ f.fractionBits + r < (k + 1) * 2 ^ f.fractionBits := by rw [Nat.add_mul]; omega
    _ ≤ 2 ^ f.exponentBits * 2 ^ f.fractionBits := Nat.mul_le_mul_right _ hk
    _ = 2 ^ f.magnitudeBits := by rw [BinaryFormat.magnitudeBits, Nat.pow_add]

theorem fields_ofMagnitude (negative : Bool) {k r : ℕ} (hk : k < 2 ^ f.exponentBits)
    (hr : r < 2 ^ f.fractionBits) :
    let b := ofMagnitude negative _ (fields_lt hk hr)
    b.isNegative = negative ∧ b.exponentField = k ∧ b.fractionField = r := by
  intro b
  have hpos : 0 < 2 ^ f.fractionBits := Nat.pow_pos (by decide)
  have hbits : b.bits =
      (k + if negative then 2 ^ f.exponentBits else 0) * 2 ^ f.fractionBits + r := by
    have hmagnitude : 2 ^ f.magnitudeBits = 2 ^ f.exponentBits * 2 ^ f.fractionBits := by
      rw [BinaryFormat.magnitudeBits, Nat.pow_add]
    show k * 2 ^ f.fractionBits + r + (if negative then 2 ^ f.magnitudeBits else 0) = _
    rw [hmagnitude]
    split <;> ring
  refine ⟨?_, ?_, ?_⟩
  · unfold isNegative
    show decide (2 ^ f.magnitudeBits ≤
      k * 2 ^ f.fractionBits + r + if negative then 2 ^ f.magnitudeBits else 0) = negative
    cases negative
    · simpa using fields_lt hk hr
    · simp
  · unfold exponentField
    rw [hbits, Nat.mul_comm, Nat.mul_add_div hpos, Nat.div_eq_of_lt hr, Nat.add_zero]
    split
    · rw [Nat.add_mod_right, Nat.mod_eq_of_lt hk]
    · rw [Nat.add_zero, Nat.mod_eq_of_lt hk]
  · unfold fractionField
    rw [hbits, Nat.mul_comm, Nat.mul_add_mod, Nat.mod_eq_of_lt hr]

end ExactCompare.Binary
