import ExactCompare.Hash.Integer

/-!
# Seeded hashes extend the plain ones

A hash with a seed is twice as wide. With the seed 0 its lower half is the plain hash, so both
can be used for the same value.
-/

namespace ExactCompare

namespace Hash

/-! ## Lower halves -/

theorem toUInt32_join (high low : UInt32) :
    (high.toUInt64 <<< 32 ||| low.toUInt64).toUInt32 = low := by
  have hshift : (high.toUInt64 <<< 32).toUInt32 = 0 := by
    apply UInt32.toNat_inj.mp
    simp [Nat.shiftLeft_eq]
  rw [UInt64.toUInt32_or, hshift, UInt32.toUInt32_toUInt64, UInt32.zero_or]

theorem toUInt32_word64 (n : Int) : (word64 n).toUInt32 = word32 n := by
  apply UInt32.toNat_inj.mp
  simp only [word64, word32, UInt64.toNat_toUInt32, UInt64.toNat_ofNat', UInt32.toNat_ofNat']
  omega

/-! ## What is hashed -/

theorem State.seed_zero (s : State) : s.seed 0 = s := if_pos rfl

theorem toUInt32_bytesExtended (key : List UInt8) :
    (bytesExtended key 0).toUInt32 = bytes key := by
  unfold bytesExtended bytes
  rw [State.seed_zero]
  exact toUInt32_join _ _

theorem toUInt32_digitsExtended (ds : List Nat) (weight : Int) :
    (digitsExtended ds weight 0).toUInt32 = digits ds weight := by
  unfold digitsExtended digits
  cases significant? ds weight with
  | none => rfl
  | some result =>
    obtain ⟨ds, weight⟩ := result
    dsimp only
    rw [UInt64.toUInt32_xor, toUInt32_bytesExtended, toUInt32_word64]

theorem toUInt32_numericExtended (n : Numeric) : (numericExtended n 0).toUInt32 = numeric n := by
  unfold numericExtended numeric
  split
  · rfl
  · exact toUInt32_digitsExtended n.digits n.weight

theorem toUInt32_float8Extended (b : Float8) : (float8Extended b 0).toUInt32 = float8 b := by
  unfold float8Extended float8
  cases float8Bytes? b with
  | none => rfl
  | some key => exact toUInt32_bytesExtended key

/-! ## Values and integers -/

theorem toUInt32_hashExtended (v : Inexact) : (v.hashExtended 0).toUInt32 = v.hash := by
  cases v with
  | numeric n => exact toUInt32_numericExtended n
  | float4 b => exact toUInt32_float8Extended _
  | float8 b => exact toUInt32_float8Extended b

theorem toUInt32_integerExtended (n : Int) (target : InexactType) :
    (integerExtended n target 0).toUInt32 = integer n target := by
  cases target with
  | numeric => exact toUInt32_digitsExtended _ _
  | float4 => exact toUInt32_float8Extended _
  | float8 => exact toUInt32_float8Extended _

end Hash

/-! ## The theorem -/

/-- **Seeded hashes extend the plain ones.** With the seed 0, the lower half is the plain hash of
the same byte string, of the same value, and of the same integer as a value of each type. -/
theorem seeded_hashes_extend_plain_ones :
    (∀ key : List UInt8, (Hash.bytesExtended key 0).toUInt32 = Hash.bytes key) ∧
      (∀ v : Inexact, (v.hashExtended 0).toUInt32 = v.hash) ∧
      ∀ (n : Int) (target : InexactType),
        (Hash.integerExtended n target 0).toUInt32 = Hash.integer n target := by
  refine ⟨?_, ?_, ?_⟩
  · exact Hash.toUInt32_bytesExtended
  · exact Hash.toUInt32_hashExtended
  · exact Hash.toUInt32_integerExtended

end ExactCompare
