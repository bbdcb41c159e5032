import ExactCompare.Proofs.Exact.OnePass
import ExactCompare.Proofs.Exact.Truncation
import ExactCompare.Proofs.Exact.Widening
import ExactCompare.Proofs.Numeric.Parts

/-!
# Decoding keeps what comparisons need

Every numeric and every float decodes to the sign, the integer part and the fraction flag of the
rational that it stands for, however its digits or bits are laid out.
-/

namespace ExactCompare

-- Powers are those that `Nat` and `Int` come with.
attribute [local instance (2000)] instPowNat

/-! ## What is kept of a rational -/

/-- All that a decoded value says is so of `q`. The integer part is exact up to `2 ^ 63`. -/
structure Decoded.Keeps (d : Decoded) (q : ℚ) : Prop where
  zero : d = .zero ↔ q = 0
  negative : d.sign = .negative ↔ q < 0
  positive : d.sign = .positive ↔ 0 < q
  fraction : d.hasFraction = true ↔ ∀ n : ℤ, q ≠ n
  integerPart : d.integerPart? = some (if ⌊|q|⌋₊ ≤ 2 ^ 63 then .finite ⌊|q|⌋₊ else .overflow)

theorem fract_ne_zero_iff (q : ℚ) : Int.fract q ≠ 0 ↔ ∀ n : ℤ, q ≠ n := by
  rw [ne_eq, Int.fract_eq_zero_iff, Set.mem_range, not_exists]
  simp only [eq_comm, ne_eq]

theorem Decoded.ofRat_keeps (q : ℚ) : (ofRat q).Keeps q where
  zero := by
    rcases ofRat_cases q with ⟨hq, h⟩ | ⟨hq, h⟩
    · exact iff_of_true h hq
    · refine iff_of_false ?_ hq
      rw [h, Decoded.zero]
      intro hzero
      injection hzero with hsign
      split at hsign <;> contradiction
  negative := sign_ofRat q
  positive := sign_ofRat_positive q
  fraction := by rw [hasFraction_ofRat, decide_eq_true_iff, fract_ne_zero_iff]
  integerPart := by
    rcases ofRat_cases q with ⟨rfl, h⟩ | ⟨-, h⟩
    · simp [h, Decoded.zero, integerPart?]
    · rw [h]
      rfl

/-! ## Numerics -/

namespace Numeric

/-- Decoding gives what the digits stand for. -/
structure DecodesExactly (n : Numeric) : Prop where
  accepted : ∀ sign weight displayScale digits, ofParts sign weight displayScale digits = .ok n ↔
    n.sign = sign ∧ n.weight = weight ∧ n.displayScale = displayScale ∧
      n.digits.map Int.ofNat = digits
  nan : n.sign = .nan → n.decode = .special .nan
  infinity : n.sign = .infinity → n.decode = .special .infinity
  negInfinity : n.sign = .negInfinity → n.decode = .special .negInfinity
  positive : n.sign = .positive → n.decode.Keeps n.magnitude
  negative : n.sign = .negative → n.decode.Keeps (-n.magnitude)
  onePass : n.decodeInOnePass = n.decode
  equal : ∀ m : Numeric, m.exactValue = n.exactValue → m.decode = n.decode

end Numeric

/-- **Numerics decode exactly.** Zero digits make no difference, wherever they stand, and the integer
part is only given up if it is past `2 ^ 63`. -/
theorem numeric_decoding_is_exact (n : Numeric) : n.DecodesExactly where
  accepted _ _ _ _ := Numeric.ofParts_ok_iff
  nan h := by
    unfold Numeric.decode
    rw [h]
  infinity h := by
    unfold Numeric.decode
    rw [h]
  negInfinity h := by
    unfold Numeric.decode
    rw [h]
  positive h := by
    rw [n.decode_eq_ofExact, Numeric.exactValue, h]
    exact Decoded.ofRat_keeps n.magnitude
  negative h := by
    rw [n.decode_eq_ofExact, Numeric.exactValue, h]
    exact Decoded.ofRat_keeps (-n.magnitude)
  onePass := n.decodeInOnePass_eq
  equal m h := by rw [m.decode_eq_ofExact, n.decode_eq_ofExact, h]

/-! ## Floats -/

namespace Binary

variable {f : BinaryFormat}

/-- Decoding gives what the bits stand for. -/
structure DecodesExactly (b : Binary f) : Prop where
  nan : b.exponentField = f.specialExponent → b.fractionField ≠ 0 → b.decode = .special .nan
  infinity : b.exponentField = f.specialExponent → b.fractionField = 0 →
    b.decode = .special (if b.isNegative then .negInfinity else .infinity)
  zero : b.exponentField ≠ f.specialExponent →
    (b.decode = .zero ↔ b.exponentField = 0 ∧ b.fractionField = 0)
  finite : b.exponentField ≠ f.specialExponent → b.decode.Keeps b.rational
  byTruncating : b.decodeByTruncating = b.decode

theorem rational_eq_zero_iff (b : Binary f) :
    b.rational = 0 ↔ b.exponentField = 0 ∧ b.fractionField = 0 := by
  have hsign : (if b.isNegative then -1 else 1 : ℚ) ≠ 0 := by split <;> norm_num
  unfold rational
  dsimp only
  split
  · rename_i hexponent
    rw [mul_eq_zero, or_iff_left (zpow_ne_zero _ two_ne_zero), mul_eq_zero, or_iff_right hsign]
    simp [hexponent]
  · rename_i hexponent
    have hmantissa : (1 + b.fractionField / 2 ^ f.fractionBits : ℚ) ≠ 0 := by positivity
    refine iff_of_false ?_ fun h => hexponent h.1
    exact mul_ne_zero (mul_ne_zero hsign hmantissa) (zpow_ne_zero _ two_ne_zero)

theorem decodesExactly (b : Binary f) : b.DecodesExactly := by
  have hfinite : b.exponentField ≠ f.specialExponent → b.decode.Keeps b.rational := by
    intro h
    rw [b.decode_eq_ofExact, exactValue, if_neg h]
    exact Decoded.ofRat_keeps b.rational
  refine ⟨?_, ?_, ?_, hfinite, b.decodeByTruncating_eq⟩
  · intro hexponent hfraction
    rw [b.decode_eq_ofExact, exactValue, if_pos hexponent, if_neg hfraction]
    rfl
  · intro hexponent hfraction
    rw [b.decode_eq_ofExact, exactValue, if_pos hexponent, if_pos hfraction]
    split <;> rfl
  · intro h
    rw [(hfinite h).zero, rational_eq_zero_iff]

end Binary

/-- **Floats decode exactly.** A float of 32 bits decodes as the float of 64 bits that has its
value, and widening gives that float. -/
theorem float_decoding_is_exact :
    (∀ b : Float8, b.DecodesExactly) ∧
      ∀ b : Float4, b.DecodesExactly ∧ (b.convert .binary64).exactValue = b.exactValue ∧
        ∀ c : Float8, c.exactValue = b.exactValue → b.decode = c.decode := by
  refine ⟨fun b => b.decodesExactly, fun b => ⟨b.decodesExactly, b.exactValue_convert, ?_⟩⟩
  intro c hc
  rw [b.decode_eq_ofExact, c.decode_eq_ofExact, hc]

/-- The smallest float of 32 bits above zero. -/
example : (⟨1, by decide⟩ : Float4).decode = .finite .positive (.finite 0) true := by decide

end ExactCompare
