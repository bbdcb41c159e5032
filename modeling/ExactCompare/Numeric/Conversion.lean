import ExactCompare.ColumnType
import ExactCompare.Numeric

/-!
# Numerics from integers and decimals

A converted numeric has neither leading nor trailing zero digits and shows as
many decimals as the scale of the decimal it comes from.
-/

namespace ExactCompare.Numeric

-- Powers are those that `Nat` and `Int` come with.
attribute [local instance (2000)] instPowNat

/-- The most decimal digits before the point that a weight can reach. -/
def maxIntegralDigits : Nat := 131072

def signOf (n : Int) : Sign := if n < 0 then .negative else .positive

theorem signOf_not_special (n : Int) (digits : List Nat) :
    (signOf n).isSpecial = true → digits = [] := by
  unfold signOf
  split <;> simp [Sign.isSpecial]

theorem digits_lt_base (n : Nat) :
    ∀ d ∈ Digits.trimEnd (Digits.ofNat base n), d < base :=
  fun _ h => Digits.lt_of_mem_ofNat (by decide) (Digits.mem_of_mem_trimEnd h)

/-! ## Integers -/

theorem natAbs_lt_of_contains {n : Int} (h : IntegerType.int8.contains n = true) :
    n.natAbs < base ^ (5 : Nat) := by
  have range := IntegerType.contains_iff.mp h
  simp only [IntegerType.min, IntegerType.max] at range
  have : base ^ (5 : Nat) = 100000000000000000000 := by decide
  omega

theorem length_ofNat_natAbs_le {n : Int} (h : IntegerType.int8.contains n = true) :
    (Digits.ofNat base n.natAbs).length ≤ 5 :=
  Digits.length_ofNat_le (by decide) (natAbs_lt_of_contains h)

theorem weight_in_range {k : Nat} (h : k ≤ 5) :
    minWeight ≤ (k : Int) - 1 ∧ (k : Int) - 1 ≤ maxWeight := by
  simp only [minWeight, maxWeight]
  omega

/-- The numeric of a 64-bit integer. -/
def ofInt8 (n : Int) (inRange : IntegerType.int8.contains n = true) : Numeric :=
  if n = 0 then zero
  else {
    sign := signOf n
    weight := ((Digits.ofNat base n.natAbs).length : Int) - 1
    displayScale := 0
    digits := Digits.trimEnd (Digits.ofNat base n.natAbs)
    weight_ge := (weight_in_range (length_ofNat_natAbs_le inRange)).1
    weight_le := (weight_in_range (length_ofNat_natAbs_le inRange)).2
    displayScale_le := Nat.zero_le _
    digits_lt := digits_lt_base n.natAbs
    special := signOf_not_special n _ }

/-! ## Decimals -/

/-- How many zeros bring the point to the edge of a stored digit. -/
def rightPad (scale : Nat) : Nat := (digitWidth - scale % digitWidth) % digitWidth

/-- The numeric of `unscaled * 10 ^ (-scale)`. -/
def ofUnscaled (unscaled : Int) (scale : Nat) : Except NumericError Numeric :=
  if fits : scale ≤ maxDisplayScale then
    if unscaled = 0 then .ok { zero with displayScale := scale, displayScale_le := fits }
    else
      let digits := Digits.ofNat base (unscaled.natAbs * 10 ^ rightPad scale)
      let weight : Int := digits.length - (scale + rightPad scale) / digitWidth - 1
      if inRange : minWeight ≤ weight ∧ weight ≤ maxWeight then
        .ok {
          sign := signOf unscaled
          weight
          displayScale := scale
          digits := Digits.trimEnd digits
          weight_ge := inRange.1
          weight_le := inRange.2
          displayScale_le := fits
          digits_lt := digits_lt_base _
          special := signOf_not_special unscaled _ }
      else .error (.weightOutOfRange weight)
  else .error (.scaleOutOfRange scale)

/-- A negative scale is written out as zeros, once it is clear that they fit. -/
def ofDecimal (d : Decimal) : Except NumericError Numeric :=
  if 0 ≤ d.scale then ofUnscaled d.unscaled d.scale.toNat
  else if d.unscaled = 0 then .ok zero
  else
    let integralDigits := d.precision + d.scale.natAbs
    if maxIntegralDigits < integralDigits then
      .error (.weightOutOfRange ((integralDigits - 1) / digitWidth))
    else ofUnscaled (d.unscaled * 10 ^ d.scale.natAbs) 0

end ExactCompare.Numeric
