import ExactCompare.Literal
import ExactCompare.ComparisonOp
import Mathlib.Algebra.BigOperators.Fin
import Mathlib.Algebra.Order.Ring.Rat
import Mathlib.Data.Rat.Cast.Order
import Mathlib.Order.WithBot

/-!
# What operands stand for

Every operand stands for an exact value: a rational, an infinity, or NaN. An
integer stands for itself, a numeric for the sum of its digits, and a float for
what IEEE 754 reads from its bits.
-/

namespace ExactCompare

-- Powers are those that `Nat` and `Int` come with.
attribute [local instance (2000)] instPowNat

/-- The rationals between two infinities. -/
abbrev ExtendedRat := WithBot (WithTop ℚ)

inductive ExactValue where
  | number (x : ExtendedRat)
  | nan

namespace ExactValue

def ofRat (q : ℚ) : ExactValue := number ((q : WithTop ℚ) : WithBot (WithTop ℚ))

def infinity : ExactValue := number ⊤

def negInfinity : ExactValue := number ⊥

end ExactValue

/-! ## The truth of a comparison -/

/-- What an operator says of two members of a linear order. -/
def ComparisonOp.Holds {α : Type} [LinearOrder α] (op : ComparisonOp) (x y : α) : Prop :=
  match op with
  | .eq => x = y
  | .ne => x ≠ y
  | .lt => x < y
  | .le => x ≤ y
  | .gt => y < x
  | .ge => y ≤ x

namespace ExactValue

/-- NaN is different from everything, and compares in no other way. -/
def Satisfies (op : ComparisonOp) : ExactValue → ExactValue → Prop
  | number x, number y => op.Holds x y
  | _, _ => op = .ne

/-- The sign of a comparison for sorting, where NaN is above every number. -/
def sortOrder : ExactValue → ExactValue → Int
  | number x, number y => if x < y then -1 else if y < x then 1 else 0
  | number _, nan => -1
  | nan, number _ => 1
  | nan, nan => 0

end ExactValue

/-! ## Numerics -/

/-- The sum of the digits, each times the power of 10000 at its place. -/
def Numeric.magnitude (n : Numeric) : ℚ :=
  ∑ i : Fin n.digits.length, (n.digits[i] : ℚ) * 10000 ^ (n.weight - (i : ℕ) : ℤ)

def Numeric.exactValue (n : Numeric) : ExactValue :=
  match n.sign with
  | .positive => .ofRat n.magnitude
  | .negative => .ofRat (-n.magnitude)
  | .infinity => .infinity
  | .negInfinity => .negInfinity
  | .nan => .nan

/-! ## Floats -/

/-- What is taken off an exponent field to get the exponent. -/
def BinaryFormat.bias (f : BinaryFormat) : ℤ := 2 ^ (f.exponentBits - 1) - 1

/-- What a finite bit pattern stands for. A zero exponent field means that there is no hidden bit. -/
def Binary.rational {f : BinaryFormat} (b : Binary f) : ℚ :=
  let sign : ℚ := if b.isNegative then -1 else 1
  let fraction : ℚ := b.fractionField / 2 ^ f.fractionBits
  if b.exponentField = 0 then sign * fraction * 2 ^ (1 - f.bias)
  else sign * (1 + fraction) * 2 ^ (b.exponentField - f.bias)

def Binary.exactValue {f : BinaryFormat} (b : Binary f) : ExactValue :=
  if b.exponentField = f.specialExponent then
    if b.fractionField = 0 then if b.isNegative then .negInfinity else .infinity
    else .nan
  else .ofRat b.rational

/-! ## Any operand -/

def Inexact.exactValue : Inexact → ExactValue
  | .numeric n => n.exactValue
  | .float4 b => b.exactValue
  | .float8 b => b.exactValue

def Literal.exactValue : Literal → ExactValue
  | .integer _ n _ => .ofRat n
  | .inexact v => v.exactValue

end ExactCompare
