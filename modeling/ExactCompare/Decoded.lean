import ExactCompare.Literal

/-!
# Decoded values

What a comparison with integers needs to know of a numeric or a float: its sign,
its integer part, and whether anything follows the point. The integer part is
kept up to `2 ^ 63`. Beyond that a value is farther from zero than every 64-bit
integer, so its size no longer matters.
-/

namespace ExactCompare

-- Powers are those that `Nat` and `Int` come with.
attribute [local instance (2000)] instPowNat

namespace Decoded

inductive Sign where
  | negative | zero | positive
  deriving DecidableEq

def Sign.toInt : Sign → Int
  | .negative => -1
  | .zero => 0
  | .positive => 1

inductive Special where
  | nan | infinity | negInfinity
  deriving DecidableEq

inductive IntegerPart where
  | finite (magnitude : Nat)
  | overflow
  deriving DecidableEq

/-- The largest magnitude of a 64-bit integer. -/
def maxMagnitude : Nat := 9223372036854775808

end Decoded

/-- A finite value is `sign * (integerPart + f)` with `0 ≤ f < 1`. -/
inductive Decoded where
  | special (value : Decoded.Special)
  | finite (sign : Decoded.Sign) (integerPart : Decoded.IntegerPart) (hasFraction : Bool)
  deriving DecidableEq

namespace Decoded

def zero : Decoded := finite .zero (.finite 0) false

def sign : Decoded → Sign
  | special .nan => .zero
  | special .infinity => .positive
  | special .negInfinity => .negative
  | finite s _ _ => s

def special? : Decoded → Option Special
  | special s => some s
  | finite _ _ _ => none

def integerPart? : Decoded → Option IntegerPart
  | special _ => none
  | finite _ part _ => some part

def hasFraction : Decoded → Bool
  | special _ => false
  | finite _ _ fraction => fraction

def isNaN (d : Decoded) : Bool := d == special .nan

/-! ## Rounding -/

/-- The value cut off at its point. -/
def truncated? : Decoded → Option Int
  | finite s (.finite magnitude) _ => some (s.toInt * magnitude)
  | _ => none

/-- The value itself, if it is an integer. -/
def exactInteger? (d : Decoded) : Option Int :=
  if d.hasFraction then none else d.truncated?

/-- The largest integer that is not above the value. -/
def floor? (d : Decoded) : Option Int :=
  d.truncated?.map fun n => if d.hasFraction && d.sign == .negative then n - 1 else n

/-- The smallest integer that is not below the value. -/
def ceil? (d : Decoded) : Option Int :=
  d.truncated?.map fun n => if d.hasFraction && d.sign == .positive then n + 1 else n

/-! ## Decoding -/

/-- The value with this integer part, followed by a fraction or not. -/
def ofParts (negative : Bool) (whole : Nat) (fraction : Bool) : Decoded :=
  if whole = 0 && !fraction then zero
  else
    finite (if negative then .negative else .positive)
      (if whole ≤ maxMagnitude then .finite whole else .overflow) fraction

end Decoded

/-- How many digits stand before the point, stored or not. -/
def Numeric.wholeDigits (n : Numeric) : Nat := (n.weight + 1).toNat

/-- Digits before the point that are not stored are zeros. -/
def Numeric.whole (n : Numeric) : Nat :=
  let stored := n.digits.take n.wholeDigits
  Digits.value base stored * base ^ (n.wholeDigits - stored.length)

def Numeric.decode (n : Numeric) : Decoded :=
  match n.sign with
  | .nan => .special .nan
  | .infinity => .special .infinity
  | .negInfinity => .special .negInfinity
  | sign =>
    .ofParts (sign == .negative) n.whole ((n.digits.drop n.wholeDigits).any (· != 0))

def Binary.decode {f : BinaryFormat} (b : Binary f) : Decoded :=
  match b.view with
  | .nan => .special .nan
  | .infinity false => .special .infinity
  | .infinity true => .special .negInfinity
  | .finite negative mantissa exponent =>
    if 0 ≤ exponent then .ofParts negative (mantissa * 2 ^ exponent.toNat) false
    else
      let unit := 2 ^ (-exponent).toNat
      .ofParts negative (mantissa / unit) (mantissa % unit != 0)

def Inexact.decode : Inexact → Decoded
  | .numeric n => n.decode
  | .float4 b => b.decode
  | .float8 b => b.decode

end ExactCompare
