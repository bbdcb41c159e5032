import ExactCompare.Binary

/-!
# Rounding to the nearest float

`nearest` gives the float nearest to a quotient of naturals. A quotient halfway
between two floats goes to the one with the even mantissa.
-/

namespace ExactCompare.Binary

-- Powers are those that `Nat` and `Int` come with.
attribute [local instance (2000)] instPowNat

/-- The integer nearest to a quotient. A half goes to the even neighbour. -/
def roundQuotient (num den : Nat) : Nat :=
  let low := num / den
  let rest := num % den
  if 2 * rest < den then low
  else if den < 2 * rest then low + 1
  else low + low % 2

/-- The quotient `num / (den * 2 ^ exponent)`, as a pair of naturals. -/
def scaleDown (num den : Nat) (exponent : Int) : Nat × Nat :=
  if 0 ≤ exponent then (num, den * 2 ^ exponent.toNat)
  else (num * 2 ^ (-exponent).toNat, den)

/-- The exponent of the highest power of two that is not above the quotient. -/
def quotientLog2 (num den : Nat) : Int :=
  let guess : Int := num.log2 - den.log2
  let (n, d) := scaleDown num den guess
  if n < d then guess - 1 else guess

/-- The bits of the float nearest to a positive quotient, which may be past the infinity. -/
def nearestBits (f : BinaryFormat) (num den : Nat) : Nat :=
  let exponent := max f.minExponent (quotientLog2 num den - f.fractionBits)
  let (n, d) := scaleDown num den exponent
  -- A mantissa that is rounded up to the next power of two carries into the exponent.
  (exponent - f.minExponent).toNat * 2 ^ f.fractionBits + roundQuotient n d

def nearest (f : BinaryFormat) (negative : Bool) (num den : Nat) : Binary f :=
  let bits := if num = 0 then 0 else nearestBits f num den
  let special := f.specialExponent * 2 ^ f.fractionBits + 0
  ofMagnitude negative (min bits special)
    (Nat.lt_of_le_of_lt (Nat.min_le_right _ _)
      (specialBits_lt f 0 (Nat.pow_pos (by decide))))

def ofInt (f : BinaryFormat) (n : Int) : Binary f := nearest f (n < 0) n.natAbs 1

/-- The nearest float of another format. Every NaN becomes the same NaN. -/
def convert {f : BinaryFormat} (g : BinaryFormat) (b : Binary f) : Binary g :=
  match b.view with
  | .nan => nan g
  | .infinity negative => infinity g negative
  | .finite negative mantissa exponent =>
    let (num, den) := scaleDown mantissa 1 (-exponent)
    nearest g negative num den

/-! ## Arithmetic on magnitudes -/

/-- The magnitude of a finite float, as a quotient. -/
def magnitude {f : BinaryFormat} (b : Binary f) : Nat × Nat :=
  match b.view with
  | .finite _ mantissa exponent => scaleDown mantissa 1 (-exponent)
  | _ => (0, 1)

/-- The product of two magnitudes, rounded. -/
def product {f : BinaryFormat} (b c : Binary f) : Binary f :=
  nearest f false (b.magnitude.1 * c.magnitude.1) (b.magnitude.2 * c.magnitude.2)

/-- The quotient of two magnitudes, rounded. -/
def quotient {f : BinaryFormat} (b c : Binary f) : Binary f :=
  nearest f false (b.magnitude.1 * c.magnitude.2) (b.magnitude.2 * c.magnitude.1)

end ExactCompare.Binary
