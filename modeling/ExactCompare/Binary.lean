/-!
# Binary floating point

A float is its bits: one for the sign, then the exponent, then the fraction.
`view` says what the bits stand for. A finite float is `± mantissa * 2 ^ exponent`
with an integer mantissa, so nothing here needs floating-point arithmetic.
-/

namespace ExactCompare

-- Powers are those that `Nat` and `Int` come with.
attribute [local instance (2000)] instPowNat

structure BinaryFormat where
  exponentBits : Nat
  fractionBits : Nat
  deriving DecidableEq

namespace BinaryFormat

def binary32 : BinaryFormat := ⟨8, 23⟩

def binary64 : BinaryFormat := ⟨11, 52⟩

/-- The number of bits below the sign. -/
def magnitudeBits (f : BinaryFormat) : Nat := f.exponentBits + f.fractionBits

def width (f : BinaryFormat) : Nat := f.magnitudeBits + 1

/-- The exponent field of NaN and the infinities. -/
def specialExponent (f : BinaryFormat) : Nat := 2 ^ f.exponentBits - 1

/-- The exponent of the smallest float above zero. -/
def minExponent (f : BinaryFormat) : Int := 2 - 2 ^ (f.exponentBits - 1) - f.fractionBits

end BinaryFormat

structure Binary (f : BinaryFormat) where
  bits : Nat
  bits_lt : bits < 2 ^ f.width
  deriving DecidableEq

namespace Binary

variable {f : BinaryFormat}

def isNegative (b : Binary f) : Bool := 2 ^ f.magnitudeBits ≤ b.bits

def exponentField (b : Binary f) : Nat := b.bits / 2 ^ f.fractionBits % 2 ^ f.exponentBits

def fractionField (b : Binary f) : Nat := b.bits % 2 ^ f.fractionBits

/-- What the bits of a float stand for. -/
inductive View where
  | nan
  | infinity (negative : Bool)
  | finite (negative : Bool) (mantissa : Nat) (exponent : Int)
  deriving DecidableEq

/-- A zero exponent field means that the mantissa has no hidden bit. -/
def view (b : Binary f) : View :=
  if b.exponentField = f.specialExponent then
    if b.fractionField = 0 then .infinity b.isNegative else .nan
  else if b.exponentField = 0 then
    .finite b.isNegative b.fractionField f.minExponent
  else
    .finite b.isNegative (2 ^ f.fractionBits + b.fractionField)
      (f.minExponent + b.exponentField - 1)

/-! ## Bits from parts -/

def ofMagnitude (negative : Bool) (magnitude : Nat) (h : magnitude < 2 ^ f.magnitudeBits) :
    Binary f where
  bits := magnitude + if negative then 2 ^ f.magnitudeBits else 0
  bits_lt := by
    simp only [BinaryFormat.width, Nat.pow_succ]
    split <;> omega

/-- The float with the other sign. -/
def negate (b : Binary f) : Binary f :=
  ofMagnitude (!b.isNegative) (b.bits % 2 ^ f.magnitudeBits)
    (Nat.mod_lt _ (Nat.pow_pos (by decide)))

theorem specialBits_lt (f : BinaryFormat) (fraction : Nat) (h : fraction < 2 ^ f.fractionBits) :
    f.specialExponent * 2 ^ f.fractionBits + fraction < 2 ^ f.magnitudeBits := by
  have pos : 0 < 2 ^ f.exponentBits := Nat.pow_pos (by decide)
  have whole : (f.specialExponent + 1) * 2 ^ f.fractionBits = 2 ^ f.magnitudeBits := by
    simp only [BinaryFormat.specialExponent, BinaryFormat.magnitudeBits, Nat.pow_add]
    congr 1
    omega
  rw [Nat.add_mul] at whole
  omega

def infinity (f : BinaryFormat) (negative : Bool) : Binary f :=
  ofMagnitude negative (f.specialExponent * 2 ^ f.fractionBits + 0)
    (specialBits_lt f 0 (Nat.pow_pos (by decide)))

/-- The NaN whose fraction is its top bit alone. -/
def nan (f : BinaryFormat) : Binary f :=
  ofMagnitude false (f.specialExponent * 2 ^ f.fractionBits + 2 ^ f.fractionBits / 2)
    (specialBits_lt f _ (Nat.div_lt_self (Nat.pow_pos (by decide)) (by decide)))

end Binary

end ExactCompare
