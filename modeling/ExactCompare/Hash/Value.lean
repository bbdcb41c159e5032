import ExactCompare.Binary.Rounding
import ExactCompare.Hash.Bytes
import ExactCompare.Literal

/-!
# Hashes of stored values

Values that compare equal hash alike. A numeric is hashed by its digits without
the zeros at either end, and by its weight. The zeros in front are counted in 32
bits, so a numeric with more of them than that is hashed as zero. A float is hashed
as a double, with one zero and one NaN.
-/

namespace ExactCompare.Hash

-- Powers are those that `Nat` and `Int` come with.
attribute [local instance (2000)] instPowNat

/-! ## Digits -/

/-- The largest number of leading zeros that can be counted. -/
def maxSkipped : Nat := 2147483647

/-- How many zeros stand in front of the first digit above zero. -/
def skipped (digits : List Nat) : Nat := digits.length - (digits.dropWhile (· == 0)).length

/-- Weights are computed in 32 bits, in two's complement. -/
def wrapWeight (weight : Int) : Int := weight.bmod 4294967296

/-- The digits without the zeros at either end, and the weight of the first one
that is left. No digits are left of zero, or behind zeros that cannot be counted. -/
def significant? (digits : List Nat) (weight : Int) : Option (List Nat × Int) :=
  match digits.dropWhile (· == 0) with
  | [] => none
  | rest =>
    if skipped digits ≤ maxSkipped then
      some (Digits.trimEnd rest, wrapWeight (weight - skipped digits))
    else none

/-- Each digit as two bytes, the lower one first. -/
def digitBytes (digits : List Nat) : List UInt8 :=
  digits.flatMap fun d => [UInt8.ofNat d, UInt8.ofNat (d / 256)]

/-- An integer as a word, a negative one in two's complement. -/
def word32 (n : Int) : UInt32 := UInt32.ofNat (n % 4294967296).toNat

def word64 (n : Int) : UInt64 := UInt64.ofNat (n % 18446744073709551616).toNat

def digits (ds : List Nat) (weight : Int) : UInt32 :=
  match significant? ds weight with
  | none => 0xFFFFFFFF
  | some (ds, weight) => bytes (digitBytes ds) ^^^ word32 weight

def digitsExtended (ds : List Nat) (weight : Int) (seed : UInt64) : UInt64 :=
  match significant? ds weight with
  | none => seed - 1
  | some (ds, weight) => bytesExtended (digitBytes ds) seed ^^^ word64 weight

/-! ## Numerics -/

def numeric (n : Numeric) : UInt32 :=
  if n.sign.isSpecial then 0 else digits n.digits n.weight

def numericExtended (n : Numeric) (seed : UInt64) : UInt64 :=
  if n.sign.isSpecial then seed else digitsExtended n.digits n.weight seed

/-! ## Floats -/

/-- The bytes that are hashed for a double. Zero has none. -/
def float8Bytes? (b : Float8) : Option (List UInt8) :=
  match b.view with
  | .finite _ 0 _ => none
  | .nan => some (littleEndian (Binary.nan .binary64).bits)
  | _ => some (littleEndian b.bits)
where
  littleEndian (bits : Nat) : List UInt8 :=
    (List.range 8).map fun i => UInt8.ofNat (bits / 256 ^ i)

def float8 (b : Float8) : UInt32 := (float8Bytes? b).elim 0 bytes

def float8Extended (b : Float8) (seed : UInt64) : UInt64 :=
  (float8Bytes? b).elim seed (bytesExtended · seed)

def float4 (b : Float4) : UInt32 := float8 (b.convert .binary64)

def float4Extended (b : Float4) (seed : UInt64) : UInt64 :=
  float8Extended (b.convert .binary64) seed

end ExactCompare.Hash

namespace ExactCompare

/-! ## Any inexact value -/

def Inexact.hash : Inexact → UInt32
  | .numeric n => Hash.numeric n
  | .float4 b => Hash.float4 b
  | .float8 b => Hash.float8 b

def Inexact.hashExtended : Inexact → UInt64 → UInt64
  | .numeric n => Hash.numericExtended n
  | .float4 b => Hash.float4Extended b
  | .float8 b => Hash.float8Extended b

end ExactCompare
