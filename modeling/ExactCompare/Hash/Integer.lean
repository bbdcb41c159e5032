import ExactCompare.Hash.Value

/-!
# Hashes of integers

An integer is hashed like the value of an inexact type that it is compared with:
like the numeric of the same value, or like the nearest float.
-/

namespace ExactCompare.Hash

/-- The number of base-10000 digits that the magnitude of a 64-bit integer can have. -/
def maxDigits : Nat := 5

/-- The digits of a magnitude, least significant first, in at most so many slots,
and what is left once the slots are full. -/
def fillSlots : Nat → Nat → List Nat × Nat
  | 0, magnitude => ([], magnitude)
  | slots + 1, magnitude =>
    if magnitude = 0 then ([], 0)
    else
      let (rest, left) := fillSlots slots (magnitude / Numeric.base)
      (magnitude % Numeric.base :: rest, left)

/-- The digits of an integer, most significant first, and the weight of the first. -/
def integerDigits (n : Int) : List Nat × Int :=
  let ds := (fillSlots maxDigits n.natAbs).1
  (ds.reverse, ds.length - 1)

def integerAsNumeric (n : Int) : UInt32 :=
  let (ds, weight) := integerDigits n
  digits ds weight

def integerAsNumericExtended (n : Int) (seed : UInt64) : UInt64 :=
  let (ds, weight) := integerDigits n
  digitsExtended ds weight seed

def integer (n : Int) : InexactType → UInt32
  | .numeric => integerAsNumeric n
  | .float4 => float4 (Binary.ofInt .binary32 n)
  | .float8 => float8 (Binary.ofInt .binary64 n)

def integerExtended (n : Int) (target : InexactType) (seed : UInt64) : UInt64 :=
  match target with
  | .numeric => integerAsNumericExtended n seed
  | .float4 => float4Extended (Binary.ofInt .binary32 n) seed
  | .float8 => float8Extended (Binary.ofInt .binary64 n) seed

end ExactCompare.Hash
