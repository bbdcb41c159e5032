import ExactCompare.Binary.Rounding
import ExactCompare.Json

/-!
# JSON numbers

A number without a point and an exponent is an integer, if 64 bits can hold it.
Any other number is a double: its leading digits as one integer, rounded, times
or divided by a power of ten, rounded again.
-/

namespace ExactCompare.Json

-- Powers are those that `Nat` and `Int` come with.
attribute [local instance (2000)] instPowNat

structure Numeral where
  negative : Bool
  whole : List Nat
  fraction : List Nat
  /-- A numeral with a point or an exponent is not an integer. -/
  isInteger : Bool
  exponentNegative : Bool
  exponent : List Nat

/-! ## Reading digits -/

/-- The digits at the front of a text, and what follows them. -/
def digitsOf (cs : List Char) : List Nat × List Char :=
  ((cs.takeWhile Char.isDigit).filterMap Digits.digit?, cs.dropWhile Char.isDigit)

/-- A numeral that breaks off is truncated to a reader, and malformed to who skips it. -/
def Break.atDigit (rest : List Char) : Break where
  inWord := true
  reading := if rest.isEmpty then .truncated else .malformed
  skipping := some .malformed

def Break.badDigit : Break := ⟨true, .malformed, some .malformed⟩

/-- Digits that have to be there. -/
def someDigits (cs : List Char) : Except Break (List Nat × List Char) :=
  match digitsOf cs with
  | ([], rest) => .error (.atDigit rest)
  | found => .ok found

/-- Digits without a leading zero. -/
def wholeDigits (cs : List Char) : Except Break (List Nat × List Char) :=
  match someDigits cs with
  | .ok (0 :: _ :: _, _) => .error .badDigit
  | found => found

def fractionDigits (cs : List Char) : Except Break (List Nat × List Char) :=
  match cs with
  | '.' :: rest => someDigits rest
  | _ => .ok ([], cs)

def exponentDigits (cs : List Char) : Except Break ((Bool × List Nat) × List Char) :=
  let signed (negative : Bool) (rest : List Char) :=
    (someDigits rest).map fun (ds, rest) => ((negative, ds), rest)
  match cs with
  | 'e' :: '-' :: rest | 'E' :: '-' :: rest => signed true rest
  | 'e' :: '+' :: rest | 'E' :: '+' :: rest => signed false rest
  | 'e' :: rest | 'E' :: rest => signed false rest
  | _ => .ok ((false, []), cs)

def readNumeral (negative : Bool) (cs : List Char) : Except Break (Numeral × List Char) := do
  let (whole, afterWhole) ← wholeDigits cs
  let (fraction, afterFraction) ← fractionDigits afterWhole
  let ((exponentNegative, exponent), rest) ← exponentDigits afterFraction
  let isInteger := fraction.isEmpty && exponent.isEmpty
  return ({ negative, whole, fraction, isInteger, exponentNegative, exponent }, rest)

/-! ## The value of a numeral -/

def maxSignificand : Nat := 18446744073709551615

/-- Takes in digits while the significand fits, and gives the digits left over. -/
def accumulate : Nat → List Nat → Nat × List Nat
  | n, [] => (n, [])
  | n, d :: rest =>
    if maxSignificand < n * 10 + d then (n, d :: rest) else accumulate (n * 10 + d) rest

/-- The significand and its exponent. Digits before the point that do not fit count
as zeros, and those after it are dropped. -/
def Numeral.significand (n : Numeral) : Nat × Int :=
  let (whole, more) := accumulate 0 n.whole
  let (all, dropped) := accumulate whole n.fraction
  (all, more.length - (n.fraction.length - dropped.length))

def maxExponent : Nat := 2147483647

abbrev Double := Binary .binary64

/-- The largest power of ten that is a double. -/
def maxPowerOfTen : Nat := 308

def powerOfTen (k : Nat) : Double := .nearest .binary64 false (10 ^ k) 1

def Double.isFinite (b : Double) : Bool := b.exponentField != BinaryFormat.binary64.specialExponent

/-- Scales a double by a power of ten, in steps that a double can hold. A result that
is too large has no value. -/
def scaleByTen : Nat → Double → Int → Option Double
  | 0, b, _ => some b
  | steps + 1, b, exponent =>
    if exponent.natAbs ≤ maxPowerOfTen then
      let power := powerOfTen exponent.natAbs
      if 0 ≤ exponent then
        let scaled := b.product power
        if Double.isFinite scaled then some scaled else none
      else some (b.quotient power)
    else if b.bits = 0 then some b
    else if 0 ≤ exponent then none
    else scaleByTen steps (b.quotient (powerOfTen maxPowerOfTen)) (exponent + maxPowerOfTen)

/-- The magnitude as a double. An exponent of more than 31 bits gives zero or nothing. -/
def Numeral.magnitude? (n : Numeral) : Option Double :=
  let (significand, scale) := n.significand
  let exponent := Digits.value 10 n.exponent
  let zero := Binary.ofInt .binary64 0
  if maxExponent < exponent then
    if significand = 0 ∨ n.exponentNegative then some zero else none
  else
    let total := scale + if n.exponentNegative then -(exponent : Int) else exponent
    scaleByTen (total.natAbs + 1) (.ofInt .binary64 significand) total

/-- The largest magnitude of a negative integer. -/
def maxNegative : Nat := 9223372036854775808

def Numeral.integer? (n : Numeral) : Option Int :=
  let value := Digits.value 10 n.whole
  if !n.isInteger then none
  else if n.negative then if 0 < value ∧ value ≤ maxNegative then some (-value) else none
  else if value ≤ maxSignificand then some value else none

/-- A number that is too large is no value, but it can be skipped. -/
def Numeral.toJson (n : Numeral) : Json :=
  match n.integer? with
  | some value => .integer value
  | none =>
    match n.magnitude? with
    | some b => .float .binary64 (if n.negative then b.negate else b)
    | none => .broken ⟨true, .malformed, none⟩

end ExactCompare.Json
