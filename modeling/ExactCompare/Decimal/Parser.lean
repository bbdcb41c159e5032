import ExactCompare.Decimal
import ExactCompare.Text

/-!
# Reading decimals

A decimal is a signed digit string with at most one point and an optional
exponent. Underscores may stand between and after the digits. The exponent is
read before the digits, so its faults are reported first.
-/

namespace ExactCompare

inductive DecimalError where
  | empty
  | noDigits
  | invalidDigit
  | exponentTooLarge
  | exponentTooSmall
  | scaleOverflow (text : String)
  deriving DecidableEq

def DecimalError.message : DecimalError → String
  | .empty => "Failed to parse empty string"
  | .noDigits => "cannot parse integer from empty string"
  | .invalidDigit => "invalid digit found in string"
  | .exponentTooLarge => "number too large to fit in target type"
  | .exponentTooSmall => "number too small to fit in target type"
  | .scaleOverflow text => "Exponent overflow when parsing '" ++ text ++ "'"

namespace Decimal

/-! ## The exponent -/

/-- Reads digits up to a bound. The first character at fault decides the error. -/
def boundedDigits (bound : Nat) (overflow : DecimalError) :
    Nat → List Char → Except DecimalError Nat
  | n, [] => .ok n
  | n, c :: rest =>
    match Digits.digit? c with
    | none => .error .invalidDigit
    | some d =>
      if bound < n * 10 + d then .error overflow
      else boundedDigits bound overflow (n * 10 + d) rest

/-- The largest magnitude of a negative exponent, which has 128 bits. -/
def maxNegativeExponent : Nat := 170141183460469231731687303715884105728

def maxExponent : Nat := maxNegativeExponent - 1

def readExponent : List Char → Except DecimalError Int
  | [] => .error .noDigits
  | ['+'] | ['-'] => .error .invalidDigit
  | '-' :: rest => do
    let n ← boundedDigits maxNegativeExponent .exponentTooSmall 0 rest
    return -n
  | '+' :: rest => do
    let n ← boundedDigits maxExponent .exponentTooLarge 0 rest
    return n
  | cs => do
    let n ← boundedDigits maxExponent .exponentTooLarge 0 cs
    return n

/-! ## The digits -/

/-- Takes a sign off, unless a plus follows it. -/
def dropSign (sign : Char) (cs : List Char) : List Char :=
  match cs with
  | c :: rest => if c = sign ∧ rest.head? ≠ some '+' then rest else cs
  | [] => []

def readDigits (cs : List Char) : Except DecimalError Nat :=
  match (cs.filter (· ≠ '_')).mapM Digits.digit? with
  | some ds => .ok (Digits.value 10 ds)
  | none => .error .invalidDigit

def readInteger (cs : List Char) : Except DecimalError Int :=
  match dropSign '+' (dropSign '-' cs) with
  | [] => .error .noDigits
  | '_' :: _ => .error .invalidDigit
  | digits => do
    let n ← readDigits digits
    return if cs.head? = some '-' then -(n : Int) else n

/-- Takes the first point out and counts the digits after it. -/
def splitPoint (cs : List Char) : List Char × Nat :=
  let whole := cs.takeWhile (· ≠ '.')
  let fraction := (cs.dropWhile (· ≠ '.')).drop 1
  (whole ++ fraction, (fraction.filter (· ≠ '_')).length)

/-! ## The whole -/

def isExponentMark (c : Char) : Bool := c == 'e' || c == 'E'

/-- A scale has 64 bits. -/
def scaleFits (scale : Int) : Bool :=
  -9223372036854775808 ≤ scale && scale ≤ 9223372036854775807

/-- Reads a decimal as it is spelled: zeros at its end stay. -/
def read (cs : List Char) : Except DecimalError Decimal := do
  let base := cs.takeWhile (!isExponentMark ·)
  let exponent ← match cs.dropWhile (!isExponentMark ·) with
    | [] => .ok 0
    | _ :: rest => readExponent rest
  if base.isEmpty then .error .empty
  let (digits, count) := splitPoint base
  let scale := (count : Int) - exponent
  if !scaleFits scale then .error (.scaleOverflow (String.ofList cs))
  let unscaled ← readInteger digits
  return ⟨unscaled, scale⟩

/-- Reads a decimal between blanks, in normal form. -/
def parse (text : String) : Except DecimalError Decimal := do
  let d ← read (Text.trim text.toList)
  return d.normalize

end Decimal

end ExactCompare
