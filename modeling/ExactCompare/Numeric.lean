import ExactCompare.Decimal.Parser

/-!
# Stored numerics

A numeric is stored as a sign, the weight of its first digit, the number of
decimals to show, and digits in base 10000. A finite one stands for
`± sum of digits[i] * 10000 ^ (weight - i)`. Zero digits may stand anywhere. NaN
and the infinities are signs without digits.
-/

namespace ExactCompare

namespace Numeric

inductive Sign where
  | positive | negative | nan | infinity | negInfinity
  deriving DecidableEq

def Sign.isSpecial : Sign → Bool
  | .positive | .negative => false
  | .nan | .infinity | .negInfinity => true

def base : Nat := 10000

/-- How many decimal digits one stored digit holds. -/
def digitWidth : Nat := 4

def maxDisplayScale : Nat := 16383

def minWeight : Int := -32768

def maxWeight : Int := 32767

end Numeric

/-- A numeric that can be stored. -/
structure Numeric where
  sign : Numeric.Sign
  weight : Int
  displayScale : Nat
  digits : List Nat
  weight_ge : Numeric.minWeight ≤ weight
  weight_le : weight ≤ Numeric.maxWeight
  displayScale_le : displayScale ≤ Numeric.maxDisplayScale
  digits_lt : ∀ d ∈ digits, d < Numeric.base
  special : sign.isSpecial = true → digits = []
  deriving DecidableEq

inductive NumericError where
  | invalidDigit (digit : Int) (position : Nat)
  | weightOutOfRange (weight : Int)
  | scaleOutOfRange (scale : Int)
  | specialWithDigits
  | invalidText (cause : DecimalError)
  deriving DecidableEq

def NumericError.message : NumericError → String
  | .invalidDigit digit position =>
    "numeric digit " ++ toString digit ++ " at position " ++ toString position ++
      " is outside 0..10000"
  | .weightOutOfRange weight =>
    "numeric weight " ++ toString weight ++ " does not fit the host representation"
  | .scaleOutOfRange scale =>
    "numeric display scale " ++ toString scale ++ " exceeds the host limit"
  | .specialWithDigits => "special numeric values carry no digits"
  | .invalidText cause => cause.message

namespace Numeric

/-! ## Building from parts -/

def isDigit (d : Int) : Bool := 0 ≤ d && d < base

/-- The error that the parts deserve, if any. The first that applies wins. -/
def partsError? (sign : Sign) (weight : Int) (displayScale : Nat) (digits : List Int) :
    Option NumericError :=
  if sign.isSpecial && !digits.isEmpty then some .specialWithDigits
  else if maxDisplayScale < displayScale then some (.scaleOutOfRange displayScale)
  else match digits.find? (!isDigit ·) with
    | some d => some (.invalidDigit d (digits.findIdx (!isDigit ·)))
    | none =>
      if minWeight ≤ weight ∧ weight ≤ maxWeight then none else some (.weightOutOfRange weight)

theorem toNat_lt_base_of_find?_eq_none {digits : List Int}
    (h : digits.find? (!isDigit ·) = none) : ∀ d ∈ digits.map Int.toNat, d < base := by
  simp only [List.find?_eq_none, Bool.not_eq_true', Bool.not_eq_false] at h
  intro d hd
  obtain ⟨e, he, rfl⟩ := List.mem_map.mp hd
  have digit := h e he
  simp only [isDigit, Bool.and_eq_true, decide_eq_true_eq] at digit
  omega

def ofParts (sign : Sign) (weight : Int) (displayScale : Nat) (digits : List Int) :
    Except NumericError Numeric :=
  match h : partsError? sign weight displayScale digits with
  | some e => .error e
  | none => .ok {
      sign, weight, displayScale
      digits := digits.map Int.toNat
      weight_ge := by grind [partsError?]
      weight_le := by grind [partsError?]
      displayScale_le := by grind [partsError?]
      digits_lt := toNat_lt_base_of_find?_eq_none (by grind [partsError?])
      special := by
        intro isSpecial
        simp only [partsError?] at h
        grind }

/-! ## Special values and zero -/

def ofSign (sign : Sign) : Numeric where
  sign := sign
  weight := 0
  displayScale := 0
  digits := []
  weight_ge := by decide
  weight_le := by decide
  displayScale_le := by decide
  digits_lt := by simp
  special := fun _ => rfl

def nan : Numeric := ofSign .nan

def infinity : Numeric := ofSign .infinity

def negInfinity : Numeric := ofSign .negInfinity

def zero : Numeric := ofSign .positive

def isNaN (n : Numeric) : Bool := n.sign == .nan

/-! ## The value as a decimal -/

/-- The digits read as one integer, with the sign. -/
def unscaled (n : Numeric) : Int :=
  let magnitude : Int := Digits.value base n.digits
  if n.sign = .negative then -magnitude else magnitude

/-- The finite value with the decimals it shows. Digits past them are cut off. -/
def decimal? (n : Numeric) : Option Decimal :=
  if n.sign.isSpecial then none
  else
    let lastWeight := n.weight + 1 - n.digits.length
    some ((Decimal.mk n.unscaled (-lastWeight * digitWidth)).withScale n.displayScale)

end Numeric

end ExactCompare
