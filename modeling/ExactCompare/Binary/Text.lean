import ExactCompare.Binary.Shortest

/-!
# Floats as text

A float is written with the fewest digits that read back. Its text always has a
point or an exponent, so that it does not look like an integer.
-/

namespace ExactCompare.Binary

/-- Which floats of a format are written without an exponent: those with at most
`maxWhole` digits before the point, and those with fewer than `leadingZeros`
zeros after it. -/
structure Layout where
  maxWhole : Nat
  leadingZeros : Nat

def Layout.ofFormat (f : BinaryFormat) : Layout :=
  if f = .binary32 then ⟨13, 6⟩ else ⟨16, 5⟩

/-- An exponent is always written with its sign. -/
def exponentText (e : Int) : List Char :=
  if e < 0 then Digits.decimalInt e else '+' :: Digits.decimalInt e

/-- The text of the digits, with the point after the first `whole` of them. -/
def layOut (l : Layout) (digits : List Char) (whole : Int) : List Char :=
  if digits.length ≤ whole ∧ whole ≤ l.maxWhole then
    digits ++ List.replicate (whole.toNat - digits.length) '0' ++ ['.', '0']
  else if 0 < whole ∧ whole ≤ l.maxWhole then
    digits.take whole.toNat ++ '.' :: digits.drop whole.toNat
  else if -l.leadingZeros < whole ∧ whole ≤ 0 then
    '0' :: '.' :: (List.replicate (-whole).toNat '0' ++ digits)
  else
    let fraction := match digits.drop 1 with
      | [] => []
      | rest => '.' :: rest
    digits.take 1 ++ fraction ++ 'e' :: exponentText (whole - 1)

def magnitudeText (f : BinaryFormat) (mantissa : Nat) (exponent : Int) : List Char :=
  if mantissa = 0 then ['0', '.', '0']
  else
    let (n, grid) := shortestDecimal f mantissa exponent
    let digits := Digits.decimal n
    layOut (.ofFormat f) digits (digits.length + grid)

/-- The text of a finite float. NaN and the infinities have none. -/
def chars? {f : BinaryFormat} (b : Binary f) : Option (List Char) :=
  match b.view with
  | .finite negative mantissa exponent =>
    let magnitude := magnitudeText f mantissa exponent
    some (if negative then '-' :: magnitude else magnitude)
  | _ => none

end ExactCompare.Binary
