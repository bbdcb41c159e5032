import ExactCompare.Decimal

/-!
# Decimals as text

Three notations. A number with more than five zeros between its point and its
first digit gets an exponent after its first digit. A number that ends in more
than fifteen zeros gets them as an exponent. All others are written out.
-/

namespace ExactCompare.Decimal

/-- The most zeros written between the point and the first digit. -/
def maxLeadingZeros : Nat := 5

/-- The most zeros written after the last digit of the unscaled integer. -/
def maxTrailingZeros : Nat := 15

def scientific (digits : List Char) (scale : Nat) : List Char :=
  let fraction := match digits.drop 1 with
    | [] => []
    | rest => '.' :: rest
  digits.take 1 ++ fraction ++ 'E' :: '-' :: Digits.decimal (scale + 1 - digits.length)

def pointed (digits : List Char) (scale : Nat) : List Char :=
  if scale < digits.length then
    digits.take (digits.length - scale) ++ '.' :: digits.drop (digits.length - scale)
  else '0' :: '.' :: (List.replicate (scale - digits.length) '0' ++ digits)

/-- The text of a positive number. -/
def magnitudeChars (digits : List Char) (scale : Int) : List Char :=
  if 0 < scale then
    if digits.length + maxLeadingZeros < scale.toNat then scientific digits scale.toNat
    else pointed digits scale.toNat
  else if maxTrailingZeros < (-scale).toNat then
    digits ++ 'e' :: '+' :: Digits.decimal (-scale).toNat
  else digits ++ List.replicate (-scale).toNat '0'

/-- Zero is written `0`, whatever its scale. -/
def chars (d : Decimal) : List Char :=
  let magnitude := magnitudeChars (Digits.decimal d.unscaled.natAbs) d.scale
  if d.unscaled = 0 then ['0']
  else if d.unscaled < 0 then '-' :: magnitude
  else magnitude

def text (d : Decimal) : String := String.ofList d.chars

end ExactCompare.Decimal
