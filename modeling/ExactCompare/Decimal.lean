import ExactCompare.Digits

/-!
# Decimals

A decimal is `unscaled * 10 ^ (-scale)`. One value has many decimals. The
normal one has no trailing zero in its unscaled integer, and zero has scale 0.
-/

namespace ExactCompare

-- Powers are those that `Nat` and `Int` come with.
attribute [local instance (2000)] instPowNat

structure Decimal where
  unscaled : Int
  scale : Int
  deriving DecidableEq

namespace Decimal

def ofInt (n : Int) : Decimal := ⟨n, 0⟩

def normalize (d : Decimal) : Decimal :=
  if d.unscaled = 0 then ⟨0, 0⟩
  else
    let (rest, count) := Digits.dropZeros (Digits.halvings d.unscaled.natAbs) d.unscaled.natAbs
    ⟨d.unscaled.sign * rest, d.scale - count⟩

/-- The decimal with another scale. Digits that no longer fit are cut off. -/
def withScale (d : Decimal) (scale : Int) : Decimal :=
  if d.unscaled = 0 then ⟨0, scale⟩
  else if d.scale ≤ scale then ⟨d.unscaled * 10 ^ (scale - d.scale).toNat, scale⟩
  else ⟨d.unscaled.tdiv (10 ^ (d.scale - scale).toNat), scale⟩

/-- The number of digits of the unscaled integer. Zero has one. -/
def precision (d : Decimal) : Nat := (Digits.decimal d.unscaled.natAbs).length

end Decimal

end ExactCompare
