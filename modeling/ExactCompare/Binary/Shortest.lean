import ExactCompare.Binary
import ExactCompare.Digits

/-!
# Shortest decimals

The shortest decimal that reads back as a float, and the nearest one of that
length. It is looked for on coarse decimal grids first. On each grid only the two
neighbours of the float can lie among the numbers that round to it.
-/

namespace ExactCompare.Binary

-- Powers are those that `Nat` and `Int` come with.
attribute [local instance (2000)] instPowNat

/-- The numbers that round to a float, in quarters of its last bit. -/
structure RoundingInterval where
  low : Nat
  value : Nat
  high : Nat
  /-- The ends round to the float if its mantissa is even. -/
  closed : Bool

namespace RoundingInterval

/-- The gap below a power of two is half as wide as the one above. -/
def ofMantissa (mantissa : Nat) (narrowBelow : Bool) : RoundingInterval where
  low := 4 * mantissa - if narrowBelow then 1 else 2
  value := 4 * mantissa
  high := 4 * mantissa + 2
  closed := mantissa % 2 == 0

/-- Whether `c` steps of size `num / den` end inside. -/
def contains (r : RoundingInterval) (num den c : Nat) : Bool :=
  if r.closed then r.low * den ≤ c * num && c * num ≤ r.high * den
  else r.low * den < c * num && c * num < r.high * den

/-- The grid point inside that is nearest to the value. A tie goes to the even one. -/
def onGrid? (r : RoundingInterval) (num den : Nat) : Option Nat :=
  let below := r.value * den / num
  let toBelow := r.value * den - below * num
  let toAbove := (below + 1) * num - r.value * den
  match r.contains num den below, r.contains num den (below + 1) with
  | false, false => none
  | true, false => some below
  | false, true => some (below + 1)
  | true, true =>
    if toBelow < toAbove then some below
    else if toAbove < toBelow then some (below + 1)
    else some (below + below % 2)

end RoundingInterval

/-- The step `10 ^ grid` in quarters of the last bit, which is `2 ^ exponent`. -/
def gridStep (grid exponent : Int) : Nat × Nat :=
  let quarter := exponent - 2
  (10 ^ grid.toNat * 2 ^ (-quarter).toNat, 10 ^ (-grid).toNat * 2 ^ quarter.toNat)

/-- Tries a grid, then one that is ten times finer, and so on. -/
def searchGrids (r : RoundingInterval) (exponent : Int) : Nat → Int → Nat × Int
  | 0, grid => (0, grid)
  | tries + 1, grid =>
    let (num, den) := gridStep grid exponent
    match r.onGrid? num den with
    | some c => (c, grid)
    | none => searchGrids r exponent tries (grid - 1)

/-- A grid that is too coarse for a number below `2 ^ bits`, or just fine enough. -/
def coarsestGrid (bits : Int) : Int := Int.fdiv (bits * 30103) 100000 + 1

/-- The digits and the decimal exponent of the shortest decimal of `mantissa * 2 ^ exponent`.
The grid of `10 ^ min exponent 0` holds the number itself. -/
def shortestDecimal (f : BinaryFormat) (mantissa : Nat) (exponent : Int) : Nat × Int :=
  let narrowBelow := mantissa == 2 ^ f.fractionBits && f.minExponent < exponent
  let grid := coarsestGrid (mantissa.log2 + 1 + exponent)
  searchGrids (.ofMantissa mantissa narrowBelow) exponent (grid - min exponent 0 + 1).toNat grid

end ExactCompare.Binary
