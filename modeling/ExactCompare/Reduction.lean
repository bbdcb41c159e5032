import ExactCompare.Comparison

/-!
# Reducing comparisons with a constant

A comparison of an integer column with a constant of an inexact type becomes a
comparison with an integer of the column's type, or a constant answer. The
result agrees with the comparison for every value of the column's type.
-/

namespace ExactCompare

/-- What a comparison of a column with a constant becomes. -/
inductive Reduction where
  | unchanged
  | constant (answer : Bool)
  | native (op : ComparisonOp) (bound : Int)
  deriving DecidableEq

/-- The answer for one column value. A null column gives null. `kept` answers
for a comparison that is kept. -/
def Reduction.evaluate (r : Reduction) (column : Option Int) (kept : Int → Bool) : Option Bool :=
  column.map fun n =>
    match r with
    | unchanged => kept n
    | constant answer => answer
    | native op bound => op.accepts (compare n bound)

namespace Reduction

/-- Where a bound lies relative to the range of a column type. -/
inductive Place where
  | above | below
  | within (n : Int)
  deriving DecidableEq

/-- A finite value without a bound is beyond every integer type, on the side of its sign. -/
def place (t : IntegerType) (sign : Decoded.Sign) : Option Int → Place
  | some n => if t.max < n then .above else if n < t.min then .below else .within n
  | none => if sign = .negative then .below else .above

/-- The comparison with a bound at a given place. -/
def atPlace (op : ComparisonOp) : Place → Reduction
  | .above => constant (op.accepts .lt)
  | .below => constant (op.accepts .gt)
  | .within n => native op n

/-- The comparison with a finite constant. A fraction moves the bound to the next
integer inside, which then satisfies the comparison itself. -/
def ofFinite (op : ComparisonOp) (t : IntegerType) (d : Decoded) : Reduction :=
  let placed (op : ComparisonOp) (bound : Option Int) := atPlace op (place t d.sign bound)
  if d.hasFraction then
    match op with
    | .eq | .ne => constant (op == .ne)
    | .gt | .ge => placed .ge d.ceil?
    | .lt | .le => placed .le d.floor?
  else placed op d.exactInteger?

def ofComparison (op : ComparisonOp) (t : IntegerType) : Decoded → Reduction
  | .special .nan => constant (op == .ne)
  | .special .infinity => constant (op.accepts .lt)
  | .special .negInfinity => constant (op.accepts .gt)
  | d@(.finite _ _ _) => ofFinite op t d

end Reduction

end ExactCompare
