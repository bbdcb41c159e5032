import ExactCompare.ComparisonOp
import ExactCompare.Decoded

/-!
# Comparing integers with decoded values

The comparison is exact. An integer is compared with the integer part of the
other side, and a fraction breaks a tie. NaN sorts above every integer, and of
the operators only `<>` holds for it.
-/

namespace ExactCompare

/-- How an integer on the left compares with a value on the right. -/
structure Outcome where
  ordering : Ordering
  unordered : Bool
  deriving DecidableEq

namespace Outcome

def ordered (o : Ordering) : Outcome := ⟨o, false⟩

def nan : Outcome := ⟨.lt, true⟩

def exactIntegerEqual (o : Outcome) : Bool := !o.unordered && o.ordering.isEq

def satisfies (o : Outcome) (op : ComparisonOp) : Bool :=
  if o.unordered then op == .ne else op.accepts o.ordering

/-- What a sort support routine returns. -/
def sortOrder (o : Outcome) : Int :=
  match o.ordering with
  | .lt => -1
  | .eq => 0
  | .gt => 1

/-- The outcome with the sides exchanged. -/
def reversed (o : Outcome) : Outcome := ⟨o.ordering.swap, o.unordered⟩

end Outcome

def compareInt (n : Int) : Decoded → Outcome
  | .special .nan => .nan
  | .special .infinity => .ordered .lt
  | .special .negInfinity => .ordered .gt
  | .finite sign .overflow _ => .ordered (if sign = .negative then .gt else .lt)
  | .finite sign (.finite magnitude) fraction =>
    match compare n (sign.toInt * magnitude) with
    -- A fraction takes the value away from zero.
    | .eq => .ordered (if !fraction then .eq else if sign = .negative then .gt else .lt)
    | o => .ordered o

end ExactCompare
