import ExactCompare.Routine.CrossOperator
import ExactCompare.Routine.HashSupport
import ExactCompare.Routine.SortSupport

/-!
# Routines

The body of a function in the catalog. A call is checked against the declared
argument types, their number first.
-/

namespace ExactCompare

inductive Routine where
  | operator (operator : CrossOperator)
  | sortSupport (support : SortSupport)
  | hash (support : HashSupport)
  deriving DecidableEq

inductive RoutineResult where
  | bool (value : Bool)
  | order (value : Int)
  | hash32 (value : UInt32)
  | hash64 (value : UInt64)
  deriving DecidableEq

namespace Routine

def name : Routine → String
  | operator c => c.name
  | sortSupport s => s.name
  | hash h => h.name

def argumentTypes : Routine → List ColumnType
  | operator c => [c.left, c.right]
  | sortSupport s => [s.left, s.right]
  | hash h => h.argumentTypes

def invoke (r : Routine) (arguments : List Literal) : Except EvaluationError RoutineResult :=
  let wrongCount :=
    EvaluationError.argumentCount r.name r.argumentTypes.length arguments.length
  if arguments.length ≠ r.argumentTypes.length then .error wrongCount
  else
    match r, arguments with
    | operator c, [left, right] => .bool <$> c.evaluate left right
    | sortSupport s, [left, right] => .order <$> s.compare left right
    | hash h, [value] => .hash32 <$> h.hash value
    | hash h, [value, seed] => .hash64 <$> h.hashExtended value seed
    | _, _ => .error wrongCount

end Routine

end ExactCompare
