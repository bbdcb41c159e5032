import ExactCompare.Hash.Integer
import ExactCompare.Routine.Operands

/-!
# Hash support

Routines that hash an integer like the value of an inexact type. The extended
form takes a seed as its second argument.
-/

namespace ExactCompare

structure HashSupport where
  integer : IntegerType
  target : InexactType
  extended : Bool
  deriving DecidableEq

namespace HashSupport

def all : List HashSupport :=
  IntegerType.all.flatMap fun integer =>
    InexactType.all.flatMap fun target =>
      [false, true].map fun extended => { integer, target, extended }

/-- The slot that the routine fills in a hash family. -/
def number (h : HashSupport) : Nat := if h.extended then 2 else 1

def argumentTypes (h : HashSupport) : List ColumnType :=
  if h.extended then [.integer h.integer, .integer .int8] else [.integer h.integer]

def name (h : HashSupport) : String :=
  "hash_" ++ h.integer.name ++ "_as_" ++ h.target.name ++ if h.extended then "_extended" else ""

/-- The argument at a position as an integer, if it has the declared type. -/
def integerAt (h : HashSupport) (position : Nat) (type : IntegerType) (argument : Literal) :
    Except EvaluationError Int :=
  match argument with
  | .integer t n _ =>
    if t = type then .ok n
    else .error (.argumentType h.name position (.integer type) (.integer t))
  | .inexact v => .error (.argumentType h.name position (.integer type) (.inexact v.type))

def hash (h : HashSupport) (argument : Literal) : Except EvaluationError UInt32 := do
  let n ← h.integerAt 0 h.integer argument
  return Hash.integer n h.target

/-- The seed is checked before the value. A negative one is read in two's complement. -/
def hashExtended (h : HashSupport) (argument seed : Literal) : Except EvaluationError UInt64 := do
  let seed ← h.integerAt 1 .int8 seed
  let n ← h.integerAt 0 h.integer argument
  return Hash.integerExtended n h.target (Hash.word64 seed)

end HashSupport

end ExactCompare
