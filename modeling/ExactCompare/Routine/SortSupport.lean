import ExactCompare.Comparison
import ExactCompare.Routine.Operands

/-!
# Sort support

For each pair of operand types, a routine that orders its operands. NaN sorts
above every integer, and the two operand orders negate each other.
-/

namespace ExactCompare

structure SortSupport where
  integer : IntegerType
  inexact : InexactType
  order : OperandOrder
  deriving DecidableEq

namespace SortSupport

def all : List SortSupport :=
  OperandOrder.all.flatMap fun order =>
    IntegerType.all.flatMap fun integer =>
      InexactType.all.map fun inexact => { integer, inexact, order }

def left (s : SortSupport) : ColumnType := s.order.left s.integer s.inexact

def right (s : SortSupport) : ColumnType := s.order.right s.integer s.inexact

def name (s : SortSupport) : String := s.order.routineName s.integer s.inexact "cmp"

/-- The order of the left operand against the right one: -1, 0 or 1. -/
def sortOrder (s : SortSupport) (n : Int) (d : Decoded) : Int :=
  match s.order with
  | .integerFirst => (compareInt n d).sortOrder
  | .inexactFirst => (compareInt n d).reversed.sortOrder

def compare (s : SortSupport) (left right : Literal) : Except EvaluationError Int :=
  (splitOperands s.name s.order s.integer s.inexact left right).map
    fun (n, v) => s.sortOrder n v.decode

end SortSupport

end ExactCompare
