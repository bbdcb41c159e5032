import ExactCompare.Comparison
import ExactCompare.Routine.Operands

/-!
# Operators across types

Six comparisons for each integer type with each inexact type, in both operand
orders: 108 operators.
-/

namespace ExactCompare

/-- The comparison `left op right`, where one operand is an integer. -/
structure CrossOperator where
  op : ComparisonOp
  integer : IntegerType
  inexact : InexactType
  order : OperandOrder
  deriving DecidableEq

namespace CrossOperator

def all : List CrossOperator :=
  OperandOrder.all.flatMap fun order =>
    IntegerType.all.flatMap fun integer =>
      InexactType.all.flatMap fun inexact =>
        ComparisonOp.all.map fun op => { op, integer, inexact, order }

def left (c : CrossOperator) : ColumnType := c.order.left c.integer c.inexact

def right (c : CrossOperator) : ColumnType := c.order.right c.integer c.inexact

def name (c : CrossOperator) : String :=
  c.order.routineName c.integer c.inexact c.op.mnemonic

/-- The comparison with the integer on the left. -/
def integerOriented (c : CrossOperator) : ComparisonOp :=
  match c.order with
  | .integerFirst => c.op
  | .inexactFirst => c.op.commute

/-- The operator that gives the same answer once the operands change places. -/
def commutator (c : CrossOperator) : CrossOperator :=
  { c with op := c.op.commute, order := c.order.flip }

def holds (c : CrossOperator) (n : Int) (d : Decoded) : Bool :=
  (compareInt n d).satisfies c.integerOriented

def evaluate (c : CrossOperator) (left right : Literal) : Except EvaluationError Bool :=
  (splitOperands c.name c.order c.integer c.inexact left right).map
    fun (n, v) => c.holds n v.decode

end CrossOperator

end ExactCompare
