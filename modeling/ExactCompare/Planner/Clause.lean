import ExactCompare.Catalog.Builtin
import ExactCompare.Reduction

/-!
# Planning a clause

A clause compares a column with a constant. If its operator is one across types
and the column is the integer side, the clause becomes a built-in comparison of
two integers or a constant answer. Any other clause stays as it is.
-/

namespace ExactCompare

structure ColumnRef where
  name : Identifier
  type : ColumnType
  deriving DecidableEq

/-- A constant without a value is null. -/
inductive Operand where
  | column (column : ColumnRef)
  | constant (value : Option Literal)
  deriving DecidableEq

structure Clause where
  operator : Oid
  left : Operand
  right : Operand
  deriving DecidableEq

/-- A built-in comparison of a column with a constant of its type. -/
structure NativeComparison where
  column : ColumnRef
  op : ComparisonOp
  operator : Oid
  constant : Literal
  bound : Int
  deriving DecidableEq

inductive Planned where
  | unchanged
  | constant (answer : Bool)
  | native (comparison : NativeComparison)
  deriving DecidableEq

inductive PlanError where
  | constantType (operator : String) (expected actual : ColumnType)
  deriving DecidableEq

def PlanError.message : PlanError → String
  | constantType operator expected actual =>
    "constant of type " ++ actual.name ++ " passed to " ++ operator ++ ", expected " ++
      expected.name

/-- The answer for one column value. A null column gives null. `kept` answers
for a clause that is kept. -/
def Planned.evaluate (p : Planned) (column : Option Int) (kept : Int → Bool) :
    Option Bool :=
  column.map fun n =>
    match p with
    | unchanged => kept n
    | constant answer => answer
    | native comparison => comparison.op.accepts (compare n comparison.bound)

namespace Clause

/-- The column and the constant of a clause that has one of each. -/
def sides? (clause : Clause) : Option (OperandOrder × ColumnRef × Option Literal) :=
  match clause.left, clause.right with
  | .column column, .constant value => some (.integerFirst, column, value)
  | .constant value, .column column => some (.inexactFirst, column, value)
  | _, _ => none

/-- The built-in form of a reduced comparison. -/
def toPlanned (column : ColumnRef) (t : IntegerType) : Reduction → Planned
  | .unchanged => .unchanged
  | .constant answer => .constant answer
  | .native op bound =>
    match Literal.ofInteger t bound with
    | none => .unchanged
    | some constant =>
      .native { column, op, operator := t.nativeOperator op, constant, bound }

/-- Plans a comparison of a column on the integer side with a constant that is not null. -/
def planConstant (c : CrossOperator) (column : ColumnRef) (value : Literal) :
    Except PlanError Planned :=
  let mismatch : Except PlanError Planned :=
    .error (.constantType c.name (.inexact c.inexact) value.type)
  match value.inexactValue? with
  | none => mismatch
  | some v =>
    if v.type ≠ c.inexact then mismatch
    else
      .ok (toPlanned column c.integer
        (Reduction.ofComparison c.integerOriented c.integer v.decode))

/-- Plans a clause whose operator is known. A null constant is left to the operator. -/
def planAs (clause : Clause) (c : CrossOperator) : Except PlanError Planned :=
  match clause.sides? with
  | none => .ok .unchanged
  | some (order, column, value) =>
    if order ≠ c.order ∨ column.type ≠ .integer c.integer then .ok .unchanged
    else
      match value with
      | none => .ok .unchanged
      | some value => planConstant c column value

end Clause

end ExactCompare
