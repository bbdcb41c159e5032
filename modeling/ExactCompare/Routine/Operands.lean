import ExactCompare.Literal

/-!
# Operands of a routine

A routine over an integer type and an inexact type takes its operands in one of
two orders. Its operands are checked from left to right.
-/

namespace ExactCompare

inductive EvaluationError where
  | argumentType (routine : String) (position : Nat) (expected actual : ColumnType)
  | argumentCount (routine : String) (expected actual : Nat)
  deriving DecidableEq

def EvaluationError.message : EvaluationError → String
  | .argumentType routine position expected actual =>
    "argument " ++ toString position ++ " of " ++ routine ++ " has type " ++ actual.name ++
      ", expected " ++ expected.name
  | .argumentCount routine expected actual =>
    routine ++ " takes " ++ toString expected ++ " arguments, got " ++ toString actual

inductive OperandOrder where
  | integerFirst | inexactFirst
  deriving DecidableEq

namespace OperandOrder

def all : List OperandOrder := [integerFirst, inexactFirst]

def flip : OperandOrder → OperandOrder
  | integerFirst => inexactFirst
  | inexactFirst => integerFirst

def left (o : OperandOrder) (i : IntegerType) (x : InexactType) : ColumnType :=
  match o with
  | integerFirst => .integer i
  | inexactFirst => .inexact x

def right (o : OperandOrder) (i : IntegerType) (x : InexactType) : ColumnType :=
  o.flip.left i x

/-- The name of a routine: its operand types with a word between them. -/
def routineName (o : OperandOrder) (i : IntegerType) (x : InexactType) (word : String) : String :=
  (o.left i x).name ++ "_" ++ word ++ "_" ++ (o.right i x).name

end OperandOrder

/-- The integer operand and the other one, if both have the declared types. -/
def splitOperands (routine : String) (o : OperandOrder) (i : IntegerType) (x : InexactType)
    (left right : Literal) : Except EvaluationError (Int × Inexact) :=
  if left.type ≠ o.left i x then .error (.argumentType routine 0 (o.left i x) left.type)
  else if right.type ≠ o.right i x then
    .error (.argumentType routine 1 (o.right i x) right.type)
  else
    match left, right with
    | .integer _ n _, .inexact v | .inexact v, .integer _ n _ => .ok (n, v)
    | _, _ => .error (.argumentType routine 0 (o.left i x) left.type)

end ExactCompare
