import ExactCompare.Text

/-!
# Comparison operators

The six SQL comparisons, and what each does to an ordering of its operands.
-/

namespace ExactCompare

inductive ComparisonOp where
  | eq | ne | lt | le | gt | ge
  deriving DecidableEq

structure UnknownOperator where
  text : String
  deriving DecidableEq

namespace ComparisonOp

def all : List ComparisonOp := [eq, ne, lt, le, gt, ge]

def symbol : ComparisonOp → String
  | eq => "="
  | ne => "<>"
  | lt => "<"
  | le => "<="
  | gt => ">"
  | ge => ">="

/-- The part of a routine's name that stands for the operator. -/
def mnemonic : ComparisonOp → String
  | eq => "eq"
  | ne => "ne"
  | lt => "lt"
  | le => "le"
  | gt => "gt"
  | ge => "ge"

/-- The operator that gives the same answer once the operands change places. -/
def commute : ComparisonOp → ComparisonOp
  | eq => eq
  | ne => ne
  | lt => gt
  | le => ge
  | gt => lt
  | ge => le

/-- The slot of the operator in an ordered family. An ordered index cannot serve `<>`. -/
def strategy? : ComparisonOp → Option Nat
  | lt => some 1
  | le => some 2
  | eq => some 3
  | ge => some 4
  | gt => some 5
  | ne => none

/-- Whether an ordering of the left operand against the right one satisfies the operator. -/
def accepts : ComparisonOp → Ordering → Bool
  | eq, o => o.isEq
  | ne, o => o.isNe
  | lt, o => o.isLT
  | le, o => o.isLE
  | gt, o => o.isGT
  | ge, o => o.isGE

def parse (text : String) : Except UnknownOperator ComparisonOp :=
  match Text.trimmed text with
  | "=" | "==" => .ok eq
  | "<>" | "!=" => .ok ne
  | "<" => .ok lt
  | "<=" => .ok le
  | ">" => .ok gt
  | ">=" => .ok ge
  | other => .error ⟨other⟩

end ComparisonOp

def UnknownOperator.message (e : UnknownOperator) : String :=
  "Unknown comparison operator: " ++ e.text

end ExactCompare
