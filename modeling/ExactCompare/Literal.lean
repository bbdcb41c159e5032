import ExactCompare.Binary
import ExactCompare.ColumnType
import ExactCompare.Numeric

/-!
# Literals

A value of one of the six column types: an integer within its type's range, a
numeric, or a float.
-/

namespace ExactCompare

abbrev Float4 := Binary .binary32

abbrev Float8 := Binary .binary64

/-- A value of a type that is not an integer type. -/
inductive Inexact where
  | numeric (value : Numeric)
  | float4 (value : Float4)
  | float8 (value : Float8)
  deriving DecidableEq

def Inexact.type : Inexact → InexactType
  | .numeric _ => .numeric
  | .float4 _ => .float4
  | .float8 _ => .float8

inductive Literal where
  | integer (type : IntegerType) (value : Int) (inRange : type.contains value = true)
  | inexact (value : Inexact)
  deriving DecidableEq

namespace Literal

def type : Literal → ColumnType
  | integer t _ _ => .integer t
  | inexact v => .inexact v.type

def integerValue? : Literal → Option Int
  | integer _ n _ => some n
  | inexact _ => none

def inexactValue? : Literal → Option Inexact
  | integer _ _ _ => none
  | inexact v => some v

/-- The integer as a literal of the type, if it is in range. -/
def ofInteger (t : IntegerType) (n : Int) : Option Literal :=
  if h : t.contains n = true then some (integer t n h) else none

end Literal

end ExactCompare
