import ExactCompare.Text

/-!
# Column types

Three integer types with their ranges, and three types whose values need not be
integers.
-/

namespace ExactCompare

inductive IntegerType where
  | int2 | int4 | int8
  deriving DecidableEq

inductive InexactType where
  | numeric | float4 | float8
  deriving DecidableEq

inductive ColumnType where
  | integer (type : IntegerType)
  | inexact (type : InexactType)
  deriving DecidableEq

structure UnsupportedType where
  name : String
  deriving DecidableEq

namespace IntegerType

def all : List IntegerType := [int2, int4, int8]

def min : IntegerType → Int
  | int2 => -32768
  | int4 => -2147483648
  | int8 => -9223372036854775808

def max : IntegerType → Int
  | int2 => 32767
  | int4 => 2147483647
  | int8 => 9223372036854775807

def contains (t : IntegerType) (n : Int) : Bool := t.min ≤ n && n ≤ t.max

theorem contains_iff {t : IntegerType} {n : Int} :
    t.contains n = true ↔ t.min ≤ n ∧ n ≤ t.max := by
  simp [contains]

def name : IntegerType → String
  | int2 => "int2"
  | int4 => "int4"
  | int8 => "int8"

end IntegerType

namespace InexactType

def all : List InexactType := [numeric, float4, float8]

def name : InexactType → String
  | numeric => "numeric"
  | float4 => "float4"
  | float8 => "float8"

end InexactType

namespace ColumnType

def name : ColumnType → String
  | integer t => t.name
  | inexact t => t.name

def integerType? : ColumnType → Option IntegerType
  | integer t => some t
  | inexact _ => none

def inexactType? : ColumnType → Option InexactType
  | integer _ => none
  | inexact t => some t

/-- Reads a type's name or one of its SQL aliases, in any case. -/
def parse (text : String) : Except UnsupportedType ColumnType :=
  match Text.lowered (Text.trimmed text) with
  | "int2" | "smallint" => .ok (integer .int2)
  | "int4" | "int" | "integer" => .ok (integer .int4)
  | "int8" | "bigint" => .ok (integer .int8)
  | "numeric" | "decimal" => .ok (inexact .numeric)
  | "float4" | "real" => .ok (inexact .float4)
  | "float8" | "double precision" => .ok (inexact .float8)
  | other => .error ⟨other⟩

end ColumnType

def UnsupportedType.message (e : UnsupportedType) : String :=
  "unsupported column type: " ++ e.name

end ExactCompare
