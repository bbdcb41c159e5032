import ExactCompare.Catalog

/-!
# Built-in objects

The comparisons of two values of one type and the support functions of the six
types. They are in every catalog, and nothing removes them.
-/

namespace ExactCompare

/-- The built-in objects of one type. -/
structure Builtin where
  type : ColumnType
  family : FamilyName
  operator : ComparisonOp → Nat
  btreeCompare : String × Nat
  hash : String × Nat
  hashExtended : String × Nat

namespace Builtin

def int2Operator : ComparisonOp → Nat
  | .eq => 94 | .ne => 519 | .lt => 95 | .le => 522 | .gt => 520 | .ge => 524

def int4Operator : ComparisonOp → Nat
  | .eq => 96 | .ne => 518 | .lt => 97 | .le => 523 | .gt => 521 | .ge => 525

def int8Operator : ComparisonOp → Nat
  | .eq => 410 | .ne => 411 | .lt => 412 | .le => 414 | .gt => 413 | .ge => 415

def numericOperator : ComparisonOp → Nat
  | .eq => 1752 | .ne => 1753 | .lt => 1754 | .le => 1755 | .gt => 1756 | .ge => 1757

def float4Operator : ComparisonOp → Nat
  | .eq => 620 | .ne => 621 | .lt => 622 | .le => 624 | .gt => 623 | .ge => 625

def float8Operator : ComparisonOp → Nat
  | .eq => 670 | .ne => 671 | .lt => 672 | .le => 673 | .gt => 674 | .ge => 675

def all : List Builtin := [
  { type := .integer .int2, family := .integer, operator := int2Operator
    btreeCompare := ("btint2cmp", 350)
    hash := ("hashint2", 449), hashExtended := ("hashint2extended", 441) },
  { type := .integer .int4, family := .integer, operator := int4Operator
    btreeCompare := ("btint4cmp", 351)
    hash := ("hashint4", 450), hashExtended := ("hashint4extended", 425) },
  { type := .integer .int8, family := .integer, operator := int8Operator
    btreeCompare := ("btint8cmp", 842)
    hash := ("hashint8", 949), hashExtended := ("hashint8extended", 442) },
  { type := .inexact .numeric, family := .numeric, operator := numericOperator
    btreeCompare := ("numeric_cmp", 1769)
    hash := ("hash_numeric", 432), hashExtended := ("hash_numeric_extended", 780) },
  { type := .inexact .float4, family := .float, operator := float4Operator
    btreeCompare := ("btfloat4cmp", 354)
    hash := ("hashfloat4", 451), hashExtended := ("hashfloat4extended", 443) },
  { type := .inexact .float8, family := .float, operator := float8Operator
    btreeCompare := ("btfloat8cmp", 355)
    hash := ("hashfloat8", 452), hashExtended := ("hashfloat8extended", 444) }]

/-! ## Entries of one type -/

def functions (b : Builtin) : List FunctionEntry :=
  [(b.btreeCompare, [b.type, b.type]), (b.hash, [b.type]),
    (b.hashExtended, [b.type, .integer .int8])].map fun ((name, number), argumentTypes) =>
      { oid := ⟨number⟩, name, argumentTypes, routine := none, owner := none }

def operators (b : Builtin) : List OperatorEntry :=
  ComparisonOp.all.map fun op =>
    { oid := ⟨b.operator op⟩, signature := ⟨op, b.type, b.type⟩, function := none, owner := none }

def member (b : Builtin) (method : AccessMethod) (kind : MemberKind) (number object : Nat) :
    FamilyMember where
  family := ⟨method, b.family⟩
  slot := ⟨kind, number, b.type, b.type⟩
  object := ⟨object⟩
  owner := none

def members (b : Builtin) : List FamilyMember :=
  ComparisonOp.all.filterMap (fun op =>
    op.strategy?.map fun strategy => b.member .btree .operator strategy (b.operator op)) ++
  [b.member .hash .operator 1 (b.operator .eq),
    b.member .btree .support 1 b.btreeCompare.2,
    b.member .hash .support 1 b.hash.2,
    b.member .hash .support 2 b.hashExtended.2]

end Builtin

/-- The built-in comparison of two integers of one type. -/
def IntegerType.nativeOperator (t : IntegerType) (op : ComparisonOp) : Oid :=
  match t with
  | .int2 => ⟨Builtin.int2Operator op⟩
  | .int4 => ⟨Builtin.int4Operator op⟩
  | .int8 => ⟨Builtin.int8Operator op⟩

/-- The catalog with nothing but the built-in objects. -/
def Catalog.bootstrap : Catalog where
  version := 0
  nextOid := ⟨Oid.firstNormal⟩
  functions := Builtin.all.flatMap Builtin.functions
  operators := Builtin.all.flatMap Builtin.operators
  members := Builtin.all.flatMap Builtin.members
  extensions := []

end ExactCompare
