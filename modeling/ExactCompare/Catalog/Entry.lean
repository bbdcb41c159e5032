import ExactCompare.Identifier
import ExactCompare.Routine

/-!
# Catalog entries

Functions, operators and the members of operator families. Every function and
every operator has an object id. An entry without an owner is built in.
-/

namespace ExactCompare

structure Oid where
  number : Nat
  deriving DecidableEq

namespace Oid

/-- The first id that is given to an object of an extension. -/
def firstNormal : Nat := 16384

def isValid (o : Oid) : Bool := o.number != 0

def isNormal (o : Oid) : Bool := firstNormal ≤ o.number

def next (o : Oid) : Oid := ⟨o.number + 1⟩

end Oid

/-! ## Families -/

inductive AccessMethod where
  | btree | hash
  deriving DecidableEq

inductive FamilyName where
  | integer | numeric | float
  deriving DecidableEq

namespace FamilyName

def all : List FamilyName := [integer, numeric, float]

def name : FamilyName → String
  | integer => "integer_ops"
  | numeric => "numeric_ops"
  | float => "float_ops"

/-- The two float types share a family. -/
def ofInexact : InexactType → FamilyName
  | .numeric => numeric
  | .float4 | .float8 => float

end FamilyName

structure Family where
  method : AccessMethod
  name : FamilyName
  deriving DecidableEq

def AccessMethod.name : AccessMethod → String
  | btree => "btree"
  | hash => "hash"

namespace Family

def all : List Family :=
  [AccessMethod.btree, .hash].flatMap fun method => FamilyName.all.map fun name => { method, name }

def text (f : Family) : String := f.method.name ++ "/" ++ f.name.name

end Family

/-! ## Operators -/

structure Signature where
  op : ComparisonOp
  left : ColumnType
  right : ColumnType
  deriving DecidableEq

def Signature.text (s : Signature) : String :=
  s.op.symbol ++ "(" ++ s.left.name ++ ", " ++ s.right.name ++ ")"

def CrossOperator.signature (c : CrossOperator) : Signature := ⟨c.op, c.left, c.right⟩

/-! ## Entries -/

structure FunctionEntry where
  oid : Oid
  name : String
  argumentTypes : List ColumnType
  /-- A built-in function has no body here. -/
  routine : Option Routine
  owner : Option Identifier
  deriving DecidableEq

structure OperatorEntry where
  oid : Oid
  signature : Signature
  /-- A built-in operator has no function here. -/
  function : Option Oid
  owner : Option Identifier
  deriving DecidableEq

inductive MemberKind where
  | operator | support
  deriving DecidableEq

/-- The place of a member in its family. No two members of a family share one. -/
structure Slot where
  kind : MemberKind
  number : Nat
  left : ColumnType
  right : ColumnType
  deriving DecidableEq

structure FamilyMember where
  family : Family
  slot : Slot
  object : Oid
  owner : Option Identifier
  deriving DecidableEq

end ExactCompare
