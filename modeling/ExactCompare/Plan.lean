import ExactCompare.Catalog.Batch

/-!
# The registration plan

The batch that installs every routine and operator across types. Functions come
first, then operators, then the members of the ordered families and of the hash
families.
-/

namespace ExactCompare

/-- Which ordered families get the `=` operators. -/
inductive EqualityRegistration where
  | allFamilies | integerFamilyOnly
  deriving DecidableEq

namespace Plan

def routines : List Routine :=
  CrossOperator.all.map .operator ++ SortSupport.all.map .sortSupport ++ HashSupport.all.map .hash

def operators : List Change :=
  CrossOperator.all.map fun c => .createOperator c.signature c.name

/-! ## Ordered families -/

/-- The `=` operators always join the integer family. -/
def takesEquality (equality : EqualityRegistration) (name : FamilyName) : Bool :=
  equality == .allFamilies || name == .integer

def btreeOperator (equality : EqualityRegistration) (name : FamilyName) (c : CrossOperator) :
    Option Change := do
  let strategy ← c.op.strategy?
  if c.op = .eq ∧ takesEquality equality name = false then none
  else return .addOperator ⟨.btree, name⟩ strategy c.signature

def btreeSupport (name : FamilyName) (s : SortSupport) : Change :=
  .addSupport ⟨.btree, name⟩ 1 s.left s.right s.name [s.left, s.right]

/-- The members of one ordered family for a pair of types, in one operand order. -/
def btreeMembersInOrder (equality : EqualityRegistration) (name : FamilyName)
    (integer : IntegerType) (inexact : InexactType) (order : OperandOrder) : List Change :=
  ComparisonOp.all.filterMap
      (fun op => btreeOperator equality name { op, integer, inexact, order }) ++
    [btreeSupport name { integer, inexact, order }]

/-- Each pair of types joins the integer family and the family of its inexact type. -/
def btreeMembers (equality : EqualityRegistration) : List Change :=
  IntegerType.all.flatMap fun integer =>
    InexactType.all.flatMap fun inexact =>
      [FamilyName.integer, .ofInexact inexact].flatMap fun name =>
        OperandOrder.all.flatMap fun order =>
          btreeMembersInOrder equality name integer inexact order

/-! ## Hash families -/

def hashOperators : List Change :=
  IntegerType.all.flatMap fun integer =>
    InexactType.all.flatMap fun inexact =>
      OperandOrder.all.map fun order =>
        let c : CrossOperator := { op := .eq, integer, inexact, order }
        .addOperator ⟨.hash, .ofInexact inexact⟩ 1 c.signature

def hashSupport (h : HashSupport) : Change :=
  .addSupport ⟨.hash, .ofInexact h.target⟩ h.number (.integer h.integer) (.integer h.integer)
    h.name h.argumentTypes

/-- The float types share a family, so it gets the supports of one of them. -/
def hashSupports : List Change :=
  IntegerType.all.flatMap fun integer =>
    [InexactType.numeric, .float8].flatMap fun target =>
      [false, true].map fun extended => hashSupport { integer, target, extended }

/-! ## The whole -/

def changes (equality : EqualityRegistration) : List Change :=
  routines.map .createFunction ++ operators ++ btreeMembers equality ++ hashOperators ++
    hashSupports

def batch (owner : Identifier) (equality : EqualityRegistration) : Batch :=
  { owner, changes := changes equality }

end Plan

end ExactCompare
