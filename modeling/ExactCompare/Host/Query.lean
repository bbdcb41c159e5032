import ExactCompare.Host

/-!
# What a process sees

Look-ups through the cache of a process, the plan of a clause, and the list of
installed operators. Each may fill the cache, and none looks past it.
-/

namespace ExactCompare

/-- An operator across types as it is found in the catalog. -/
structure InstalledOperator where
  operator : CrossOperator
  oid : Oid
  function : Oid
  /-- For `=`, the hash of the integer side. -/
  hashFunction : Option Oid
  families : List Family
  deriving DecidableEq

namespace Process

/-- With the flag off, the clause stays and the cache is not touched. -/
def plan (p : Process) (c : Catalog) (clause : Clause) : Except PlanError Planned × Process :=
  if p.enabled then
    match (p.resolution c).operator? clause.operator with
    | none => (.ok .unchanged, p.populate c)
    | some operator => (clause.planAs operator, p.populate c)
  else (.ok .unchanged, p)

end Process

namespace Manager

def isRegistered (m : Manager) (c : Catalog) : Bool := c.isInstalled m.extension

def familiesOf (c : Catalog) (oid : Oid) : List Family :=
  Family.all.filter fun f =>
    (c.membersOf f).any fun member => member.slot.kind == .operator && member.object == oid

/-- The manager's own hash support for the integer side of an operator. -/
def hashFunction? (m : Manager) (c : Catalog) (operator : CrossOperator) : Option Oid :=
  ((c.membersOf ⟨.hash, .ofInexact operator.inexact⟩).find? fun member =>
    member.slot.kind = .support ∧ member.slot.number = 1 ∧
      member.slot.left = .integer operator.integer ∧ member.owner = some m.extension).map
    (·.object)

def installed? (m : Manager) (c : Catalog) (r : Resolution) (operator : CrossOperator) :
    Option InstalledOperator := do
  let oid ← r.oid? operator
  let entry ← c.operator? oid
  let function ← entry.function
  return {
    operator, oid, function
    hashFunction := if operator.op = .eq then m.hashFunction? c operator else none
    families := familiesOf c oid }

/-- The operators across types that a resolution finds in the catalog. -/
def inventory (m : Manager) (c : Catalog) (r : Resolution) : List InstalledOperator :=
  CrossOperator.all.filterMap (m.installed? c r)

end Manager

end ExactCompare
