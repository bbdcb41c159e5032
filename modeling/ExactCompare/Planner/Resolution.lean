import ExactCompare.Catalog

/-!
# Resolved operators

The ids that the operators across types have in a catalog. A process keeps its
resolution until the catalog changes.
-/

namespace ExactCompare

structure Resolution where
  entries : List (CrossOperator × Oid)
  deriving DecidableEq

namespace Resolution

/-- Looks up every operator across types by its signature. -/
def ofCatalog (c : Catalog) : Resolution where
  entries := CrossOperator.all.filterMap fun operator =>
    (c.findOperator? operator.signature).map fun oid => (operator, oid)

def operator? (r : Resolution) (oid : Oid) : Option CrossOperator :=
  (r.entries.find? (·.2 = oid)).map (·.1)

def oid? (r : Resolution) (operator : CrossOperator) : Option Oid :=
  (r.entries.find? (·.1 = operator)).map (·.2)

end Resolution

end ExactCompare
