import ExactCompare.Proofs.Catalog.Stranded
import ExactCompare.Proofs.Host.History

/-!
# Where references break

A run keeps every reference, but for those whose target belonged to another owner that was
removed.
-/

namespace ExactCompare

end ExactCompare
