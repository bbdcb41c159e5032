import ExactCompare.Plan

/-!
# Configuration

What an extension is called, whether its planner support is on at first, and
where its `=` operators are registered.
-/

namespace ExactCompare

structure Config where
  extension : Identifier
  enableSupport : Bool
  equality : EqualityRegistration
  deriving DecidableEq

namespace Config

def defaultExtension : Identifier where
  name := "numcmp"
  canonical := ⟨by decide, by decide, by decide⟩

def default : Config where
  extension := defaultExtension
  enableSupport := true
  equality := .allFamilies

end Config

end ExactCompare
