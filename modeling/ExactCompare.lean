import ExactCompare.Host.Action
import ExactCompare.Serial
import ExactCompare.Proofs.Operators
import ExactCompare.Proofs.Reduction
import ExactCompare.Proofs.Hash.Equal
import ExactCompare.Proofs.Catalog.Held
import ExactCompare.Proofs.Plan.Contents
import ExactCompare.Proofs.Plan.Installed
import ExactCompare.Proofs.Catalog.Lookup
import ExactCompare.Proofs.Host.Runs
import ExactCompare.Proofs.Planning
import ExactCompare.Proofs.HashJoin
import ExactCompare.Proofs.Catalog.Success
import ExactCompare.Proofs.Plan.Success
import ExactCompare.Proofs.Coherence
import ExactCompare.Proofs.Catalog.Ids
import ExactCompare.Proofs.Identity
import ExactCompare.Proofs.Catalog.Clashes
import ExactCompare.Proofs.Consistency
import ExactCompare.Proofs.AllOrNothing
import ExactCompare.Proofs.Catalog.Replay
import ExactCompare.Proofs.Host.History
import ExactCompare.Proofs.Uninstalling
import ExactCompare.Proofs.Plan.Families
import ExactCompare.Proofs.Catalog.References
import ExactCompare.Proofs.Catalog.Stranded
import ExactCompare.Proofs.Catalog.Typed
import ExactCompare.Proofs.Lifecycle
import ExactCompare.Proofs.Recognition
import ExactCompare.Proofs.Integrity
import ExactCompare.Proofs.OrderedFamilies
import ExactCompare.Proofs.Registration
import ExactCompare.Proofs.Host.Calls
import ExactCompare.Proofs.Failures
import ExactCompare.Proofs.Except
import ExactCompare.Proofs.Decimal.Value
import ExactCompare.Proofs.Decimal.Spelling
import ExactCompare.Proofs.Numeric.Conversion
import ExactCompare.Proofs.Reading
import ExactCompare.Proofs.TypedCalls
import ExactCompare.Proofs.PlannedClauses
import ExactCompare.Proofs.Decoding
import ExactCompare.Proofs.Numeric.Regrouping
import ExactCompare.Proofs.Numeric.Canonical
import ExactCompare.Proofs.Decimal.Rescaling
import ExactCompare.Proofs.Decimal.Printing
import ExactCompare.Proofs.Numeric.Shown
import ExactCompare.Proofs.Conversions
import ExactCompare.Proofs.StoredValue
import ExactCompare.Proofs.Numeric.Integers
import ExactCompare.Proofs.Numeric.Denoting
import ExactCompare.Proofs.RoundTrip
import ExactCompare.Proofs.IntegerNumerics
import ExactCompare.Proofs.SeededHashes
import ExactCompare.Proofs.RoundedComparisons
import ExactCompare.Proofs.ValueHashes
import ExactCompare.Proofs.Host.Hooks
import ExactCompare.Proofs.Dropping
import ExactCompare.Proofs.DecimalTexts
import ExactCompare.Proofs.CheckedCalls
import ExactCompare.Proofs.Decimal.Floats
import ExactCompare.Proofs.Json.OneField
import ExactCompare.Proofs.DecimalDocuments
import ExactCompare.Proofs.Catalog.Rows
import ExactCompare.Proofs.IndependentInstalls
import ExactCompare.Proofs.Names
import ExactCompare.Proofs.IntegerDigits
import ExactCompare.Proofs.Json.Grammar
import ExactCompare.Proofs.Json.Tokens
import ExactCompare.Proofs.Json.Documents
import ExactCompare.Proofs.Json.Writing
import ExactCompare.Proofs.Json.Records
import ExactCompare.Proofs.Configurations
import ExactCompare.Proofs.Exact.RoundsTo
import ExactCompare.Proofs.Exact.Shortest
import ExactCompare.Proofs.Json.Numbers
import ExactCompare.Proofs.Json.Floats
import ExactCompare.Proofs.Json.Doubles
import ExactCompare.Proofs.Numeric.Rereading
import ExactCompare.Proofs.Literals
import ExactCompare.Proofs.Exact.TwoRoundings
import ExactCompare.Proofs.KeyBytes
