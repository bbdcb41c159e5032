import ExactCompare.Catalog.Entry

/-!
# Catalog errors
-/

namespace ExactCompare

inductive CatalogError where
  | duplicateFunction (name : String)
  | duplicateOperator (signature : Signature)
  | duplicateMember (family : Family) (number : Nat) (left right : ColumnType)
  | unknownFunction (name : String)
  | unknownOperator (signature : Signature)
  | unknownOperatorOid (oid : Oid)
  | unknownFunctionOid (oid : Oid)
  | alreadyInstalled (extension : Identifier)
  | notInstalled (extension : Identifier)
  | notCallable (oid : Oid)
  | evaluation (cause : EvaluationError)
  | hookFailed (extension : Identifier) (message : String)
  deriving DecidableEq

def CatalogError.message : CatalogError → String
  | duplicateFunction name => "function " ++ name ++ " already exists"
  | duplicateOperator signature => "operator " ++ signature.text ++ " already exists"
  | duplicateMember family number left right =>
    family.text ++ " already has a member for slot " ++ toString number ++ " on (" ++
      left.name ++ ", " ++ right.name ++ ")"
  | unknownFunction name => "function " ++ name ++ " does not exist"
  | unknownOperator signature => "operator " ++ signature.text ++ " does not exist"
  | unknownOperatorOid oid => "no operator has oid " ++ toString oid.number
  | unknownFunctionOid oid => "no function has oid " ++ toString oid.number
  | alreadyInstalled extension => "extension " ++ extension.name ++ " is already installed"
  | notInstalled extension => "extension " ++ extension.name ++ " is not installed"
  | notCallable oid =>
    "oid " ++ toString oid.number ++ " is a host built-in and has no callable body"
  | evaluation cause => cause.message
  | hookFailed extension message =>
    "drop hook for extension " ++ extension.name ++ " failed: " ++ message

end ExactCompare
