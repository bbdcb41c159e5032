import ExactCompare.Catalog.Batch
import ExactCompare.Catalog.Error

/-!
# The catalog

Tables of functions, operators and family members, in order of creation, and the
set of installed extensions. A change is a function from one catalog to the next,
so a failed batch changes nothing. The version counts the changes that succeeded.
Ids only go up, and both tables draw them from one counter.
-/

namespace ExactCompare

structure Catalog where
  version : Nat
  nextOid : Oid
  functions : List FunctionEntry
  operators : List OperatorEntry
  members : List FamilyMember
  extensions : List Identifier
  deriving DecidableEq

structure RemovalSummary where
  functions : Nat
  operators : Nat
  members : Nat
  deriving DecidableEq

namespace Catalog

/-! ## Looking up -/

def function? (c : Catalog) (oid : Oid) : Option FunctionEntry :=
  c.functions.find? (·.oid = oid)

def operator? (c : Catalog) (oid : Oid) : Option OperatorEntry :=
  c.operators.find? (·.oid = oid)

def findFunction? (c : Catalog) (name : String) (argumentTypes : List ColumnType) : Option Oid :=
  (c.functions.find? fun f => f.name = name ∧ f.argumentTypes = argumentTypes).map (·.oid)

def findOperator? (c : Catalog) (signature : Signature) : Option Oid :=
  (c.operators.find? (·.signature = signature)).map (·.oid)

def membersOf (c : Catalog) (family : Family) : List FamilyMember :=
  c.members.filter (·.family = family)

def isInstalled (c : Catalog) (extension : Identifier) : Bool := c.extensions.contains extension

def operatorsOwnedBy (c : Catalog) (extension : Identifier) : List OperatorEntry :=
  c.operators.filter (·.owner = some extension)

def functionsOwnedBy (c : Catalog) (extension : Identifier) : List FunctionEntry :=
  c.functions.filter (·.owner = some extension)

def countMembers (c : Catalog) (family : Family) : Nat := (c.membersOf family).length

def countMembersOwnedBy (c : Catalog) (family : Family) (extension : Identifier) : Nat :=
  (c.membersOf family).countP (·.owner = some extension)

/-! ## Calling -/

def invokeFunction (c : Catalog) (oid : Oid) (arguments : List Literal) :
    Except CatalogError RoutineResult :=
  match c.function? oid with
  | none => .error (.unknownFunctionOid oid)
  | some f =>
    match f.routine with
    | none => .error (.notCallable oid)
    | some routine => (routine.invoke arguments).mapError .evaluation

/-- What an operator does: its function's body, if that is a comparison. -/
def comparison? (c : Catalog) (entry : OperatorEntry) : Option CrossOperator :=
  match (entry.function.bind c.function?).bind (·.routine) with
  | some (.operator operator) => some operator
  | _ => none

def invokeOperator (c : Catalog) (oid : Oid) (left right : Literal) : Except CatalogError Bool :=
  match c.operator? oid with
  | none => .error (.unknownOperatorOid oid)
  | some entry =>
    match c.comparison? entry with
    | none => .error (.notCallable oid)
    | some operator => (operator.evaluate left right).mapError .evaluation

/-! ## Changing -/

def addMember (c : Catalog) (member : FamilyMember) : Except CatalogError Catalog :=
  if (c.membersOf member.family).any (·.slot = member.slot) then
    .error (.duplicateMember member.family member.slot.number member.slot.left member.slot.right)
  else .ok { c with members := c.members ++ [member] }

/-- The next id is taken and never given out again. -/
def createFunction (c : Catalog) (owner : Identifier) (routine : Routine) :
    Except CatalogError Catalog :=
  if (c.findFunction? routine.name routine.argumentTypes).isSome then
    .error (.duplicateFunction routine.name)
  else
    .ok { c with
      nextOid := c.nextOid.next
      functions := c.functions ++ [{
        oid := c.nextOid
        name := routine.name
        argumentTypes := routine.argumentTypes
        routine := some routine
        owner := some owner }] }

def createOperator (c : Catalog) (owner : Identifier) (signature : Signature)
    (function : String) : Except CatalogError Catalog :=
  if (c.findOperator? signature).isSome then .error (.duplicateOperator signature)
  else
    match c.findFunction? function [signature.left, signature.right] with
    | none => .error (.unknownFunction function)
    | some implementation =>
      .ok { c with
        nextOid := c.nextOid.next
        operators := c.operators ++ [{
          oid := c.nextOid
          signature
          function := some implementation
          owner := some owner }] }

def apply (c : Catalog) (owner : Identifier) : Change → Except CatalogError Catalog
  | .createFunction routine => c.createFunction owner routine
  | .createOperator signature function => c.createOperator owner signature function
  | .addOperator family strategy signature =>
    match c.findOperator? signature with
    | none => .error (.unknownOperator signature)
    | some object =>
      let slot := { kind := .operator, number := strategy,
                    left := signature.left, right := signature.right }
      c.addMember { family, slot, object, owner := some owner }
  | .addSupport family number left right function argumentTypes =>
    match c.findFunction? function argumentTypes with
    | none => .error (.unknownFunction function)
    | some object =>
      c.addMember { family, slot := { kind := .support, number, left, right }, object,
                    owner := some owner }

/-- Applies the changes in order. The first error ends it. -/
def applyAll (c : Catalog) (owner : Identifier) (changes : List Change) :
    Except CatalogError Catalog :=
  changes.foldlM (fun c change => c.apply owner change) c

/-! ## Installing and removing -/

def commit (c : Catalog) : Catalog := { c with version := c.version + 1 }

/-- Installs an extension with everything in its batch, or nothing at all. -/
def createExtension (c : Catalog) (batch : Batch) : Except CatalogError Catalog :=
  if c.isInstalled batch.owner then .error (.alreadyInstalled batch.owner)
  else do
    let c ← { c with extensions := c.extensions ++ [batch.owner] }.applyAll batch.owner
      batch.changes
    return c.commit

def withoutOwner (c : Catalog) (extension : Identifier) : Catalog :=
  { c with
    functions := c.functions.filter (·.owner ≠ some extension)
    operators := c.operators.filter (·.owner ≠ some extension)
    members := c.members.filter (·.owner ≠ some extension)
    extensions := c.extensions.filter (· ≠ extension) }

/-- Removes an extension and everything it owns, and counts what was removed. -/
def removeExtension (c : Catalog) (extension : Identifier) :
    Except CatalogError (RemovalSummary × Catalog) :=
  if c.isInstalled extension then
    let rest := c.withoutOwner extension
    .ok ({ functions := c.functions.length - rest.functions.length
           operators := c.operators.length - rest.operators.length
           members := c.members.length - rest.members.length }, rest.commit)
  else .error (.notInstalled extension)

end Catalog

end ExactCompare
