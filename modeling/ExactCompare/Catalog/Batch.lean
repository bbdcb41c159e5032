import ExactCompare.Catalog.Entry

/-!
# Batches

The changes that install an extension, in order. A change names the functions
and operators that it refers to, so a batch can refer to what it has created.
-/

namespace ExactCompare

inductive Change where
  | createFunction (routine : Routine)
  /-- The operator is implemented by the function `function(left, right)`. -/
  | createOperator (signature : Signature) (function : String)
  | addOperator (family : Family) (strategy : Nat) (signature : Signature)
  | addSupport (family : Family) (number : Nat) (left right : ColumnType) (function : String)
      (argumentTypes : List ColumnType)
  deriving DecidableEq

namespace Change

def isFunction : Change → Bool
  | createFunction _ => true
  | _ => false

def isOperator : Change → Bool
  | createOperator _ _ => true
  | _ => false

def isMember : Change → Bool
  | addOperator _ _ _ | addSupport _ _ _ _ _ _ => true
  | _ => false

end Change

structure Batch where
  owner : Identifier
  changes : List Change
  deriving DecidableEq

namespace Batch

def functionCount (b : Batch) : Nat := b.changes.countP Change.isFunction

def operatorCount (b : Batch) : Nat := b.changes.countP Change.isOperator

def memberCount (b : Batch) : Nat := b.changes.countP Change.isMember

end Batch

end ExactCompare
