import ExactCompare.Host.Query

/-!
# Actions on a host

Everything that can be done to a host or asked of it, as data. `Host.step` takes
one action and gives its answer and the next host. An error leaves an answer, too.
-/

namespace ExactCompare

inductive Action where
  | newManager (config : Config)
  | newPlanner (enabled : Bool)
  | dropManager (process : Nat)
  | activate (process : Nat)
  | deactivate (process : Nat)
  | invalidate (process : Nat)
  | setEnabled (process : Nat) (enabled : Bool)
  | inventory (process : Nat)
  | lookUpOid (process : Nat) (oid : Oid)
  | lookUpOperator (process : Nat) (operator : CrossOperator)
  | plan (process : Nat) (clause : Clause)
  | createExtension (batch : Batch)
  | removeExtension (extension : Identifier)
  | dropExtension (extension : Identifier)
  | isInstalled (extension : Identifier)
  | findOperator (signature : Signature)
  | findFunction (name : String) (argumentTypes : List ColumnType)
  | findOperators (signatures : List Signature)
  | operator (oid : Oid)
  | function (oid : Oid)
  | operatorsOwnedBy (extension : Identifier)
  | functionsOwnedBy (extension : Identifier)
  | members (family : Family)
  | countMembers (owner : Option Identifier)
  | invokeFunction (oid : Oid) (arguments : List Literal)
  | invokeOperator (oid : Oid) (left right : Literal)
  | subscribe (reaction : Option Reaction)
  | unsubscribe (listener : Nat)
  | registerHook (extension : Identifier) (removes : Option Identifier) (failure : Option String)
  | dropHook (hook : Nat)

inductive HostError where
  | catalog (cause : CatalogError)
  | lifecycle (cause : LifecycleError)
  | plan (cause : PlanError)
  | noProcess (index : Nat)
  | noManager (process : Nat)
  deriving DecidableEq

def HostError.message : HostError → String
  | catalog cause => cause.message
  | lifecycle cause => cause.message
  | plan cause => cause.message
  | noProcess index => "there is no process " ++ toString index
  | noManager process => "process " ++ toString process ++ " has no manager"

inductive Answer where
  | done
  | removed (summary : RemovalSummary)
  | truth (value : Bool)
  | oid (oid : Option Oid)
  | crossOperator (operator : Option CrossOperator)
  | inventory (operators : List InstalledOperator)
  | planned (planned : Planned)
  | oids (version : Nat) (oids : List (Option Oid))
  | operator (entry : Option OperatorEntry)
  | function (entry : Option FunctionEntry)
  | operators (entries : List OperatorEntry)
  | functions (entries : List FunctionEntry)
  | members (members : List FamilyMember)
  | counts (counts : List Nat)
  | result (result : RoutineResult)
  deriving DecidableEq

namespace Host

/-! ## One process at a time -/

def withProcess (h : Host) (i : Nat) (f : Process → Except HostError Answer × Host) :
    Except HostError Answer × Host :=
  match h.processes[i]? with
  | none => (.error (.noProcess i), h)
  | some p => f p

def withManager (h : Host) (i : Nat) (f : Process → Manager → Except HostError Answer × Host) :
    Except HostError Answer × Host :=
  h.withProcess i fun p =>
    match p.manager with
    | none => (.error (.noManager i), h)
    | some m => f p m

/-- An answer from the cache of a process, which is filled by it. -/
def askCache (h : Host) (i : Nat) (f : Process → Resolution → Answer) :
    Except HostError Answer × Host :=
  h.withProcess i fun p =>
    (.ok (f p (p.resolution h.catalog)), h.modifyProcess i (·.populate h.catalog))

def countMembers (c : Catalog) : Option Identifier → List Nat
  | none => Family.all.map c.countMembers
  | some owner => Family.all.map fun f => c.countMembersOwnedBy f owner

/-! ## Answers -/

def inCatalog {α : Type} (answer : α → Answer) :
    Except CatalogError α × Host → Except HostError Answer × Host
  | (result, h) => ((result.map answer).mapError .catalog, h)

def inLifecycle : Except LifecycleError Unit × Host → Except HostError Answer × Host
  | (result, h) => ((result.map fun _ => .done).mapError .lifecycle, h)

/-- An action that changes the host and has nothing to say. -/
def done (h : Host) : Except HostError Answer × Host := (.ok .done, h)

/-- A question to the catalog. -/
def asked (h : Host) (answer : Answer) : Except HostError Answer × Host := (.ok answer, h)

def step (h : Host) : Action → Except HostError Answer × Host
  | .newManager config => (h.newManager config).done
  | .newPlanner enabled => (h.newPlanner enabled).done
  | .dropManager i => h.withManager i fun _ _ => (h.dropManager i).done
  | .activate i => h.withManager i fun _ m => inLifecycle (h.activate m)
  | .deactivate i => h.withManager i fun _ m => inLifecycle (h.deactivate i m)
  | .invalidate i => h.withManager i fun _ _ => (h.invalidate i).done
  | .setEnabled i enabled => h.withProcess i fun _ => (h.setEnabled i enabled).done
  | .inventory i => h.withManager i fun _ m =>
      h.askCache i fun _ r => .inventory (m.inventory h.catalog r)
  | .lookUpOid i oid => h.askCache i fun _ r => .crossOperator (r.operator? oid)
  | .lookUpOperator i operator => h.askCache i fun _ r => .oid (r.oid? operator)
  | .plan i clause => h.withProcess i fun p =>
      let (result, p) := p.plan h.catalog clause
      ((result.map .planned).mapError .plan, h.modifyProcess i fun _ => p)
  | .createExtension batch => inCatalog (fun _ => .done) (h.createExtension batch)
  | .removeExtension extension => inCatalog .removed (h.removeExtension extension)
  | .dropExtension extension => inCatalog (fun _ => .done) (h.dropExtension extension)
  | .isInstalled extension => h.asked (.truth (h.catalog.isInstalled extension))
  | .findOperator signature => h.asked (.oid (h.catalog.findOperator? signature))
  | .findFunction name argumentTypes =>
      h.asked (.oid (h.catalog.findFunction? name argumentTypes))
  | .findOperators signatures =>
      h.asked (.oids h.catalog.version (signatures.map h.catalog.findOperator?))
  | .operator oid => h.asked (.operator (h.catalog.operator? oid))
  | .function oid => h.asked (.function (h.catalog.function? oid))
  | .operatorsOwnedBy extension => h.asked (.operators (h.catalog.operatorsOwnedBy extension))
  | .functionsOwnedBy extension => h.asked (.functions (h.catalog.functionsOwnedBy extension))
  | .members family => h.asked (.members (h.catalog.membersOf family))
  | .countMembers owner => h.asked (.counts (countMembers h.catalog owner))
  | .invokeFunction oid arguments =>
      inCatalog .result (h.catalog.invokeFunction oid arguments, h)
  | .invokeOperator oid left right =>
      inCatalog .truth (h.catalog.invokeOperator oid left right, h)
  | .subscribe reaction => (h.subscribe reaction).done
  | .unsubscribe i => (h.unsubscribe i).done
  | .registerHook extension removes failure => (h.registerHook extension removes failure).done
  | .dropHook i => (h.dropHook i).done

end Host

end ExactCompare
