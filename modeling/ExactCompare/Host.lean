import ExactCompare.Config
import ExactCompare.Planner.Clause
import ExactCompare.Planner.Resolution

/-!
# The host

One catalog and everyone who works with it. A process keeps its own cache of
resolved operators and its own planner flag. A process with a manager can install
and remove its extension, and forgets its cache when the catalog changes.
Listeners are told the version of every change, and may answer one version with a
batch of their own. Drop hooks run when an extension is dropped.
-/

namespace ExactCompare

/-! ## Errors -/

inductive LifecycleError where
  | alreadyRegistered (extension : Identifier)
  | notRegistered (extension : Identifier)
  | catalog (cause : CatalogError)
  | residualEntries (family : Family) (count : Nat)
  deriving DecidableEq

def LifecycleError.message : LifecycleError → String
  | alreadyRegistered extension => "extension " ++ extension.name ++ " is already registered"
  | notRegistered extension => "extension " ++ extension.name ++ " is not registered"
  | catalog cause => cause.message
  | residualEntries family count =>
    toString count ++ " entries owned by the extension remain in " ++ family.text

/-! ## Who works with the catalog -/

/-- What a process with a manager installs. -/
structure Manager where
  extension : Identifier
  equality : EqualityRegistration
  deriving DecidableEq

def Manager.batch (m : Manager) : Batch := Plan.batch m.extension m.equality

structure Process where
  cache : Option Resolution
  enabled : Bool
  manager : Option Manager
  deriving DecidableEq

namespace Process

/-- The cached resolution. An empty cache is filled from the catalog. -/
def resolution (p : Process) (c : Catalog) : Resolution := p.cache.getD (.ofCatalog c)

def populate (p : Process) (c : Catalog) : Process := { p with cache := some (p.resolution c) }

def forget (p : Process) : Process := { p with cache := none }

end Process

/-- The batch that a listener installs when it is told a version. -/
structure Reaction where
  version : Nat
  batch : Batch
  deriving DecidableEq

structure Listener where
  live : Bool
  /-- The versions it was told, in order. -/
  heard : List Nat
  reaction : Option Reaction
  deriving DecidableEq

/-- A hook counts its calls, then may remove an extension, then may fail. -/
structure DropHook where
  live : Bool
  calls : Nat
  removes : Option Identifier
  failure : Option String
  deriving DecidableEq

/-- Who runs when an extension is dropped. -/
inductive HookOwner where
  | manager (process : Nat)
  | hook (index : Nat)
  deriving DecidableEq

structure Host where
  catalog : Catalog
  processes : List Process
  listeners : List Listener
  hooks : List DropHook
  /-- The newest registration of a name comes first, and hides the older ones. -/
  registrations : List (Identifier × HookOwner)
  deriving DecidableEq

namespace Host

def bootstrap : Host where
  catalog := .bootstrap
  processes := []
  listeners := []
  hooks := []
  registrations := []

/-! ## Telling everyone -/

def modifyProcess (h : Host) (i : Nat) (f : Process → Process) : Host :=
  { h with processes := h.processes.modify i f }

def invalidate (h : Host) (i : Nat) : Host := h.modifyProcess i Process.forget

/-- Every process with a manager forgets its cache. -/
def invalidateManaged (h : Host) : Host :=
  { h with processes := h.processes.map fun p => if p.manager.isSome then p.forget else p }

def hear (h : Host) (i version : Nat) : Host :=
  { h with listeners := h.listeners.modify i fun l =>
      if l.live then { l with heard := l.heard ++ [version] } else l }

/-- The batch with which a listener answers a version. -/
def reaction? (h : Host) (i version : Nat) : Option Batch := do
  let l ← h.listeners[i]?
  let r ← l.reaction
  if l.live ∧ r.version = version then some r.batch else none

/-- Tells everyone the version of a change. A listener's own change is told to all
before the next listener hears of the first one. A version is told once, so each
listener reacts at most once, and `depth` is enough if it counts the reactions. -/
def announce : Nat → Nat → Host → Host
  | 0, version, h =>
    (List.range h.listeners.length).foldl (fun h i => h.hear i version) h.invalidateManaged
  | depth + 1, version, h =>
    (List.range h.listeners.length).foldl (fun h i =>
        let h := h.hear i version
        match (h.reaction? i version).map h.catalog.createExtension with
        | some (.ok c) => announce depth c.version { h with catalog := c }
        | _ => h)
      h.invalidateManaged

def reactionCount (h : Host) : Nat := h.listeners.countP (·.reaction.isSome)

/-- Makes a changed catalog the current one. -/
def commit (h : Host) (c : Catalog) : Host :=
  announce h.reactionCount c.version { h with catalog := c }

/-! ## Changing the catalog -/

def createExtension (h : Host) (batch : Batch) : Except CatalogError Unit × Host :=
  match h.catalog.createExtension batch with
  | .error e => (.error e, h)
  | .ok c => (.ok (), h.commit c)

def removeExtension (h : Host) (extension : Identifier) :
    Except CatalogError RemovalSummary × Host :=
  match h.catalog.removeExtension extension with
  | .error e => (.error e, h)
  | .ok (summary, c) => (.ok summary, h.commit c)

def activate (h : Host) (m : Manager) : Except LifecycleError Unit × Host :=
  match h.createExtension m.batch with
  | (.error (.alreadyInstalled extension), h) => (.error (.alreadyRegistered extension), h)
  | (.error e, h) => (.error (.catalog e), h)
  | (.ok (), h) => (.ok (), h)

/-- The first family that still holds members of an extension. -/
def residue? (c : Catalog) (extension : Identifier) : Option LifecycleError :=
  (Family.all.find? fun f => c.countMembersOwnedBy f extension != 0).map fun f =>
    .residualEntries f (c.countMembersOwnedBy f extension)

/-- Removes the extension of process `i` and checks that nothing of it is left. -/
def deactivate (h : Host) (i : Nat) (m : Manager) : Except LifecycleError Unit × Host :=
  match h.removeExtension m.extension with
  | (.error (.notInstalled extension), h) => (.error (.notRegistered extension), h)
  | (.error e, h) => (.error (.catalog e), h)
  | (.ok _, h) =>
    let h := h.invalidate i
    match residue? h.catalog m.extension with
    | some e => (.error e, h)
    | none => (.ok (), h)

/-! ## Dropping an extension -/

/-- Runs a hook of its own kind. The message of a failed removal is the hook's failure. -/
def runDropHook (h : Host) (i : Nat) (hook : DropHook) : Except String Unit × Host :=
  let h := { h with hooks := h.hooks.modify i fun k => { k with calls := k.calls + 1 } }
  let failure : Except String Unit := match hook.failure with
    | none => .ok ()
    | some message => .error message
  match hook.removes with
  | none => (failure, h)
  | some extension =>
    match h.removeExtension extension with
    | (.error e, h) => (.error e.message, h)
    | (.ok _, h) => (failure, h)

/-- Runs the newest hook of an extension, if it is still there. -/
def runHook (h : Host) (extension : Identifier) : Except String Unit × Host :=
  match h.registrations.lookup extension with
  | none => (.ok (), h)
  | some (.manager i) =>
    match h.processes[i]?.bind (·.manager) with
    | none => (.ok (), h)
    | some m =>
      let (result, h) := h.deactivate i m
      (result.mapError LifecycleError.message, h)
  | some (.hook i) =>
    match h.hooks[i]? with
    | none => (.ok (), h)
    | some hook => if hook.live then h.runDropHook i hook else (.ok (), h)

/-- The hook runs first. What it leaves is removed afterwards. -/
def dropExtension (h : Host) (extension : Identifier) : Except CatalogError Unit × Host :=
  if h.catalog.isInstalled extension then
    match h.runHook extension with
    | (.error message, h) => (.error (.hookFailed extension message), h)
    | (.ok (), h) =>
      if h.catalog.isInstalled extension then
        let (result, h) := h.removeExtension extension
        (result.map fun _ => (), h)
      else (.ok (), h)
  else (.error (.notInstalled extension), h)

/-! ## Coming and going -/

/-- A new manager hears of every change and is the drop hook of its extension. -/
def newManager (h : Host) (config : Config) : Host :=
  let process : Process :=
    { cache := none, enabled := config.enableSupport
      manager := some { extension := config.extension, equality := config.equality } }
  { h with
    processes := h.processes ++ [process]
    registrations := (config.extension, .manager h.processes.length) :: h.registrations }

/-- A process that only plans. Nothing tells it of changes. -/
def newPlanner (h : Host) (enabled : Bool) : Host :=
  { h with processes := h.processes ++ [{ cache := none, enabled, manager := none }] }

/-- The process stays, but its manager is gone. -/
def dropManager (h : Host) (i : Nat) : Host := h.modifyProcess i ({ · with manager := none })

def setEnabled (h : Host) (i : Nat) (enabled : Bool) : Host :=
  h.modifyProcess i ({ · with enabled })

def subscribe (h : Host) (reaction : Option Reaction) : Host :=
  { h with listeners := h.listeners ++ [{ live := true, heard := [], reaction }] }

def unsubscribe (h : Host) (i : Nat) : Host :=
  { h with listeners := h.listeners.modify i ({ · with live := false }) }

def registerHook (h : Host) (extension : Identifier) (removes : Option Identifier)
    (failure : Option String) : Host :=
  { h with
    hooks := h.hooks ++ [{ live := true, calls := 0, removes, failure }]
    registrations := (extension, .hook h.hooks.length) :: h.registrations }

def dropHook (h : Host) (i : Nat) : Host :=
  { h with hooks := h.hooks.modify i ({ · with live := false }) }

end Host

end ExactCompare
