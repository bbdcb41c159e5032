import ExactCompare.Host.Action
import ExactCompare.Proofs.Catalog.Parts

/-!
# Runs of a host

Whatever is done to a host, its catalog only takes steps, and the cache of a process
with a manager is empty or is what the catalog resolves to.
-/

namespace ExactCompare

/-! ## Coherent caches -/

namespace Process

def Coherent (c : Catalog) (p : Process) : Prop :=
  p.manager.isSome → p.cache = none ∨ p.cache = some (.ofCatalog c)

theorem Coherent.resolution_eq {c : Catalog} {p : Process} (hp : p.Coherent c)
    (hmanager : p.manager.isSome) : p.resolution c = .ofCatalog c := by
  unfold resolution
  rcases hp hmanager with hcache | hcache <;> rw [hcache] <;> rfl

theorem Coherent.populate {c : Catalog} {p : Process} (hp : p.Coherent c) :
    (p.populate c).Coherent c := fun hmanager =>
  .inr (congrArg some (hp.resolution_eq hmanager))

theorem Coherent.plan {c : Catalog} {p : Process} (hp : p.Coherent c) (clause : Clause) :
    (p.plan c clause).2.Coherent c := by
  unfold Process.plan
  split
  · split <;> exact hp.populate
  · exact hp

end Process

namespace Host

def Coherent (h : Host) : Prop := ∀ p ∈ h.processes, p.Coherent h.catalog

/-- No process with a manager has a cache. -/
def Cold (h : Host) : Prop := ∀ p ∈ h.processes, p.manager.isSome → p.cache = none

variable {h h' h'' : Host}

theorem Cold.coherent (hcold : h.Cold) : h.Coherent := fun p hp hmanager =>
  .inl (hcold p hp hmanager)

/-! ## Telling everyone -/

/-- One batch after another was installed. -/
abbrev Creates : Catalog → Catalog → Prop :=
  Relation.ReflTransGen fun c c' => ∃ batch, c.createExtension batch = .ok c'

theorem Creates.steps {c c' : Catalog} (hcreates : Creates c c') : Catalog.Steps c c' := by
  induction hcreates with
  | refl => exact .refl
  | tail _ hcreate ih =>
    obtain ⟨batch, hcreate⟩ := hcreate
    exact ih.tail (.create hcreate)

/-- What telling everyone does: listeners may install batches, managers forget their caches. -/
structure Announced (h h' : Host) : Prop where
  creates : Creates h.catalog h'.catalog
  managers : h'.processes.map (·.manager) = h.processes.map (·.manager)
  cold : h'.Cold

theorem Announced.of_processes (hannounced : Announced h h') (hcatalog : h''.catalog = h'.catalog)
    (hprocesses : h''.processes = h'.processes) : Announced h h'' where
  creates := hcatalog ▸ hannounced.creates
  managers := hprocesses ▸ hannounced.managers
  cold := by
    have := hannounced.cold
    rwa [Cold, ← hprocesses] at this

theorem announced_invalidateManaged (h : Host) : Announced h h.invalidateManaged where
  creates := .refl
  managers := by
    simp only [invalidateManaged, List.map_map]
    refine List.map_congr_left fun p _ => ?_
    simp only [Function.comp]
    split <;> rfl
  cold := by
    intro p hp hmanager
    obtain ⟨q, -, rfl⟩ := List.mem_map.mp hp
    by_cases hq : q.manager.isSome
    · rw [if_pos hq]
      rfl
    · rw [if_neg hq] at hmanager
      exact absurd hmanager hq

theorem Announced.hear (hannounced : Announced h h') (i version : Nat) :
    Announced h (h'.hear i version) := hannounced.of_processes rfl rfl

theorem Announced.install {c : Catalog} {batch : Batch} (hannounced : Announced h h')
    (hcreate : h'.catalog.createExtension batch = .ok c)
    (htold : Announced { h' with catalog := c } h'') : Announced h h'' where
  creates := (hannounced.creates.tail ⟨batch, hcreate⟩).trans htold.creates
  managers := htold.managers.trans hannounced.managers
  cold := htold.cold

theorem announced_announce (depth version : Nat) (h : Host) :
    Announced h (announce depth version h) := by
  induction depth generalizing version h with
  | zero =>
    rw [announce]
    exact List.foldlRecOn _ _ h.announced_invalidateManaged fun h' hannounced i _ =>
      hannounced.hear i version
  | succ depth ih =>
    rw [announce]
    refine List.foldlRecOn _ _ h.announced_invalidateManaged fun h' hannounced i _ => ?_
    have hheard := hannounced.hear i version
    dsimp only
    cases hreaction : (h'.hear i version).reaction? i version with
    | none => exact hheard
    | some batch =>
      rw [Option.map_some]
      cases hcreate : (h'.hear i version).catalog.createExtension batch with
      | error e => exact hheard
      | ok c => exact hheard.install hcreate (ih c.version _)

theorem announced_commit (h : Host) (c : Catalog) :
    Announced { h with catalog := c } (h.commit c) := announced_announce _ _ _

/-! ## What follows a host -/

/-- The catalog takes steps, and coherent caches stay coherent. -/
structure Follows (h h' : Host) : Prop where
  steps : Catalog.Steps h.catalog h'.catalog
  coherent : h.Coherent → h'.Coherent

theorem Follows.refl (h : Host) : Follows h h := ⟨.refl, id⟩

theorem Follows.trans (h₁ : Follows h h') (h₂ : Follows h' h'') : Follows h h'' :=
  ⟨Relation.ReflTransGen.trans h₁.steps h₂.steps, h₂.coherent ∘ h₁.coherent⟩

theorem follows_of_processes (hcatalog : h'.catalog = h.catalog)
    (hprocesses : ∀ p ∈ h'.processes, p ∈ h.processes ∨ p.Coherent h.catalog) : Follows h h' where
  steps := by rw [hcatalog]
  coherent hcoherent p hp := by
    rw [hcatalog]
    exact (hprocesses p hp).elim (hcoherent p) id

theorem follows_of_newProcess {p : Process} (hcatalog : h'.catalog = h.catalog)
    (hprocesses : h'.processes = h.processes ++ [p]) (hcache : p.cache = none) : Follows h h' := by
  refine follows_of_processes hcatalog fun q hq => ?_
  rw [hprocesses, List.mem_append, List.mem_singleton] at hq
  rcases hq with hq | rfl
  · exact .inl hq
  · exact .inr fun _ => .inl hcache

theorem follows_commit {c : Catalog} (hstep : Catalog.Step h.catalog c) :
    Follows h (h.commit c) where
  steps := (Relation.ReflTransGen.single hstep).trans (h.announced_commit c).creates.steps
  coherent _ := (h.announced_commit c).cold.coherent

theorem follows_createExtension (h : Host) (batch : Batch) :
    Follows h (h.createExtension batch).2 := by
  unfold createExtension
  split
  · exact .refl h
  · rename_i hcreate
    exact follows_commit (.create hcreate)

theorem follows_removeExtension (h : Host) (extension : Identifier) :
    Follows h (h.removeExtension extension).2 := by
  unfold removeExtension
  split
  · exact .refl h
  · rename_i hremove
    exact follows_commit (.remove hremove)

theorem mem_modify {α : Type} {l : List α} {i : Nat} {f : α → α} {a : α} (ha : a ∈ l.modify i f) :
    a ∈ l ∨ ∃ b ∈ l, a = f b := by
  obtain ⟨k, hk⟩ := List.mem_iff_getElem?.mp ha
  rw [List.getElem?_modify, Option.map_eq_map, Option.map_eq_some_iff] at hk
  obtain ⟨b, hb, hab⟩ := hk
  have hmem := List.mem_of_getElem? hb
  split at hab
  · exact .inr ⟨b, hmem, hab.symm⟩
  · exact .inl (hab ▸ hmem)

theorem follows_modifyProcess (h : Host) (i : Nat) {f : Process → Process}
    (hf : h.Coherent → ∀ p ∈ h.processes, (f p).Coherent h.catalog) :
    Follows h (h.modifyProcess i f) where
  steps := .refl
  coherent hcoherent p hp := by
    rcases mem_modify hp with hp | ⟨q, hq, rfl⟩
    · exact hcoherent p hp
    · exact hf hcoherent q hq

theorem follows_invalidate (h : Host) (i : Nat) : Follows h (h.invalidate i) :=
  h.follows_modifyProcess i fun _ _ _ _ => .inl rfl

/-! ## Installing and removing -/

theorem follows_activate (h : Host) (m : Manager) : Follows h (h.activate m).2 := by
  have hcreate := h.follows_createExtension m.batch
  unfold activate
  split <;> simp_all

theorem follows_deactivate (h : Host) (i : Nat) (m : Manager) :
    Follows h (h.deactivate i m).2 := by
  have hremove := h.follows_removeExtension m.extension
  unfold deactivate
  split
  · simp_all
  · simp_all
  · rename_i h' hresult
    rw [hresult] at hremove
    have hinvalidate := hremove.trans (h'.follows_invalidate i)
    dsimp only
    split
    · exact hinvalidate
    · exact hinvalidate

theorem follows_runDropHook (h : Host) (i : Nat) (hook : DropHook) :
    Follows h (h.runDropHook i hook).2 := by
  have hcount : Follows h { h with
      hooks := h.hooks.modify i fun k => { k with calls := k.calls + 1 } } :=
    follows_of_processes rfl fun _ hp => .inl hp
  unfold runDropHook
  dsimp only
  split
  · exact hcount
  · rename_i extension hremoves
    have hremove := hcount.trans (follows_removeExtension _ extension)
    split <;> simp_all

theorem follows_runHook (h : Host) (extension : Identifier) :
    Follows h (h.runHook extension).2 := by
  unfold runHook
  split
  · exact .refl h
  · split
    · exact .refl h
    · exact h.follows_deactivate _ _
  · split
    · exact .refl h
    · split
      · exact h.follows_runDropHook _ _
      · exact .refl h

theorem follows_dropExtension (h : Host) (extension : Identifier) :
    Follows h (h.dropExtension extension).2 := by
  have hhook := h.follows_runHook extension
  unfold dropExtension
  split
  · split
    · rename_i hresult
      rw [hresult] at hhook
      exact hhook
    · rename_i h' hresult
      rw [hresult] at hhook
      split
      · exact hhook.trans (h'.follows_removeExtension extension)
      · exact hhook
  · exact .refl h

/-! ## Any action -/

theorem follows_withProcess (i : Nat) {f : Process → Except HostError Answer × Host}
    (hf : ∀ p ∈ h.processes, Follows h (f p).2) : Follows h (h.withProcess i f).2 := by
  unfold withProcess
  split
  · exact .refl h
  · rename_i hp
    exact hf _ (List.mem_of_getElem? hp)

theorem follows_withManager (i : Nat) {f : Process → Manager → Except HostError Answer × Host}
    (hf : ∀ p ∈ h.processes, ∀ m, Follows h (f p m).2) : Follows h (h.withManager i f).2 := by
  refine follows_withProcess i fun p hp => ?_
  split
  · exact .refl h
  · exact hf p hp _

theorem follows_askCache (h : Host) (i : Nat) (f : Process → Resolution → Answer) :
    Follows h (h.askCache i f).2 :=
  follows_withProcess i fun _ _ =>
    h.follows_modifyProcess i fun hcoherent q hq => (hcoherent q hq).populate

theorem follows_step (h : Host) (a : Action) : Follows h (h.step a).2 := by
  have hsame {h' : Host} (hcatalog : h'.catalog = h.catalog)
      (hprocesses : h'.processes = h.processes) : Follows h h' :=
    follows_of_processes hcatalog fun p hp => .inl (hprocesses ▸ hp)
  cases a with
  | newManager config => exact follows_of_newProcess rfl rfl rfl
  | newPlanner enabled => exact follows_of_newProcess rfl rfl rfl
  | dropManager i =>
    exact follows_withManager i fun _ _ _ =>
      h.follows_modifyProcess i fun _ _ _ hmanager => absurd hmanager Bool.false_ne_true
  | activate i => exact follows_withManager i fun _ _ m => h.follows_activate m
  | deactivate i => exact follows_withManager i fun _ _ m => h.follows_deactivate i m
  | invalidate i => exact follows_withManager i fun _ _ _ => h.follows_invalidate i
  | setEnabled i enabled =>
    exact follows_withProcess i fun _ _ =>
      h.follows_modifyProcess i fun hcoherent q hq => hcoherent q hq
  | inventory i => exact follows_withManager i fun _ _ _ => h.follows_askCache i _
  | lookUpOid i oid => exact h.follows_askCache i _
  | lookUpOperator i operator => exact h.follows_askCache i _
  | plan i clause =>
    exact follows_withProcess i fun p hp =>
      h.follows_modifyProcess i fun hcoherent _ _ => (hcoherent p hp).plan clause
  | createExtension batch => exact h.follows_createExtension batch
  | removeExtension extension => exact h.follows_removeExtension extension
  | dropExtension extension => exact h.follows_dropExtension extension
  | subscribe reaction => exact hsame rfl rfl
  | unsubscribe i => exact hsame rfl rfl
  | registerHook extension removes failure => exact hsame rfl rfl
  | dropHook i => exact hsame rfl rfl
  | isInstalled | findOperator | findFunction | findOperators | operator | function
  | operatorsOwnedBy | functionsOwnedBy | members | countMembers | invokeFunction
  | invokeOperator => exact .refl h

/-! ## Runs -/

/-- The host after a list of actions. What an action answers is dropped. -/
def run (h : Host) (actions : List Action) : Host := actions.foldl (fun h a => (h.step a).2) h

theorem run_nil (h : Host) : h.run [] = h := rfl

theorem run_append (h : Host) (as bs : List Action) : h.run (as ++ bs) = (h.run as).run bs :=
  List.foldl_append

theorem run_cons (h : Host) (a : Action) (as : List Action) :
    h.run (a :: as) = (h.step a).2.run as := rfl

theorem run_concat (h : Host) (as : List Action) (a : Action) :
    h.run (as ++ [a]) = ((h.run as).step a).2 := by
  rw [run_append, run_cons, run_nil]

theorem follows_run (h : Host) (actions : List Action) : Follows h (h.run actions) :=
  List.foldlRecOn actions _ (Follows.refl h) fun h' hfollows a _ =>
    hfollows.trans (h'.follows_step a)

theorem bootstrap_coherent : bootstrap.Coherent := List.forall_mem_nil _

theorem run_valid (actions : List Action) : (bootstrap.run actions).catalog.Valid :=
  Catalog.Steps.valid (bootstrap.follows_run actions).steps Catalog.bootstrap_valid

theorem run_coherent (actions : List Action) : (bootstrap.run actions).Coherent :=
  (bootstrap.follows_run actions).coherent bootstrap_coherent

end Host

end ExactCompare
