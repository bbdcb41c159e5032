import ExactCompare.Proofs.Host.Hooks

/-!
# Calls

A call changes the catalog, or tries to. Where listeners only listen and every drop hook is a
manager, a call that succeeds is one transaction and tells everyone once. One that fails leaves
the host as it is.
-/

namespace ExactCompare

namespace Action

/-- The actions that change the catalog. -/
def isCall : Action → Bool
  | activate _ | deactivate _ | createExtension _ | removeExtension _ | dropExtension _ => true
  | _ => false

/-- The actions that change who listens, or which hooks are registered. -/
def registers : Action → Bool
  | newManager _ | subscribe _ | unsubscribe _ | registerHook .. => true
  | _ => false

/-- Nothing that changes the catalog is left behind: a listener that may answer, or a drop hook
of another kind than a manager. -/
def IsPlain : Action → Prop
  | subscribe reaction => reaction = none
  | registerHook .. => False
  | _ => True

end Action

def Listener.hear (version : ℕ) (l : Listener) : Listener :=
  if l.live then { l with heard := l.heard ++ [version] } else l

theorem Listener.reaction_hear (version : ℕ) (l : Listener) :
    (l.hear version).reaction = l.reaction := by
  unfold hear
  split <;> rfl

theorem Process.manager_plan (p : Process) (c : Catalog) (clause : Clause) :
    (p.plan c clause).2.manager = p.manager := by
  unfold plan
  split
  · split <;> rfl
  · rfl

theorem getElem?_foldl_modify {α : Type} (f : α → α) (l : List α) (n k : ℕ) :
    ((List.range n).foldl (fun l i => l.modify i f) l)[k]? =
      if k < n then l[k]?.map f else l[k]? := by
  induction n with
  | zero => rfl
  | succ n ih =>
    rw [List.range_succ, List.foldl_append, List.foldl_cons, List.foldl_nil, List.getElem?_modify,
      ih]
    rcases Nat.lt_trichotomy k n with hlt | rfl | hgt
    · simp [hlt, Nat.lt_succ_of_lt hlt, hlt.ne']
    · simp
    · simp [hgt.ne, Nat.not_lt_of_gt hgt, Nat.not_lt_of_ge (Nat.succ_le_of_lt hgt)]

theorem foldl_modify_range {α : Type} (f : α → α) (l : List α) :
    (List.range l.length).foldl (fun l i => l.modify i f) l = l.map f := by
  refine List.ext_getElem? fun k => ?_
  rw [getElem?_foldl_modify, List.getElem?_map]
  split
  · rfl
  · rw [List.getElem?_eq_none (by omega)]
    rfl

namespace Host

variable {h h' : Host} {a : Action} {i : ℕ} {m : Manager} {c : Catalog} {e : Identifier}

/-! ## Telling everyone once -/

/-- A changed catalog, of which everyone has heard. -/
def tell (h : Host) (c : Catalog) : Host :=
  { h.invalidateManaged with catalog := c, listeners := h.listeners.map (·.hear c.version) }

theorem foldl_hear (indices : List ℕ) (version : ℕ) (h : Host) :
    indices.foldl (fun h i => h.hear i version) h =
      { h with
        listeners := indices.foldl (fun l i => l.modify i (·.hear version)) h.listeners } := by
  induction indices generalizing h with
  | nil => rfl
  | cons i indices ih => exact ih (h.hear i version)

theorem announce_zero (version : ℕ) (h : Host) :
    announce 0 version h =
      { h.invalidateManaged with listeners := h.listeners.map (·.hear version) } := by
  rw [announce, foldl_hear, ← foldl_modify_range]
  rfl

theorem Silent.commit_eq (hsilent : h.Silent) (c : Catalog) : h.commit c = h.tell c := by
  rw [commit, hsilent.reactionCount_eq_zero, announce_zero]
  rfl

theorem Silent.tell (hsilent : h.Silent) (c : Catalog) : (h.tell c).Silent := by
  intro l hl
  obtain ⟨l', hl', rfl⟩ := List.mem_map.mp hl
  rw [l'.reaction_hear]
  exact hsilent l' hl'

theorem Silent.removed_eq (hsilent : h.Silent) (e : Identifier) :
    h.removed e = h.tell (h.catalog.withoutOwner e).commit := hsilent.commit_eq _

theorem Silent.residue?_removed (hsilent : h.Silent) (e : Identifier) :
    residue? (h.removed e).catalog e = none := by
  rw [hsilent.removed_eq]
  exact residue?_of_empty (h.catalog.part_withoutOwner_self e)

/-! ## Plain hosts -/

/-- Listeners that only listen, and drop hooks that are managers. -/
structure Plain (h : Host) : Prop where
  silent : h.Silent
  managed : h.Managed

theorem managers_tell (h : Host) (c : Catalog) : (h.tell c).managers = h.managers :=
  h.announced_invalidateManaged.managers

theorem Plain.tell (hplain : h.Plain) (c : Catalog) : (h.tell c).Plain where
  silent := hplain.silent.tell c
  managed := hplain.managed.mono rfl fun i found hi => by
    rw [managers_tell]
    exact .inl hi

/-! ## What a call results in -/

/-- A call fails and leaves the host, or carries out a transaction and tells everyone once. -/
inductive Settles {ε α : Type} (h : Host) : Except ε α × Host → Prop
  | failed (e : ε) : Settles h (.error e, h)
  | committed (answer : α) {t : Transaction} {c : Catalog}
      (htransact : h.catalog.transact t = .ok c) : Settles h (.ok answer, h.tell c)

theorem settles_createExtension (hsilent : h.Silent) (batch : Batch) :
    h.Settles (h.createExtension batch) := by
  unfold createExtension
  cases hcreate : h.catalog.createExtension batch with
  | error e => exact .failed e
  | ok c =>
    dsimp only
    rw [hsilent.commit_eq]
    exact .committed () (Catalog.transact_install_iff.mpr hcreate)

theorem transact_remove (hinstalled : e ∈ h.catalog.extensions) :
    h.catalog.transact (.remove e) = .ok (h.catalog.withoutOwner e).commit :=
  Catalog.transact_remove_iff.mpr ⟨hinstalled, rfl⟩

theorem removeExtension_of_not_installed (hnot : e ∉ h.catalog.extensions) :
    h.removeExtension e = (.error (.notInstalled e), h) := by
  unfold removeExtension Catalog.removeExtension
  rw [if_neg (mt Catalog.isInstalled_iff.mp hnot)]

theorem settles_removeExtension (hsilent : h.Silent) (e : Identifier) :
    h.Settles (h.removeExtension e) := by
  by_cases hinstalled : e ∈ h.catalog.extensions
  · rw [removeExtension_eq_removed hinstalled, hsilent.removed_eq]
    exact .committed _ (transact_remove hinstalled)
  · rw [removeExtension_of_not_installed hinstalled]
    exact .failed _

theorem settles_activate (hsilent : h.Silent) (m : Manager) : h.Settles (h.activate m) := by
  have hcreate := settles_createExtension hsilent m.batch
  unfold activate
  generalize h.createExtension m.batch = result at hcreate ⊢
  cases hcreate with
  | failed e => cases e <;> exact .failed _
  | committed _ htransact => exact .committed () htransact

theorem settles_deactivate (hsilent : h.Silent) (hm : h.manager? i = some m) :
    h.Settles (h.deactivate i m) := by
  by_cases hinstalled : m.extension ∈ h.catalog.extensions
  · rw [deactivate_eq_removed hm hinstalled, hsilent.residue?_removed, hsilent.removed_eq]
    exact .committed () (transact_remove hinstalled)
  · unfold deactivate
    rw [removeExtension_of_not_installed hinstalled]
    exact .failed _

/-! ### Dropping -/

theorem dropExtension_of_not_installed (hnot : e ∉ h.catalog.extensions) :
    h.dropExtension e = (.error (.notInstalled e), h) := by
  unfold dropExtension
  rw [if_neg (mt Catalog.isInstalled_iff.mp hnot)]

theorem Plain.dropExtension_eq_removed (hplain : h.Plain) (hinstalled : e ∈ h.catalog.extensions) :
    h.dropExtension e = (.ok (), h.removed e) := by
  have hgone : e ∉ (h.removed e).catalog.extensions := by
    rw [hplain.silent.removed_eq]
    exact not_mem_extensions_withoutOwner _ _
  exact dropExtension_of_gone hplain.managed hinstalled (hplain.silent.residue?_removed e) hgone

theorem settles_dropExtension (hplain : h.Plain) (e : Identifier) :
    h.Settles (h.dropExtension e) := by
  by_cases hinstalled : e ∈ h.catalog.extensions
  · rw [hplain.dropExtension_eq_removed hinstalled, hplain.silent.removed_eq]
    exact .committed () (transact_remove hinstalled)
  · rw [dropExtension_of_not_installed hinstalled]
    exact .failed _

/-! ### Any call -/

theorem Settles.inCatalog {α : Type} {result : Except CatalogError α × Host} (answer : α → Answer)
    (hsettles : h.Settles result) : h.Settles (Host.inCatalog answer result) := by
  cases hsettles with
  | failed e => exact .failed _
  | committed a htransact => exact .committed _ htransact

theorem Settles.inLifecycle {result : Except LifecycleError Unit × Host}
    (hsettles : h.Settles result) : h.Settles (Host.inLifecycle result) := by
  cases hsettles with
  | failed e => exact .failed _
  | committed a htransact => exact .committed _ htransact

theorem settles_withManager (i : ℕ) {f : Process → Manager → Except HostError Answer × Host}
    (hf : ∀ p m, h.manager? i = some m → h.Settles (f p m)) : h.Settles (h.withManager i f) := by
  unfold withManager withProcess
  cases hp : h.processes[i]? with
  | none => exact .failed _
  | some p =>
    dsimp only
    cases hm : p.manager with
    | none => exact .failed _
    | some m => exact hf p m ((manager?_eq hp).trans hm)

/-- **Every call settles**: it fails and leaves the host, or is one transaction. -/
theorem settles_step (hplain : h.Plain) (ha : a.isCall = true) : h.Settles (h.step a) := by
  have hsilent := hplain.silent
  cases a with
  | activate i =>
    exact settles_withManager i fun _ m _ => (settles_activate hsilent m).inLifecycle
  | deactivate i =>
    exact settles_withManager i fun _ m hm => (settles_deactivate hsilent hm).inLifecycle
  | createExtension batch => exact (settles_createExtension hsilent batch).inCatalog _
  | removeExtension e => exact (settles_removeExtension hsilent e).inCatalog _
  | dropExtension e => exact (settles_dropExtension hplain e).inCatalog _
  | _ => cases ha

/-! ## Anything else -/

/-- What an action leaves that is no call: the catalog, and what listens to it or hooks into it.
A manager may go. -/
structure Keeps (h h' : Host) : Prop where
  catalog : h'.catalog = h.catalog
  listeners : h'.listeners = h.listeners
  registrations : h'.registrations = h.registrations
  managers : ∀ (i : ℕ) (found : Option Manager), h.managers[i]? = some found →
    h'.managers[i]? = some found ∨ h'.managers[i]? = some none

theorem Keeps.refl (h : Host) : Keeps h h := ⟨rfl, rfl, rfl, fun _ _ hi => .inl hi⟩

theorem Keeps.plain (hkeeps : Keeps h h') (hplain : h.Plain) : h'.Plain where
  silent l hl := hplain.silent l (hkeeps.listeners ▸ hl)
  managed := hplain.managed.mono hkeeps.registrations hkeeps.managers

theorem keeps_modifyProcess (h : Host) (i : ℕ) {f : Process → Process}
    (hf : ∀ p, h.processes[i]? = some p → (f p).manager = p.manager ∨ (f p).manager = none) :
    Keeps h (h.modifyProcess i f) where
  catalog := rfl
  listeners := rfl
  registrations := rfl
  managers k found hk := by
    rw [managers, List.getElem?_map, Option.map_eq_some_iff] at hk
    obtain ⟨p, hp, rfl⟩ := hk
    rw [managers, modifyProcess, List.getElem?_map, List.getElem?_modify, hp]
    by_cases hik : i = k
    · subst hik
      simpa using hf p hp
    · simp [hik]

theorem keeps_withProcess (i : ℕ) {f : Process → Except HostError Answer × Host}
    (hf : ∀ p, h.processes[i]? = some p → Keeps h (f p).2) : Keeps h (h.withProcess i f).2 := by
  unfold withProcess
  split
  · exact .refl h
  · rename_i hp
    exact hf _ hp

theorem keeps_withManager (i : ℕ) {f : Process → Manager → Except HostError Answer × Host}
    (hf : ∀ p m, Keeps h (f p m).2) : Keeps h (h.withManager i f).2 := by
  refine keeps_withProcess i fun p _ => ?_
  split
  · exact .refl h
  · exact hf p _

theorem keeps_askCache (h : Host) (i : ℕ) (f : Process → Resolution → Answer) :
    Keeps h (h.askCache i f).2 :=
  keeps_withProcess i fun _ _ => h.keeps_modifyProcess i fun _ _ => .inl rfl

theorem keeps_newPlanner (h : Host) (enabled : Bool) : Keeps h (h.newPlanner enabled) where
  catalog := rfl
  listeners := rfl
  registrations := rfl
  managers i found hi := by
    have hmanagers : (h.newPlanner enabled).managers = h.managers ++ [none] := by
      simp [Host.managers, newPlanner]
    rw [hmanagers, List.getElem?_append_left (List.getElem?_eq_some_iff.mp hi).1]
    exact .inl hi

theorem keeps_step (h : Host) (ha : a.isCall = false) (hstays : a.registers = false) :
    Keeps h (h.step a).2 := by
  cases a with
  | newPlanner enabled => exact h.keeps_newPlanner enabled
  | dropManager i =>
    exact keeps_withManager i fun _ _ => h.keeps_modifyProcess i fun _ _ => .inr rfl
  | invalidate i =>
    exact keeps_withManager i fun _ _ => h.keeps_modifyProcess i fun _ _ => .inl rfl
  | setEnabled i enabled =>
    exact keeps_withProcess i fun _ _ => h.keeps_modifyProcess i fun _ _ => .inl rfl
  | inventory i => exact keeps_withManager i fun _ _ => h.keeps_askCache i _
  | lookUpOid i oid => exact h.keeps_askCache i _
  | lookUpOperator i operator => exact h.keeps_askCache i _
  | plan i clause =>
    refine keeps_withProcess i fun p hp => h.keeps_modifyProcess i fun q hq => .inl ?_
    obtain rfl := Option.some.inj (hp.symm.trans hq)
    exact p.manager_plan h.catalog clause
  | isInstalled | findOperator | findFunction | findOperators | operator | function
  | operatorsOwnedBy | functionsOwnedBy | members | countMembers | invokeFunction
  | invokeOperator => exact .refl h
  | dropHook => exact ⟨rfl, rfl, rfl, fun _ _ hi => .inl hi⟩
  | activate | deactivate | createExtension | removeExtension | dropExtension => cases ha
  | newManager | subscribe | unsubscribe | registerHook => cases hstays

theorem Plain.subscribe (hplain : h.Plain) : (h.subscribe none).Plain where
  silent := Catalog.forall_mem_concat hplain.silent rfl
  managed := hplain.managed

theorem Plain.unsubscribe (hplain : h.Plain) (k : ℕ) : (h.unsubscribe k).Plain where
  silent l hl := by
    rcases mem_modify hl with hl | ⟨l', hl', rfl⟩
    · exact hplain.silent l hl
    · exact hplain.silent l' hl'
  managed := hplain.managed

/-! ## Every action -/

theorem Settles.plain {ε α : Type} {result : Except ε α × Host} (hsettles : h.Settles result)
    (hplain : h.Plain) : result.2.Plain := by
  cases hsettles with
  | failed e => exact hplain
  | committed answer htransact => exact hplain.tell _

theorem plain_step (hplain : h.Plain) (ha : a.IsPlain) : (h.step a).2.Plain := by
  by_cases hcall : a.isCall = true
  · exact (settles_step hplain hcall).plain hplain
  by_cases hregisters : a.registers = true
  · cases a with
    | newManager config => exact ⟨hplain.silent, hplain.managed.newManager config⟩
    | subscribe reaction =>
      obtain rfl : reaction = none := ha
      exact hplain.subscribe
    | unsubscribe k => exact hplain.unsubscribe k
    | registerHook => exact ha.elim
    | _ => cases hregisters
  · rw [Bool.not_eq_true] at hcall hregisters
    exact (h.keeps_step hcall hregisters).plain hplain

theorem plain_run (hplain : h.Plain) {actions : List Action} (hactions : ∀ a ∈ actions, a.IsPlain) :
    (h.run actions).Plain :=
  List.foldlRecOn actions _ hplain fun _ hplain a ha => plain_step hplain (hactions a ha)

theorem bootstrap_plain : bootstrap.Plain := ⟨List.forall_mem_nil _, nofun⟩

end Host

end ExactCompare
