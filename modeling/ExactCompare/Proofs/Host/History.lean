import ExactCompare.Proofs.Catalog.Replay
import ExactCompare.Proofs.Host.Activation

/-!
# The history of a run

Every action is a list of transactions on the catalog: what it asks for itself, and what
listeners install when they are told. Replaying them on the first catalog gives the last one.
-/

namespace ExactCompare

/-! ## What happens on a host -/

namespace Host

/-- Tells everyone a version, and records what listeners install meanwhile. -/
def announceRecorded : ℕ → ℕ → Host → List Transaction × Host
  | 0, version, h => ([], announce 0 version h)
  | depth + 1, version, h =>
    (List.range h.listeners.length).foldl (fun (record, h) i =>
        let h := h.hear i version
        match h.reaction? i version with
        | none => (record, h)
        | some batch =>
          match h.catalog.createExtension batch with
          | .error _ => (record, h)
          | .ok c =>
            let (nested, h) := announceRecorded depth c.version { h with catalog := c }
            (record ++ .install batch :: nested, h))
      ([], h.invalidateManaged)

def commitHistory (h : Host) (c : Catalog) : List Transaction :=
  (announceRecorded h.reactionCount c.version { h with catalog := c }).1

def createHistory (h : Host) (batch : Batch) : List Transaction :=
  match h.catalog.createExtension batch with
  | .error _ => []
  | .ok c => .install batch :: h.commitHistory c

def removeHistory (h : Host) (extension : Identifier) : List Transaction :=
  match h.catalog.removeExtension extension with
  | .error _ => []
  | .ok (_, c) => .remove extension :: h.commitHistory c

def dropHookHistory (h : Host) (i : ℕ) (hook : DropHook) : List Transaction :=
  let h := { h with hooks := h.hooks.modify i fun k => { k with calls := k.calls + 1 } }
  match hook.removes with
  | none => []
  | some extension => h.removeHistory extension

def hookHistory (h : Host) (extension : Identifier) : List Transaction :=
  match h.registrations.lookup extension with
  | none => []
  | some (.manager i) =>
    match h.manager? i with
    | none => []
    | some m => h.removeHistory m.extension
  | some (.hook i) =>
    match h.hooks[i]? with
    | none => []
    | some hook => if hook.live then h.dropHookHistory i hook else []

def dropHistory (h : Host) (extension : Identifier) : List Transaction :=
  if h.catalog.isInstalled extension then
    match h.runHook extension with
    | (.error _, _) => h.hookHistory extension
    | (.ok _, h') =>
      if h'.catalog.isInstalled extension then
        h.hookHistory extension ++ h'.removeHistory extension
      else h.hookHistory extension
  else []

/-- The transactions of one action, in the order in which they are committed. -/
def stepHistory (h : Host) : Action → List Transaction
  | .activate i => ((h.manager? i).map fun m => h.createHistory m.batch).getD []
  | .deactivate i => ((h.manager? i).map fun m => h.removeHistory m.extension).getD []
  | .createExtension batch => h.createHistory batch
  | .removeExtension extension => h.removeHistory extension
  | .dropExtension extension => h.dropHistory extension
  | _ => []

def history (h : Host) : List Action → List Transaction
  | [] => []
  | a :: actions => h.stepHistory a ++ (h.step a).2.history actions

/-! ## Replaying what happened -/

variable {h h' h'' : Host} {transactions later : List Transaction}

/-- The transactions lead from the catalog of one host to that of another. -/
def Leads (h : Host) (transactions : List Transaction) (h' : Host) : Prop :=
  h.catalog.replay transactions = .ok h'.catalog

theorem leads_of_catalog (hcatalog : h'.catalog = h.catalog) : Leads h [] h' := by
  unfold Leads
  rw [hcatalog]
  rfl

theorem Leads.refl (h : Host) : Leads h [] h := leads_of_catalog rfl

theorem Leads.trans (h₁ : Leads h transactions h') (h₂ : Leads h' later h'') :
    Leads h (transactions ++ later) h'' := Catalog.replay_append_iff.mpr ⟨_, h₁, h₂⟩

theorem Leads.cons {t : Transaction} {c : Catalog} (htransact : h.catalog.transact t = .ok c)
    (hleads : Leads { h with catalog := c } later h') : Leads h (t :: later) h' :=
  Catalog.replay_cons_iff.mpr ⟨c, htransact, hleads⟩

theorem announceRecorded_snd (depth version : ℕ) (h : Host) :
    (announceRecorded depth version h).2 = announce depth version h := by
  induction depth generalizing version h with
  | zero => rfl
  | succ depth ih =>
    unfold announceRecorded announce
    generalize List.range h.listeners.length = indices
    induction indices using List.reverseRecOn with
    | nil => rfl
    | append_singleton indices i hindices =>
      simp only [List.foldl_append, List.foldl_cons, List.foldl_nil]
      rw [← hindices]
      cases hreaction : Host.reaction? _ i version with
      | none => simp only [Option.map_none]
      | some batch =>
        simp only [Option.map_some]
        cases hcreate : Catalog.createExtension _ batch with
        | error e => simp only
        | ok c =>
          simp only
          rw [← ih]

theorem leads_announceRecorded (depth version : ℕ) (h : Host) :
    Leads h (announceRecorded depth version h).1 (announceRecorded depth version h).2 := by
  induction depth generalizing version h with
  | zero =>
    refine leads_of_catalog ?_
    simp only [announceRecorded, announce]
    exact List.foldlRecOn (motive := fun h' : Host => h'.catalog = h.catalog) _ _ rfl
      fun _ hcatalog _ _ => hcatalog
  | succ depth ih =>
    unfold announceRecorded
    generalize List.range h.listeners.length = indices
    induction indices using List.reverseRecOn with
    | nil => exact leads_of_catalog rfl
    | append_singleton indices i hindices =>
      simp only [List.foldl_append, List.foldl_cons, List.foldl_nil]
      generalize List.foldl _ _ indices = told at hindices ⊢
      obtain ⟨record, h'⟩ := told
      dsimp only at hindices ⊢
      cases hreaction : (h'.hear i version).reaction? i version with
      | none => exact hindices
      | some batch =>
        dsimp only
        cases hcreate : (h'.hear i version).catalog.createExtension batch with
        | error e => exact hindices
        | ok c =>
          have hnested := ih c.version { h'.hear i version with catalog := c }
          exact hindices.trans (Leads.cons hcreate hnested)

theorem leads_commit (h : Host) (c : Catalog) :
    Leads { h with catalog := c } (h.commitHistory c) (h.commit c) := by
  unfold commitHistory commit
  rw [← announceRecorded_snd]
  exact leads_announceRecorded _ _ _

/-! ### What changes the catalog -/

theorem leads_createExtension (h : Host) (batch : Batch) :
    Leads h (h.createHistory batch) (h.createExtension batch).2 := by
  unfold createHistory createExtension
  cases hcreate : h.catalog.createExtension batch with
  | error e => exact .refl h
  | ok c => exact .cons hcreate (h.leads_commit c)

theorem leads_removeExtension (h : Host) (extension : Identifier) :
    Leads h (h.removeHistory extension) (h.removeExtension extension).2 := by
  unfold removeHistory removeExtension
  cases hremove : h.catalog.removeExtension extension with
  | error e => exact .refl h
  | ok result =>
    obtain ⟨summary, c⟩ := result
    refine .cons ?_ (h.leads_commit c)
    simp only [Catalog.transact, hremove, Except.map]

theorem leads_activate (h : Host) (m : Manager) :
    Leads h (h.createHistory m.batch) (h.activate m).2 := by
  have hcreate := h.leads_createExtension m.batch
  unfold activate
  split <;> simp_all

theorem leads_deactivate (h : Host) (i : ℕ) (m : Manager) :
    Leads h (h.removeHistory m.extension) (h.deactivate i m).2 := by
  have hremove := h.leads_removeExtension m.extension
  unfold deactivate
  split
  · simp_all
  · simp_all
  · rename_i h' hresult
    rw [hresult] at hremove
    dsimp only
    split <;> exact hremove

theorem leads_runDropHook (h : Host) (i : ℕ) (hook : DropHook) :
    Leads h (h.dropHookHistory i hook) (h.runDropHook i hook).2 := by
  unfold dropHookHistory runDropHook
  dsimp only
  cases hook.removes with
  | none => exact leads_of_catalog rfl
  | some extension =>
    have hremove := leads_removeExtension
      { h with hooks := h.hooks.modify i fun k => { k with calls := k.calls + 1 } } extension
    dsimp only
    split <;> simp_all [Leads]

theorem leads_runHook (h : Host) (extension : Identifier) :
    Leads h (h.hookHistory extension) (h.runHook extension).2 := by
  unfold hookHistory runHook manager?
  cases h.registrations.lookup extension with
  | none => exact .refl h
  | some owner =>
    cases owner with
    | manager i =>
      dsimp only
      cases h.processes[i]?.bind (·.manager) with
      | none => exact .refl h
      | some m => exact h.leads_deactivate i m
    | hook i =>
      dsimp only
      cases h.hooks[i]? with
      | none => exact .refl h
      | some hook =>
        dsimp only
        split
        · exact h.leads_runDropHook i hook
        · exact .refl h

theorem leads_dropExtension (h : Host) (extension : Identifier) :
    Leads h (h.dropHistory extension) (h.dropExtension extension).2 := by
  have hhook := h.leads_runHook extension
  unfold dropHistory dropExtension
  split
  · generalize h.runHook extension = result at hhook ⊢
    obtain ⟨result, h'⟩ := result
    cases result with
    | error message => exact hhook
    | ok =>
      dsimp only
      split
      · exact hhook.trans (h'.leads_removeExtension extension)
      · exact hhook
  · exact .refl h

/-! ### Any action -/

theorem leads_withProcess (i : ℕ) {f : Process → Except HostError Answer × Host}
    (hf : ∀ p, (f p).2.catalog = h.catalog) : Leads h [] (h.withProcess i f).2 := by
  unfold withProcess
  split
  · exact .refl h
  · exact leads_of_catalog (hf _)

theorem leads_withManager (i : ℕ) {log : Manager → List Transaction}
    {f : Process → Manager → Except HostError Answer × Host}
    (hf : ∀ p m, Leads h (log m) (f p m).2) :
    Leads h (((h.manager? i).map log).getD []) (h.withManager i f).2 := by
  unfold withManager withProcess manager?
  cases h.processes[i]? with
  | none => exact .refl h
  | some p =>
    dsimp only [Option.bind_some]
    cases p.manager with
    | none => exact .refl h
    | some m => exact hf p m

theorem leads_withManager_of_catalog (i : ℕ)
    {f : Process → Manager → Except HostError Answer × Host}
    (hf : ∀ p m, (f p m).2.catalog = h.catalog) : Leads h [] (h.withManager i f).2 := by
  refine leads_withProcess i fun p => ?_
  split
  · rfl
  · exact hf p _

theorem leads_step (h : Host) (a : Action) : Leads h (h.stepHistory a) (h.step a).2 := by
  cases a with
  | activate i => exact leads_withManager i fun _ m => h.leads_activate m
  | deactivate i => exact leads_withManager i fun _ m => h.leads_deactivate i m
  | createExtension batch => exact h.leads_createExtension batch
  | removeExtension extension => exact h.leads_removeExtension extension
  | dropExtension extension => exact h.leads_dropExtension extension
  | dropManager i => exact leads_withManager_of_catalog i fun _ _ => rfl
  | invalidate i => exact leads_withManager_of_catalog i fun _ _ => rfl
  | inventory i =>
    refine leads_withManager_of_catalog i fun p m => ?_
    unfold askCache withProcess
    split <;> rfl
  | setEnabled i enabled => exact leads_withProcess i fun _ => rfl
  | lookUpOid i oid => exact leads_withProcess i fun _ => rfl
  | lookUpOperator i operator => exact leads_withProcess i fun _ => rfl
  | plan i clause => exact leads_withProcess i fun _ => rfl
  | newManager | newPlanner | subscribe | unsubscribe | registerHook | dropHook =>
    exact leads_of_catalog rfl
  | isInstalled | findOperator | findFunction | findOperators | operator | function
  | operatorsOwnedBy | functionsOwnedBy | members | countMembers | invokeFunction
  | invokeOperator => exact .refl h

theorem leads_run (h : Host) (actions : List Action) :
    Leads h (h.history actions) (h.run actions) := by
  induction actions generalizing h with
  | nil => exact .refl h
  | cons a actions ih => exact (h.leads_step a).trans (ih (h.step a).2)

/-- **The history replayed** on the first catalog is what a run makes of it. -/
theorem replay_history (actions : List Action) :
    Catalog.bootstrap.replay (bootstrap.history actions) = .ok (bootstrap.run actions).catalog :=
  bootstrap.leads_run actions

/-! ## Silent listeners -/

/-- No listener answers a change of the catalog with another one. -/
def Silent (h : Host) : Prop := ∀ l ∈ h.listeners, l.reaction = none

theorem Silent.reactionCount_eq_zero (hsilent : h.Silent) : h.reactionCount = 0 := by
  unfold reactionCount
  rw [List.countP_eq_zero]
  intro l hl
  simp [hsilent l hl]

theorem Silent.commitHistory_eq_nil (hsilent : h.Silent) (c : Catalog) :
    h.commitHistory c = [] := by
  rw [commitHistory, hsilent.reactionCount_eq_zero]
  rfl

theorem Silent.catalog_commit (hsilent : h.Silent) (c : Catalog) : (h.commit c).catalog = c := by
  have hleads := h.leads_commit c
  rw [hsilent.commitHistory_eq_nil] at hleads
  exact (Except.ok.inj hleads).symm

theorem Silent.install_not_mem_removeHistory (hsilent : h.Silent) (e : Identifier)
    (batch : Batch) : .install batch ∉ h.removeHistory e := by
  unfold removeHistory
  split
  · nofun
  · rw [hsilent.commitHistory_eq_nil]
    simp

end Host

end ExactCompare
