import ExactCompare.Proofs.Failures

/-!
# Dropping is removing

Where every drop hook is a manager and listeners only listen, dropping an extension does what
removing it does, whether the hook is still there or not.
-/

namespace ExactCompare

/-- No drop hook of another kind than a manager is registered. -/
def Action.LeavesHooks : Action → Prop
  | registerHook .. => False
  | _ => True

namespace Host

variable {h : Host} {a : Action} {e : Identifier}

/-! ## Runs without other hooks -/

theorem sameHooks_withManager (i : ℕ) {f : Process → Manager → Except HostError Answer × Host}
    (hf : ∀ p m, SameHooks h (f p m).2) : SameHooks h (h.withManager i f).2 := by
  unfold withManager withProcess
  cases h.processes[i]? with
  | none => exact .refl h
  | some p =>
    dsimp only
    cases p.manager with
    | none => exact .refl h
    | some m => exact hf p m

theorem sameHooks_call (hmanaged : h.Managed) (ha : a.isCall = true) :
    SameHooks h (h.step a).2 := by
  cases a with
  | activate i => exact sameHooks_withManager i fun _ m => h.sameHooks_activate m
  | deactivate i => exact sameHooks_withManager i fun _ m => h.sameHooks_deactivate i m
  | createExtension batch => exact h.sameHooks_createExtension batch
  | removeExtension e => exact h.sameHooks_removeExtension e
  | dropExtension e => exact sameHooks_dropExtension hmanaged e
  | _ => cases ha

theorem managed_step (hmanaged : h.Managed) (ha : a.LeavesHooks) : (h.step a).2.Managed := by
  by_cases hcall : a.isCall = true
  · exact (sameHooks_call hmanaged hcall).managed hmanaged
  by_cases hregisters : a.registers = true
  · cases a with
    | newManager config => exact hmanaged.newManager config
    | subscribe | unsubscribe => exact hmanaged
    | registerHook => exact ha.elim
    | _ => cases hregisters
  · rw [Bool.not_eq_true] at hcall hregisters
    have hkeeps := h.keeps_step hcall hregisters
    exact hmanaged.mono hkeeps.registrations hkeeps.managers

theorem managed_run (hmanaged : h.Managed) {actions : List Action}
    (hactions : ∀ a ∈ actions, a.LeavesHooks) : (h.run actions).Managed :=
  List.foldlRecOn actions _ hmanaged fun _ hmanaged a ha => managed_step hmanaged (hactions a ha)

/-! ## What dropping leaves -/

theorem step_removeExtension_eq_removed (hinstalled : e ∈ h.catalog.extensions) :
    (h.step (.removeExtension e)).2 = h.removed e :=
  congrArg Prod.snd (step_removeExtension
    (Catalog.removeExtension_ok_iff.mpr ⟨hinstalled, rfl, rfl⟩))

theorem step_dropExtension_of_not_installed (hnot : e ∉ h.catalog.extensions) :
    h.step (.dropExtension e) = (.error (.catalog (.notInstalled e)), h) :=
  congrArg (inCatalog fun _ => .done) (dropExtension_of_not_installed hnot)

theorem Plain.step_dropExtension (hplain : h.Plain) (hinstalled : e ∈ h.catalog.extensions) :
    h.step (.dropExtension e) = (.ok .done, (h.step (.removeExtension e)).2) := by
  rw [step_removeExtension_eq_removed hinstalled]
  exact congrArg (inCatalog fun _ => .done) (hplain.dropExtension_eq_removed hinstalled)

end Host

/-! ## The theorem -/

/-- **Dropping is removing.** After any run in which every drop hook is a manager, dropping an
extension that is not installed fails and leaves the host. If listeners are silent, dropping an
installed one succeeds, with or without its hook, and leaves what removing it leaves: the catalog
without the extension, one version later, and no cache in any manager. -/
theorem dropping_is_removing (actions : List Action)
    (hactions : ∀ a ∈ actions, a.LeavesHooks) (e : Identifier) :
    let h := Host.bootstrap.run actions
    let left := (h.step (.removeExtension e)).2
    (e ∉ h.catalog.extensions →
      h.step (.dropExtension e) = (.error (.catalog (.notInstalled e)), h)) ∧
      (e ∈ h.catalog.extensions → h.Silent →
        h.step (.dropExtension e) = (.ok .done, left) ∧ h.catalog.IsRest e left.catalog ∧
          left.Cold) := by
  intro h left
  have hmanaged : h.Managed := Host.managed_run Host.bootstrap_plain.managed hactions
  refine ⟨Host.step_dropExtension_of_not_installed, fun hinstalled hsilent => ?_⟩
  have hplain : h.Plain := ⟨hsilent, hmanaged⟩
  have hleft : left = h.removed e := Host.step_removeExtension_eq_removed hinstalled
  refine ⟨hplain.step_dropExtension hinstalled, ?_, ?_⟩
  · rw [hleft, Host.removed, hsilent.catalog_commit]
    exact h.catalog.isRest_withoutOwner e
  · rw [hleft]
    exact h.cold_removed e

theorem dropping_is_removing_through_newer_manager :
    let e := Config.defaultExtension
    let batch : Batch := ⟨e, [.addSupport ⟨.btree, .integer⟩ 1 (.integer .int4) (.inexact .float8)
      "btint4cmp" [.integer .int4, .integer .int4]]⟩
    let actions : List Action := [.newManager .default, .newManager .default, .dropManager 0,
      .subscribe none, .createExtension batch]
    let h := Host.bootstrap.run actions
    let left := (h.step (.removeExtension e)).2
    h.HasHook e ∧ (h.catalog.part e).members.length = 1 ∧
      h.step (.dropExtension e) = (.ok .done, left) ∧ left.catalog.part e = .empty ∧
      left.Cold := by
  intro e batch actions h left
  have hactions : ∀ a ∈ actions, a.LeavesHooks := by
    simp [actions, Action.LeavesHooks]
  have hinstalled : e ∈ h.catalog.extensions := by decide +kernel
  have hmember : (h.catalog.part e).members.length = 1 := by decide +kernel
  have hlookup : h.registrations.lookup e = some (.manager 1) := by decide +kernel
  have hmanager : h.manager? 1 = some (Host.firstManager .default) := by decide +kernel
  have hplain : ∀ a ∈ actions, a.IsPlain := by
    simp [actions, Action.IsPlain]
  have hsilent : h.Silent := (Host.plain_run Host.bootstrap_plain hplain).silent
  obtain ⟨hdrop, hrest, hcold⟩ := (dropping_is_removing actions hactions e).2 hinstalled hsilent
  exact ⟨⟨1, _, hlookup, hmanager⟩, hmember, hdrop, hrest.none_left, hcold⟩

end ExactCompare
