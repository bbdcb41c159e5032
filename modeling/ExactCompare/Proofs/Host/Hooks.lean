import ExactCompare.Proofs.Lifecycle

/-!
# Drop hooks that are managers

Listeners may answer a change of the catalog here. No call registers a hook or takes a manager
away. A hook that is a manager removes its extension, and fails if members of it are there again
afterwards, so dropping an extension comes down to removing it.
-/

namespace ExactCompare

namespace Host

variable {h h' h'' : Host} {i : ℕ} {m : Manager} {e : Identifier}

/-! ## Managers -/

def managers (h : Host) : List (Option Manager) := h.processes.map (·.manager)

theorem manager?_eq_join (h : Host) (i : ℕ) : h.manager? i = h.managers[i]?.join := by
  rw [manager?, managers, List.getElem?_map]
  cases h.processes[i]? <;> rfl

/-- Whatever is registered for an extension is a manager of it, or was one. -/
def Managed (h : Host) : Prop :=
  ∀ e owner, (e, owner) ∈ h.registrations →
    ∃ (i : ℕ) (found : Option Manager), owner = .manager i ∧ h.managers[i]? = some found ∧
      ∀ m ∈ found, m.extension = e

theorem Managed.mono (hmanaged : h.Managed) (hregistrations : h'.registrations = h.registrations)
    (hmanagers : ∀ (i : ℕ) (found : Option Manager), h.managers[i]? = some found →
      h'.managers[i]? = some found ∨ h'.managers[i]? = some none) : h'.Managed := by
  intro e owner howner
  rw [hregistrations] at howner
  obtain ⟨i, found, hmanager, hi, hextension⟩ := hmanaged e owner howner
  rcases hmanagers i found hi with hsame | hgone
  · exact ⟨i, found, hmanager, hsame, hextension⟩
  · exact ⟨i, none, hmanager, hgone, nofun⟩

theorem Managed.newManager (hmanaged : h.Managed) (config : Config) :
    (h.newManager config).Managed := by
  have hmanagers : (h.newManager config).managers = h.managers ++ [some (firstManager config)] := by
    simp [managers, Host.newManager, firstManager]
  intro e owner howner
  rcases List.mem_cons.mp howner with hnew | hold
  · obtain ⟨rfl, rfl⟩ := Prod.mk.inj hnew
    refine ⟨_, some (firstManager config), rfl, ?_, fun m hm => ?_⟩
    · rw [hmanagers, managers, List.getElem?_append_right (by simp)]
      simp
    · cases hm
      rfl
  · obtain ⟨i, found, hmanager, hi, hextension⟩ := hmanaged e owner hold
    refine ⟨i, found, hmanager, ?_, hextension⟩
    rw [hmanagers, List.getElem?_append_left (List.getElem?_eq_some_iff.mp hi).1, hi]

theorem Managed.lookup (hmanaged : h.Managed) {owner : HookOwner}
    (hlookup : h.registrations.lookup e = some owner) :
    ∃ i, owner = .manager i ∧ ∀ m, h.manager? i = some m → m.extension = e := by
  have hmem : (e, owner) ∈ h.registrations := by
    obtain ⟨before, after, hsplit, -⟩ := List.lookup_eq_some_iff.mp hlookup
    exact hsplit ▸ List.mem_append_right _ List.mem_cons_self
  obtain ⟨i, found, rfl, hi, hextension⟩ := hmanaged e owner hmem
  refine ⟨i, rfl, fun m hm => ?_⟩
  rw [manager?_eq_join, hi, Option.join_some] at hm
  exact hextension m hm

/-! ## Calls keep the hooks -/

structure SameHooks (h h' : Host) : Prop where
  registrations : h'.registrations = h.registrations
  managers : h'.managers = h.managers

theorem SameHooks.refl (h : Host) : SameHooks h h := ⟨rfl, rfl⟩

theorem SameHooks.trans (h₁ : SameHooks h h') (h₂ : SameHooks h' h'') : SameHooks h h'' where
  registrations := h₂.registrations.trans h₁.registrations
  managers := h₂.managers.trans h₁.managers

theorem SameHooks.managed (hsame : SameHooks h h') (hmanaged : h.Managed) : h'.Managed :=
  hmanaged.mono hsame.registrations fun _ _ hi => .inl (hsame.managers ▸ hi)

theorem registrations_announce (depth version : ℕ) (h : Host) :
    (announce depth version h).registrations = h.registrations := by
  induction depth generalizing version h with
  | zero =>
    rw [announce]
    exact List.foldlRecOn (motive := fun h' : Host => h'.registrations = h.registrations) _ _ rfl
      fun _ hregistrations _ _ => hregistrations
  | succ depth ih =>
    rw [announce]
    refine List.foldlRecOn (motive := fun h' : Host => h'.registrations = h.registrations) _ _ rfl
      fun h' hregistrations i _ => ?_
    dsimp only
    cases hreaction : (h'.hear i version).reaction? i version with
    | none => exact hregistrations
    | some batch =>
      rw [Option.map_some]
      cases hcreate : (h'.hear i version).catalog.createExtension batch with
      | error e => exact hregistrations
      | ok c => exact (ih c.version _).trans hregistrations

theorem sameHooks_commit (h : Host) (c : Catalog) : SameHooks h (h.commit c) where
  registrations := registrations_announce _ _ _
  managers := (h.announced_commit c).managers

theorem sameHooks_createExtension (h : Host) (batch : Batch) :
    SameHooks h (h.createExtension batch).2 := by
  unfold createExtension
  split
  · exact .refl h
  · exact h.sameHooks_commit _

theorem sameHooks_removeExtension (h : Host) (e : Identifier) :
    SameHooks h (h.removeExtension e).2 := by
  unfold removeExtension
  split
  · exact .refl h
  · exact h.sameHooks_commit _

theorem sameHooks_activate (h : Host) (m : Manager) : SameHooks h (h.activate m).2 := by
  have hcreate := h.sameHooks_createExtension m.batch
  unfold activate
  split <;> simp_all

theorem sameHooks_invalidate (h : Host) (i : ℕ) : SameHooks h (h.invalidate i) where
  registrations := rfl
  managers := by
    refine List.ext_getElem? fun k => ?_
    simp only [managers, invalidate, modifyProcess, List.getElem?_map, List.getElem?_modify]
    cases h.processes[k]? with
    | none => rfl
    | some p => by_cases hk : i = k <;> simp [hk, Process.forget]

theorem sameHooks_deactivate (h : Host) (i : ℕ) (m : Manager) :
    SameHooks h (h.deactivate i m).2 := by
  have hremove := h.sameHooks_removeExtension m.extension
  unfold deactivate
  generalize h.removeExtension m.extension = result at hremove ⊢
  obtain ⟨result, h'⟩ := result
  cases result with
  | error e => cases e <;> exact hremove
  | ok summary =>
    have hinvalidate := hremove.trans (h'.sameHooks_invalidate i)
    dsimp only
    split
    · exact hinvalidate
    · exact hinvalidate

theorem sameHooks_runHook (hmanaged : h.Managed) (e : Identifier) :
    SameHooks h (h.runHook e).2 := by
  unfold runHook
  cases hlookup : h.registrations.lookup e with
  | none => exact .refl h
  | some owner =>
    obtain ⟨i, rfl, -⟩ := hmanaged.lookup hlookup
    dsimp only
    split
    · exact .refl h
    · exact h.sameHooks_deactivate i _

theorem sameHooks_dropExtension (hmanaged : h.Managed) (e : Identifier) :
    SameHooks h (h.dropExtension e).2 := by
  have hhook := sameHooks_runHook hmanaged e
  unfold dropExtension
  split
  · generalize h.runHook e = result at hhook ⊢
    obtain ⟨result, h'⟩ := result
    cases result with
    | error message => exact hhook
    | ok =>
      dsimp only
      split
      · exact hhook.trans (h'.sameHooks_removeExtension e)
      · exact hhook
  · exact .refl h

/-! ## Removing -/

theorem not_mem_extensions_withoutOwner (c : Catalog) (e : Identifier) :
    e ∉ ((c.withoutOwner e).commit).extensions := by
  intro he
  exact of_decide_eq_true (List.mem_filter.mp he).2 rfl

theorem Cold.invalidate_eq (hcold : h.Cold) (hm : h.manager? i = some m) : h.invalidate i = h := by
  obtain ⟨p, hp, hpm⟩ := exists_process hm
  have hcache : p.cache = none := hcold p (List.mem_of_getElem? hp) (hpm ▸ rfl)
  have hforget : p.forget = p := by rw [Process.forget, ← hcache]
  have hprocesses : (h.invalidate i).processes = h.processes := by
    refine List.ext_getElem? fun k => ?_
    rw [invalidate, modifyProcess, List.getElem?_modify]
    by_cases hk : i = k
    · subst hk
      simp [hp, hforget]
    · simp [hk]
  exact congrArg (fun processes => { h with processes }) hprocesses

/-- The host after an extension was removed and everyone was told. -/
def removed (h : Host) (e : Identifier) : Host := h.commit (h.catalog.withoutOwner e).commit

theorem removeExtension_eq_removed (hinstalled : e ∈ h.catalog.extensions) :
    h.removeExtension e = (.ok (h.catalog.removalSummary e), h.removed e) := by
  unfold removeExtension
  rw [Catalog.removeExtension_ok_iff.mpr ⟨hinstalled, rfl, rfl⟩]
  rfl

theorem cold_removed (h : Host) (e : Identifier) : (h.removed e).Cold :=
  (h.announced_commit _).cold

theorem deactivate_eq_removed (hm : h.manager? i = some m)
    (hinstalled : m.extension ∈ h.catalog.extensions) :
    h.deactivate i m = ((residue? (h.removed m.extension).catalog m.extension).elim (.ok ()) .error,
      h.removed m.extension) := by
  have hannounced := h.announced_commit (h.catalog.withoutOwner m.extension).commit
  have hinvalidate : (h.removed m.extension).invalidate i = h.removed m.extension :=
    Cold.invalidate_eq hannounced.cold ((hannounced.manager? i).trans hm)
  unfold deactivate
  rw [removeExtension_eq_removed hinstalled]
  dsimp only
  rw [hinvalidate]
  cases residue? (h.removed m.extension).catalog m.extension <;> rfl

/-! ## Running a hook -/

/-- The newest hook that was registered for an extension is a manager that is still there. -/
def HasHook (h : Host) (e : Identifier) : Prop :=
  ∃ i m, h.registrations.lookup e = some (.manager i) ∧ h.manager? i = some m

theorem runHook_of_no_hook (hmanaged : h.Managed) (hnone : ¬ h.HasHook e) :
    h.runHook e = (.ok (), h) := by
  unfold runHook
  cases hlookup : h.registrations.lookup e with
  | none => rfl
  | some owner =>
    obtain ⟨i, rfl, -⟩ := hmanaged.lookup hlookup
    dsimp only
    cases hm : h.processes[i]?.bind (·.manager) with
    | none => rfl
    | some m => exact absurd ⟨i, m, hlookup, hm⟩ hnone

theorem runHook_of_hook (hmanaged : h.Managed) (hhook : h.HasHook e)
    (hinstalled : e ∈ h.catalog.extensions) :
    h.runHook e = ((residue? (h.removed e).catalog e).elim (.ok ()) (.error ·.message),
      h.removed e) := by
  obtain ⟨i, m, hlookup, hm⟩ := hhook
  obtain ⟨_, hi, hextension⟩ := hmanaged.lookup hlookup
  cases hi
  obtain rfl := hextension m hm
  have hdeactivate := deactivate_eq_removed hm hinstalled
  rw [manager?] at hm
  unfold runHook
  simp only [hlookup, hm, hdeactivate]
  cases residue? (h.removed m.extension).catalog m.extension <;> rfl

/-! ## Dropping -/

theorem dropExtension_of_no_hook (hmanaged : h.Managed) (hinstalled : e ∈ h.catalog.extensions)
    (hnone : ¬ h.HasHook e) : h.dropExtension e = (.ok (), h.removed e) := by
  have hyes := Catalog.isInstalled_iff.mpr hinstalled
  unfold dropExtension
  rw [if_pos hyes, runHook_of_no_hook hmanaged hnone]
  dsimp only
  rw [if_pos hyes, removeExtension_eq_removed hinstalled]
  rfl

theorem dropExtension_of_gone (hmanaged : h.Managed) (hinstalled : e ∈ h.catalog.extensions)
    (hclean : residue? (h.removed e).catalog e = none)
    (hgone : e ∉ (h.removed e).catalog.extensions) :
    h.dropExtension e = (.ok (), h.removed e) := by
  by_cases hhook : h.HasHook e
  case neg => exact dropExtension_of_no_hook hmanaged hinstalled hhook
  unfold dropExtension
  rw [if_pos (Catalog.isInstalled_iff.mpr hinstalled), runHook_of_hook hmanaged hhook hinstalled,
    hclean]
  dsimp only [Option.elim_none]
  rw [if_neg (mt Catalog.isInstalled_iff.mp hgone)]

end Host

end ExactCompare
