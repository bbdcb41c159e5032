import ExactCompare.Proofs.Catalog.Lookup
import ExactCompare.Proofs.Host.Runs
import ExactCompare.Proofs.Plan.Installed
import ExactCompare.Proofs.Plan.Success

/-!
# Activation

After a manager was activated, the part of its extension is the plan, and it stays so
until the extension is removed.
-/

namespace ExactCompare

namespace Host

variable {h : Host} {i : ℕ} {m : Manager}

def manager? (h : Host) (i : ℕ) : Option Manager := h.processes[i]?.bind (·.manager)

theorem manager?_eq {p : Process} (hp : h.processes[i]? = some p) : h.manager? i = p.manager := by
  rw [manager?, hp, Option.bind_some]

theorem exists_process (hm : h.manager? i = some m) :
    ∃ p, h.processes[i]? = some p ∧ p.manager = some m := Option.bind_eq_some_iff.mp hm

theorem withManager_eq (hm : h.manager? i = some m)
    (f : Process → Manager → Except HostError Answer × Host) :
    ∃ p, h.processes[i]? = some p ∧ p.manager = some m ∧ h.withManager i f = f p m := by
  obtain ⟨p, hp, hpm⟩ := exists_process hm
  refine ⟨p, hp, hpm, ?_⟩
  simp only [withManager, withProcess, hp, hpm]

theorem Announced.manager? {h h' : Host} (hannounced : Announced h h') (i : ℕ) :
    h'.manager? i = h.manager? i := by
  have := congrArg (·[i]?.join) hannounced.managers
  simp only [List.getElem?_map] at this
  unfold Host.manager?
  cases hp : h'.processes[i]? <;> cases hq : h.processes[i]? <;> simp_all

theorem step_activate (hm : h.manager? i = some m) :
    h.step (.activate i) = inLifecycle (h.activate m) := by
  obtain ⟨p, -, -, hstep⟩ := withManager_eq hm fun _ m => inLifecycle (h.activate m)
  exact hstep

theorem announced_of_activate (hm : h.manager? i = some m)
    (hdone : (h.step (.activate i)).1 = .ok .done) :
    ∃ c, h.catalog.createExtension m.batch = .ok c ∧
      Announced { h with catalog := c } (h.step (.activate i)).2 := by
  rw [step_activate hm] at hdone ⊢
  unfold activate createExtension at hdone ⊢
  cases hcreate : h.catalog.createExtension m.batch with
  | error e =>
    rw [hcreate] at hdone
    cases e <;> simp [inLifecycle, Except.map, Except.mapError] at hdone
  | ok c => exact ⟨c, rfl, h.announced_commit c⟩

theorem manager?_of_activate (hm : h.manager? i = some m)
    (hdone : (h.step (.activate i)).1 = .ok .done) :
    (h.step (.activate i)).2.manager? i = some m := by
  obtain ⟨c, -, hannounced⟩ := announced_of_activate hm hdone
  rw [hannounced.manager? i]
  exact hm

theorem step_activate_of_ok (hm : h.manager? i = some m) {c : Catalog}
    (hcreate : h.catalog.createExtension m.batch = .ok c) :
    h.step (.activate i) = (.ok .done, h.commit c) := by
  rw [step_activate hm]
  unfold activate createExtension
  rw [hcreate]
  rfl

theorem Creates.part_eq {c c' : Catalog} {e : Identifier} (hcreates : Creates c c')
    (he : e ∈ c.extensions) : e ∈ c'.extensions ∧ c'.part e = c.part e := by
  induction hcreates with
  | refl => exact ⟨he, rfl⟩
  | tail _ hcreate ih =>
    obtain ⟨batch, hcreate⟩ := hcreate
    obtain ⟨hinstalled, hpart⟩ := ih
    obtain ⟨hfree, hextensions, p, hp⟩ := Catalog.createExtension_adds hcreate
    refine ⟨hextensions ▸ List.mem_append_left _ hinstalled, ?_⟩
    rw [hp.part_of_ne fun howner => hfree (howner ▸ hinstalled), hpart]

theorem isPlan_of_activate (hc : h.catalog.Valid) (hm : h.manager? i = some m)
    (hdone : (h.step (.activate i)).1 = .ok .done) :
    m.extension ∈ (h.step (.activate i)).2.catalog.extensions ∧
      ((h.step (.activate i)).2.catalog.part m.extension).IsPlan m.extension m.equality := by
  obtain ⟨c, hcreate, hannounced⟩ := announced_of_activate hm hdone
  obtain ⟨-, hextensions, -⟩ := Catalog.createExtension_adds hcreate
  have he : m.extension ∈ c.extensions := by
    rw [hextensions]
    exact List.mem_append_right _ (List.mem_singleton_self _)
  obtain ⟨he', hpart⟩ := hannounced.creates.part_eq he
  exact ⟨he', hpart ▸ Catalog.isPlan_of_createExtension hc hcreate⟩

/-- Right after an activation the manager's part of the catalog is what its plan installs. -/
theorem isPlan_run {before : List Action} (hm : (bootstrap.run before).manager? i = some m)
    (hdone : ((bootstrap.run before).step (.activate i)).1 = .ok .done) :
    m.extension ∈ (bootstrap.run (before ++ [.activate i])).catalog.extensions ∧
      ((bootstrap.run (before ++ [.activate i])).catalog.part m.extension).IsPlan
        m.extension m.equality := by
  rw [run_concat]
  exact isPlan_of_activate (run_valid before) hm hdone

theorem step_activate_bootstrap (hcatalog : h.catalog = .bootstrap) (hm : h.manager? i = some m) :
    (h.step (.activate i)).1 = .ok .done := by
  obtain ⟨c, hcreate⟩ := Plan.exists_createExtension_bootstrap m.extension m.equality
  rw [← hcatalog] at hcreate
  rw [step_activate_of_ok hm hcreate]

/-! ## The first manager -/

def firstManager (config : Config) : Manager where
  extension := config.extension
  equality := config.equality

theorem activate_first (config : Config) :
    (bootstrap.run [.newManager config]).manager? 0 = some (firstManager config) ∧
      ((bootstrap.run [.newManager config]).step (.activate 0)).1 = .ok .done ∧
      (bootstrap.run ([.newManager config] ++ [.activate 0])).processes[0]? =
        some ⟨none, config.enableSupport, some (firstManager config)⟩ := by
  obtain ⟨c, hcreate⟩ := Plan.exists_createExtension_bootstrap config.extension config.equality
  have hmanager : (bootstrap.run [.newManager config]).manager? 0 = some (firstManager config) := rfl
  have hstep := step_activate_of_ok hmanager hcreate
  refine ⟨hmanager, by rw [hstep], ?_⟩
  rw [run_concat, hstep]
  rfl

end Host

/-! ## Operators of an installed plan -/

namespace Catalog

variable {c : Catalog} {e : Identifier} {equality : EqualityRegistration}

theorem invokeOperator_of_isPlan (hc : c.Valid) (hplan : (c.part e).IsPlan e equality)
    {x : CrossOperator} {oid : Oid} (hfind : c.findOperator? x.signature = some oid)
    (left right : Literal) :
    c.invokeOperator oid left right = (x.evaluate left right).mapError .evaluation := by
  obtain ⟨oid', f, hf, hroutine, ho⟩ := hplan.operator x
  have ho := (mem_part_operators.mp ho).1
  obtain rfl : oid' = oid := Option.some.inj ((hc.findOperator? ho).symm.trans hfind)
  exact hc.invokeOperator ho (mem_part_functions.mp hf).1 rfl hroutine left right

theorem findOperator?_of_isPlan (hc : c.Valid) (hplan : (c.part e).IsPlan e equality)
    {o : OperatorEntry} (ho : o ∈ (c.part e).operators) :
    ∃ x : CrossOperator, c.findOperator? x.signature = some o.oid := by
  obtain ⟨x, hx⟩ := hplan.exists_operator ho
  exact ⟨x, hx ▸ hc.findOperator? (mem_part_operators.mp ho).1⟩

end Catalog

theorem Host.exists_operator_of_activate {before : List Action} {i : ℕ} {m : Manager}
    (hmanager : (bootstrap.run before).manager? i = some m)
    (hactivated : ((bootstrap.run before).step (.activate i)).1 = .ok .done) (x : CrossOperator) :
    ∃ oid,
      oid ∈ ((bootstrap.run (before ++ [.activate i])).catalog.operatorsOwnedBy
        m.extension).map (·.oid) ∧
      oid ∈ (bootstrap.run (before ++ [.activate i])).catalog.operators.map (·.oid) ∧
      (bootstrap.run (before ++ [.activate i])).catalog.findOperator? x.signature = some oid := by
  have hc := run_valid (before ++ [.activate i])
  obtain ⟨-, hplan⟩ := isPlan_run hmanager hactivated
  obtain ⟨oid, f, -, -, ho⟩ := hplan.operator x
  have hmem := (Catalog.mem_part_operators.mp ho).1
  exact ⟨oid, List.mem_map_of_mem (f := (·.oid)) ho, List.mem_map_of_mem (f := (·.oid)) hmem,
    hc.findOperator? hmem⟩

end ExactCompare
