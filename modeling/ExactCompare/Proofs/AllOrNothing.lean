import ExactCompare.Proofs.Catalog.Clashes
import ExactCompare.Proofs.Host.Activation

/-!
# Activation is all or nothing

A manager is activated exactly if its extension is not installed and nothing that it plans is
there already. Otherwise its error says which of the two it was, and the host stays as it is.
-/

namespace ExactCompare

namespace Host

variable {h : Host} {i : ℕ} {m : Manager} {change : Change}

/-! ## The three cases -/

theorem step_activate_of_installed (hm : h.manager? i = some m)
    (hinstalled : m.extension ∈ h.catalog.extensions) :
    h.step (.activate i) = (.error (.lifecycle (.alreadyRegistered m.extension)), h) := by
  have hcreate : h.catalog.createExtension m.batch = .error (.alreadyInstalled m.extension) :=
    Catalog.createExtension_of_installed hinstalled
  rw [step_activate hm]
  unfold activate createExtension
  rw [hcreate]
  rfl

theorem step_activate_of_firstClash (hm : h.manager? i = some m)
    (hnew : m.extension ∉ h.catalog.extensions)
    (hclash : h.catalog.FirstClash m.batch.changes change) :
    h.step (.activate i) = (.error (.lifecycle (.catalog change.object.duplicate)), h) := by
  have hcreate : h.catalog.createExtension m.batch = .error change.object.duplicate :=
    Catalog.createExtension_of_firstClash (Plan.ordered_changes m.equality)
      (Plan.nodup_changes m.equality) hnew hclash
  rw [step_activate hm]
  unfold activate createExtension
  rw [hcreate]
  cases change.object <;> rfl

theorem step_activate_of_free (hm : h.manager? i = some m)
    (hnew : m.extension ∉ h.catalog.extensions)
    (hfree : ∀ change ∈ m.batch.changes, ¬ h.catalog.Has change.object) :
    (h.step (.activate i)).1 = .ok .done := by
  have hcreate : ∃ c, h.catalog.createExtension m.batch = .ok c := by
    refine Plan.exists_createExtension_iff.mpr ⟨hnew, ?_⟩
    intro change hchange
    exact mt Catalog.has_iff.mpr (hfree change hchange)
  obtain ⟨c, hcreate⟩ := hcreate
  rw [step_activate_of_ok hm hcreate]

/-! ## All or nothing -/

/-- What activating a manager on a host may result in. -/
structure AllOrNothing (h : Host) (m : Manager) (result : Except HostError Answer × Host) :
    Prop where
  done_iff : result.1 = .ok .done ↔
    m.extension ∉ h.catalog.extensions ∧ ∀ change ∈ m.batch.changes, ¬ h.catalog.Has change.object
  all : result.1 = .ok .done → m.extension ∈ result.2.catalog.extensions ∧
    ∀ change ∈ m.batch.changes, change.HeldBy m.extension (result.2.catalog.part m.extension)
  nothing : result.1 ≠ .ok .done → result.2 = h
  installed : m.extension ∈ h.catalog.extensions →
    result.1 = .error (.lifecycle (.alreadyRegistered m.extension))
  /-- It is the first clash in the order of the plan that is reported. -/
  clash : m.extension ∉ h.catalog.extensions → result.1 ≠ .ok .done →
    ∃ change, h.catalog.FirstClash m.batch.changes change ∧
      result.1 = .error (.lifecycle (.catalog change.object.duplicate))

theorem allOrNothing_of_installed (hinstalled : m.extension ∈ h.catalog.extensions) :
    h.AllOrNothing m (.error (.lifecycle (.alreadyRegistered m.extension)), h) where
  done_iff := ⟨nofun, fun hfree => absurd hinstalled hfree.1⟩
  all := nofun
  nothing _ := rfl
  installed _ := rfl
  clash hnew := absurd hinstalled hnew

theorem allOrNothing_of_firstClash (hnew : m.extension ∉ h.catalog.extensions)
    (hclash : h.catalog.FirstClash m.batch.changes change) :
    h.AllOrNothing m (.error (.lifecycle (.catalog change.object.duplicate)), h) where
  done_iff := by
    refine ⟨nofun, ?_⟩
    rintro ⟨-, hfree⟩
    exact absurd hclash.has (hfree change hclash.mem)
  all := nofun
  nothing _ := rfl
  installed hinstalled := absurd hinstalled hnew
  clash _ _ := ⟨change, hclash, rfl⟩

theorem allOrNothing_of_free (hc : h.catalog.Valid) (hm : h.manager? i = some m)
    (hnew : m.extension ∉ h.catalog.extensions)
    (hfree : ∀ change ∈ m.batch.changes, ¬ h.catalog.Has change.object) :
    h.AllOrNothing m (h.step (.activate i)) := by
  have hdone := step_activate_of_free hm hnew hfree
  obtain ⟨hextension, hplan⟩ := isPlan_of_activate hc hm hdone
  exact {
    done_iff := ⟨fun _ => ⟨hnew, hfree⟩, fun _ => hdone⟩
    all _ := ⟨hextension, hplan.held⟩
    nothing hfail := absurd hdone hfail
    installed hinstalled := absurd hinstalled hnew
    clash _ hfail := absurd hdone hfail }

end Host

/-! ## The theorem -/

/-- **Activation is all or nothing**, whatever was done to the host before, and whatever other
extensions put into its catalog. -/
theorem activation_is_all_or_nothing (actions : List Action) (i : ℕ) (m : Manager)
    (hmanager : (Host.bootstrap.run actions).manager? i = some m) :
    (Host.bootstrap.run actions).AllOrNothing m
      ((Host.bootstrap.run actions).step (.activate i)) := by
  have hvalid := Host.run_valid actions
  generalize Host.bootstrap.run actions = h at hmanager hvalid ⊢
  by_cases hinstalled : m.extension ∈ h.catalog.extensions
  · rw [Host.step_activate_of_installed hmanager hinstalled]
    exact Host.allOrNothing_of_installed hinstalled
  by_cases hfree : ∀ change ∈ m.batch.changes, ¬ h.catalog.Has change.object
  · exact Host.allOrNothing_of_free hvalid hmanager hinstalled hfree
  · obtain ⟨change, hclash⟩ := Catalog.exists_firstClash hfree
    rw [Host.step_activate_of_firstClash hmanager hinstalled hclash]
    exact Host.allOrNothing_of_firstClash hinstalled hclash

theorem activation_is_all_or_nothing_over_member :
    let place : Family × Slot :=
      (⟨.btree, .integer⟩, ⟨.support, 1, .integer .int4, .inexact .float8⟩)
    let other : Batch := ⟨⟨"other", by decide, by decide, by decide⟩,
      [.addSupport place.1 place.2.number place.2.left place.2.right "btint4cmp"
        [.integer .int4, .integer .int4]]⟩
      let h := Host.bootstrap.run [.newManager .default, .createExtension other]
    h.step (.activate 0) =
      (.error (.lifecycle (.catalog (Object.member place).duplicate)), h) := by
  intro place other h
  have hmanager : h.manager? 0 = some (Host.firstManager .default) := rfl
  have hnew : Config.defaultExtension ∉ h.catalog.extensions := by decide +kernel
  have hobjects : h.catalog.objects = Catalog.bootstrap.objects ++ [.member place] := by
    decide +kernel
  have hplanned : Plan.btreeSupport .integer ⟨.int4, .float8, .integerFirst⟩ ∈
      Plan.changes .allFamilies := by decide +kernel
  have hresult := activation_is_all_or_nothing _ 0 _ hmanager
  have hfail : (h.step (.activate 0)).1 ≠ .ok .done := by
    intro hdone
    have hfree := (hresult.done_iff.mp hdone).2 _ hplanned
    rw [Catalog.has_iff, hobjects] at hfree
    exact hfree (List.mem_append_right _ (List.mem_singleton_self _))
  obtain ⟨change, hclash, hanswer⟩ := hresult.clash hnew hfail
  -- Nothing that is planned is built in, so it is the other extension's place that clashes.
  have hobject : change.object = .member place := by
    have hmem := Catalog.has_iff.mp hclash.has
    rw [hobjects, List.mem_append] at hmem
    exact List.mem_singleton.mp (hmem.resolve_left (Plan.object_not_mem_bootstrap hclash.mem))
  rw [hobject] at hanswer
  exact Prod.ext hanswer (hresult.nothing hfail)

end ExactCompare
