import ExactCompare.Proofs.Lifecycle
import ExactCompare.Proofs.Uninstalling

/-!
# Registration and the list

A manager is registered while its extension is installed. It lists the operators that are found
by their signatures, whoever made them. The two agree exactly if the installed extensions make
every operator across types, or none for a manager that is not registered.
-/

namespace ExactCompare

/-! ## Who makes an operator -/

namespace Catalog

variable {c c' : Catalog} {owner : Identifier} {changes : List Change} {x : CrossOperator}
  {transactions : List Transaction}

/-- An extension that is installed came with a batch that makes the operator. -/
def Provides (c : Catalog) (transactions : List Transaction) (x : CrossOperator) : Prop :=
  ∃ e ∈ c.extensions, ∃ batch, latestBatch? transactions e = some batch ∧
    ∃ function, .createOperator x.signature function ∈ batch.changes

theorem mem_signatures_iff {s : Signature} :
    s ∈ changes.filterMap (·.signature?) ↔ ∃ function, .createOperator s function ∈ changes := by
  rw [List.mem_filterMap]
  constructor
  · rintro ⟨change, hchange, hsignature⟩
    cases change with
    | createOperator s' function =>
      obtain rfl : s' = s := Option.some.inj hsignature
      exact ⟨function, hchange⟩
    | createFunction | addOperator | addSupport => cases hsignature
  · rintro ⟨function, hchange⟩
    exact ⟨_, hchange, rfl⟩

theorem Valid.owner_ne_none (hc : c.Valid) {o : OperatorEntry} (ho : o ∈ c.operators)
    (hsignature : o.signature = x.signature) : o.owner ≠ none := by
  intro howner
  have hbuiltin : o ∈ bootstrap.operators := by
    rw [← hc.operators_builtin]
    exact List.mem_filter.mpr ⟨ho, decide_eq_true howner⟩
  exact Plan.signature_not_mem_bootstrap x (hsignature ▸ List.mem_map_of_mem hbuiltin)

theorem provides_iff (h : bootstrap.replay transactions = .ok c) :
    c.Provides transactions x ↔ ∃ o ∈ c.operators, o.signature = x.signature := by
  have hc := valid_of_replay h
  have hmade := partsMade_of_replay h
  constructor
  · rintro ⟨e, he, batch, hlatest, hcreates⟩
    obtain ⟨batch', hlatest', -, hpart⟩ := hmade e he
    obtain rfl : batch' = batch := Option.some.inj (hlatest'.symm.trans hlatest)
    rw [← mem_signatures_iff, ← hpart.signatures, List.mem_map] at hcreates
    obtain ⟨o, ho, hsignature⟩ := hcreates
    exact ⟨o, (mem_part_operators.mp ho).1, hsignature⟩
  · rintro ⟨o, ho, hsignature⟩
    obtain ⟨e, howner⟩ := Option.ne_none_iff_exists'.mp (hc.owner_ne_none ho hsignature)
    have he := (hc.operator_owned o ho e howner).1
    obtain ⟨batch, hlatest, -, hpart⟩ := hmade e he
    have hmem := List.mem_map_of_mem (f := (·.signature)) (mem_part_operators.mpr ⟨ho, howner⟩)
    rw [hpart.signatures, hsignature] at hmem
    exact ⟨e, he, batch, hlatest, mem_signatures_iff.mp hmem⟩

/-! ## Functions of operators -/

theorem AppliesAll.hasFunction (h : AppliesAll owner c changes c')
    (hc : ∀ o ∈ c.operators, o.owner ≠ none → o.function ≠ none) :
    ∀ o ∈ c'.operators, o.owner ≠ none → o.function ≠ none := by
  induction h with
  | nil => exact hc
  | cons hfirst _ ih =>
    refine ih ?_
    cases hfirst with
    | createOperator hfree hfound => exact forall_mem_concat hc fun _ => Option.some_ne_none _
    | createFunction | addOperator | addSupport => exact hc

theorem hasFunction_of_replay (h : bootstrap.replay transactions = .ok c) :
    ∀ o ∈ c.operators, o.owner ≠ none → o.function ≠ none := by
  induction h using replay_induction with
  | nil =>
    have hnone : ∀ o ∈ bootstrap.operators, o.owner = none := by decide +kernel
    exact fun o ho howner => absurd (hnone o ho) howner
  | install _ hcreate ih =>
    obtain ⟨-, c₁, hall, rfl⟩ := createExtension_ok_iff.mp hcreate
    exact hall.hasFunction ih
  | remove _ _ ih => exact fun o ho => ih o (List.mem_filter.mp ho).1

theorem lists_iff (h : bootstrap.replay transactions = .ok c) (m : Manager) :
    (∃ entry ∈ m.inventory c (.ofCatalog c), entry.operator = x) ↔ c.Provides transactions x := by
  rw [provides_iff h]
  constructor
  · rintro ⟨entry, hentry, rfl⟩
    obtain ⟨o, ho, hsignature, -⟩ := exists_of_findOperator? (Manager.mem_inventory hentry).1
    exact ⟨o, ho, hsignature⟩
  · rintro ⟨o, ho, hsignature⟩
    have hc := valid_of_replay h
    have hsome := hasFunction_of_replay h o ho (hc.owner_ne_none ho hsignature)
    obtain ⟨function, hfunction⟩ := Option.ne_none_iff_exists'.mp hsome
    have hinstalled := m.installed?_eq hc ho hsignature hfunction
    exact ⟨_, List.mem_filterMap.mpr ⟨x, x.mem_all, hinstalled⟩, rfl⟩

end Catalog

/-! ## The theorem -/

/-- The two views of a manager on the catalog agree. -/
structure Manager.Agrees (m : Manager) (c : Catalog) (entries : List InstalledOperator) :
    Prop where
  unregistered : m.isRegistered c = false → entries = []
  registered : m.isRegistered c = true → ∀ x, ∃ entry ∈ entries, entry.operator = x

/-- **Registration and the list.** After any run, a manager lists the operators across types that
the installed extensions make. Its list agrees with its registration exactly if they make every
one while it is registered, and none while it is not. -/
theorem registration_agrees_iff (actions : List Action) (i : ℕ) (m : Manager)
    (hmanager : (Host.bootstrap.run actions).manager? i = some m) :
    let h := Host.bootstrap.run actions
    let transactions := Host.bootstrap.history actions
    ∃ entries, (h.step (.inventory i)).1 = .ok (.inventory entries) ∧
      (∀ x, (∃ entry ∈ entries, entry.operator = x) ↔ h.catalog.Provides transactions x) ∧
      (m.Agrees h.catalog entries ↔
        if m.extension ∈ h.catalog.extensions then ∀ x, h.catalog.Provides transactions x
        else ∀ x, ¬ h.catalog.Provides transactions x) := by
  intro h transactions
  have hlists (x : CrossOperator) := Catalog.lists_iff (x := x) (Host.replay_history actions) m
  refine ⟨_, Host.inventory_eq (Host.run_coherent actions) hmanager, hlists, ?_⟩
  have hregistered : m.isRegistered h.catalog = true ↔ m.extension ∈ h.catalog.extensions :=
    Catalog.isInstalled_iff
  split
  case isTrue he =>
    have htrue := hregistered.mpr he
    refine ⟨fun hagrees x => (hlists x).mp (hagrees.registered htrue x), fun hall => ⟨?_, ?_⟩⟩
    · exact fun hfalse => Bool.noConfusion (htrue.symm.trans hfalse)
    · exact fun _ x => (hlists x).mpr (hall x)
  case isFalse he =>
    have hfalse := Bool.eq_false_iff.mpr (mt hregistered.mp he)
    refine ⟨fun hagrees x hprovides => ?_, fun hnone => ⟨fun _ => ?_, ?_⟩⟩
    · obtain ⟨entry, hentry, -⟩ := (hlists x).mpr hprovides
      rw [hagrees.unregistered hfalse] at hentry
      cases hentry
    · rw [List.eq_nil_iff_forall_not_mem]
      exact fun entry hentry => hnone entry.operator ((hlists _).mp ⟨entry, hentry, rfl⟩)
    · exact fun htrue => Bool.noConfusion (htrue.symm.trans hfalse)

/-- Another extension makes one operator across types, and the manager is not activated. -/
def foreignActions : List Action :=
  let x : CrossOperator := ⟨.lt, .int4, .numeric, .integerFirst⟩
  let batch : Batch := ⟨⟨"foreign", by decide, by decide, by decide⟩,
    [.createFunction (.operator x), .createOperator x.signature x.name]⟩
  [.newManager .default, .createExtension batch]

/-- The manager is not registered, and lists the operator of the other extension. -/
theorem unregistered_manager_lists_operator :
    let h := Host.bootstrap.run foreignActions
    ∃ m entries, h.manager? 0 = some m ∧ (h.step (.inventory 0)).1 = .ok (.inventory entries) ∧
      m.isRegistered h.catalog = false ∧ ¬ m.Agrees h.catalog entries := by
  intro h
  let entry : InstalledOperator :=
    { operator := ⟨.lt, .int4, .numeric, .integerFirst⟩, oid := ⟨16385⟩, function := ⟨16384⟩
      hashFunction := none, families := [] }
  have hanswer : (h.step (.inventory 0)).1 = .ok (.inventory [entry]) := by decide +kernel
  have hfalse : (Host.firstManager .default).isRegistered h.catalog = false := by decide +kernel
  refine ⟨Host.firstManager .default, [entry], by decide +kernel, hanswer, hfalse, ?_⟩
  exact fun hagrees => List.cons_ne_nil _ _ (hagrees.unregistered hfalse)

theorem registered_manager_lists_all :
    ∃ h entries, h = Host.bootstrap.run ([.newManager .default] ++ [.activate 0]) ∧
      (h.step (.inventory 0)).1 = .ok (.inventory entries) ∧
      (Host.firstManager .default).Agrees h.catalog entries ∧
      ∀ x, ∃ entry ∈ entries, entry.operator = x := by
  obtain ⟨hmanager, hactivated, -⟩ := Host.activate_first .default
  have hm := Host.manager?_of_activate hmanager hactivated
  obtain ⟨hinstalled, hplan⟩ := Host.isPlan_run hmanager hactivated
  rw [← Host.run_concat] at hm
  have hreplay := Host.replay_history ([.newManager .default] ++ [.activate 0])
  obtain ⟨entries, hanswer, hlists, hagrees⟩ := registration_agrees_iff _ 0 _ hm
  rw [if_pos hinstalled] at hagrees
  -- From here on nothing may compute what the host is.
  generalize hrun : Host.bootstrap.run ([.newManager .default] ++ [.activate 0]) = h at *
  have hprovides (x : CrossOperator) := (Catalog.provides_iff hreplay).mpr <| by
    obtain ⟨oid, f, -, -, ho⟩ := hplan.operator x
    exact ⟨_, (Catalog.mem_part_operators.mp ho).1, rfl⟩
  exact ⟨h, entries, rfl, hanswer, hagrees.mpr hprovides, fun x => (hlists x).mpr (hprovides x)⟩

end ExactCompare
