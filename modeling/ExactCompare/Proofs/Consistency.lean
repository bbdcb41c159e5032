import ExactCompare.Proofs.Catalog.Lookup
import ExactCompare.Proofs.Host.Runs

/-!
# Catalogs are consistent

What can be relied on in a catalog, whatever was done to its host. Nothing is there twice, an
entry is found by its own id, whoever owns something is installed, and what nobody owns is
what was there at first.
-/

namespace ExactCompare

namespace Catalog

variable {c : Catalog}

/-- An id that the counter gave out. -/
def Issued (c : Catalog) (oid : Oid) : Prop :=
  Oid.firstNormal ≤ oid.number ∧ oid.number < c.nextOid.number

structure Consistent (c : Catalog) : Prop where
  functions_differ : (c.functions.map fun f => (f.name, f.argumentTypes)).Nodup
  operators_differ : (c.operators.map (·.signature)).Nodup
  members_differ : ∀ family, ((c.membersOf family).map (·.slot)).Nodup
  function_found : ∀ oid f, c.function? oid = some f ↔ f ∈ c.functions ∧ f.oid = oid
  operator_found : ∀ oid o, c.operator? oid = some o ↔ o ∈ c.operators ∧ o.oid = oid
  function_owned : ∀ f ∈ c.functions, ∀ e, f.owner = some e → e ∈ c.extensions ∧ c.Issued f.oid
  operator_owned : ∀ o ∈ c.operators, ∀ e, o.owner = some e → e ∈ c.extensions ∧ c.Issued o.oid
  member_owned : ∀ m ∈ c.members, ∀ e, m.owner = some e → e ∈ c.extensions
  functions_builtin : c.functions.filter (·.owner = none) = bootstrap.functions
  operators_builtin : c.operators.filter (·.owner = none) = bootstrap.operators
  members_builtin : ∀ family,
    (c.membersOf family).filter (·.owner = none) = bootstrap.membersOf family

/-! ## From validity -/

theorem Valid.functions_differ (hc : c.Valid) :
    (c.functions.map fun f => (f.name, f.argumentTypes)).Nodup := by
  refine List.Nodup.of_map Prod.swap ?_
  rw [List.map_map]
  exact hc.keys

theorem Valid.members_differ (hc : c.Valid) (family : Family) :
    ((c.membersOf family).map (·.slot)).Nodup := by
  have hplaces : ((c.membersOf family).map (·.place)).Nodup :=
    hc.places.sublist (List.filter_sublist.map _)
  -- In one family, a place is a slot with the family before it.
  have hplace : (c.membersOf family).map (·.place) =
      ((c.membersOf family).map (·.slot)).map (family, ·) := by
    rw [List.map_map]
    refine List.map_congr_left fun m hm => ?_
    rw [← of_decide_eq_true (List.mem_filter.mp hm).2]
    rfl
  rw [hplace] at hplaces
  exact hplaces.of_map _

theorem Valid.issued (hc : c.Valid) {oid : Oid} (hoid : oid ∈ c.oids) (hnormal : oid.isNormal) :
    c.Issued oid := ⟨of_decide_eq_true hnormal, hc.oids_lt oid hoid⟩

theorem Valid.membersOf_builtin (hc : c.Valid) (family : Family) :
    (c.membersOf family).filter (·.owner = none) = bootstrap.membersOf family := by
  rw [membersOf, List.filter_comm, hc.members_builtin, membersOf]

theorem Valid.consistent (hc : c.Valid) : c.Consistent where
  functions_differ := hc.functions_differ
  operators_differ := hc.signatures
  members_differ := hc.members_differ
  function_found _ _ := find?_eq_some_iff_of_nodup hc.oids.of_append_left
  operator_found _ _ := find?_eq_some_iff_of_nodup hc.oids.of_append_right
  function_owned f hf e he := by
    obtain ⟨hinstalled, hnormal⟩ := hc.function_owned f hf e he
    exact ⟨hinstalled, hc.issued (List.mem_append_left _ (List.mem_map_of_mem hf)) hnormal⟩
  operator_owned o ho e he := by
    obtain ⟨hinstalled, hnormal⟩ := hc.operator_owned o ho e he
    exact ⟨hinstalled, hc.issued (List.mem_append_right _ (List.mem_map_of_mem ho)) hnormal⟩
  member_owned := hc.member_owned
  functions_builtin := hc.functions_builtin
  operators_builtin := hc.operators_builtin
  members_builtin := hc.membersOf_builtin

end Catalog

/-! ## The theorem -/

/-- **Catalogs are consistent** after any run, whether its actions succeed or not. -/
theorem catalogs_are_consistent (actions : List Action) :
    (Host.bootstrap.run actions).catalog.Consistent :=
  (Host.run_valid actions).consistent

end ExactCompare
