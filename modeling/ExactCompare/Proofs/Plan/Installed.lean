import ExactCompare.Proofs.Plan.Contents

/-!
# The installed plan

Where the plan was installed, the part of its owner has every operator and every
support with its own routine, and no others.
-/

namespace ExactCompare

/-- The part of an owner whose batch was the plan. -/
structure Part.IsPlan (owner : Identifier) (equality : EqualityRegistration) (p : Part) : Prop where
  made : p.MadeBy owner (Plan.changes equality)
  held : ∀ change ∈ Plan.changes equality, change.HeldBy owner p
  keys : (p.functions.map (·.key)).Nodup

theorem Catalog.isPlan_of_createExtension {c c' : Catalog} {owner : Identifier}
    {equality : EqualityRegistration} (hc : c.Valid)
    (h : c.createExtension (Plan.batch owner equality) = .ok c') :
    (c'.part owner).IsPlan owner equality := by
  have hc' := hc.createExtension h
  obtain ⟨hfree, -, p, hp⟩ := createExtension_adds h
  obtain ⟨-, c₁, hall, rfl⟩ := createExtension_ok_iff.mp h
  exact {
    made := hp.part_of_eq (hc.part_eq_empty hfree) ▸ hp.made
    held := fun change hchange =>
      heldBy_part hc' hall.heldBy hchange (Plan.refersTo_changes hchange)
    keys := hc'.keys.sublist (List.filter_sublist.map _) }

namespace Part.IsPlan

variable {owner : Identifier} {equality : EqualityRegistration} {p : Part}

theorem routine_of_key (h : p.IsPlan owner equality) {f : FunctionEntry} (hf : f ∈ p.functions)
    {r : Routine} (hkey : f.key = r.key) : f.routine = some r := by
  obtain ⟨oid, hentry⟩ := h.held _ (Plan.createFunction_mem_changes r)
  rw [List.inj_on_of_nodup_map h.keys hf hentry hkey]
  rfl

theorem operator (h : p.IsPlan owner equality) (x : CrossOperator) :
    ∃ oid, ∃ f ∈ p.functions, f.routine = some (.operator x) ∧
      ⟨oid, x.signature, some f.oid, some owner⟩ ∈ p.operators := by
  obtain ⟨oid, f, hf, hkey, ho⟩ := h.held _ (Plan.createOperator_mem_changes x)
  exact ⟨oid, f, hf, h.routine_of_key (r := .operator x) hf hkey, ho⟩

theorem exists_operator (h : p.IsPlan owner equality) {o : OperatorEntry} (ho : o ∈ p.operators) :
    ∃ x : CrossOperator, o.signature = x.signature := by
  have hmem := List.mem_map_of_mem (f := (·.signature)) ho
  rw [h.made.signatures, Plan.filterMap_signature, List.mem_map] at hmem
  obtain ⟨x, -, hx⟩ := hmem
  exact ⟨x, hx.symm⟩

/-- The member of a hash family that a support becomes. -/
def supportPlace (h : HashSupport) : Family × Slot :=
  (⟨.hash, .ofInexact h.target⟩, ⟨.support, h.number, .integer h.integer, .integer h.integer⟩)

theorem hashSupport (h : p.IsPlan owner equality) {s : HashSupport} (hs : s.target ≠ .float4) :
    ∃ f ∈ p.functions, f.routine = some (.hash s) ∧
      ∃ m ∈ p.members, m.place = supportPlace s ∧ m.object = f.oid := by
  have hchange : Plan.hashSupport s ∈ Plan.changes equality :=
    Plan.mem_changes_iff.mpr
      (.inr (.inr (.inr (.inr (Plan.mem_hashSupports_iff.mpr ⟨s, hs, rfl⟩)))))
  obtain ⟨f, hf, hkey, hm⟩ := h.held _ hchange
  exact ⟨f, hf, h.routine_of_key (r := .hash s) hf hkey, _, hm, rfl, rfl⟩

theorem exists_hashSupport (h : p.IsPlan owner equality) {m : FamilyMember} (hm : m ∈ p.members)
    (hmethod : m.family.method = .hash) (hkind : m.slot.kind = .support) :
    ∃ s : HashSupport, s.target ≠ .float4 ∧ m.place = supportPlace s := by
  have hmem := List.mem_map_of_mem (f := (·.place)) hm
  rw [h.made.places, Plan.filterMap_place, List.mem_filterMap] at hmem
  obtain ⟨change, hchange, hplace⟩ := hmem
  have hfamily (name : FamilyName) (slot : Slot) :
      some ((⟨.btree, name⟩, slot) : Family × Slot) ≠ some m.place := by
    intro heq
    have := congrArg (·.1.method) (Option.some.inj heq)
    simp [FamilyMember.place, hmethod] at this
  have hslot (family : Family) (number : Nat) (left right : ColumnType) :
      some ((family, ⟨.operator, number, left, right⟩) : Family × Slot) ≠ some m.place := by
    intro heq
    have := congrArg (·.2.kind) (Option.some.inj heq)
    simp [FamilyMember.place, hkind] at this
  simp only [Plan.members, List.mem_append] at hchange
  rcases hchange with (hchange | hchange) | hchange
  · obtain ⟨integer, inexact, order, name, -, ⟨op, hop⟩ | rfl⟩ :=
      Plan.mem_btreeMembers_iff.mp hchange
    · obtain ⟨strategy, -, -, rfl⟩ := Plan.btreeOperator_eq_some_iff.mp hop
      exact absurd hplace (hfamily _ _)
    · exact absurd hplace (hfamily _ _)
  · obtain ⟨x, -, rfl⟩ := Plan.mem_hashOperators_iff.mp hchange
    exact absurd hplace (hslot _ _ _ _)
  · obtain ⟨s, hs, rfl⟩ := Plan.mem_hashSupports_iff.mp hchange
    exact ⟨s, hs, (Option.some.inj hplace).symm⟩

end Part.IsPlan

end ExactCompare
