import ExactCompare.Proofs.Catalog.Parts

/-!
# Ids over time

A step leaves entries or takes them out, and an entry that it adds has an id from the counter.
The counter only goes up, so the id of an entry that was taken out is no other entry's later.
-/

namespace ExactCompare

/-- A function or an operator: what has an id of its own. -/
inductive Entry where
  | function (entry : FunctionEntry)
  | operator (entry : OperatorEntry)
  deriving DecidableEq

namespace Entry

def oid : Entry → Oid
  | function f => f.oid
  | operator o => o.oid

end Entry

namespace Catalog

variable {c c' : Catalog} {owner : Identifier} {changes : List Change} {p : Part} {x y : Entry}
  {oid : Oid}

def entries (c : Catalog) : List Entry :=
  c.functions.map .function ++ c.operators.map .operator

theorem function_mem_entries {f : FunctionEntry} : .function f ∈ c.entries ↔ f ∈ c.functions := by
  simp [entries]

theorem operator_mem_entries {o : OperatorEntry} : .operator o ∈ c.entries ↔ o ∈ c.operators := by
  simp [entries]

theorem map_oid_entries (c : Catalog) : c.entries.map (·.oid) = c.oids := by
  simp only [entries, oids, List.map_append, List.map_map]
  rfl

theorem oid_mem_oids (hx : x ∈ c.entries) : x.oid ∈ c.oids := by
  rw [← map_oid_entries]
  exact List.mem_map_of_mem hx

theorem Valid.eq_of_oid_eq (hc : c.Valid) (hx : x ∈ c.entries) (hy : y ∈ c.entries)
    (h : x.oid = y.oid) : x = y := by
  refine List.inj_on_of_nodup_map ?_ hx hy h
  rw [map_oid_entries]
  exact hc.oids

/-! ## Where entries come from -/

theorem Adds.mem_entries (h : Adds owner changes c p c') (hx : x ∈ c'.entries) :
    x ∈ c.entries ∨ c.nextOid.number ≤ x.oid.number := by
  cases x with
  | function f =>
    rw [function_mem_entries, h.functions, List.mem_append] at hx
    refine hx.imp function_mem_entries.mpr fun hf => h.oids_ge f.oid ?_
    exact List.mem_append_left _ (List.mem_map_of_mem hf)
  | operator o =>
    rw [operator_mem_entries, h.operators, List.mem_append] at hx
    refine hx.imp operator_mem_entries.mpr fun ho => h.oids_ge o.oid ?_
    exact List.mem_append_right _ (List.mem_map_of_mem ho)

theorem Adds.entries_subset (h : Adds owner changes c p c') : c.entries ⊆ c'.entries := by
  intro x hx
  cases x with
  | function f =>
    rw [function_mem_entries, h.functions]
    exact List.mem_append_left _ (function_mem_entries.mp hx)
  | operator o =>
    rw [operator_mem_entries, h.operators]
    exact List.mem_append_left _ (operator_mem_entries.mp hx)

theorem mem_entries_of_withoutOwner {extension : Identifier}
    (hx : x ∈ (c.withoutOwner extension).entries) : x ∈ c.entries := by
  cases x with
  | function f =>
    exact function_mem_entries.mpr (List.mem_filter.mp (function_mem_entries.mp hx)).1
  | operator o =>
    exact operator_mem_entries.mpr (List.mem_filter.mp (operator_mem_entries.mp hx)).1

/-- The entries of a later catalog are old ones, or their ids come from the counter. -/
structure Issues (c c' : Catalog) : Prop where
  nextOid_le : c.nextOid.number ≤ c'.nextOid.number
  entries : ∀ x ∈ c'.entries, x ∈ c.entries ∨ c.nextOid.number ≤ x.oid.number

theorem Step.issues (h : Step c c') : c.Issues c' := by
  cases h with
  | create h =>
    obtain ⟨-, -, p, hp⟩ := createExtension_adds h
    exact ⟨hp.nextOid_le, fun _ => hp.mem_entries⟩
  | remove h =>
    obtain ⟨-, -, rfl⟩ := removeExtension_ok_iff.mp h
    exact ⟨Nat.le_refl _, fun _ hx => .inl (mem_entries_of_withoutOwner hx)⟩

theorem Steps.issues (h : Steps c c') : c.Issues c' := by
  induction h with
  | refl => exact ⟨Nat.le_refl _, fun _ => .inl⟩
  | tail _ hstep ih =>
    refine ⟨Nat.le_trans ih.nextOid_le hstep.issues.nextOid_le, fun x hx => ?_⟩
    rcases hstep.issues.entries x hx with hx | hnew
    · exact ih.entries x hx
    · exact .inr (Nat.le_trans ih.nextOid_le hnew)

/-! ## Ids of entries that were taken out -/

theorem Steps.dead (h : Steps c c') (hdead : c.Dead oid) : c'.Dead oid := by
  induction h with
  | refl => exact hdead
  | tail _ hstep ih => exact hstep.dead ih

theorem Steps.dead_of_removed (h : Steps c c') (hc : c.Valid) (hx : x ∈ c.entries)
    (hremoved : x ∉ c'.entries) : c'.Dead x.oid := by
  have hlt := hc.oids_lt x.oid (oid_mem_oids hx)
  refine ⟨Nat.lt_of_lt_of_le hlt h.issues.nextOid_le, fun hmem => ?_⟩
  rw [← map_oid_entries] at hmem
  obtain ⟨y, hy, hoid⟩ := List.mem_map.mp hmem
  rcases h.issues.entries y hy with hold | hnew
  · exact hremoved (hc.eq_of_oid_eq hold hx hoid ▸ hy)
  · rw [hoid] at hnew
    exact Nat.not_lt_of_le hnew hlt

theorem Dead.function? (h : c.Dead oid) : c.function? oid = none := by
  refine List.find?_eq_none.mpr fun f hf hoid => h.2 ?_
  rw [← of_decide_eq_true hoid]
  exact List.mem_append_left _ (List.mem_map_of_mem hf)

theorem Dead.operator? (h : c.Dead oid) : c.operator? oid = none := by
  refine List.find?_eq_none.mpr fun o ho hoid => h.2 ?_
  rw [← of_decide_eq_true hoid]
  exact List.mem_append_right _ (List.mem_map_of_mem ho)

theorem Dead.invokeFunction (h : c.Dead oid) (arguments : List Literal) :
    c.invokeFunction oid arguments = .error (.unknownFunctionOid oid) := by
  rw [Catalog.invokeFunction, h.function?]

theorem Dead.invokeOperator (h : c.Dead oid) (left right : Literal) :
    c.invokeOperator oid left right = .error (.unknownOperatorOid oid) := by
  rw [Catalog.invokeOperator, h.operator?]

end Catalog

end ExactCompare
