import ExactCompare.Proofs.Catalog.Stranded
import ExactCompare.Proofs.Plan.Success

/-!
# Typed catalogs

A function with an owner is what its routine makes it, and an operator's function takes the
operator's operands. Both hold in every catalog that transactions lead to.
-/

namespace ExactCompare.Catalog

variable {c c' : Catalog} {owner e : Identifier} {change : Change} {changes : List Change}
  {batch : Batch} {transactions : List Transaction}

structure Typed (c : Catalog) : Prop where
  routines : ∀ f ∈ c.functions, f.owner ≠ none → ∃ e r, f = .ofRoutine f.oid e r
  operands : ∀ o ∈ c.operators, ∀ f ∈ c.functions, o.function = some f.oid →
    f.argumentTypes = [o.signature.left, o.signature.right]

theorem bootstrap_typed : bootstrap.Typed where
  routines := by
    have hnone : ∀ f ∈ bootstrap.functions, f.owner = none := by decide +kernel
    exact fun f hf howner => absurd (hnone f hf) howner
  operands := by
    have hnone : ∀ o ∈ bootstrap.operators, o.function = none := by decide +kernel
    intro o ho f _ hfunction
    rw [hnone o ho] at hfunction
    cases hfunction

/-! ## Installing -/

theorem AppliesAll.routines (h : AppliesAll owner c changes c')
    (hc : ∀ f ∈ c.functions, f.owner ≠ none → ∃ e r, f = .ofRoutine f.oid e r) :
    ∀ f ∈ c'.functions, f.owner ≠ none → ∃ e r, f = .ofRoutine f.oid e r := by
  induction h with
  | nil => exact hc
  | cons hfirst _ ih =>
    refine ih ?_
    cases hfirst with
    | createFunction hfree => exact forall_mem_concat hc fun _ => ⟨_, _, rfl⟩
    | createOperator | addOperator | addSupport => exact hc

theorem AppliesAll.operands (h : AppliesAll owner c changes c') (hc' : c'.Valid) {p : Part}
    (hp : Adds owner changes c p c') {o : OperatorEntry} (ho : o ∈ p.operators) {f : FunctionEntry}
    (hf : f ∈ c'.functions) (hfunction : o.function = some f.oid) :
    f.argumentTypes = [o.signature.left, o.signature.right] := by
  have hmem := List.mem_map_of_mem (f := (·.signature)) ho
  rw [hp.made.signatures, List.mem_filterMap] at hmem
  obtain ⟨change, hchange, hsignature⟩ := hmem
  cases change with
  | createOperator s name =>
    obtain ⟨oid, g, hg, hkey, hr⟩ := h.heldBy _ hchange
    obtain rfl : s = o.signature := Option.some.inj hsignature
    have ho' : o ∈ c'.operators := hp.operators ▸ List.mem_append_right _ ho
    have hsame := hc'.eq_of_signature hr ho' rfl
    rw [← hsame, Option.some.injEq] at hfunction
    obtain rfl : g = f := List.inj_on_of_nodup_map hc'.oids.of_append_left hg hf hfunction
    exact congrArg Prod.fst hkey
  | createFunction | addOperator | addSupport => cases hsignature

theorem Typed.install (htyped : c.Typed) (hc : c.Valid)
    (hlt : ∀ r ∈ c.referrers, ∀ ref ∈ r.reference?, ref.oid.number < c.nextOid.number)
    (hcreate : c.createExtension batch = .ok c') : c'.Typed := by
  have hc' := hc.createExtension hcreate
  obtain ⟨-, -, p, hp⟩ := createExtension_adds hcreate
  obtain ⟨-, c₁, hall, rfl⟩ := createExtension_ok_iff.mp hcreate
  refine ⟨hall.routines htyped.routines, fun o ho f hf hfunction => ?_⟩
  rw [hp.operators, List.mem_append] at ho
  rcases ho with hold | hnew
  · -- The function of an old operator is old, since new ids are above what it refers to.
    have href : .function f.oid ∈ (Referrer.operator o).reference? := by
      simp [Referrer.reference?, hfunction]
    have holder := hlt _ (operator_mem_referrers.mpr hold) _ href
    rcases hp.mem_entries (function_mem_entries.mpr hf) with hf | habove
    · exact htyped.operands o hold f (function_mem_entries.mp hf) hfunction
    · exact absurd holder (Nat.not_lt_of_le habove)
  · exact hall.operands { hc' with } { hp with } hnew hf hfunction

/-! ## Every catalog -/

theorem Typed.withoutOwner (htyped : c.Typed) (e : Identifier) : (c.withoutOwner e).Typed where
  routines f hf := htyped.routines f (List.mem_filter.mp hf).1
  operands o ho f hf := htyped.operands o (List.mem_filter.mp ho).1 f (List.mem_filter.mp hf).1

theorem typed_of_replay (h : bootstrap.replay transactions = .ok c) : c.Typed := by
  induction h using replay_induction with
  | nil => exact bootstrap_typed
  | install hbefore hcreate ih =>
    exact ih.install (valid_of_replay hbefore)
      (fun r hr ref => oid_lt_of_mem_referrers hbefore hr) hcreate
  | @remove _ _ e _ _ ih => exact { ih.withoutOwner e with }

/-! ## Functions and their routines -/

theorem Valid.mem_bootstrap_functions {f : FunctionEntry} (hc : c.Valid) (hf : f ∈ c.functions)
    (howner : f.owner = none) : f ∈ bootstrap.functions := by
  rw [← hc.functions_builtin]
  exact List.mem_filter.mpr ⟨hf, decide_eq_true howner⟩

theorem Typed.routine_iff (htyped : c.Typed) (hc : c.Valid) {f : FunctionEntry}
    (hf : f ∈ c.functions) {r : Routine} : f.routine = some r ↔ f.key = r.key := by
  by_cases howner : f.owner = none
  · have hbuiltin := hc.mem_bootstrap_functions hf howner
    have hnone : ∀ g ∈ bootstrap.functions, g.routine = none := by decide +kernel
    have hkey : f.key ≠ r.key := by
      intro hkey
      exact Plan.key_not_mem_bootstrap r (hkey ▸ List.mem_map_of_mem hbuiltin)
    simp [hnone f hbuiltin, hkey]
  · obtain ⟨e, r', hf'⟩ := htyped.routines f hf howner
    rw [hf']
    constructor
    · rintro ⟨⟩
      rfl
    · intro hkey
      exact congrArg some (Routine.key_injective hkey)

end ExactCompare.Catalog
