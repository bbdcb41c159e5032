import ExactCompare.Catalog.Builtin
import ExactCompare.Proofs.Catalog.Changes
import Mathlib.Data.List.Nodup
import Mathlib.Logic.Relation

/-!
# Valid catalogs

What every catalog keeps that is made from the built-in one by installing and
removing extensions: nothing is there twice, ids are below the next one, owners are
installed, and the built-in objects are as they were.
-/

namespace ExactCompare.Catalog

variable {c c' : Catalog} {owner : Identifier} {change : Change} {changes : List Change}

def oids (c : Catalog) : List Oid := c.functions.map (·.oid) ++ c.operators.map (·.oid)

structure Valid (c : Catalog) : Prop where
  keys : (c.functions.map (·.key)).Nodup
  signatures : (c.operators.map (·.signature)).Nodup
  places : (c.members.map (·.place)).Nodup
  oids : c.oids.Nodup
  extensions : c.extensions.Nodup
  oids_lt : ∀ oid ∈ c.oids, oid.number < c.nextOid.number
  nextOid_ge : Oid.firstNormal ≤ c.nextOid.number
  function_owned : ∀ f ∈ c.functions, ∀ e, f.owner = some e → e ∈ c.extensions ∧ f.oid.isNormal
  operator_owned : ∀ o ∈ c.operators, ∀ e, o.owner = some e → e ∈ c.extensions ∧ o.oid.isNormal
  member_owned : ∀ m ∈ c.members, ∀ e, m.owner = some e → e ∈ c.extensions
  functions_builtin : c.functions.filter (·.owner = none) = bootstrap.functions
  operators_builtin : c.operators.filter (·.owner = none) = bootstrap.operators
  members_builtin : c.members.filter (·.owner = none) = bootstrap.members

theorem bootstrap_valid : bootstrap.Valid where
  keys := by decide +kernel
  signatures := by decide +kernel
  places := by decide +kernel
  oids := by decide +kernel
  extensions := by decide
  oids_lt := by decide +kernel
  nextOid_ge := by decide
  function_owned := by
    have hnone : ∀ f ∈ bootstrap.functions, f.owner = none := by decide +kernel
    intro f hf e he
    rw [hnone f hf] at he
    cases he
  operator_owned := by
    have hnone : ∀ o ∈ bootstrap.operators, o.owner = none := by decide +kernel
    intro o ho e he
    rw [hnone o ho] at he
    cases he
  member_owned := by
    have hnone : ∀ m ∈ bootstrap.members, m.owner = none := by decide +kernel
    intro m hm e he
    rw [hnone m hm] at he
    cases he
  functions_builtin := by decide +kernel
  operators_builtin := by decide +kernel
  members_builtin := by decide +kernel

/-! ## Adding entries -/

theorem Valid.not_mem_oids (hc : c.Valid) : c.nextOid ∉ c.oids := fun h =>
  Nat.lt_irrefl _ (hc.oids_lt _ h)

theorem Valid.isNormal_nextOid (hc : c.Valid) : c.nextOid.isNormal := decide_eq_true hc.nextOid_ge

theorem oids_perm_function (c : Catalog) (f : FunctionEntry) (next : Oid) :
    (({ c with nextOid := next, functions := c.functions ++ [f] } : Catalog).oids).Perm
      (f.oid :: c.oids) := by
  simp only [oids, List.map_append, List.map_cons, List.map_nil, List.append_assoc,
    List.singleton_append]
  exact List.perm_middle

theorem oids_perm_operator (c : Catalog) (o : OperatorEntry) (next : Oid) :
    (({ c with nextOid := next, operators := c.operators ++ [o] } : Catalog).oids).Perm
      (o.oid :: c.oids) := by
  simp only [oids, List.map_append, List.map_cons, List.map_nil]
  rw [← List.append_assoc]
  exact List.perm_append_singleton _ _

theorem Valid.oids_cons {l : List Oid} (hc : c.Valid) (h : l.Perm (c.nextOid :: c.oids)) :
    l.Nodup ∧ ∀ oid ∈ l, oid.number < c.nextOid.next.number := by
  refine ⟨h.nodup_iff.mpr (List.nodup_cons.mpr ⟨hc.not_mem_oids, hc.oids⟩), fun oid hoid => ?_⟩
  rcases List.mem_cons.mp (h.mem_iff.mp hoid) with rfl | hoid
  · exact Nat.lt_succ_self _
  · exact Nat.lt_succ_of_lt (hc.oids_lt _ hoid)

theorem nodup_concat {α : Type} {l : List α} {a : α} (hl : l.Nodup) (ha : a ∉ l) :
    (l ++ [a]).Nodup := by
  rw [← List.concat_eq_append]
  exact hl.concat ha

theorem nodup_map_concat {α β : Type} {l : List α} {key : α → β} {a : α}
    (hl : (l.map key).Nodup) (ha : key a ∉ l.map key) : ((l ++ [a]).map key).Nodup := by
  rw [List.map_append, List.map_cons, List.map_nil]
  exact nodup_concat hl ha

theorem forall_mem_concat {α : Type} {l : List α} {p : α → Prop} {a : α}
    (hl : ∀ b ∈ l, p b) (ha : p a) : ∀ b ∈ l ++ [a], p b := by
  intro b hb
  rcases List.mem_append.mp hb with hb | hb
  · exact hl b hb
  · rwa [List.mem_singleton.mp hb]

theorem Applies.valid (h : Applies c owner change c') (howner : owner ∈ c.extensions)
    (hc : c.Valid) : c'.Valid := by
  have hnext : Oid.firstNormal ≤ c.nextOid.next.number := Nat.le_succ_of_le hc.nextOid_ge
  have hown : ∀ e, some owner = some e → e ∈ c.extensions := by
    rintro _ ⟨⟩
    exact howner
  have hnew : ∀ e, some owner = some e → e ∈ c.extensions ∧ c.nextOid.isNormal := fun e he =>
    ⟨hown e he, hc.isNormal_nextOid⟩
  cases h with
  | createFunction hfree =>
    obtain ⟨hnodup, hlt⟩ := hc.oids_cons (oids_perm_function c (.ofRoutine c.nextOid owner _) _)
    exact { hc with
      keys := nodup_map_concat hc.keys hfree
      oids := hnodup
      oids_lt := hlt
      nextOid_ge := hnext
      function_owned := forall_mem_concat hc.function_owned hnew
      functions_builtin := by
        rw [List.filter_append, hc.functions_builtin]
        simp [FunctionEntry.ofRoutine] }
  | createOperator hfree hfound =>
    obtain ⟨hnodup, hlt⟩ := hc.oids_cons (oids_perm_operator c ⟨c.nextOid, _, _, _⟩ _)
    exact { hc with
      signatures := nodup_map_concat hc.signatures hfree
      oids := hnodup
      oids_lt := hlt
      nextOid_ge := hnext
      operator_owned := forall_mem_concat hc.operator_owned hnew
      operators_builtin := by
        rw [List.filter_append, hc.operators_builtin]
        simp }
  | addOperator hfound hfree =>
    exact { hc with
      places := nodup_map_concat hc.places hfree
      member_owned := forall_mem_concat hc.member_owned hown
      members_builtin := by
        rw [List.filter_append, hc.members_builtin]
        simp }
  | addSupport hfound hfree =>
    exact { hc with
      places := nodup_map_concat hc.places hfree
      member_owned := forall_mem_concat hc.member_owned hown
      members_builtin := by
        rw [List.filter_append, hc.members_builtin]
        simp }

theorem Applies.extensions_eq (h : Applies c owner change c') : c'.extensions = c.extensions := by
  cases h <;> rfl

theorem AppliesAll.extensions_eq (h : AppliesAll owner c changes c') :
    c'.extensions = c.extensions := by
  induction h with
  | nil => rfl
  | cons hfirst _ ih => rw [ih, hfirst.extensions_eq]

theorem AppliesAll.valid (h : AppliesAll owner c changes c') (howner : owner ∈ c.extensions)
    (hc : c.Valid) : c'.Valid := by
  induction h with
  | nil => exact hc
  | cons hfirst _ ih =>
    exact ih (by rwa [hfirst.extensions_eq]) (hfirst.valid howner hc)

theorem Valid.commit (hc : c.Valid) : c.commit.Valid := { hc with }

theorem Valid.withExtension {extension : Identifier} (hc : c.Valid)
    (hfree : extension ∉ c.extensions) : (c.withExtension extension).Valid :=
  have hmem {e : Identifier} (he : e ∈ c.extensions) : e ∈ c.extensions ++ [extension] :=
    List.mem_append_left _ he
  { hc with
    extensions := nodup_concat hc.extensions hfree
    function_owned := fun f hf e he => (hc.function_owned f hf e he).imp_left hmem
    operator_owned := fun o ho e he => (hc.operator_owned o ho e he).imp_left hmem
    member_owned := fun m hm e he => hmem (hc.member_owned m hm e he) }

theorem Valid.createExtension {batch : Batch} (h : c.createExtension batch = .ok c')
    (hc : c.Valid) : c'.Valid := by
  obtain ⟨hfree, c₁, hall, rfl⟩ := createExtension_ok_iff.mp h
  exact (hall.valid (List.mem_append_right _ (List.mem_singleton_self _))
    (hc.withExtension hfree)).commit

/-! ## Removing entries -/

theorem filter_builtin_filter {α : Type} (ownerOf : α → Option Identifier) (extension : Identifier)
    (l : List α) :
    (l.filter (ownerOf · ≠ some extension)).filter (ownerOf · = none) =
      l.filter (ownerOf · = none) := by
  rw [List.filter_filter]
  refine List.filter_congr fun a _ => ?_
  by_cases h : ownerOf a = none <;> simp [h]

theorem mem_extensions_of_filter {ownedBy : Option Identifier} {e extension : Identifier}
    (hne : decide (ownedBy ≠ some extension) = true) (he : ownedBy = some e)
    (hmem : e ∈ c.extensions) : e ∈ c.extensions.filter (· ≠ extension) := by
  subst he
  rw [List.mem_filter]
  exact ⟨hmem, by simpa using hne⟩

theorem oids_withoutOwner_sublist (c : Catalog) (extension : Identifier) :
    (c.withoutOwner extension).oids.Sublist c.oids :=
  (List.filter_sublist.map _).append (List.filter_sublist.map _)

theorem Valid.withoutOwner (hc : c.Valid) (extension : Identifier) :
    (c.withoutOwner extension).Valid where
  keys := hc.keys.sublist (List.filter_sublist.map _)
  signatures := hc.signatures.sublist (List.filter_sublist.map _)
  places := hc.places.sublist (List.filter_sublist.map _)
  oids := hc.oids.sublist (c.oids_withoutOwner_sublist extension)
  extensions := hc.extensions.filter _
  oids_lt oid hoid := hc.oids_lt oid ((c.oids_withoutOwner_sublist extension).mem hoid)
  nextOid_ge := hc.nextOid_ge
  function_owned f hf e he := by
    obtain ⟨hf, hne⟩ := List.mem_filter.mp hf
    exact (hc.function_owned f hf e he).imp_left (mem_extensions_of_filter hne he)
  operator_owned o ho e he := by
    obtain ⟨ho, hne⟩ := List.mem_filter.mp ho
    exact (hc.operator_owned o ho e he).imp_left (mem_extensions_of_filter hne he)
  member_owned m hm e he := by
    obtain ⟨hm, hne⟩ := List.mem_filter.mp hm
    exact mem_extensions_of_filter hne he (hc.member_owned m hm e he)
  functions_builtin := by
    rw [← hc.functions_builtin]
    exact filter_builtin_filter (·.owner) extension c.functions
  operators_builtin := by
    rw [← hc.operators_builtin]
    exact filter_builtin_filter (·.owner) extension c.operators
  members_builtin := by
    rw [← hc.members_builtin]
    exact filter_builtin_filter (·.owner) extension c.members

theorem Valid.removeExtension {extension : Identifier} {summary : RemovalSummary}
    (h : c.removeExtension extension = .ok (summary, c')) (hc : c.Valid) : c'.Valid := by
  obtain ⟨-, -, rfl⟩ := removeExtension_ok_iff.mp h
  exact (hc.withoutOwner extension).commit

/-! ## Reachable catalogs -/

/-- One successful change of the catalog. -/
inductive Step (c : Catalog) : Catalog → Prop
  | create {batch : Batch} {c' : Catalog} (h : c.createExtension batch = .ok c') : Step c c'
  | remove {extension : Identifier} {summary : RemovalSummary} {c' : Catalog}
      (h : c.removeExtension extension = .ok (summary, c')) : Step c c'

abbrev Steps : Catalog → Catalog → Prop := Relation.ReflTransGen Step

theorem Step.valid (h : Step c c') (hc : c.Valid) : c'.Valid := by
  cases h with
  | create h => exact hc.createExtension h
  | remove h => exact hc.removeExtension h

theorem Steps.valid (h : Steps c c') (hc : c.Valid) : c'.Valid := by
  induction h with
  | refl => exact hc
  | tail _ hstep ih => exact hstep.valid ih

end ExactCompare.Catalog
