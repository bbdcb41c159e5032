import ExactCompare.Catalog

/-!
# What one change does

A change adds one entry at the end of one table, or fails and adds nothing. A batch
applies its changes one after the other.
-/

namespace ExactCompare

/-! ## Keys -/

namespace FunctionEntry

/-- A function is called by its name and its argument types. -/
def key (f : FunctionEntry) : List ColumnType × String := (f.argumentTypes, f.name)

def ofRoutine (oid : Oid) (owner : Identifier) (r : Routine) : FunctionEntry where
  oid := oid
  name := r.name
  argumentTypes := r.argumentTypes
  routine := some r
  owner := some owner

end FunctionEntry

def Routine.key (r : Routine) : List ColumnType × String := (r.argumentTypes, r.name)

/-- The place of a member among the members of all families. -/
def FamilyMember.place (m : FamilyMember) : Family × Slot := (m.family, m.slot)

namespace Catalog

variable {c c' : Catalog} {owner : Identifier} {change : Change} {changes : List Change}

theorem findFunction?_isSome_iff (name : String) (types : List ColumnType) :
    (c.findFunction? name types).isSome ↔ (types, name) ∈ c.functions.map (·.key) := by
  unfold findFunction?
  rw [Option.isSome_map, List.find?_isSome, List.mem_map]
  simp [FunctionEntry.key, and_comm]

theorem exists_of_findFunction? {name : String} {types : List ColumnType} {oid : Oid}
    (h : c.findFunction? name types = some oid) :
    ∃ f ∈ c.functions, f.key = (types, name) ∧ f.oid = oid := by
  obtain ⟨f, hfind, rfl⟩ := Option.map_eq_some_iff.mp h
  have hkey := List.find?_some hfind
  simp only [decide_eq_true_eq] at hkey
  exact ⟨f, List.mem_of_find?_eq_some hfind, Prod.ext hkey.2 hkey.1, rfl⟩

theorem findOperator?_isSome_iff (s : Signature) :
    (c.findOperator? s).isSome ↔ s ∈ c.operators.map (·.signature) := by
  unfold findOperator?
  rw [Option.isSome_map, List.find?_isSome, List.mem_map]
  simp

theorem exists_of_findOperator? {s : Signature} {oid : Oid} (h : c.findOperator? s = some oid) :
    ∃ o ∈ c.operators, o.signature = s ∧ o.oid = oid := by
  obtain ⟨o, hfind, rfl⟩ := Option.map_eq_some_iff.mp h
  exact ⟨o, List.mem_of_find?_eq_some hfind, by simpa using List.find?_some hfind, rfl⟩

theorem any_slot_iff (m : FamilyMember) :
    (c.membersOf m.family).any (·.slot = m.slot) = true ↔ m.place ∈ c.members.map (·.place) := by
  simp only [membersOf, List.any_filter, List.any_eq_true, List.mem_map, FamilyMember.place,
    Prod.mk.injEq, Bool.and_eq_true, decide_eq_true_eq]

/-! ## One change -/

/-- What a change that succeeds does to the catalog. -/
inductive Applies (c : Catalog) (owner : Identifier) : Change → Catalog → Prop
  | createFunction {r : Routine} (free : r.key ∉ c.functions.map (·.key)) :
      Applies c owner (.createFunction r) { c with
        nextOid := c.nextOid.next
        functions := c.functions ++ [.ofRoutine c.nextOid owner r] }
  | createOperator {s : Signature} {function : String} {oid : Oid}
      (free : s ∉ c.operators.map (·.signature))
      (found : c.findFunction? function [s.left, s.right] = some oid) :
      Applies c owner (.createOperator s function) { c with
        nextOid := c.nextOid.next
        operators := c.operators ++ [⟨c.nextOid, s, some oid, some owner⟩] }
  | addOperator {family : Family} {strategy : Nat} {s : Signature} {oid : Oid}
      (found : c.findOperator? s = some oid)
      (free : (family, ⟨.operator, strategy, s.left, s.right⟩) ∉ c.members.map (·.place)) :
      Applies c owner (.addOperator family strategy s) { c with
        members := c.members ++ [⟨family, ⟨.operator, strategy, s.left, s.right⟩, oid, some owner⟩] }
  | addSupport {family : Family} {number : Nat} {left right : ColumnType} {function : String}
      {types : List ColumnType} {oid : Oid} (found : c.findFunction? function types = some oid)
      (free : (family, ⟨.support, number, left, right⟩) ∉ c.members.map (·.place)) :
      Applies c owner (.addSupport family number left right function types) { c with
        members := c.members ++ [⟨family, ⟨.support, number, left, right⟩, oid, some owner⟩] }

theorem addMember_ok_iff (m : FamilyMember) :
    c.addMember m = .ok c' ↔
      m.place ∉ c.members.map (·.place) ∧ { c with members := c.members ++ [m] } = c' := by
  unfold addMember
  rw [← any_slot_iff]
  split <;> simp_all

theorem apply_ok_iff : c.apply owner change = .ok c' ↔ Applies c owner change c' := by
  constructor
  · intro h
    cases change with
    | createFunction r =>
      rw [apply, Catalog.createFunction] at h
      split at h
      · cases h
      · rename_i hfree
        rw [findFunction?_isSome_iff] at hfree
        cases h
        exact .createFunction hfree
    | createOperator s function =>
      rw [apply, Catalog.createOperator] at h
      split at h
      · cases h
      · rename_i hfree
        rw [findOperator?_isSome_iff] at hfree
        split at h
        · cases h
        · rename_i oid hfound
          cases h
          exact .createOperator hfree hfound
    | addOperator family strategy s =>
      rw [apply] at h
      dsimp only at h
      split at h
      · cases h
      · rename_i oid hfound
        obtain ⟨hfree, rfl⟩ := (addMember_ok_iff _).mp h
        exact .addOperator hfound hfree
    | addSupport family number left right function types =>
      rw [apply] at h
      split at h
      · cases h
      · rename_i oid hfound
        obtain ⟨hfree, rfl⟩ := (addMember_ok_iff _).mp h
        exact .addSupport hfound hfree
  · intro h
    cases h with
    | createFunction hfree =>
      rw [apply, Catalog.createFunction, if_neg (mt (findFunction?_isSome_iff _ _).mp hfree)]
      rfl
    | createOperator hfree hfound =>
      rw [apply, Catalog.createOperator, if_neg (mt (findOperator?_isSome_iff _).mp hfree), hfound]
    | addOperator hfound hfree =>
      rw [apply, hfound]
      exact (addMember_ok_iff _).mpr ⟨hfree, rfl⟩
    | addSupport hfound hfree =>
      rw [apply, hfound]
      exact (addMember_ok_iff _).mpr ⟨hfree, rfl⟩

/-! ## A batch -/

inductive AppliesAll (owner : Identifier) : Catalog → List Change → Catalog → Prop
  | nil (c : Catalog) : AppliesAll owner c [] c
  | cons {c c₁ c₂ : Catalog} {change : Change} {changes : List Change}
      (first : Applies c owner change c₁) (rest : AppliesAll owner c₁ changes c₂) :
      AppliesAll owner c (change :: changes) c₂

theorem applyAll_ok_iff : c.applyAll owner changes = .ok c' ↔ AppliesAll owner c changes c' := by
  induction changes generalizing c with
  | nil =>
    constructor
    · intro h
      cases h
      exact .nil _
    · rintro ⟨⟩
      rfl
  | cons change changes ih =>
    rw [applyAll, List.foldlM_cons]
    constructor
    · intro h
      cases hfirst : c.apply owner change with
      | error e => rw [hfirst] at h; cases h
      | ok c₁ =>
        rw [hfirst] at h
        exact .cons (apply_ok_iff.mp hfirst) (ih.mp h)
    · rintro (_ | ⟨hfirst, hrest⟩)
      rw [apply_ok_iff.mpr hfirst]
      exact ih.mpr hrest

/-- The catalog that the changes of a batch start from. -/
def withExtension (c : Catalog) (extension : Identifier) : Catalog :=
  { c with extensions := c.extensions ++ [extension] }

theorem isInstalled_iff {extension : Identifier} :
    c.isInstalled extension = true ↔ extension ∈ c.extensions := List.contains_iff_mem

theorem createExtension_ok_iff {batch : Batch} : c.createExtension batch = .ok c' ↔
    batch.owner ∉ c.extensions ∧
      ∃ c₁, AppliesAll batch.owner (c.withExtension batch.owner) batch.changes c₁ ∧
        c₁.commit = c' := by
  simp only [← applyAll_ok_iff]
  by_cases hinstalled : batch.owner ∈ c.extensions
  · rw [createExtension, if_pos (isInstalled_iff.mpr hinstalled)]
    simp [hinstalled]
  · rw [createExtension, if_neg (mt isInstalled_iff.mp hinstalled), ← withExtension]
    cases (c.withExtension batch.owner).applyAll batch.owner batch.changes with
    | error e => simp [bind, Except.bind]
    | ok c₁ => simp [bind, Except.bind, pure, Except.pure, hinstalled]

/-- What a removal takes out of each table. -/
def removalSummary (c : Catalog) (extension : Identifier) : RemovalSummary where
  functions := c.functions.length - (c.withoutOwner extension).functions.length
  operators := c.operators.length - (c.withoutOwner extension).operators.length
  members := c.members.length - (c.withoutOwner extension).members.length

theorem removeExtension_ok_iff {extension : Identifier} {summary : RemovalSummary} :
    c.removeExtension extension = .ok (summary, c') ↔
      extension ∈ c.extensions ∧ c.removalSummary extension = summary ∧
        (c.withoutOwner extension).commit = c' := by
  by_cases hinstalled : extension ∈ c.extensions
  · rw [removeExtension, if_pos (isInstalled_iff.mpr hinstalled)]
    simp [hinstalled, removalSummary]
  · rw [removeExtension, if_neg (mt isInstalled_iff.mp hinstalled)]
    simp [hinstalled]

end Catalog

end ExactCompare
