import ExactCompare.Proofs.Catalog.Success

/-!
# The first clash

A batch in order whose owner is new fails on the first of its changes that creates what is
there already. The changes before that one succeed, so nothing else can be the reason.
-/

namespace ExactCompare

/-- The error of creating an object that is there already. -/
def Object.duplicate : Object → CatalogError
  | function (_, name) => .duplicateFunction name
  | operator s => .duplicateOperator s
  | member (family, slot) => .duplicateMember family slot.number slot.left slot.right

namespace Catalog

variable {c c' : Catalog} {owner : Identifier} {change : Change} {changes : List Change}

/-! ## What is there already -/

def Has (c : Catalog) : Object → Prop
  | .function (types, name) => ∃ f ∈ c.functions, f.name = name ∧ f.argumentTypes = types
  | .operator s => ∃ o ∈ c.operators, o.signature = s
  | .member (family, slot) => ∃ m ∈ c.membersOf family, m.slot = slot

theorem has_iff {object : Object} : c.Has object ↔ object ∈ c.objects := by
  cases object with
  | function key =>
    rw [Has, function_mem_objects]
    simp [FunctionEntry.key, Prod.ext_iff, and_comm]
  | operator s =>
    rw [Has, operator_mem_objects]
    simp
  | member place =>
    rw [Has, member_mem_objects]
    simp [membersOf, FamilyMember.place, Prod.ext_iff, and_assoc]

/-- The first of the changes that creates what is there already. -/
def FirstClash (c : Catalog) (changes : List Change) (change : Change) : Prop :=
  ∃ before after, changes = before ++ change :: after ∧
    (∀ b ∈ before, ¬ c.Has b.object) ∧ c.Has change.object

theorem FirstClash.has (h : c.FirstClash changes change) : c.Has change.object := by
  obtain ⟨_, _, -, -, hhas⟩ := h
  exact hhas

theorem FirstClash.mem (h : c.FirstClash changes change) : change ∈ changes := by
  obtain ⟨before, after, rfl, -, -⟩ := h
  exact List.mem_append_right before List.mem_cons_self

theorem exists_firstClash (h : ¬ ∀ change ∈ changes, ¬ c.Has change.object) :
    ∃ change, c.FirstClash changes change := by
  induction changes with
  | nil => exact absurd (List.forall_mem_nil _) h
  | cons first changes ih =>
    by_cases hfirst : c.Has first.object
    · exact ⟨first, [], changes, rfl, List.forall_mem_nil _, hfirst⟩
    · rw [List.forall_mem_cons] at h
      obtain ⟨change, before, after, rfl, hfree, hhas⟩ := ih (h ⟨hfirst, ·⟩)
      exact ⟨change, first :: before, after, rfl, List.forall_mem_cons.mpr ⟨hfirst, hfree⟩, hhas⟩

/-! ## A change that clashes -/

theorem addMember_of_mem {m : FamilyMember} (h : m.place ∈ c.members.map (·.place)) :
    c.addMember m = .error (Object.member m.place).duplicate := by
  rw [addMember, if_pos ((any_slot_iff m).mpr h)]
  rfl

theorem apply_of_mem_objects (hrefers : change.RefersTo changes)
    (hcreated : ∀ change ∈ changes, change.object ∈ c.objects)
    (hobject : change.object ∈ c.objects) :
    c.apply owner change = .error change.object.duplicate := by
  cases change with
  | createFunction r =>
    have hfound := (findFunction?_isSome_iff _ _).mpr (function_mem_objects.mp hobject)
    rw [apply, Catalog.createFunction, if_pos hfound]
    rfl
  | createOperator s function =>
    have hfound := (findOperator?_isSome_iff _).mpr (operator_mem_objects.mp hobject)
    rw [apply, Catalog.createOperator, if_pos hfound]
    rfl
  | addOperator family strategy s =>
    -- The operator is found, so it is the place in the family that the change fails on.
    obtain ⟨oid, hfound⟩ := exists_findOperator? hrefers hcreated rfl
    rw [apply, hfound]
    exact addMember_of_mem (member_mem_objects.mp hobject)
  | addSupport family number left right function types =>
    obtain ⟨oid, hfound⟩ := exists_findFunction? hrefers hcreated rfl
    rw [apply, hfound]
    exact addMember_of_mem (member_mem_objects.mp hobject)

/-! ## A batch that clashes -/

theorem AppliesAll.applyAll_append {later : List Change} (h : AppliesAll owner c changes c') :
    c.applyAll owner (changes ++ later) = c'.applyAll owner later := by
  rw [applyAll, List.foldlM_append, ← applyAll, applyAll_ok_iff.mpr h]
  rfl

theorem applyAll_of_firstClash (hordered : Ordered changes)
    (hnodup : (changes.map (·.object)).Nodup) (hclash : c.FirstClash changes change) :
    c.applyAll owner changes = .error change.object.duplicate := by
  obtain ⟨before, after, rfl, hfree, hhas⟩ := hclash
  rw [List.append_cons] at hordered
  obtain ⟨hbefore, hrefers⟩ := ordered_concat_iff.mp hordered.of_append
  rw [List.map_append] at hnodup
  have hexists : ∃ c₁, AppliesAll owner c before c₁ :=
    exists_appliesAll hbefore hnodup.of_append_left fun b hb => mt has_iff.mpr (hfree b hb)
  obtain ⟨c₁, hall⟩ := hexists
  -- At the clash, what the changes before it create is there, and what was there still is.
  have hstill : change.object ∈ c₁.objects := hall.mem_objects.mpr (.inr (has_iff.mp hhas))
  rw [hall.applyAll_append, applyAll, List.foldlM_cons,
    apply_of_mem_objects hrefers hall.created hstill]
  rfl

theorem createExtension_of_installed {batch : Batch} (h : batch.owner ∈ c.extensions) :
    c.createExtension batch = .error (.alreadyInstalled batch.owner) := by
  rw [createExtension, if_pos (isInstalled_iff.mpr h)]

/-- **A batch that clashes fails** on the first of its changes whose object is there already. -/
theorem createExtension_of_firstClash {batch : Batch} (hordered : Ordered batch.changes)
    (hnodup : (batch.changes.map (·.object)).Nodup) (hnew : batch.owner ∉ c.extensions)
    (hclash : c.FirstClash batch.changes change) :
    c.createExtension batch = .error change.object.duplicate := by
  have hclash : (c.withExtension batch.owner).FirstClash batch.changes change := hclash
  rw [createExtension, if_neg (mt isInstalled_iff.mp hnew), ← withExtension,
    applyAll_of_firstClash hordered hnodup hclash]
  rfl

end Catalog

end ExactCompare
