import ExactCompare.Proofs.Catalog.Held
import Mathlib.Data.List.Induction

/-!
# When a batch is installed

A change fails where its object is there already or nothing has what it refers to. A
batch that refers to what it created before is installed exactly if its owner is new and
none of its objects is there.
-/

namespace ExactCompare

/-! ## Objects -/

/-- What a change creates, by the key that no two of its kind share. -/
inductive Object where
  | function (key : List ColumnType × String)
  | operator (signature : Signature)
  | member (place : Family × Slot)
  deriving DecidableEq

def Change.object : Change → Object
  | createFunction r => .function r.key
  | createOperator s _ => .operator s
  | addOperator family strategy s => .member (family, ⟨.operator, strategy, s.left, s.right⟩)
  | addSupport family number left right _ _ => .member (family, ⟨.support, number, left, right⟩)

namespace Catalog

variable {c c' : Catalog} {owner : Identifier} {change : Change} {changes : List Change}

def objects (c : Catalog) : List Object :=
  c.functions.map (.function ·.key) ++ c.operators.map (.operator ·.signature) ++
    c.members.map (.member ·.place)

theorem function_mem_objects {key : List ColumnType × String} :
    .function key ∈ c.objects ↔ key ∈ c.functions.map (·.key) := by
  simp [objects]

theorem operator_mem_objects {s : Signature} :
    .operator s ∈ c.objects ↔ s ∈ c.operators.map (·.signature) := by
  simp [objects]

theorem member_mem_objects {place : Family × Slot} :
    .member place ∈ c.objects ↔ place ∈ c.members.map (·.place) := by
  simp [objects]

theorem Applies.free (h : Applies c owner change c') : change.object ∉ c.objects := by
  cases h with
  | createFunction hfree => exact mt function_mem_objects.mp hfree
  | createOperator hfree hfound => exact mt operator_mem_objects.mp hfree
  | addOperator hfound hfree => exact mt member_mem_objects.mp hfree
  | addSupport hfound hfree => exact mt member_mem_objects.mp hfree

theorem Applies.objects_perm (h : Applies c owner change c') :
    c'.objects.Perm (change.object :: c.objects) := by
  cases h with
  | createFunction =>
    simp only [objects, List.map_append, List.map_cons, List.map_nil, List.append_assoc,
      List.singleton_append]
    exact List.perm_middle
  | createOperator =>
    simp only [objects, List.map_append, List.map_cons, List.map_nil]
    rw [← List.append_assoc, List.append_assoc, List.singleton_append]
    exact List.perm_middle
  | addOperator | addSupport =>
    simp only [objects, List.map_append, List.map_cons, List.map_nil]
    rw [← List.append_assoc]
    exact List.perm_append_singleton _ _

theorem AppliesAll.objects_perm (h : AppliesAll owner c changes c') :
    c'.objects.Perm (changes.map (·.object) ++ c.objects) := by
  induction h with
  | nil => exact .refl _
  | cons hfirst _ ih =>
    refine ih.trans ((hfirst.objects_perm.append_left _).trans ?_)
    exact List.perm_middle

theorem AppliesAll.mem_objects (h : AppliesAll owner c changes c') {object : Object} :
    object ∈ c'.objects ↔ object ∈ changes.map (·.object) ∨ object ∈ c.objects :=
  h.objects_perm.mem_iff.trans List.mem_append

theorem AppliesAll.created (h : AppliesAll owner c changes c') :
    ∀ change ∈ changes, change.object ∈ c'.objects := fun _ hchange =>
  h.mem_objects.mpr (.inl (List.mem_map_of_mem hchange))

theorem AppliesAll.free (h : AppliesAll owner c changes c') :
    ∀ change ∈ changes, change.object ∉ c.objects := by
  induction h with
  | nil => exact List.forall_mem_nil _
  | cons hfirst _ ih =>
    refine List.forall_mem_cons.mpr ⟨hfirst.free, fun change hchange hmem => ?_⟩
    exact ih change hchange (hfirst.objects_perm.mem_iff.mpr (List.mem_cons_of_mem _ hmem))

/-! ## Changes in order -/

/-- Every change refers to nothing but what the changes before it create. -/
inductive Ordered : List Change → Prop
  | nil : Ordered []
  | concat {changes : List Change} {change : Change} (before : Ordered changes)
      (last : change.RefersTo changes) : Ordered (changes ++ [change])

theorem ordered_concat_iff :
    Ordered (changes ++ [change]) ↔ Ordered changes ∧ change.RefersTo changes := by
  constructor
  · generalize hlist : changes ++ [change] = list
    rintro (_ | ⟨hbefore, hlast⟩)
    · exact absurd hlist (List.concat_ne_nil _ _)
    · obtain ⟨rfl, hchange⟩ := List.append_inj' hlist rfl
      obtain rfl := List.singleton_inj.mp hchange
      exact ⟨hbefore, hlast⟩
  · rintro ⟨hbefore, hlast⟩
    exact .concat hbefore hlast

theorem Ordered.of_append {later : List Change} (h : Ordered (changes ++ later)) :
    Ordered changes := by
  induction later using List.reverseRecOn with
  | nil => rwa [List.append_nil] at h
  | append_singleton later change ih =>
    rw [← List.append_assoc] at h
    exact ih (ordered_concat_iff.mp h).1

theorem Ordered.append {later : List Change} (h : Ordered changes)
    (hlater : ∀ change ∈ later, change.RefersTo changes) : Ordered (changes ++ later) := by
  induction later using List.reverseRecOn with
  | nil => rwa [List.append_nil]
  | append_singleton later change ih =>
    obtain ⟨hlater, hchange⟩ := List.forall_mem_append.mp hlater
    rw [← List.append_assoc]
    refine .concat (ih hlater) ?_
    exact (List.forall_mem_singleton.mp hchange).mono (List.subset_append_left _ _)

/-! ## References to what is there -/

section References

variable (hrefers : change.RefersTo changes)
  (hcreated : ∀ change ∈ changes, change.object ∈ c.objects)
include hrefers hcreated

theorem exists_findFunction? {key : List ColumnType × String}
    (href : change.functionRef? = some key) : ∃ oid, c.findFunction? key.2 key.1 = some oid := by
  obtain ⟨r, hr, rfl⟩ := hrefers.function key href
  rw [← Option.isSome_iff_exists, findFunction?_isSome_iff]
  exact function_mem_objects.mp (hcreated _ hr)

theorem exists_findOperator? {s : Signature} (href : change.operatorRef? = some s) :
    ∃ oid, c.findOperator? s = some oid := by
  obtain ⟨name, hcreate⟩ := hrefers.operator s href
  rw [← Option.isSome_iff_exists, findOperator?_isSome_iff]
  exact operator_mem_objects.mp (hcreated _ hcreate)

theorem exists_applies (hfree : change.object ∉ c.objects) : ∃ c', Applies c owner change c' := by
  cases change with
  | createFunction r => exact ⟨_, .createFunction (mt function_mem_objects.mpr hfree)⟩
  | createOperator s function =>
    obtain ⟨oid, hfound⟩ := exists_findFunction? hrefers hcreated rfl
    exact ⟨_, .createOperator (mt operator_mem_objects.mpr hfree) hfound⟩
  | addOperator family strategy s =>
    obtain ⟨oid, hfound⟩ := exists_findOperator? hrefers hcreated rfl
    exact ⟨_, .addOperator hfound (mt member_mem_objects.mpr hfree)⟩
  | addSupport family number left right function types =>
    obtain ⟨oid, hfound⟩ := exists_findFunction? hrefers hcreated rfl
    exact ⟨_, .addSupport hfound (mt member_mem_objects.mpr hfree)⟩

end References

/-! ## A batch in order -/

theorem AppliesAll.concat {c₁ : Catalog} (h : AppliesAll owner c changes c₁)
    (hlast : Applies c₁ owner change c') : AppliesAll owner c (changes ++ [change]) c' := by
  induction h with
  | nil => exact .cons hlast (.nil _)
  | cons hfirst _ ih => exact .cons hfirst (ih hlast)

theorem exists_appliesAll (h : Ordered changes) (hnodup : (changes.map (·.object)).Nodup)
    (hfree : ∀ change ∈ changes, change.object ∉ c.objects) :
    ∃ c', AppliesAll owner c changes c' := by
  -- The changes before the last one are applied, so their objects are there to refer to.
  induction h with
  | nil => exact ⟨c, .nil c⟩
  | @concat changes change hbefore hlast ih =>
    rw [List.map_append, List.map_singleton, List.nodup_append'] at hnodup
    obtain ⟨hnodup, -, hdisjoint⟩ := hnodup
    obtain ⟨hfree, hchange⟩ := List.forall_mem_append.mp hfree
    obtain ⟨c₁, hall⟩ := ih hnodup hfree
    have hnew : change.object ∉ c₁.objects := by
      rw [hall.mem_objects, not_or]
      exact ⟨fun hmem => hdisjoint hmem (List.mem_singleton_self _),
        hchange change (List.mem_singleton_self _)⟩
    obtain ⟨c', happlies⟩ := exists_applies hlast hall.created hnew
    exact ⟨c', hall.concat happlies⟩

/-- **A batch in order is installed** exactly if its owner is new and none of its objects is
there. -/
theorem exists_createExtension_iff {batch : Batch} (hordered : Ordered batch.changes)
    (hnodup : (batch.changes.map (·.object)).Nodup) :
    (∃ c', c.createExtension batch = .ok c') ↔
      batch.owner ∉ c.extensions ∧ ∀ change ∈ batch.changes, change.object ∉ c.objects := by
  simp only [createExtension_ok_iff]
  constructor
  · rintro ⟨_, hnew, c₁, hall, rfl⟩
    exact ⟨hnew, hall.free⟩
  · rintro ⟨hnew, hfree⟩
    obtain ⟨c₁, hall⟩ := exists_appliesAll (c := c.withExtension batch.owner) hordered hnodup hfree
    exact ⟨c₁.commit, hnew, c₁, hall, rfl⟩

end Catalog

end ExactCompare
