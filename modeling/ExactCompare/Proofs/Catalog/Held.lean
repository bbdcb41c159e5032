import ExactCompare.Proofs.Catalog.Parts

/-!
# What a batch leaves in the catalog

Every change of a batch leaves the entry that it creates, with its references
resolved in the same catalog. Where a batch refers to nothing but what it creates,
they are resolved in its own part.
-/

namespace ExactCompare

/-- All tables of a catalog. -/
def Catalog.tables (c : Catalog) : Part := ⟨c.functions, c.operators, c.members⟩

namespace Change

/-- The entry of a change is in the tables, and so is what the entry refers to. -/
def HeldBy (owner : Identifier) (p : Part) : Change → Prop
  | createFunction r => ∃ oid, FunctionEntry.ofRoutine oid owner r ∈ p.functions
  | createOperator s function => ∃ oid, ∃ f ∈ p.functions, f.key = ([s.left, s.right], function) ∧
      ⟨oid, s, some f.oid, some owner⟩ ∈ p.operators
  | addOperator family strategy s => ∃ o ∈ p.operators, o.signature = s ∧
      ⟨family, ⟨.operator, strategy, s.left, s.right⟩, o.oid, some owner⟩ ∈ p.members
  | addSupport family number left right function types => ∃ f ∈ p.functions,
      f.key = (types, function) ∧
      ⟨family, ⟨.support, number, left, right⟩, f.oid, some owner⟩ ∈ p.members

/-- The function that a change refers to. -/
def functionRef? : Change → Option (List ColumnType × String)
  | createOperator s function => some ([s.left, s.right], function)
  | addSupport _ _ _ _ function types => some (types, function)
  | _ => none

/-- The operator that a change refers to. -/
def operatorRef? : Change → Option Signature
  | addOperator _ _ s => some s
  | _ => none

/-- A change that refers to nothing but what the changes create. -/
structure RefersTo (changes : List Change) (change : Change) : Prop where
  function : ∀ key, change.functionRef? = some key → ∃ r, createFunction r ∈ changes ∧ r.key = key
  operator : ∀ s, change.operatorRef? = some s → ∃ name, createOperator s name ∈ changes

theorem RefersTo.mono {change : Change} {before changes : List Change}
    (h : change.RefersTo before) (hsub : before ⊆ changes) : change.RefersTo changes where
  function key hkey := by
    obtain ⟨r, hr, hrkey⟩ := h.function key hkey
    exact ⟨r, hsub hr, hrkey⟩
  operator s hs := by
    obtain ⟨name, hname⟩ := h.operator s hs
    exact ⟨name, hsub hname⟩

end Change

namespace Catalog

variable {c c' : Catalog} {owner : Identifier} {change : Change} {changes : List Change} {p : Part}

theorem Adds.heldBy (h : Adds owner changes c p c') (hheld : change.HeldBy owner c.tables) :
    change.HeldBy owner c'.tables := by
  have hfunctions {f : FunctionEntry} (hf : f ∈ c.functions) : f ∈ c'.functions :=
    h.functions ▸ List.mem_append_left _ hf
  have hoperators {o : OperatorEntry} (ho : o ∈ c.operators) : o ∈ c'.operators :=
    h.operators ▸ List.mem_append_left _ ho
  have hmembers {m : FamilyMember} (hm : m ∈ c.members) : m ∈ c'.members :=
    h.members ▸ List.mem_append_left _ hm
  cases change with
  | createFunction r =>
    obtain ⟨oid, hf⟩ := hheld
    exact ⟨oid, hfunctions hf⟩
  | createOperator s function =>
    obtain ⟨oid, f, hf, hkey, ho⟩ := hheld
    exact ⟨oid, f, hfunctions hf, hkey, hoperators ho⟩
  | addOperator family strategy s =>
    obtain ⟨o, ho, hs, hm⟩ := hheld
    exact ⟨o, hoperators ho, hs, hmembers hm⟩
  | addSupport family number left right function types =>
    obtain ⟨f, hf, hkey, hm⟩ := hheld
    exact ⟨f, hfunctions hf, hkey, hmembers hm⟩

theorem Applies.heldBy (h : Applies c owner change c') : change.HeldBy owner c'.tables := by
  have hlast {α : Type} (l : List α) (a : α) : a ∈ l ++ [a] :=
    List.mem_append_right _ (List.mem_singleton_self a)
  cases h with
  | createFunction hfree => exact ⟨c.nextOid, hlast _ _⟩
  | createOperator hfree hfound =>
    obtain ⟨f, hf, hkey, rfl⟩ := exists_of_findFunction? hfound
    exact ⟨c.nextOid, f, hf, hkey, hlast _ _⟩
  | addOperator hfound hfree =>
    obtain ⟨o, ho, hs, rfl⟩ := exists_of_findOperator? hfound
    exact ⟨o, ho, hs, hlast _ _⟩
  | addSupport hfound hfree =>
    obtain ⟨f, hf, hkey, rfl⟩ := exists_of_findFunction? hfound
    exact ⟨f, hf, hkey, hlast _ _⟩

theorem AppliesAll.heldBy (h : AppliesAll owner c changes c') :
    ∀ change ∈ changes, change.HeldBy owner c'.tables := by
  induction h with
  | nil => exact List.forall_mem_nil _
  | cons hfirst hrest ih =>
    intro change hchange
    rcases List.mem_cons.mp hchange with rfl | hchange
    · obtain ⟨p, hp⟩ := hrest.adds
      exact hp.heldBy hfirst.heldBy
    · exact ih change hchange

/-! ## References inside the batch -/

theorem Valid.eq_of_key {f g : FunctionEntry} (hc : c.Valid) (hf : f ∈ c.functions)
    (hg : g ∈ c.functions) (h : f.key = g.key) : f = g :=
  List.inj_on_of_nodup_map hc.keys hf hg h

theorem Valid.eq_of_signature {o r : OperatorEntry} (hc : c.Valid) (ho : o ∈ c.operators)
    (hr : r ∈ c.operators) (h : o.signature = r.signature) : o = r :=
  List.inj_on_of_nodup_map hc.signatures ho hr h

theorem mem_part_functions {f : FunctionEntry} :
    f ∈ (c.part owner).functions ↔ f ∈ c.functions ∧ f.owner = some owner := by
  simp [part, functionsOwnedBy]

theorem mem_part_operators {o : OperatorEntry} :
    o ∈ (c.part owner).operators ↔ o ∈ c.operators ∧ o.owner = some owner := by
  simp [part, operatorsOwnedBy]

theorem mem_part_members {m : FamilyMember} :
    m ∈ (c.part owner).members ↔ m ∈ c.members ∧ m.owner = some owner := by
  simp [part]

theorem heldBy_part (hc : c.Valid) (hheld : ∀ change ∈ changes, change.HeldBy owner c.tables)
    (hchange : change ∈ changes) (hrefers : change.RefersTo changes) :
    change.HeldBy owner (c.part owner) := by
  -- Nothing is there twice, so what is referred to is what the batch created.
  have hfunction {f : FunctionEntry} {key : List ColumnType × String} (hf : f ∈ c.functions)
      (hkey : f.key = key) (href : change.functionRef? = some key) :
      f ∈ (c.part owner).functions := by
    obtain ⟨r, hr, hrkey⟩ := hrefers.function key href
    obtain ⟨oid, hentry⟩ := hheld _ hr
    rw [hc.eq_of_key hf hentry (hkey.trans hrkey.symm)]
    exact mem_part_functions.mpr ⟨hentry, rfl⟩
  have hoperator {o : OperatorEntry} {s : Signature} (ho : o ∈ c.operators)
      (hs : o.signature = s) (href : change.operatorRef? = some s) :
      o ∈ (c.part owner).operators := by
    obtain ⟨name, hcreate⟩ := hrefers.operator s href
    obtain ⟨oid, f, -, -, hentry⟩ := hheld _ hcreate
    rw [hc.eq_of_signature ho hentry hs]
    exact mem_part_operators.mpr ⟨hentry, rfl⟩
  cases change with
  | createFunction r =>
    obtain ⟨oid, hf⟩ := hheld _ hchange
    exact ⟨oid, mem_part_functions.mpr ⟨hf, rfl⟩⟩
  | createOperator s function =>
    obtain ⟨oid, f, hf, hkey, ho⟩ := hheld _ hchange
    exact ⟨oid, f, hfunction hf hkey rfl, hkey, mem_part_operators.mpr ⟨ho, rfl⟩⟩
  | addOperator family strategy s =>
    obtain ⟨o, ho, hs, hm⟩ := hheld _ hchange
    exact ⟨o, hoperator ho hs rfl, hs, mem_part_members.mpr ⟨hm, rfl⟩⟩
  | addSupport family number left right function types =>
    obtain ⟨f, hf, hkey, hm⟩ := hheld _ hchange
    exact ⟨f, hfunction hf hkey rfl, hkey, mem_part_members.mpr ⟨hm, rfl⟩⟩

end Catalog

end ExactCompare
