import ExactCompare.Proofs.Catalog.Ids

/-!
# References

An operator refers to its function, and a member to its operator or its function. What is
referred to is there when the reference is made. A removal asks for owners only.
-/

namespace ExactCompare

/-! ## What refers to what -/

inductive Reference where
  | function (oid : Oid)
  | operator (oid : Oid)
  deriving DecidableEq

def Reference.oid : Reference → Oid
  | function oid | operator oid => oid

/-- An entry that refers to another one. -/
inductive Referrer where
  | operator (entry : OperatorEntry)
  | member (entry : FamilyMember)
  deriving DecidableEq

namespace Referrer

def owner : Referrer → Option Identifier
  | operator o => o.owner
  | member m => m.owner

/-- A built-in operator refers to nothing. -/
def reference? : Referrer → Option Reference
  | operator o => o.function.map .function
  | member m =>
    match m.slot.kind with
    | .operator => some (.operator m.object)
    | .support => some (.function m.object)

end Referrer

namespace Entry

def reference : Entry → Reference
  | function f => .function f.oid
  | operator o => .operator o.oid

def owner : Entry → Option Identifier
  | function f => f.owner
  | operator o => o.owner

theorem oid_reference (x : Entry) : x.reference.oid = x.oid := by
  cases x <;> rfl

end Entry

namespace Catalog

variable {c c' : Catalog} {owner e : Identifier} {change : Change} {changes : List Change}
  {p : Part} {r : Referrer} {ref : Reference} {x : Entry}

def referrers (c : Catalog) : List Referrer := c.operators.map .operator ++ c.members.map .member

/-- The entry that is referred to is in the catalog. -/
def Resolves (c : Catalog) (ref : Reference) : Prop := ∃ x ∈ c.entries, x.reference = ref

instance (c : Catalog) (ref : Reference) : Decidable (c.Resolves ref) := List.decidableBEx _ _

/-- Every reference is to an entry that is there. -/
def Integral (c : Catalog) : Prop := ∀ r ∈ c.referrers, ∀ ref ∈ r.reference?, c.Resolves ref

instance (c : Catalog) : Decidable c.Integral := List.decidableBAll _ _

theorem operator_mem_referrers {o : OperatorEntry} :
    .operator o ∈ c.referrers ↔ o ∈ c.operators := by
  simp [referrers]

theorem member_mem_referrers {m : FamilyMember} : .member m ∈ c.referrers ↔ m ∈ c.members := by
  simp [referrers]

theorem bootstrap_integral : bootstrap.Integral := by
  decide +kernel

/-! ## Changes -/

theorem Adds.resolves (h : Adds owner changes c p c') (hres : c.Resolves ref) :
    c'.Resolves ref := by
  obtain ⟨x, hx, hreference⟩ := hres
  exact ⟨x, h.entries_subset hx, hreference⟩

theorem resolves_function {name : String} {types : List ColumnType} {oid : Oid}
    (hfound : c.findFunction? name types = some oid) : c.Resolves (.function oid) := by
  obtain ⟨f, hf, -, rfl⟩ := exists_of_findFunction? hfound
  exact ⟨.function f, function_mem_entries.mpr hf, rfl⟩

theorem resolves_operator {s : Signature} {oid : Oid} (hfound : c.findOperator? s = some oid) :
    c.Resolves (.operator oid) := by
  obtain ⟨o, ho, -, rfl⟩ := exists_of_findOperator? hfound
  exact ⟨.operator o, operator_mem_entries.mpr ho, rfl⟩

theorem mem_referrers_of_append {operators : List OperatorEntry} {members : List FamilyMember}
    (hr : r ∈ c'.referrers) (hoperators : c'.operators = c.operators ++ operators)
    (hmembers : c'.members = c.members ++ members) :
    r ∈ c.referrers ∨ r ∈ operators.map .operator ++ members.map .member := by
  simp only [referrers, hoperators, hmembers, List.map_append, List.mem_append] at hr ⊢
  tauto

theorem Applies.mem_referrers (h : Applies c owner change c') (hr : r ∈ c'.referrers) :
    r ∈ c.referrers ∨ ∀ ref ∈ r.reference?, c.Resolves ref := by
  cases h with
  | createFunction hfree => exact .inl hr
  | createOperator hfree hfound =>
    refine (mem_referrers_of_append hr rfl (List.append_nil _).symm).imp_right fun hnew => ?_
    obtain rfl := List.mem_singleton.mp hnew
    rintro _ ⟨⟩
    exact resolves_function hfound
  | addOperator hfound hfree =>
    refine (mem_referrers_of_append (c := c) hr (List.append_nil _).symm rfl).imp_right fun hnew => ?_
    obtain rfl := List.mem_singleton.mp hnew
    rintro _ ⟨⟩
    exact resolves_operator hfound
  | addSupport hfound hfree =>
    refine (mem_referrers_of_append (c := c) hr (List.append_nil _).symm rfl).imp_right fun hnew => ?_
    obtain rfl := List.mem_singleton.mp hnew
    rintro _ ⟨⟩
    exact resolves_function hfound

theorem AppliesAll.mem_referrers (h : AppliesAll owner c changes c') (hr : r ∈ c'.referrers) :
    r ∈ c.referrers ∨ ∀ ref ∈ r.reference?, c'.Resolves ref := by
  induction h with
  | nil => exact .inl hr
  | cons hfirst hrest ih =>
    rcases ih hr with hr | hresolves
    · obtain ⟨p, hp⟩ := hfirst.adds
      obtain ⟨q, hq⟩ := hrest.adds
      refine (hfirst.mem_referrers hr).imp_right fun hresolves ref href => ?_
      exact (hp.trans hq).resolves (hresolves ref href)
    · exact .inr hresolves

theorem mem_referrers_of_createExtension {batch : Batch} (h : c.createExtension batch = .ok c')
    (hr : r ∈ c'.referrers) : r ∈ c.referrers ∨ ∀ ref ∈ r.reference?, c'.Resolves ref := by
  obtain ⟨-, c₁, hall, rfl⟩ := createExtension_ok_iff.mp h
  exact hall.mem_referrers hr

/-! ## Removals -/

theorem mem_referrers_withoutOwner :
    r ∈ (c.withoutOwner e).referrers ↔ r ∈ c.referrers ∧ r.owner ≠ some e := by
  cases r with
  | operator o => simp [operator_mem_referrers, withoutOwner, Referrer.owner]
  | member m => simp [member_mem_referrers, withoutOwner, Referrer.owner]

theorem mem_entries_withoutOwner :
    x ∈ (c.withoutOwner e).entries ↔ x ∈ c.entries ∧ x.owner ≠ some e := by
  cases x with
  | function f => simp [function_mem_entries, withoutOwner, Entry.owner]
  | operator o => simp [operator_mem_entries, withoutOwner, Entry.owner]

theorem Valid.oid_lt_of_resolves (hc : c.Valid) (hresolves : c.Resolves ref) :
    ref.oid.number < c.nextOid.number := by
  obtain ⟨x, hx, rfl⟩ := hresolves
  rw [Entry.oid_reference]
  exact hc.oids_lt _ (oid_mem_oids hx)

end Catalog

end ExactCompare
