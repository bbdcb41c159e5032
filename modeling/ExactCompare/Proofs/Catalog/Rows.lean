import ExactCompare.Proofs.Catalog.Lookup
import ExactCompare.Proofs.Catalog.Stranded
import ExactCompare.Proofs.Catalog.Success

/-!
# Catalogs without ids

A row says all that an entry says apart from ids. It tells what the entry refers to by a key or a
signature. The row that a change creates is in the change, so it is the same in every catalog.
-/

namespace ExactCompare

/-! ## Rows -/

/-- A reference is missing, or to nothing that is there, or to an object. -/
inductive Row where
  | function (key : List ColumnType × String) (routine : Option Routine)
      (owner : Option Identifier)
  | operator (signature : Signature) (target : Option (Option Object)) (owner : Option Identifier)
  | member (place : Family × Slot) (target : Option (Option Object)) (owner : Option Identifier)
  deriving DecidableEq

def FunctionEntry.row (f : FunctionEntry) : Row := .function f.key f.routine f.owner

def Entry.object : Entry → Object
  | function f => .function f.key
  | operator o => .operator o.signature

/-- The object that a reference is to. -/
def Catalog.target? (c : Catalog) (ref : Reference) : Option Object :=
  (c.entries.find? (·.reference = ref)).map (·.object)

def Referrer.row (c : Catalog) (r : Referrer) : Row :=
  let target := r.reference?.map c.target?
  match r with
  | operator o => .operator o.signature target o.owner
  | member m => .member m.place target m.owner

def Catalog.rows (c : Catalog) : List Row :=
  c.functions.map (·.row) ++ c.referrers.map (·.row c)

/-- The row that a change creates. -/
def Change.row (owner : Identifier) : Change → Row
  | createFunction r => .function r.key (some r) (some owner)
  | createOperator s function =>
    .operator s (some (some (.function ([s.left, s.right], function)))) (some owner)
  | addOperator family strategy s =>
    .member (family, ⟨.operator, strategy, s.left, s.right⟩) (some (some (.operator s)))
      (some owner)
  | addSupport family number left right function types =>
    .member (family, ⟨.support, number, left, right⟩) (some (some (.function (types, function))))
      (some owner)

namespace Catalog

variable {c c' : Catalog} {owner : Identifier} {change : Change} {changes : List Change}
  {p : Part} {r : Referrer} {ref : Reference} {object : Object} {oid : Oid}

/-! ## What a reference is to -/

theorem Valid.nodup_references (hc : c.Valid) : (c.entries.map (·.reference)).Nodup := by
  refine List.Nodup.of_map Reference.oid ?_
  rw [List.map_map, show Reference.oid ∘ (·.reference) = Entry.oid from funext Entry.oid_reference,
    map_oid_entries]
  exact hc.oids

theorem target?_eq_some_iff (hc : c.Valid) :
    c.target? ref = some object ↔ ∃ x ∈ c.entries, x.reference = ref ∧ x.object = object := by
  simp only [target?, Option.map_eq_some_iff, find?_eq_some_iff_of_nodup hc.nodup_references,
    and_assoc]

theorem target?_function {name : String} {types : List ColumnType} (hc : c.Valid)
    (hfound : c.findFunction? name types = some oid) :
    c.target? (.function oid) = some (.function (types, name)) := by
  obtain ⟨f, hf, hkey, rfl⟩ := exists_of_findFunction? hfound
  exact (target?_eq_some_iff hc).mpr
    ⟨.function f, function_mem_entries.mpr hf, rfl, congrArg Object.function hkey⟩

theorem target?_operator {s : Signature} (hc : c.Valid) (hfound : c.findOperator? s = some oid) :
    c.target? (.operator oid) = some (.operator s) := by
  obtain ⟨o, ho, hs, rfl⟩ := exists_of_findOperator? hfound
  exact (target?_eq_some_iff hc).mpr
    ⟨.operator o, operator_mem_entries.mpr ho, rfl, congrArg Object.operator hs⟩

theorem Adds.target?_eq (h : Adds owner changes c p c') (hc : c.Valid) (hc' : c'.Valid)
    (hissued : ref.oid.number < c.nextOid.number) : c'.target? ref = c.target? ref := by
  ext object
  rw [target?_eq_some_iff hc', target?_eq_some_iff hc]
  constructor
  · -- An entry that is new has an id that was not given out before.
    rintro ⟨x, hx, rfl, hobject⟩
    rw [Entry.oid_reference] at hissued
    exact ⟨x, (h.mem_entries hx).resolve_right (Nat.not_le_of_lt hissued), rfl, hobject⟩
  · rintro ⟨x, hx, href, hobject⟩
    exact ⟨x, h.entries_subset hx, href, hobject⟩

/-! ## Ids that were given out -/

/-- A valid catalog, where every id that is referred to was given out. -/
structure Grounded (c : Catalog) : Prop where
  valid : c.Valid
  issued : ∀ r ∈ c.referrers, ∀ ref ∈ r.reference?, ref.oid.number < c.nextOid.number

theorem grounded_of_replay {transactions : List Transaction}
    (h : bootstrap.replay transactions = .ok c) : c.Grounded where
  valid := valid_of_replay h
  issued _ hr _ href := oid_lt_of_mem_referrers h hr href

theorem Grounded.withExtension {extension : Identifier} (hc : c.Grounded)
    (hfree : extension ∉ c.extensions) : (c.withExtension extension).Grounded where
  valid := hc.valid.withExtension hfree
  issued := hc.issued

theorem Grounded.commit (hc : c.Grounded) : c.commit.Grounded where
  valid := hc.valid.commit
  issued := hc.issued

theorem Applies.grounded (h : Applies c owner change c') (howner : owner ∈ c.extensions)
    (hc : c.Grounded) : c'.Grounded where
  valid := h.valid howner hc.valid
  issued := by
    intro r hr ref href
    obtain ⟨p, hp⟩ := h.adds
    refine Nat.lt_of_lt_of_le ?_ hp.nextOid_le
    rcases h.mem_referrers hr with hold | hnew
    · exact hc.issued r hold ref href
    · exact hc.valid.oid_lt_of_resolves (hnew ref href)

/-! ## One change -/

theorem Adds.row_eq (h : Adds owner changes c p c') (hc : c.Grounded) (hc' : c'.Valid)
    (hr : r ∈ c.referrers) : r.row c' = r.row c := by
  have htarget : r.reference?.map c'.target? = r.reference?.map c.target? :=
    Option.map_congr fun ref href => h.target?_eq hc.valid hc' (hc.issued r hr ref href)
  unfold Referrer.row
  rw [htarget]

theorem referrers_perm_operator {o : OperatorEntry} (hoperators : c'.operators = c.operators ++ [o])
    (hmembers : c'.members = c.members) :
    c'.referrers.Perm (.operator o :: c.referrers) := by
  simp only [referrers, hoperators, hmembers, List.map_append, List.map_cons, List.map_nil,
    List.append_assoc, List.singleton_append]
  exact List.perm_middle

theorem referrers_perm_member {m : FamilyMember} (hoperators : c'.operators = c.operators)
    (hmembers : c'.members = c.members ++ [m]) :
    c'.referrers.Perm (.member m :: c.referrers) := by
  simp only [referrers, hoperators, hmembers, List.map_append, List.map_cons, List.map_nil]
  rw [← List.append_assoc]
  exact List.perm_append_singleton _ _

theorem rows_perm_of_referrer (hold : ∀ r ∈ c.referrers, r.row c' = r.row c)
    (hfunctions : c'.functions = c.functions) (hreferrers : c'.referrers.Perm (r :: c.referrers)) :
    c'.rows.Perm (r.row c' :: c.rows) := by
  unfold rows
  rw [hfunctions, ← List.map_congr_left hold]
  exact ((hreferrers.map _).append_left _).trans List.perm_middle

/-- **A change that succeeds adds its row**, whatever the catalog is. -/
theorem Applies.rows_perm (h : Applies c owner change c') (howner : owner ∈ c.extensions)
    (hc : c.Grounded) : c'.rows.Perm (change.row owner :: c.rows) := by
  obtain ⟨p, hp⟩ := h.adds
  have hvalid := h.valid howner hc.valid
  have hold : ∀ r ∈ c.referrers, r.row c' = r.row c := fun r => hp.row_eq hc hvalid
  have htarget {ref : Reference} (hresolves : c.Resolves ref) : c'.target? ref = c.target? ref :=
    hp.target?_eq hc.valid hvalid (hc.valid.oid_lt_of_resolves hresolves)
  cases h with
  | createFunction hfree =>
    unfold rows
    rw [← List.map_congr_left hold, List.map_append, List.append_assoc]
    exact List.perm_middle
  | createOperator hfree hfound =>
    have hperm := rows_perm_of_referrer hold rfl (referrers_perm_operator rfl rfl)
    rwa [Referrer.row, Referrer.reference?, Option.map_some, Option.map_some,
      htarget (resolves_function hfound), target?_function hc.valid hfound] at hperm
  | addOperator hfound hfree =>
    have hperm := rows_perm_of_referrer hold rfl (referrers_perm_member rfl rfl)
    rwa [Referrer.row, Referrer.reference?, Option.map_some,
      htarget (resolves_operator hfound), target?_operator hc.valid hfound] at hperm
  | addSupport hfound hfree =>
    have hperm := rows_perm_of_referrer hold rfl (referrers_perm_member rfl rfl)
    rwa [Referrer.row, Referrer.reference?, Option.map_some,
      htarget (resolves_function hfound), target?_function hc.valid hfound] at hperm

/-! ## A batch -/

theorem AppliesAll.rows_perm (h : AppliesAll owner c changes c') (howner : owner ∈ c.extensions)
    (hc : c.Grounded) : c'.Grounded ∧ c'.rows.Perm (changes.map (·.row owner) ++ c.rows) := by
  induction h with
  | nil => exact ⟨hc, .refl _⟩
  | cons hfirst _ ih =>
    obtain ⟨hgrounded, hperm⟩ := ih (hfirst.extensions_eq ▸ howner) (hfirst.grounded howner hc)
    refine ⟨hgrounded, hperm.trans (((hfirst.rows_perm howner hc).append_left _).trans ?_)⟩
    exact List.perm_middle

end Catalog

end ExactCompare
