import ExactCompare.Proofs.Catalog.Valid

/-!
# Parts of a catalog

What one extension has in a catalog is its part. Installing adds a part, removing
takes it out whole, and no step changes the part of another extension. The ids of a
part that was removed are never given out again.
-/

namespace ExactCompare

/-! ## Parts -/

structure Part where
  functions : List FunctionEntry
  operators : List OperatorEntry
  members : List FamilyMember
  deriving DecidableEq

namespace Part

def empty : Part := ⟨[], [], []⟩

def append (p q : Part) : Part :=
  ⟨p.functions ++ q.functions, p.operators ++ q.operators, p.members ++ q.members⟩

def oids (p : Part) : List Oid := p.functions.map (·.oid) ++ p.operators.map (·.oid)

theorem mem_oids_append {p q : Part} {oid : Oid} :
    oid ∈ (p.append q).oids ↔ oid ∈ p.oids ∨ oid ∈ q.oids := by
  simp only [oids, append, List.map_append, List.mem_append]
  tauto

end Part

def Catalog.part (c : Catalog) (extension : Identifier) : Part where
  functions := c.functionsOwnedBy extension
  operators := c.operatorsOwnedBy extension
  members := c.members.filter (·.owner = some extension)

theorem Catalog.part_operators (c : Catalog) (extension : Identifier) :
    (c.part extension).operators = c.operatorsOwnedBy extension := rfl

/-! ## What a batch adds -/

namespace Change

def routine? : Change → Option Routine
  | createFunction r => some r
  | _ => none

def signature? : Change → Option Signature
  | createOperator s _ => some s
  | _ => none

def place? : Change → Option (Family × Slot)
  | addOperator family strategy s => some (family, ⟨.operator, strategy, s.left, s.right⟩)
  | addSupport family number left right _ _ => some (family, ⟨.support, number, left, right⟩)
  | _ => none

end Change

namespace Part

variable {owner : Identifier} {change : Change} {changes changes₁ changes₂ : List Change} {p q : Part}

/-- The entries of a part are those that the changes create, in order. -/
structure MadeBy (owner : Identifier) (changes : List Change) (p : Part) : Prop where
  function_owner : ∀ f ∈ p.functions, f.owner = some owner
  operator_owner : ∀ o ∈ p.operators, o.owner = some owner
  member_owner : ∀ m ∈ p.members, m.owner = some owner
  routines : p.functions.map (·.routine) = (changes.filterMap (·.routine?)).map some
  signatures : p.operators.map (·.signature) = changes.filterMap (·.signature?)
  places : p.members.map (·.place) = changes.filterMap (·.place?)

theorem MadeBy.empty (owner : Identifier) : MadeBy owner [] .empty where
  function_owner := List.forall_mem_nil _
  operator_owner := List.forall_mem_nil _
  member_owner := List.forall_mem_nil _
  routines := rfl
  signatures := rfl
  places := rfl

theorem MadeBy.append (hp : p.MadeBy owner changes₁) (hq : q.MadeBy owner changes₂) :
    (p.append q).MadeBy owner (changes₁ ++ changes₂) where
  function_owner := List.forall_mem_append.mpr ⟨hp.function_owner, hq.function_owner⟩
  operator_owner := List.forall_mem_append.mpr ⟨hp.operator_owner, hq.operator_owner⟩
  member_owner := List.forall_mem_append.mpr ⟨hp.member_owner, hq.member_owner⟩
  routines := by
    rw [Part.append, List.map_append, hp.routines, hq.routines, List.filterMap_append,
      List.map_append]
  signatures := by
    rw [Part.append, List.map_append, hp.signatures, hq.signatures, List.filterMap_append]
  places := by rw [Part.append, List.map_append, hp.places, hq.places, List.filterMap_append]

theorem madeBy_function (oid : Oid) (owner : Identifier) (r : Routine) :
    MadeBy owner [.createFunction r] ⟨[.ofRoutine oid owner r], [], []⟩ where
  function_owner := List.forall_mem_singleton.mpr rfl
  operator_owner := List.forall_mem_nil _
  member_owner := List.forall_mem_nil _
  routines := rfl
  signatures := rfl
  places := rfl

theorem madeBy_operator (oid : Oid) (owner : Identifier) (s : Signature) (name : String)
    (function : Option Oid) :
    MadeBy owner [.createOperator s name] ⟨[], [⟨oid, s, function, some owner⟩], []⟩ where
  function_owner := List.forall_mem_nil _
  operator_owner := List.forall_mem_singleton.mpr rfl
  member_owner := List.forall_mem_nil _
  routines := rfl
  signatures := rfl
  places := rfl

theorem madeBy_member {m : FamilyMember} (howner : m.owner = some owner)
    (hroutine : change.routine? = none) (hsignature : change.signature? = none)
    (hplace : change.place? = some m.place) : MadeBy owner [change] ⟨[], [], [m]⟩ where
  function_owner := List.forall_mem_nil _
  operator_owner := List.forall_mem_nil _
  member_owner := List.forall_mem_singleton.mpr howner
  routines := by simp [hroutine]
  signatures := by simp [hsignature]
  places := by simp [hplace]

end Part

namespace Catalog

variable {c c' c'' : Catalog} {owner e : Identifier} {change : Change} {changes : List Change}
  {p : Part}

/-- The tables of a catalog with a part after them that the changes of a batch made. -/
structure Adds (owner : Identifier) (changes : List Change) (c : Catalog) (p : Part)
    (c' : Catalog) : Prop where
  functions : c'.functions = c.functions ++ p.functions
  operators : c'.operators = c.operators ++ p.operators
  members : c'.members = c.members ++ p.members
  made : p.MadeBy owner changes
  oids_ge : ∀ oid ∈ p.oids, c.nextOid.number ≤ oid.number
  nextOid_le : c.nextOid.number ≤ c'.nextOid.number

theorem Adds.refl (owner : Identifier) (c : Catalog) : Adds owner [] c .empty c where
  functions := (List.append_nil _).symm
  operators := (List.append_nil _).symm
  members := (List.append_nil _).symm
  made := .empty owner
  oids_ge := by simp [Part.empty, Part.oids]
  nextOid_le := Nat.le_refl _

theorem Adds.trans {changes₁ changes₂ : List Change} {p q : Part}
    (hp : Adds owner changes₁ c p c') (hq : Adds owner changes₂ c' q c'') :
    Adds owner (changes₁ ++ changes₂) c (p.append q) c'' where
  functions := by rw [hq.functions, hp.functions, List.append_assoc]; rfl
  operators := by rw [hq.operators, hp.operators, List.append_assoc]; rfl
  members := by rw [hq.members, hp.members, List.append_assoc]; rfl
  made := hp.made.append hq.made
  oids_ge oid hoid := by
    rcases Part.mem_oids_append.mp hoid with hoid | hoid
    · exact hp.oids_ge oid hoid
    · exact Nat.le_trans hp.nextOid_le (hq.oids_ge oid hoid)
  nextOid_le := Nat.le_trans hp.nextOid_le hq.nextOid_le

theorem adds_member (c : Catalog) {m : FamilyMember}
    (hmade : Part.MadeBy owner [change] ⟨[], [], [m]⟩) :
    Adds owner [change] c ⟨[], [], [m]⟩ { c with members := c.members ++ [m] } where
  functions := (List.append_nil _).symm
  operators := (List.append_nil _).symm
  members := rfl
  made := hmade
  oids_ge := by simp [Part.oids]
  nextOid_le := Nat.le_refl _

theorem Applies.adds (h : Applies c owner change c') : ∃ p, Adds owner [change] c p c' := by
  have hnext : c.nextOid.number ≤ c.nextOid.next.number := Nat.le_succ _
  cases h with
  | createFunction hfree =>
    exact ⟨_,
      { functions := rfl
        operators := (List.append_nil _).symm
        members := (List.append_nil _).symm
        made := Part.madeBy_function c.nextOid owner _
        oids_ge := by simp [Part.oids, FunctionEntry.ofRoutine]
        nextOid_le := hnext }⟩
  | createOperator hfree hfound =>
    exact ⟨_,
      { functions := (List.append_nil _).symm
        operators := rfl
        members := (List.append_nil _).symm
        made := Part.madeBy_operator c.nextOid owner _ _ _
        oids_ge := by simp [Part.oids]
        nextOid_le := hnext }⟩
  | addOperator hfound hfree => exact ⟨_, adds_member c (Part.madeBy_member rfl rfl rfl rfl)⟩
  | addSupport hfound hfree => exact ⟨_, adds_member c (Part.madeBy_member rfl rfl rfl rfl)⟩

theorem AppliesAll.adds (h : AppliesAll owner c changes c') : ∃ p, Adds owner changes c p c' := by
  induction h with
  | nil c => exact ⟨_, .refl owner c⟩
  | cons hfirst _ ih =>
    obtain ⟨p, hp⟩ := hfirst.adds
    obtain ⟨q, hq⟩ := ih
    exact ⟨_, hp.trans hq⟩

theorem createExtension_adds {batch : Batch} (h : c.createExtension batch = .ok c') :
    batch.owner ∉ c.extensions ∧ c'.extensions = c.extensions ++ [batch.owner] ∧
      ∃ p, Adds batch.owner batch.changes c p c' := by
  obtain ⟨hfree, c₁, hall, rfl⟩ := createExtension_ok_iff.mp h
  obtain ⟨p, hp⟩ := hall.adds
  exact ⟨hfree, hall.extensions_eq, p, { hp with }⟩

/-! ## The part of one extension -/

theorem Valid.part_eq_empty (hc : c.Valid) (he : e ∉ c.extensions) : c.part e = .empty := by
  rw [part, Part.empty, Part.mk.injEq]
  refine ⟨List.filter_eq_nil_iff.mpr ?_, List.filter_eq_nil_iff.mpr ?_,
    List.filter_eq_nil_iff.mpr ?_⟩
  · intro f hf howner
    exact he (hc.function_owned f hf e (of_decide_eq_true howner)).1
  · intro o ho howner
    exact he (hc.operator_owned o ho e (of_decide_eq_true howner)).1
  · intro m hm howner
    exact he (hc.member_owned m hm e (of_decide_eq_true howner))

theorem Adds.part_of_ne (h : Adds owner changes c p c') (hne : owner ≠ e) :
    c'.part e = c.part e := by
  have hnone {α : Type} (ownerOf : α → Option Identifier) (l : List α)
      (hl : ∀ a ∈ l, ownerOf a = some owner) : l.filter (ownerOf · = some e) = [] := by
    rw [List.filter_eq_nil_iff]
    intro a ha howner
    rw [hl a ha] at howner
    exact hne (Option.some.inj (of_decide_eq_true howner))
  rw [part, part, Part.mk.injEq]
  refine ⟨?_, ?_, ?_⟩
  · rw [functionsOwnedBy, h.functions, List.filter_append, hnone _ _ h.made.function_owner,
      List.append_nil]
    rfl
  · rw [operatorsOwnedBy, h.operators, List.filter_append, hnone _ _ h.made.operator_owner,
      List.append_nil]
    rfl
  · rw [h.members, List.filter_append, hnone _ _ h.made.member_owner, List.append_nil]

theorem Adds.part_of_eq (h : Adds owner changes c p c') (hempty : c.part owner = .empty) :
    c'.part owner = p := by
  have hall {α : Type} (ownerOf : α → Option Identifier) (l : List α)
      (hl : ∀ a ∈ l, ownerOf a = some owner) : l.filter (ownerOf · = some owner) = l := by
    rw [List.filter_eq_self]
    intro a ha
    exact decide_eq_true (hl a ha)
  rw [part, Part.empty, Part.mk.injEq] at hempty
  obtain ⟨hfunctions, hoperators, hmembers⟩ := hempty
  cases p with
  | mk functions operators members =>
    rw [part, Part.mk.injEq]
    refine ⟨?_, ?_, ?_⟩
    · rw [functionsOwnedBy, h.functions, List.filter_append, hall _ _ h.made.function_owner,
        ← functionsOwnedBy, hfunctions, List.nil_append]
    · rw [operatorsOwnedBy, h.operators, List.filter_append, hall _ _ h.made.operator_owner,
        ← operatorsOwnedBy, hoperators, List.nil_append]
    · rw [h.members, List.filter_append, hall _ _ h.made.member_owner, hmembers, List.nil_append]

theorem part_withoutOwner_of_ne {extension : Identifier} (hne : extension ≠ e) :
    (c.withoutOwner extension).part e = c.part e := by
  have hkeep {α : Type} (ownerOf : α → Option Identifier) (l : List α) :
      (l.filter (ownerOf · ≠ some extension)).filter (ownerOf · = some e) =
        l.filter (ownerOf · = some e) := by
    rw [List.filter_filter]
    refine List.filter_congr fun a _ => ?_
    by_cases ha : ownerOf a = some e
    · simp [ha, hne.symm]
    · simp [ha]
  rw [part, part, Part.mk.injEq]
  exact ⟨hkeep _ _, hkeep _ _, hkeep _ _⟩

theorem part_withoutOwner_self (c : Catalog) (e : Identifier) :
    (c.withoutOwner e).part e = .empty := by
  have hnone {α : Type} (ownerOf : α → Option Identifier) (l : List α) :
      (l.filter (ownerOf · ≠ some e)).filter (ownerOf · = some e) = [] := by
    rw [List.filter_filter, List.filter_eq_nil_iff]
    intro a _ ha
    simp at ha
  rw [part, Part.empty, Part.mk.injEq]
  exact ⟨hnone _ _, hnone _ _, hnone _ _⟩

/-! ## Ids that are gone -/

/-- An id that was given out and is no object's any more. -/
def Dead (c : Catalog) (oid : Oid) : Prop := oid.number < c.nextOid.number ∧ oid ∉ c.oids

theorem Adds.oids_perm (h : Adds owner changes c p c') : c'.oids.Perm (c.oids ++ p.oids) := by
  rw [List.perm_iff_count]
  intro oid
  simp only [oids, Part.oids, h.functions, h.operators, List.map_append, List.count_append]
  omega

theorem Adds.dead {oid : Oid} (h : Adds owner changes c p c') (hdead : c.Dead oid) :
    c'.Dead oid := by
  refine ⟨Nat.lt_of_lt_of_le hdead.1 h.nextOid_le, fun hmem => ?_⟩
  rcases List.mem_append.mp (h.oids_perm.mem_iff.mp hmem) with hmem | hmem
  · exact hdead.2 hmem
  · exact Nat.not_lt_of_le (h.oids_ge oid hmem) hdead.1

theorem Step.dead {oid : Oid} (h : Step c c') (hdead : c.Dead oid) : c'.Dead oid := by
  cases h with
  | create h =>
    obtain ⟨-, -, p, hp⟩ := createExtension_adds h
    exact hp.dead hdead
  | remove h =>
    obtain ⟨-, -, rfl⟩ := removeExtension_ok_iff.mp h
    exact ⟨hdead.1, fun hmem => hdead.2 ((c.oids_withoutOwner_sublist _).mem hmem)⟩

theorem oids_perm_part (c : Catalog) (e : Identifier) :
    ((c.part e).oids ++ (c.withoutOwner e).oids).Perm c.oids := by
  have hfunctions := (List.filter_append_perm (·.owner = some e) c.functions).map (·.oid)
  have hoperators := (List.filter_append_perm (·.owner = some e) c.operators).map (·.oid)
  rw [List.perm_iff_count] at hfunctions hoperators ⊢
  intro oid
  have hf := hfunctions oid
  have ho := hoperators oid
  simp only [List.map_append, List.count_append] at hf ho
  simp only [oids, Part.oids, part, functionsOwnedBy, operatorsOwnedBy, withoutOwner,
    List.count_append, ne_eq, decide_not]
  omega

theorem Valid.dead_withoutOwner {oid : Oid} (hc : c.Valid) (hoid : oid ∈ (c.part e).oids) :
    (c.withoutOwner e).Dead oid := by
  have hperm := c.oids_perm_part e
  refine ⟨hc.oids_lt oid (hperm.mem_iff.mp (List.mem_append_left _ hoid)), ?_⟩
  exact (List.nodup_append'.mp (hperm.nodup_iff.mpr hc.oids)).2.2 hoid

/-! ## A part over time -/

/-- A part that was installed once is still there as it was, or its ids are dead. -/
def Keeps (c : Catalog) (e : Identifier) (p : Part) : Prop :=
  e ∈ c.extensions ∧ c.part e = p ∨ ∀ oid ∈ p.oids, c.Dead oid

theorem Step.keeps (h : Step c c') (hc : c.Valid) (hkeeps : c.Keeps e p) : c'.Keeps e p := by
  rcases hkeeps with ⟨he, hpart⟩ | hdead
  · cases h with
    | create h =>
      obtain ⟨hfree, hextensions, q, hq⟩ := createExtension_adds h
      refine .inl ⟨hextensions ▸ List.mem_append_left _ he, ?_⟩
      rw [hq.part_of_ne (fun howner => hfree (howner ▸ he)), hpart]
    | @remove extension _ _ h =>
      obtain ⟨-, -, rfl⟩ := removeExtension_ok_iff.mp h
      by_cases hne : extension = e
      · subst hne hpart
        exact .inr fun oid hoid => hc.dead_withoutOwner hoid
      · refine .inl ⟨?_, (part_withoutOwner_of_ne hne).trans hpart⟩
        rw [commit, withoutOwner, List.mem_filter]
        exact ⟨he, by simpa using Ne.symm hne⟩
  · exact .inr fun oid hoid => h.dead (hdead oid hoid)

theorem Steps.keeps (h : Steps c c') (hc : c.Valid) (hkeeps : c.Keeps e p) : c'.Keeps e p := by
  induction h with
  | refl => exact hkeeps
  | tail hsteps hstep ih => exact hstep.keeps (Steps.valid hsteps hc) ih

theorem Steps.part_eq {oid : Oid} (h : Steps c c') (hc : c.Valid) (he : e ∈ c.extensions)
    (hoid : oid ∈ (c.part e).operators.map (·.oid)) (hstill : oid ∈ c'.operators.map (·.oid)) :
    c'.part e = c.part e := by
  rcases Steps.keeps h hc (.inl ⟨he, rfl⟩) with ⟨-, hpart⟩ | hdead
  · exact hpart
  · exact absurd (List.mem_append_right _ hstill) (hdead oid (List.mem_append_right _ hoid)).2

end Catalog

end ExactCompare
