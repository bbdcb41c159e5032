import ExactCompare.Host.Query
import ExactCompare.Proofs.Catalog.Lookup
import ExactCompare.Proofs.Plan.Installed

/-!
# Families of the planned operators

Which families an operator across types joins depends on the equality policy only. Where the
plan was just installed, these are the families that hold it, whatever members were there.
-/

namespace ExactCompare

/-- The families that an operator across types joins. -/
def CrossOperator.families (equality : EqualityRegistration) (x : CrossOperator) : List Family :=
  match x.op, equality with
  | .ne, _ => []
  | .eq, .allFamilies =>
    [⟨.btree, .integer⟩, ⟨.btree, .ofInexact x.inexact⟩, ⟨.hash, .ofInexact x.inexact⟩]
  | .eq, .integerFamilyOnly => [⟨.btree, .integer⟩, ⟨.hash, .ofInexact x.inexact⟩]
  | _, _ => [⟨.btree, .integer⟩, ⟨.btree, .ofInexact x.inexact⟩]

namespace Plan

variable {equality : EqualityRegistration} {x : CrossOperator} {f : Family}

/-- The plan adds the operator to the family. -/
def Joins (equality : EqualityRegistration) (x : CrossOperator) (f : Family) : Prop :=
  ∃ strategy, .addOperator f strategy x.signature ∈ changes equality

/-! ## What the plan says -/

theorem mem_btreeMembers_addOperator_iff {strategy : ℕ} :
    .addOperator f strategy x.signature ∈ btreeMembers equality ↔
      f.method = .btree ∧ (f.name = .integer ∨ f.name = .ofInexact x.inexact) ∧
        x.op.strategy? = some strategy ∧ (x.op = .eq → takesEquality equality f.name = true) := by
  rw [mem_btreeMembers_iff]
  constructor
  · rintro ⟨integer, inexact, order, name, hname, ⟨op, hop⟩ | hsupport⟩
    · obtain ⟨strategy', hstrategy, htakes, hchange⟩ := btreeOperator_eq_some_iff.mp hop
      obtain ⟨rfl, rfl, hsignature⟩ := Change.addOperator.inj hchange
      obtain rfl := CrossOperator.signature_injective hsignature
      exact ⟨rfl, hname, hstrategy, htakes⟩
    · cases hsupport
  · rintro ⟨hmethod, hname, hstrategy, htakes⟩
    refine ⟨x.integer, x.inexact, x.order, f.name, hname, .inl ⟨x.op, ?_⟩⟩
    refine btreeOperator_eq_some_iff.mpr ⟨strategy, hstrategy, htakes, ?_⟩
    rw [← hmethod]

theorem mem_hashOperators_addOperator_iff {strategy : ℕ} :
    .addOperator f strategy x.signature ∈ hashOperators ↔
      f = ⟨.hash, .ofInexact x.inexact⟩ ∧ strategy = 1 ∧ x.op = .eq := by
  rw [mem_hashOperators_iff]
  constructor
  · rintro ⟨y, hop, hchange⟩
    obtain ⟨rfl, rfl, hsignature⟩ := Change.addOperator.inj hchange
    obtain rfl := CrossOperator.signature_injective hsignature
    exact ⟨rfl, rfl, hop⟩
  · rintro ⟨rfl, rfl, hop⟩
    exact ⟨x, hop, rfl⟩

theorem mem_changes_addOperator_iff {strategy : ℕ} :
    .addOperator f strategy x.signature ∈ changes equality ↔
      .addOperator f strategy x.signature ∈ btreeMembers equality ∨
        .addOperator f strategy x.signature ∈ hashOperators := by
  rw [mem_changes_iff]
  constructor
  · rintro (⟨r, hr⟩ | hoperator | hbtree | hhash | hsupport)
    · cases hr
    · obtain ⟨y, hy⟩ := mem_operators_iff.mp hoperator
      cases hy
    · exact .inl hbtree
    · exact .inr hhash
    · obtain ⟨s, -, hs⟩ := mem_hashSupports_iff.mp hsupport
      cases hs
  · rintro (hbtree | hhash)
    · exact .inr (.inr (.inl hbtree))
    · exact .inr (.inr (.inr (.inl hhash)))

theorem joins_iff : Joins equality x f ↔
    (f.method = .btree ∧ (f.name = .integer ∨ f.name = .ofInexact x.inexact) ∧
      x.op.strategy?.isSome ∧ (x.op = .eq → takesEquality equality f.name = true)) ∨
    (f = ⟨.hash, .ofInexact x.inexact⟩ ∧ x.op = .eq) := by
  simp only [Joins, mem_changes_addOperator_iff, mem_btreeMembers_addOperator_iff,
    mem_hashOperators_addOperator_iff, Option.isSome_iff_exists]
  constructor
  · rintro ⟨strategy, ⟨hmethod, hname, hstrategy, htakes⟩ | ⟨hfamily, -, hop⟩⟩
    · exact .inl ⟨hmethod, hname, ⟨strategy, hstrategy⟩, htakes⟩
    · exact .inr ⟨hfamily, hop⟩
  · rintro (⟨hmethod, hname, ⟨strategy, hstrategy⟩, htakes⟩ | ⟨hfamily, hop⟩)
    · exact ⟨strategy, .inl ⟨hmethod, hname, hstrategy, htakes⟩⟩
    · exact ⟨1, .inr ⟨hfamily, rfl, hop⟩⟩

instance (equality : EqualityRegistration) (x : CrossOperator) (f : Family) :
    Decidable (Joins equality x f) := decidable_of_iff _ joins_iff.symm

theorem filter_joins (equality : EqualityRegistration) (x : CrossOperator) :
    Family.all.filter (Joins equality x ·) = x.families equality := by
  simp only [joins_iff]
  obtain ⟨op, integer, inexact, order⟩ := x
  cases op <;> cases inexact <;> cases equality <;> rfl

end Plan

/-! ## What the catalog has -/

namespace Catalog

variable {c c' : Catalog} {e : Identifier} {equality : EqualityRegistration} {x : CrossOperator}
  {oid : Oid} {f : Family} {m : FamilyMember} {o : OperatorEntry}

theorem exists_addOperator (hc : c.Valid) (hplan : (c.part e).IsPlan e equality)
    (hm : m ∈ (c.part e).members) (hkind : m.slot.kind = .operator) :
    ∃ strategy, ∃ o ∈ (c.part e).operators, o.oid = m.object ∧
      .addOperator m.family strategy o.signature ∈ Plan.changes equality := by
  have hplace := List.mem_map_of_mem (f := (·.place)) hm
  rw [hplan.made.places, List.mem_filterMap] at hplace
  obtain ⟨change, hchange, hplace⟩ := hplace
  cases change with
  | addOperator family strategy s =>
    obtain ⟨o, ho, rfl, hm'⟩ := hplan.held _ hchange
    have hsame := Option.some.inj hplace
    obtain rfl := List.inj_on_of_nodup_map hc.places (mem_part_members.mp hm').1
      (mem_part_members.mp hm).1 hsame
    exact ⟨strategy, o, ho, rfl, hchange⟩
  | addSupport family number left right function types =>
    have hslot := congrArg (·.2.kind) (Option.some.inj hplace)
    simp [FamilyMember.place, hkind] at hslot
  | createFunction | createOperator => cases hplace

theorem exists_member_iff_joins (hc : c.Valid) (hplan : (c.part e).IsPlan e equality)
    (ho : o ∈ (c.part e).operators) (hs : o.signature = x.signature)
    (hown : ∀ m ∈ c.members, m.slot.kind = .operator → m.object = o.oid → m.owner = some e) :
    (∃ m ∈ c.members, m.family = f ∧ m.slot.kind = .operator ∧ m.object = o.oid) ↔
      Plan.Joins equality x f := by
  constructor
  · rintro ⟨m, hm, rfl, hkind, hobject⟩
    have howner := hown m hm hkind hobject
    obtain ⟨strategy, o', ho', hoid, hchange⟩ :=
      exists_addOperator hc hplan (mem_part_members.mpr ⟨hm, howner⟩) hkind
    obtain rfl : o' = o := hc.eq_of_oid (mem_part_operators.mp ho').1 (mem_part_operators.mp ho).1
      (hoid.trans hobject)
    exact ⟨strategy, hs ▸ hchange⟩
  · rintro ⟨strategy, hchange⟩
    obtain ⟨o', ho', hs', hm⟩ := hplan.held _ hchange
    obtain rfl : o' = o := hc.eq_of_signature (mem_part_operators.mp ho').1
      (mem_part_operators.mp ho).1 (hs'.trans hs.symm)
    exact ⟨_, (mem_part_members.mp hm).1, rfl, rfl, rfl⟩

theorem familiesOf_eq (hc : c.Valid) (hplan : (c.part e).IsPlan e equality)
    (ho : o ∈ (c.part e).operators) (hs : o.signature = x.signature)
    (hown : ∀ m ∈ c.members, m.slot.kind = .operator → m.object = o.oid → m.owner = some e) :
    Manager.familiesOf c o.oid = x.families equality := by
  rw [← Plan.filter_joins, Manager.familiesOf]
  refine List.filter_congr fun f _ => ?_
  rw [Bool.eq_iff_iff, decide_eq_true_iff, ← exists_member_iff_joins hc hplan ho hs hown]
  simp [membersOf, List.any_filter, List.any_eq_true]

end Catalog

end ExactCompare
