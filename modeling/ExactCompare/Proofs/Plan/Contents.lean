import ExactCompare.Plan
import ExactCompare.Proofs.Catalog.Held

/-!
# What the plan contains

Every routine and every operator across types, the members of their families, and
nothing that refers to what the plan does not create.
-/

namespace ExactCompare

/-! ## All of a kind -/

theorem IntegerType.mem_all (t : IntegerType) : t ∈ all := by
  cases t <;> decide

theorem InexactType.mem_all (t : InexactType) : t ∈ all := by
  cases t <;> decide

theorem ComparisonOp.mem_all (op : ComparisonOp) : op ∈ all := by
  cases op <;> decide

theorem OperandOrder.mem_all (o : OperandOrder) : o ∈ all := by
  cases o <;> decide

theorem CrossOperator.mem_all (x : CrossOperator) : x ∈ all := by
  simp only [all, List.mem_flatMap, List.mem_map]
  exact ⟨x.order, x.order.mem_all, x.integer, x.integer.mem_all, x.inexact, x.inexact.mem_all,
    x.op, x.op.mem_all, rfl⟩

theorem SortSupport.mem_all (s : SortSupport) : s ∈ all := by
  simp only [all, List.mem_flatMap, List.mem_map]
  exact ⟨s.order, s.order.mem_all, s.integer, s.integer.mem_all, s.inexact, s.inexact.mem_all, rfl⟩

theorem HashSupport.mem_all (h : HashSupport) : h ∈ all := by
  simp only [all, List.mem_flatMap, List.mem_map]
  exact ⟨h.integer, h.integer.mem_all, h.target, h.target.mem_all, h.extended,
    by cases h.extended <;> decide, rfl⟩

theorem OperandOrder.eq_of_types {o o' : OperandOrder} {i i' : IntegerType} {x x' : InexactType}
    (hleft : o.left i x = o'.left i' x') (hright : o.right i x = o'.right i' x') :
    o = o' ∧ i = i' ∧ x = x' := by
  cases o <;> cases o' <;> simp_all [left, right, flip]

theorem CrossOperator.signature_injective {x y : CrossOperator}
    (h : x.signature = y.signature) : x = y := by
  obtain ⟨op, integer, inexact, order⟩ := x
  obtain ⟨op', integer', inexact', order'⟩ := y
  obtain ⟨rfl, hleft, hright⟩ := Signature.mk.inj h
  obtain ⟨rfl, rfl, rfl⟩ := OperandOrder.eq_of_types hleft hright
  rfl

namespace Change

theorem signature?_of_isMember (change : Change) (h : change.isMember = true) :
    change.signature? = none := by
  cases change <;> simp_all [isMember, signature?]

end Change

namespace Plan

variable {equality : EqualityRegistration} {change : Change}

/-! ## The parts of the plan -/

theorem mem_routines (r : Routine) : r ∈ routines := by
  simp only [routines, List.mem_append, List.mem_map]
  cases r with
  | operator x => exact .inl (.inl ⟨x, x.mem_all, rfl⟩)
  | sortSupport s => exact .inl (.inr ⟨s, s.mem_all, rfl⟩)
  | hash h => exact .inr ⟨h, h.mem_all, rfl⟩

theorem mem_operators_iff :
    change ∈ operators ↔ ∃ x : CrossOperator, change = .createOperator x.signature x.name := by
  simp only [operators, List.mem_map]
  constructor
  · rintro ⟨x, -, rfl⟩
    exact ⟨x, rfl⟩
  · rintro ⟨x, rfl⟩
    exact ⟨x, x.mem_all, rfl⟩

theorem mem_btreeMembers_iff : change ∈ btreeMembers equality ↔
    ∃ integer inexact order name, (name = .integer ∨ name = .ofInexact inexact) ∧
      ((∃ op, btreeOperator equality name { op, integer, inexact, order } = some change) ∨
        change = btreeSupport name { integer, inexact, order }) := by
  simp only [btreeMembers, btreeMembersInOrder, List.mem_flatMap, List.mem_append,
    List.mem_filterMap, List.mem_cons, List.not_mem_nil, or_false]
  constructor
  · rintro ⟨integer, -, inexact, -, name, hname, order, -, h⟩
    refine ⟨integer, inexact, order, name, hname, h.imp_left ?_⟩
    rintro ⟨op, -, hop⟩
    exact ⟨op, hop⟩
  · rintro ⟨integer, inexact, order, name, hname, h⟩
    refine ⟨integer, integer.mem_all, inexact, inexact.mem_all, name, hname, order,
      order.mem_all, h.imp_left ?_⟩
    rintro ⟨op, hop⟩
    exact ⟨op, op.mem_all, hop⟩

theorem btreeOperator_eq_some_iff {name : FamilyName} {x : CrossOperator} :
    btreeOperator equality name x = some change ↔
      ∃ strategy, x.op.strategy? = some strategy ∧
        (x.op = .eq → takesEquality equality name = true) ∧
        change = .addOperator ⟨.btree, name⟩ strategy x.signature := by
  unfold btreeOperator
  cases x.op.strategy? with
  | none => simp
  | some strategy =>
    simp only [Option.bind_eq_bind, Option.bind_some]
    split
    · rename_i h
      simp [h.1, h.2]
    · rename_i h
      simp only [not_and, Bool.not_eq_false] at h
      constructor
      · intro hsome
        exact ⟨strategy, rfl, h, (Option.some.inj hsome).symm⟩
      · rintro ⟨_, ⟨⟩, -, rfl⟩
        rfl

theorem mem_hashOperators_iff : change ∈ hashOperators ↔
    ∃ x : CrossOperator, x.op = .eq ∧
      change = .addOperator ⟨.hash, .ofInexact x.inexact⟩ 1 x.signature := by
  simp only [hashOperators, List.mem_flatMap, List.mem_map]
  constructor
  · rintro ⟨integer, -, inexact, -, order, -, rfl⟩
    exact ⟨⟨.eq, integer, inexact, order⟩, rfl, rfl⟩
  · rintro ⟨⟨op, integer, inexact, order⟩, hop, rfl⟩
    obtain rfl : op = .eq := hop
    exact ⟨integer, integer.mem_all, inexact, inexact.mem_all, order, order.mem_all, rfl⟩

theorem mem_hashSupports_iff : change ∈ hashSupports ↔
    ∃ h : HashSupport, h.target ≠ .float4 ∧ change = hashSupport h := by
  simp only [hashSupports, List.mem_flatMap, List.mem_map]
  constructor
  · rintro ⟨integer, -, target, htarget, extended, -, rfl⟩
    refine ⟨⟨integer, target, extended⟩, ?_, rfl⟩
    rintro rfl
    revert htarget
    decide
  · rintro ⟨⟨integer, target, extended⟩, htarget, rfl⟩
    refine ⟨integer, integer.mem_all, target, ?_, extended, by cases extended <;> decide, rfl⟩
    cases target with
    | float4 => exact absurd rfl htarget
    | numeric | float8 => decide

/-- The members of all families, after the functions and the operators. -/
def members (equality : EqualityRegistration) : List Change :=
  btreeMembers equality ++ hashOperators ++ hashSupports

theorem changes_eq (equality : EqualityRegistration) :
    changes equality = routines.map .createFunction ++ (operators ++ members equality) := by
  simp only [changes, members, List.append_assoc]

theorem isMember_of_mem_members (h : change ∈ members equality) : change.isMember = true := by
  simp only [members, List.mem_append] at h
  rcases h with (h | h) | h
  · obtain ⟨integer, inexact, order, name, -, ⟨op, hop⟩ | rfl⟩ := mem_btreeMembers_iff.mp h
    · obtain ⟨strategy, -, -, rfl⟩ := btreeOperator_eq_some_iff.mp hop
      rfl
    · rfl
  · obtain ⟨x, -, rfl⟩ := mem_hashOperators_iff.mp h
    rfl
  · obtain ⟨s, -, rfl⟩ := mem_hashSupports_iff.mp h
    rfl

theorem mem_changes_iff : change ∈ changes equality ↔
    (∃ r, change = .createFunction r) ∨ change ∈ operators ∨ change ∈ btreeMembers equality ∨
      change ∈ hashOperators ∨ change ∈ hashSupports := by
  simp only [changes, List.mem_append, List.mem_map, or_assoc]
  refine or_congr_left ⟨?_, ?_⟩
  · rintro ⟨r, -, rfl⟩
    exact ⟨r, rfl⟩
  · rintro ⟨r, rfl⟩
    exact ⟨r, mem_routines r, rfl⟩

/-! ## What the plan creates -/

theorem filterMap_signature (equality : EqualityRegistration) :
    (changes equality).filterMap (·.signature?) = CrossOperator.all.map (·.signature) := by
  have hfunctions : (routines.map Change.createFunction).filterMap (·.signature?) = [] := by
    simp [List.filterMap_map, Change.signature?]
  have hmembers : (members equality).filterMap (·.signature?) = [] := by
    rw [List.filterMap_eq_nil_iff]
    intro change h
    exact change.signature?_of_isMember (isMember_of_mem_members h)
  rw [changes_eq, List.filterMap_append, List.filterMap_append, hfunctions, hmembers, operators,
    List.filterMap_map]
  simp [Function.comp_def, Change.signature?]

theorem filterMap_place (equality : EqualityRegistration) :
    (changes equality).filterMap (·.place?) = (members equality).filterMap (·.place?) := by
  have hfunctions : (routines.map Change.createFunction).filterMap (·.place?) = [] := by
    simp [List.filterMap_map, Change.place?]
  have hoperators : operators.filterMap (·.place?) = [] := by
    simp [operators, List.filterMap_map, Change.place?]
  rw [changes_eq, List.filterMap_append, List.filterMap_append, hfunctions, hoperators]
  rfl

/-! ## References -/

theorem createFunction_mem_changes (r : Routine) : .createFunction r ∈ changes equality :=
  mem_changes_iff.mpr (.inl ⟨r, rfl⟩)

theorem createOperator_mem_changes (x : CrossOperator) :
    .createOperator x.signature x.name ∈ changes equality :=
  mem_changes_iff.mpr (.inr (.inl (mem_operators_iff.mpr ⟨x, rfl⟩)))

theorem refersTo_of_routine {r : Routine} (hfunction : change.functionRef? = some r.key)
    (hoperator : change.operatorRef? = none) :
    change.RefersTo (routines.map .createFunction) where
  function key hkey := by
    rw [hfunction] at hkey
    exact ⟨r, List.mem_map_of_mem (mem_routines r), Option.some.inj hkey⟩
  operator s hs := by
    rw [hoperator] at hs
    cases hs

theorem refersTo_of_operator (family : Family) (strategy : Nat) (x : CrossOperator) :
    (Change.addOperator family strategy x.signature).RefersTo operators where
  function := nofun
  operator := by
    rintro _ ⟨⟩
    exact ⟨x.name, mem_operators_iff.mpr ⟨x, rfl⟩⟩

theorem refersTo_of_mem_operators (h : change ∈ operators) :
    change.RefersTo (routines.map .createFunction) := by
  obtain ⟨x, rfl⟩ := mem_operators_iff.mp h
  exact refersTo_of_routine (r := .operator x) rfl rfl

theorem refersTo_of_mem_members (h : change ∈ members equality) :
    change.RefersTo (routines.map .createFunction ++ operators) := by
  have hfunctions := List.subset_append_left (routines.map Change.createFunction) operators
  have hoperators := List.subset_append_right (routines.map Change.createFunction) operators
  simp only [members, List.mem_append] at h
  rcases h with (h | h) | h
  · obtain ⟨integer, inexact, order, name, -, ⟨op, hop⟩ | rfl⟩ := mem_btreeMembers_iff.mp h
    · obtain ⟨strategy, -, -, rfl⟩ := btreeOperator_eq_some_iff.mp hop
      exact (refersTo_of_operator _ _ _).mono hoperators
    · exact (refersTo_of_routine (r := .sortSupport ⟨integer, inexact, order⟩) rfl rfl).mono
        hfunctions
  · obtain ⟨x, -, rfl⟩ := mem_hashOperators_iff.mp h
    exact (refersTo_of_operator _ _ _).mono hoperators
  · obtain ⟨support, -, rfl⟩ := mem_hashSupports_iff.mp h
    exact (refersTo_of_routine (r := .hash support) rfl rfl).mono hfunctions

theorem refersTo_changes (h : change ∈ changes equality) :
    change.RefersTo (changes equality) := by
  rw [changes_eq, ← List.append_assoc] at h ⊢
  rcases List.mem_append.mp h with h | h
  · rcases List.mem_append.mp h with h | h
    · obtain ⟨r, -, rfl⟩ := List.mem_map.mp h
      exact ⟨nofun, nofun⟩
    · exact (refersTo_of_mem_operators h).mono fun _ hmem =>
        List.mem_append_left _ (List.mem_append_left _ hmem)
  · exact (refersTo_of_mem_members h).mono (List.subset_append_left _ _)

end Plan

end ExactCompare
