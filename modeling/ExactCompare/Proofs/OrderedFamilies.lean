import ExactCompare.Proofs.Host.Activation
import ExactCompare.Proofs.Operators
import ExactCompare.Proofs.Plan.Families

/-!
# Ordered families are consistent

An operator that an activated manager has in an ordered family answers what its strategy says
of the sign that the family's support gives for the same operands. NaN satisfies no strategy.
-/

namespace ExactCompare

/-! ## Strategies -/

/-- What a strategy says of the sign of a comparison. -/
def StrategyHolds (strategy : ℕ) (sign : ℤ) : Prop :=
  match strategy with
  | 1 => sign < 0
  | 2 => sign ≤ 0
  | 3 => sign = 0
  | 4 => 0 ≤ sign
  | 5 => 0 < sign
  | _ => False

namespace ComparisonOp

variable {op : ComparisonOp} {strategy : ℕ}

theorem strategy_range (h : op.strategy? = some strategy) : 1 ≤ strategy ∧ strategy ≤ 5 := by
  cases op <;> simp only [strategy?, Option.some.injEq, reduceCtorEq] at h <;> omega

theorem ne_of_strategy (h : op.strategy? = some strategy) : op ≠ .ne := by
  rintro rfl
  cases h

theorem holds_iff_strategyHolds {α : Type} [LinearOrder α] (h : op.strategy? = some strategy)
    (x y : α) :
    op.Holds x y ↔ StrategyHolds strategy (if x < y then -1 else if y < x then 1 else 0) := by
  rcases lt_trichotomy x y with hlt | rfl | hgt
  · cases op <;> cases h <;> simp [Holds, StrategyHolds, hlt, hlt.le, hlt.ne, hlt.not_gt, hlt.not_ge]
  · cases op <;> cases h <;> simp [Holds, StrategyHolds]
  · cases op <;> cases h <;> simp [Holds, StrategyHolds, hgt, hgt.le, hgt.ne', hgt.not_gt, hgt.not_ge]

end ComparisonOp

namespace ExactValue

variable {op : ComparisonOp} {strategy : ℕ} {x y : ExactValue}

theorem satisfies_iff_strategyHolds (h : op.strategy? = some strategy) (hx : x ≠ .nan)
    (hy : y ≠ .nan) : Satisfies op x y ↔ StrategyHolds strategy (sortOrder x y) := by
  cases x with
  | nan => exact absurd rfl hx
  | number x =>
    cases y with
    | nan => exact absurd rfl hy
    | number y => exact ComparisonOp.holds_iff_strategyHolds h x y

theorem not_satisfies_nan_left (h : op.strategy? = some strategy) : ¬ Satisfies op .nan y :=
  ComparisonOp.ne_of_strategy h

theorem not_satisfies_nan_right (h : op.strategy? = some strategy) : ¬ Satisfies op x .nan := by
  cases x <;> exact ComparisonOp.ne_of_strategy h

end ExactValue

/-! ## Members of the ordered families -/

namespace Part.IsPlan

variable {owner : Identifier} {equality : EqualityRegistration} {p : Part} {m : FamilyMember}

theorem exists_btreeOperator (h : p.IsPlan owner equality) (hm : m ∈ p.members)
    (hmethod : m.family.method = .btree) (hkind : m.slot.kind = .operator) :
    ∃ x : CrossOperator, ∃ strategy, x.op.strategy? = some strategy ∧
      m.slot = ⟨.operator, strategy, x.left, x.right⟩ ∧
      (m.family.name = .integer ∨ m.family.name = .ofInexact x.inexact) ∧
      .addOperator m.family strategy x.signature ∈ Plan.changes equality := by
  have hplace := List.mem_map_of_mem (f := (·.place)) hm
  rw [h.made.places, List.mem_filterMap] at hplace
  obtain ⟨change, hchange, hplace⟩ := hplace
  rcases Plan.mem_changes_iff.mp hchange with
    ⟨r, rfl⟩ | hoperator | hbtree | hhash | hsupport
  · cases hplace
  · obtain ⟨x, rfl⟩ := Plan.mem_operators_iff.mp hoperator
    cases hplace
  · obtain ⟨integer, inexact, order, name, hname, ⟨op, hop⟩ | rfl⟩ :=
      Plan.mem_btreeMembers_iff.mp hbtree
    · obtain ⟨strategy, hstrategy, -, rfl⟩ := Plan.btreeOperator_eq_some_iff.mp hop
      obtain ⟨hfamily, hslot⟩ := Prod.mk.inj (Option.some.inj hplace)
      rw [← hfamily, ← hslot]
      exact ⟨_, strategy, hstrategy, rfl, hname, hchange⟩
    · have := congrArg (·.2.kind) (Option.some.inj hplace)
      simp [FamilyMember.place, hkind] at this
  · obtain ⟨x, -, rfl⟩ := Plan.mem_hashOperators_iff.mp hhash
    have := congrArg (·.1.method) (Option.some.inj hplace)
    simp [FamilyMember.place, hmethod] at this
  · obtain ⟨s, -, rfl⟩ := Plan.mem_hashSupports_iff.mp hsupport
    have := congrArg (·.1.method) (Option.some.inj hplace)
    simp [FamilyMember.place, hmethod] at this

theorem sortSupport (h : p.IsPlan owner equality) (s : SortSupport) {name : FamilyName}
    (hname : name = .integer ∨ name = .ofInexact s.inexact) :
    ∃ f ∈ p.functions, f.routine = some (.sortSupport s) ∧
      ⟨⟨.btree, name⟩, ⟨.support, 1, s.left, s.right⟩, f.oid, some owner⟩ ∈ p.members := by
  have hchange : Plan.btreeSupport name s ∈ Plan.changes equality :=
    Plan.mem_changes_iff.mpr (.inr (.inr (.inl (Plan.mem_btreeMembers_iff.mpr
      ⟨s.integer, s.inexact, s.order, name, hname, .inr rfl⟩))))
  obtain ⟨f, hf, hkey, hm⟩ := h.held _ hchange
  exact ⟨f, hf, h.routine_of_key (r := .sortSupport s) hf hkey, hm⟩

end Part.IsPlan

/-! ## Calls -/

theorem Literal.exactValue_ne_nan {l : Literal} {t : IntegerType} (h : l.type = .integer t) :
    l.exactValue ≠ .nan := by
  obtain ⟨n, hn, rfl⟩ := OperandOrder.exists_integer_operand h
  nofun

theorem CrossOperator.exactValue_ne_nan (x : CrossOperator) {left right : Literal}
    (hleft : left.type = x.left) (hright : right.type = x.right) :
    left.exactValue ≠ .nan ∨ right.exactValue ≠ .nan := by
  obtain ⟨op, integer, inexact, order⟩ := x
  cases order with
  | integerFirst => exact .inl (Literal.exactValue_ne_nan hleft)
  | inexactFirst => exact .inr (Literal.exactValue_ne_nan hright)

theorem ExactValue.sortOrder_nan_left {y : ExactValue} (hy : y ≠ .nan) : sortOrder .nan y = 1 := by
  cases y with
  | nan => exact absurd rfl hy
  | number => rfl

theorem ExactValue.sortOrder_nan_right {x : ExactValue} (hx : x ≠ .nan) :
    sortOrder x .nan = -1 := by
  cases x with
  | nan => exact absurd rfl hx
  | number => rfl

theorem Routine.invoke_sortSupport (s : SortSupport) (left right : Literal) :
    (Routine.sortSupport s).invoke [left, right] = (s.compare left right).map .order := rfl

namespace Catalog

variable {c : Catalog} {e : Identifier} {equality : EqualityRegistration} {m : FamilyMember}

/-- The answer of a member of an ordered family, and the sign that the family's support gives. A
NaN operand is above the other one, and the answer is no. -/
structure AnswersInOrder (c : Catalog) (m support : FamilyMember) (left right : Literal)
    (answer : Bool) (sign : ℤ) : Prop where
  operator : c.invokeOperator m.object left right = .ok answer
  support : c.invokeFunction support.object [left, right] = .ok (.order sign)
  strategy : left.exactValue ≠ .nan → right.exactValue ≠ .nan →
    (answer = true ↔ StrategyHolds m.slot.number sign)
  nan_left : left.exactValue = .nan → answer = false ∧ sign = 1
  nan_right : right.exactValue = .nan → answer = false ∧ sign = -1

theorem findOperator?_of_addOperator (hc : c.Valid) (hplan : (c.part e).IsPlan e equality)
    (hm : m ∈ (c.part e).members) {x : CrossOperator} {strategy : ℕ}
    (hslot : m.slot = ⟨.operator, strategy, x.left, x.right⟩)
    (hchange : .addOperator m.family strategy x.signature ∈ Plan.changes equality) :
    c.findOperator? x.signature = some m.object := by
  obtain ⟨o, ho, hs, hm'⟩ := hplan.held _ hchange
  have hsame := List.inj_on_of_nodup_map hc.places (mem_part_members.mp hm').1
    (mem_part_members.mp hm).1 (Prod.ext rfl hslot.symm)
  rw [← hs, hc.findOperator? (mem_part_operators.mp ho).1, ← hsame]

theorem exists_answersInOrder (hc : c.Valid) (hplan : (c.part e).IsPlan e equality)
    {x : CrossOperator} (hstrategy : x.op.strategy? = some m.slot.number)
    (hfind : c.findOperator? x.signature = some m.object) {f : FunctionEntry}
    (hf : f ∈ c.functions)
    (hroutine : f.routine = some (.sortSupport ⟨x.integer, x.inexact, x.order⟩))
    {support : FamilyMember} (hobject : support.object = f.oid) {left right : Literal}
    (hleft : left.type = x.left) (hright : right.type = x.right) :
    ∃ answer sign, c.AnswersInOrder m support left right answer sign := by
  obtain ⟨⟨answer, hanswer, htruth⟩, hsign, -⟩ := comparison_is_exact x left right hleft hright
  have hno : ¬ ExactValue.Satisfies x.op left.exactValue right.exactValue → answer = false := by
    rw [← htruth]
    exact Bool.eq_false_of_not_eq_true
  refine ⟨answer, ExactValue.sortOrder left.exactValue right.exactValue, ?_⟩
  exact {
    operator := by
      rw [invokeOperator_of_isPlan hc hplan hfind, hanswer]
      rfl
    support := by
      rw [hobject, hc.invokeFunction hf hroutine, Routine.invoke_sortSupport, hsign]
      rfl
    strategy := fun hl hr => by
      rw [htruth]
      exact ExactValue.satisfies_iff_strategyHolds hstrategy hl hr
    nan_left := fun hnan => by
      have hother := (x.exactValue_ne_nan hleft hright).resolve_left (not_not_intro hnan)
      rw [hnan] at hno ⊢
      exact ⟨hno (ExactValue.not_satisfies_nan_left hstrategy),
        ExactValue.sortOrder_nan_left hother⟩
    nan_right := fun hnan => by
      have hother := (x.exactValue_ne_nan hleft hright).resolve_right (not_not_intro hnan)
      rw [hnan] at hno ⊢
      exact ⟨hno (ExactValue.not_satisfies_nan_right hstrategy),
        ExactValue.sortOrder_nan_right hother⟩ }

end Catalog

/-! ## The theorem -/

/-- **Ordered families are consistent.** After a run that ends with the activation of a manager,
every operator that its extension has in an ordered family is there under one of the five
strategies, and the family has the support for its operand types. Whatever the operands are, the
answer of the operator is what the strategy says of the sign that the support gives. -/
theorem ordered_families_are_consistent (before : List Action) (i : ℕ) (m : Manager)
    (hmanager : (Host.bootstrap.run before).manager? i = some m)
    (hactivated : ((Host.bootstrap.run before).step (.activate i)).1 = .ok .done) :
    let c := (Host.bootstrap.run (before ++ [.activate i])).catalog
    ∀ member ∈ c.members, member.owner = some m.extension → member.family.method = .btree →
      member.slot.kind = .operator →
        (1 ≤ member.slot.number ∧ member.slot.number ≤ 5) ∧
        ∃ support ∈ c.membersOf member.family,
          support.slot = ⟨.support, 1, member.slot.left, member.slot.right⟩ ∧
          ∀ left right : Literal, left.type = member.slot.left → right.type = member.slot.right →
            ∃ answer sign, c.AnswersInOrder member support left right answer sign := by
  intro c member hmember howner hmethod hkind
  have hc : c.Valid := Host.run_valid _
  obtain ⟨-, hplan⟩ := Host.isPlan_run hmanager hactivated
  have hm := Catalog.mem_part_members.mpr ⟨hmember, howner⟩
  obtain ⟨x, strategy, hstrategy, hslot, hname, hchange⟩ :=
    hplan.exists_btreeOperator hm hmethod hkind
  obtain ⟨f, hf, hroutine, hsupport⟩ := hplan.sortSupport ⟨x.integer, x.inexact, x.order⟩ hname
  have hfind := Catalog.findOperator?_of_addOperator hc hplan hm hslot hchange
  have hfamily : (⟨.btree, member.family.name⟩ : Family) = member.family := by rw [← hmethod]
  rw [hfamily] at hsupport
  refine ⟨by rw [hslot]; exact ComparisonOp.strategy_range hstrategy, _,
    List.mem_filter.mpr ⟨(Catalog.mem_part_members.mp hsupport).1, decide_eq_true rfl⟩,
    by rw [hslot]; rfl, fun left right hleft hright => ?_⟩
  rw [hslot] at hleft hright
  exact Catalog.exists_answersInOrder hc hplan (by rw [hslot]; exact hstrategy) hfind
    (Catalog.mem_part_functions.mp hf).1 hroutine rfl hleft hright

theorem ordered_families_are_consistent_for_nan :
    let nan : Literal := .inexact (.float4 ⟨0x7FC00000, by decide⟩)
    let zero : Literal := .integer .int8 0 rfl
    let c := (Host.bootstrap.run ([.newManager .default] ++ [.activate 0])).catalog
    ∃ member ∈ c.membersOf ⟨.btree, .float⟩, ∃ support ∈ c.membersOf ⟨.btree, .float⟩,
      member.slot = ⟨.operator, 1, nan.type, zero.type⟩ ∧
      c.invokeOperator member.object nan zero = .ok false ∧
      c.invokeFunction support.object [nan, zero] = .ok (.order 1) := by
  intro nan zero
  let x : CrossOperator := ⟨.lt, .int8, .float4, .inexactFirst⟩
  have hchange : .addOperator ⟨.btree, .float⟩ 1 x.signature ∈ Plan.changes .allFamilies :=
    Plan.mem_changes_addOperator_iff.mpr (.inl (Plan.mem_btreeMembers_addOperator_iff.mpr
      ⟨rfl, .inr rfl, rfl, nofun⟩))
  obtain ⟨hmanager, hactivated, -⟩ := Host.activate_first .default
  have hconsistent := ordered_families_are_consistent _ 0 _ hmanager hactivated
  obtain ⟨-, hplan⟩ := Host.isPlan_run hmanager hactivated
  -- From here on nothing may compute what the catalog is.
  generalize (Host.bootstrap.run ([.newManager .default] ++ [.activate 0])).catalog = c
    at hconsistent hplan ⊢
  obtain ⟨o, -, -, hm⟩ := hplan.held _ hchange
  obtain ⟨hmember, howner⟩ := Catalog.mem_part_members.mp hm
  obtain ⟨-, support, hsupport, -, hcalls⟩ := hconsistent _ hmember howner rfl rfl
  obtain ⟨answer, sign, hordered⟩ := hcalls nan zero rfl rfl
  obtain ⟨rfl, rfl⟩ := hordered.nan_left rfl
  exact ⟨_, List.mem_filter.mpr ⟨hmember, rfl⟩, support, hsupport, rfl, hordered.operator,
    hordered.support⟩

end ExactCompare
