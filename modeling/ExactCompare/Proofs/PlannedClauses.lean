import ExactCompare.Proofs.Planning

/-!
# Which clauses are planned

A clause whose operator is recognised, with a column where the operator has its integer, is
planned for every constant of the operator's other type. All other clauses stay as they are. What
is planned refers to built-in operators, which are in every catalog.
-/

namespace ExactCompare

/-! ## Clauses that fit an operator -/

namespace Clause

variable {clause : Clause} {x : CrossOperator} {order : OperandOrder} {column : ColumnRef}
  {value : Option Literal} {constant : Literal}

/-- The clause has a column of the operator's integer type where the operator has its integer, and
a constant on the other side. -/
def Fits (clause : Clause) (x : CrossOperator) (column : ColumnRef) (value : Option Literal) :
    Prop :=
  (clause.left, clause.right) = x.order.arrange (.column column) (.constant value) ∧
    column.type = .integer x.integer

theorem sides?_eq_some_iff :
    clause.sides? = some (order, column, value) ↔
      (clause.left, clause.right) = order.arrange (.column column) (.constant value) := by
  refine ⟨fun h => ?_, sides?_eq⟩
  unfold sides? at h
  split at h
  · rename_i hleft hright
    cases h
    rw [hleft, hright]
    rfl
  · rename_i hleft hright
    cases h
    rw [hleft, hright]
    rfl
  · cases h

theorem planAs_null (h : clause.Fits x column none) : clause.planAs x = .ok .unchanged := by
  obtain ⟨hsides, htype⟩ := h
  unfold planAs
  simp [sides?_eq hsides, htype]

theorem planAs_constant (h : clause.Fits x column (some constant)) :
    clause.planAs x = planConstant x column constant := by
  obtain ⟨hsides, htype⟩ := h
  unfold planAs
  simp [sides?_eq hsides, htype]

theorem planAs_of_not_fits (h : ∀ column value, ¬ clause.Fits x column value) :
    clause.planAs x = .ok .unchanged := by
  unfold planAs
  split
  · rfl
  · rename_i order column value hsides
    rw [if_pos]
    by_contra hfits
    simp only [ne_eq, not_or, not_not] at hfits
    obtain ⟨rfl, htype⟩ := hfits
    exact h column value ⟨sides?_eq_some_iff.mp hsides, htype⟩

/-! ## Constants -/

/-- The comparison of a column with an integer of its own type, by the built-in operator. -/
def nativeComparison (column : ColumnRef) (t : IntegerType) (op : ComparisonOp) (bound : Int)
    (h : t.contains bound = true) : NativeComparison where
  column := column
  op := op
  operator := t.nativeOperator op
  constant := .integer t bound h
  bound := bound

theorem planConstant_of_type_ne (h : constant.type ≠ .inexact x.inexact) :
    planConstant x column constant =
      .error (.constantType x.name (.inexact x.inexact) constant.type) := by
  cases constant with
  | integer t n hn => rfl
  | inexact v =>
    have hv : v.type ≠ x.inexact := fun hv => h (congrArg ColumnType.inexact hv)
    simp [planConstant, Literal.inexactValue?, hv]

theorem planConstant_of_type (column : ColumnRef) (h : constant.type = .inexact x.inexact) :
    (∃ answer, planConstant x column constant = .ok (.constant answer)) ∨
      ∃ op bound hbound, planConstant x column constant =
        .ok (.native (nativeComparison column x.integer op bound hbound)) := by
  obtain ⟨v, hv, rfl⟩ := OperandOrder.exists_inexact_operand h
  obtain ⟨hne, hbound, -⟩ := Reduction.reduction_keeps_answers x.integerOriented x.integer v
  have hplan : planConstant x column (.inexact v) = .ok (toPlanned column x.integer
      (Reduction.ofComparison x.integerOriented x.integer v.decode)) := by
    simp [planConstant, Literal.inexactValue?, hv]
  rw [hplan]
  cases hr : Reduction.ofComparison x.integerOriented x.integer v.decode with
  | unchanged => exact absurd hr hne
  | constant answer => exact .inl ⟨answer, rfl⟩
  | native op bound =>
    have hin := hbound op bound hr
    refine .inr ⟨op, bound, hin, ?_⟩
    rw [toPlanned, Literal.ofInteger, dif_pos hin]
    rfl

theorem exists_nativeComparison {native : NativeComparison}
    (h : clause.planAs x = .ok (.native native)) :
    ∃ column constant op bound hbound, clause.Fits x column (some constant) ∧
      native = nativeComparison column x.integer op bound hbound := by
  by_cases hfits : ∃ column value, clause.Fits x column value
  · obtain ⟨column, value, hfits⟩ := hfits
    cases value with
    | none => simp [planAs_null hfits] at h
    | some constant =>
      rw [planAs_constant hfits] at h
      by_cases htype : constant.type = .inexact x.inexact
      · rcases planConstant_of_type column htype with ⟨answer, hplan⟩ | ⟨op, bound, hbound, hplan⟩
        · simp [hplan] at h
        · simp only [hplan, Except.ok.injEq, Planned.native.injEq] at h
          exact ⟨column, constant, op, bound, hbound, hfits, h.symm⟩
      · simp [planConstant_of_type_ne htype] at h
  · push Not at hfits
    simp [planAs_of_not_fits hfits] at h

end Clause

/-! ## Built-in operators -/

/-- The built-in comparison of two integers of one type, as it is in the catalog. -/
def nativeEntry (t : IntegerType) (op : ComparisonOp) : OperatorEntry where
  oid := t.nativeOperator op
  signature := ⟨op, .integer t, .integer t⟩
  function := none
  owner := none

theorem nativeEntry_mem_bootstrap (t : IntegerType) (op : ComparisonOp) :
    nativeEntry t op ∈ Catalog.bootstrap.operators := by
  have hall : ∀ t ∈ IntegerType.all, ∀ op ∈ ComparisonOp.all,
      nativeEntry t op ∈ Catalog.bootstrap.operators := by decide +kernel
  exact hall t t.mem_all op op.mem_all

theorem Catalog.Valid.operator?_native {c : Catalog} (hc : c.Valid) (t : IntegerType)
    (op : ComparisonOp) : c.operator? (t.nativeOperator op) = some (nativeEntry t op) := by
  have hbuiltin := nativeEntry_mem_bootstrap t op
  rw [← hc.operators_builtin] at hbuiltin
  exact hc.operator? (List.mem_filter.mp hbuiltin).1

/-! ## What a process plans -/

/-- The comparison is of the clause's column, by a built-in operator that is in the catalog, with
an integer of the column's type. -/
structure NativeComparison.StandsFor (native : NativeComparison) (c : Catalog) (clause : Clause)
    (t : IntegerType) : Prop where
  sides : ∃ order value, (clause.left, clause.right) =
    OperandOrder.arrange order (.column native.column) (.constant (some value))
  column : native.column.type = .integer t
  operator : ∃ entry, c.operator? native.operator = some entry ∧
    entry.signature = ⟨native.op, .integer t, .integer t⟩ ∧ entry.owner = none
  constant : ∃ h, native.constant = .integer t native.bound h

/-- The answer to a process that plans a clause on an operator it recognises. -/
structure Clause.PlannedBy (clause : Clause) (x : CrossOperator)
    (answer : Except HostError Answer) : Prop where
  null : ∀ column, clause.Fits x column none → answer = .ok (.planned .unchanged)
  mismatch : ∀ column constant, clause.Fits x column (some constant) →
    constant.type ≠ .inexact x.inexact →
      answer = .error (.plan (.constantType x.name (.inexact x.inexact) constant.type))
  planned : ∀ column constant, clause.Fits x column (some constant) →
    constant.type = .inexact x.inexact →
      (∃ truth, answer = .ok (.planned (.constant truth))) ∨
        ∃ native, answer = .ok (.planned (.native native))
  others : (∀ column value, ¬ clause.Fits x column value) → answer = .ok (.planned .unchanged)

namespace Host

variable {h : Host} {j : ℕ} {p : Process} {clause : Clause} {x : CrossOperator}

theorem step_lookUpOid (hp : h.processes[j]? = some p) (oid : Oid) :
    (h.step (.lookUpOid j oid)).1 =
      .ok (.crossOperator ((p.resolution h.catalog).operator? oid)) := by
  simp only [step, askCache, withProcess, hp]

theorem step_lookUpOid_iff (hp : h.processes[j]? = some p) {oid : Oid}
    {found : Option CrossOperator} :
    (h.step (.lookUpOid j oid)).1 = .ok (.crossOperator found) ↔
      (p.resolution h.catalog).operator? oid = found := by
  rw [step_lookUpOid hp, Except.ok.injEq, Answer.crossOperator.injEq]

/-- How a process plans a clause. -/
structure PlansClause (h : Host) (j : ℕ) (p : Process) (clause : Clause) : Prop where
  off : p.enabled = false → (h.step (.plan j clause)).1 = .ok (.planned .unchanged)
  unknown : (h.step (.lookUpOid j clause.operator)).1 = .ok (.crossOperator none) →
    (h.step (.plan j clause)).1 = .ok (.planned .unchanged)
  known : p.enabled = true → ∀ x,
    (h.step (.lookUpOid j clause.operator)).1 = .ok (.crossOperator (some x)) →
      clause.PlannedBy x (h.step (.plan j clause)).1
  native : ∀ native, (h.step (.plan j clause)).1 = .ok (.planned (.native native)) →
    ∃ t, native.StandsFor h.catalog clause t
  /-- A manager knows every operator across types that is in the catalog. -/
  recognised : p.manager.isSome → ∀ x,
    (h.step (.lookUpOid j clause.operator)).1 = .ok (.crossOperator (some x)) ↔
      h.catalog.findOperator? x.signature = some clause.operator

theorem step_plan_off (hp : h.processes[j]? = some p) (hoff : p.enabled = false) :
    (h.step (.plan j clause)).1 = .ok (.planned .unchanged) := by
  rw [step_plan_iff hp]
  unfold Process.plan
  simp [hoff]

theorem step_plan_unknown (hp : h.processes[j]? = some p)
    (hunknown : (p.resolution h.catalog).operator? clause.operator = none) :
    (h.step (.plan j clause)).1 = .ok (.planned .unchanged) := by
  rw [step_plan_iff hp]
  unfold Process.plan
  rw [hunknown]
  split <;> rfl

theorem step_plan_known (hp : h.processes[j]? = some p) (hon : p.enabled = true)
    (hknown : (p.resolution h.catalog).operator? clause.operator = some x) :
    (h.step (.plan j clause)).1 = ((clause.planAs x).map .planned).mapError .plan := by
  rw [step_plan hp]
  unfold Process.plan
  simp [hon, hknown]

theorem plannedBy_of_known (hp : h.processes[j]? = some p) (hon : p.enabled = true)
    (hknown : (p.resolution h.catalog).operator? clause.operator = some x) :
    clause.PlannedBy x (h.step (.plan j clause)).1 := by
  rw [step_plan_known hp hon hknown]
  constructor
  case null =>
    intro column hfits
    rw [Clause.planAs_null hfits]
    rfl
  case mismatch =>
    intro column constant hfits htype
    rw [Clause.planAs_constant hfits, Clause.planConstant_of_type_ne htype]
    rfl
  case planned =>
    intro column constant hfits htype
    rw [Clause.planAs_constant hfits]
    rcases Clause.planConstant_of_type column htype with ⟨truth, hplan⟩ | ⟨_, _, _, hplan⟩
    · rw [hplan]
      exact .inl ⟨truth, rfl⟩
    · rw [hplan]
      exact .inr ⟨_, rfl⟩
  case others =>
    intro hnone
    rw [Clause.planAs_of_not_fits hnone]
    rfl

theorem exists_planAs_of_native (hp : h.processes[j]? = some p) {native : NativeComparison}
    (hplan : (h.step (.plan j clause)).1 = .ok (.planned (.native native))) :
    ∃ x, clause.planAs x = .ok (.native native) := by
  rw [step_plan_iff hp] at hplan
  unfold Process.plan at hplan
  split at hplan
  · split at hplan
    · simp at hplan
    · exact ⟨_, hplan⟩
  · simp at hplan

theorem standsFor_of_native (hc : h.catalog.Valid) (hp : h.processes[j]? = some p)
    {native : NativeComparison}
    (hplan : (h.step (.plan j clause)).1 = .ok (.planned (.native native))) :
    ∃ t, native.StandsFor h.catalog clause t := by
  obtain ⟨x, hplan⟩ := exists_planAs_of_native hp hplan
  obtain ⟨column, constant, op, bound, hbound, ⟨hsides, htype⟩, rfl⟩ :=
    Clause.exists_nativeComparison hplan
  refine ⟨x.integer, ?_⟩
  exact {
    sides := ⟨x.order, constant, hsides⟩
    column := htype
    operator := ⟨_, hc.operator?_native x.integer op, rfl, rfl⟩
    constant := ⟨hbound, rfl⟩ }

end Host

/-! ## The theorem -/

/-- **Every clause that can be planned is planned.** After any run, a process with its flag on
plans a clause on an operator that it recognises if a column of the operator's integer type is
compared with a constant of the other type, and reports a constant of a wrong type. It leaves all
other clauses as they are. A native comparison is by a built-in operator that is in the catalog. -/
theorem clauses_are_planned (actions : List Action) (j : ℕ) (p : Process) (clause : Clause)
    (hp : (Host.bootstrap.run actions).processes[j]? = some p) :
    (Host.bootstrap.run actions).PlansClause j p clause := by
  have hc := Host.run_valid actions
  have hcoherent := Host.run_coherent actions p (List.mem_of_getElem? hp)
  constructor
  case off =>
    exact Host.step_plan_off hp
  case unknown =>
    rw [Host.step_lookUpOid_iff hp]
    exact Host.step_plan_unknown hp
  case known =>
    intro hon x hknown
    rw [Host.step_lookUpOid_iff hp] at hknown
    exact Host.plannedBy_of_known hp hon hknown
  case native =>
    intro native hplan
    exact Host.standsFor_of_native hc hp hplan
  case recognised =>
    intro hmanager x
    rw [Host.step_lookUpOid_iff hp, hcoherent.resolution_eq hmanager]
    exact Resolution.operator?_ofCatalog_iff hc

theorem clauses_are_planned_below_minimum :
    let x : CrossOperator := ⟨.lt, .int8, .numeric, .inexactFirst⟩
    let column : ColumnRef := ⟨Config.defaultExtension, .integer .int8⟩
    let clause (oid : Oid) (v : Inexact) : Clause :=
      ⟨oid, .constant (some (.inexact v)), .column column⟩
    let native : NativeComparison :=
      Clause.nativeComparison column .int8 .ge (-9223372036854775808) rfl
    ∃ h oid, h = Host.bootstrap.run ([.newManager .default] ++ [.activate 0]) ∧
      (h.step (.plan 0 (clause oid (.float8 .oneAndHalf)))).1 =
        .error (.plan (.constantType x.name (.inexact .numeric) (.inexact .float8))) ∧
      (h.step (.plan 0 (clause oid (.numeric .halfBelowMinimum)))).1 =
        .ok (.planned (.native native)) ∧
      ∃ t, native.StandsFor h.catalog (clause oid (.numeric .halfBelowMinimum)) t := by
  intro x column clause native
  obtain ⟨hmanager, hactivated, hprocess⟩ := Host.activate_first .default
  obtain ⟨oid, -, -, hfind⟩ := Host.exists_operator_of_activate hmanager hactivated x
  have hplans (v : Inexact) := clauses_are_planned _ 0 _ (clause oid v) hprocess
  have hlookup := ((hplans (.numeric .halfBelowMinimum)).recognised rfl x).mpr hfind
  have hknown := (Host.step_lookUpOid_iff hprocess).mp hlookup
  have hplan : (clause oid (.numeric .halfBelowMinimum)).planAs x = .ok (.native native) := by
    rw [Clause.planAs_constant ⟨rfl, rfl⟩]
    decide +kernel
  have hanswer := Host.step_plan_known hprocess rfl hknown
  rw [hplan] at hanswer
  refine ⟨_, oid, rfl, ?_, hanswer, (hplans _).native native hanswer⟩
  exact ((hplans (.float8 .oneAndHalf)).known rfl x hlookup).mismatch column _ ⟨rfl, rfl⟩ nofun

end ExactCompare
