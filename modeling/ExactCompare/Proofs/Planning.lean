import ExactCompare.Proofs.Host.Activation
import ExactCompare.Proofs.Operators
import ExactCompare.Proofs.Reduction

/-!
# Planning keeps answers

A clause on an installed operator answers after planning as the operator does when it
is called, whatever happened to the catalog before.
-/

namespace ExactCompare

/-! ## A clause and its operator -/

/-- The plan of a clause gives null for a null column, and for a value the answer of the
call. A clause whose call fails stays as it is. -/
def Planned.AnswersAs {ε : Type} (planned : Planned) (t : IntegerType)
    (call : Literal → Except ε Bool) : Prop :=
  (∀ kept, planned.evaluate none kept = none) ∧
    ∀ n (hn : t.contains n = true) (kept : Int → Bool),
      (∀ answer, call (.integer t n hn) = .ok answer → kept n = answer) →
        match call (.integer t n hn) with
        | .ok answer => planned.evaluate (some n) kept = some answer
        | .error _ => planned = .unchanged

namespace Planned

variable {ε ε' : Type} {planned : Planned} {t : IntegerType} {call : Literal → Except ε Bool}

theorem unchanged_answersAs (t : IntegerType) (call : Literal → Except ε Bool) :
    unchanged.AnswersAs t call := by
  refine ⟨fun _ => rfl, fun n hn kept hkept => ?_⟩
  split
  · rename_i answer hcall
    exact congrArg some (hkept answer hcall)
  · rfl

theorem answersAs_of_ok (h : ∀ n (hn : t.contains n = true), ∃ answer,
    call (.integer t n hn) = .ok answer ∧ ∀ kept, planned.evaluate (some n) kept = some answer) :
    planned.AnswersAs t call := by
  refine ⟨fun _ => rfl, fun n hn kept _ => ?_⟩
  obtain ⟨answer, hcall, heval⟩ := h n hn
  rw [hcall]
  exact heval kept

theorem AnswersAs.mapError (h : planned.AnswersAs t call) (f : ε → ε') :
    planned.AnswersAs t fun value => (call value).mapError f := by
  refine ⟨h.1, fun n hn kept hkept => ?_⟩
  have hanswers := h.2 n hn kept
  cases hcall : call (.integer t n hn) with
  | ok answer =>
    simp only [hcall, Except.mapError] at hanswers hkept ⊢
    exact hanswers fun _ hanswer => hkept _ (congrArg _ (Except.ok.inj hanswer))
  | error e =>
    simp only [hcall, Except.mapError] at hanswers hkept ⊢
    refine hanswers ?_
    rintro _ ⟨⟩

end Planned

namespace Clause

theorem evaluate_toPlanned (column : ColumnRef) (t : IntegerType) {r : Reduction}
    (hr : r ≠ .unchanged)
    (hbound : ∀ op bound, r = .native op bound → t.contains bound = true) (value : Option Int)
    (kept : Int → Bool) : (toPlanned column t r).evaluate value kept = r.evaluate value kept := by
  cases r with
  | unchanged => exact absurd rfl hr
  | constant answer => rfl
  | native op bound =>
    rw [toPlanned, Literal.ofInteger, dif_pos (hbound op bound rfl)]
    rfl

theorem sides?_eq {clause : Clause} {order : OperandOrder} {column : ColumnRef}
    {constant : Option Literal}
    (h : (clause.left, clause.right) = order.arrange (.column column) (.constant constant)) :
    clause.sides? = some (order, column, constant) := by
  obtain ⟨operator, left, right⟩ := clause
  cases order <;> cases h <;> rfl

variable {clause : Clause} {x : CrossOperator} {order : OperandOrder} {column : ColumnRef}
  {t : IntegerType} {constant : Literal} {planned : Planned}

theorem planConstant_answersAs (hplan : planConstant x column constant = .ok planned) :
    planned.AnswersAs x.integer fun value =>
      x.evaluate (x.order.arrange value constant).1 (x.order.arrange value constant).2 := by
  cases constant with
  | integer => cases hplan
  | inexact v =>
    by_cases hv : v.type = x.inexact
    · simp only [planConstant, Literal.inexactValue?, hv, ne_eq, not_true_eq_false, if_false,
        Except.ok.injEq] at hplan
      subst hplan
      obtain ⟨hne, hbound, heval⟩ :=
        Reduction.reduction_keeps_answers x.integerOriented x.integer v
      refine Planned.answersAs_of_ok fun n hn => ⟨_, x.evaluate_arrange n hn hv, fun kept => ?_⟩
      rw [evaluate_toPlanned column x.integer hne hbound, heval n hn kept]
      rfl
    · simp [planConstant, Literal.inexactValue?, hv] at hplan

theorem planAs_answersAs
    (hsides : (clause.left, clause.right) = order.arrange (.column column) (.constant (some constant)))
    (hcolumn : column.type = .integer t) (hplan : clause.planAs x = .ok planned) :
    planned.AnswersAs t fun value =>
      x.evaluate (order.arrange value constant).1 (order.arrange value constant).2 := by
  unfold planAs at hplan
  rw [sides?_eq hsides] at hplan
  dsimp only at hplan
  split at hplan
  · cases hplan
    exact Planned.unchanged_answersAs _ _
  · rename_i hside
    simp only [hcolumn, ColumnType.integer.injEq, not_or, ne_eq, not_not] at hside
    obtain ⟨rfl, rfl⟩ := hside
    exact planConstant_answersAs hplan

end Clause

/-! ## A process that plans -/

section Process

variable {p : Process} {c : Catalog} {clause : Clause} {x : CrossOperator} {planned : Planned}

theorem Process.plan_eq (clause : Clause) (hc : c.Valid) (hp : p.Coherent c) (hmanager : p.manager.isSome)
    (henabled : p.enabled = true) (hfind : c.findOperator? x.signature = some clause.operator) :
    (p.plan c clause).1 = clause.planAs x := by
  unfold plan
  rw [if_pos henabled, hp.resolution_eq hmanager, (Resolution.operator?_ofCatalog_iff hc).mpr hfind]

theorem Process.plan_answersAs {order : OperandOrder} {column : ColumnRef} {t : IntegerType}
    {constant : Literal} (hc : c.Valid) (hp : p.Coherent c) (hmanager : p.manager.isSome)
    (hfind : c.findOperator? x.signature = some clause.operator)
    (hsides : (clause.left, clause.right) = order.arrange (.column column) (.constant (some constant)))
    (hcolumn : column.type = .integer t) (hplan : (p.plan c clause).1 = .ok planned) :
    planned.AnswersAs t fun value =>
      x.evaluate (order.arrange value constant).1 (order.arrange value constant).2 := by
  by_cases henabled : p.enabled = true
  · rw [p.plan_eq clause hc hp hmanager henabled hfind] at hplan
    exact Clause.planAs_answersAs hsides hcolumn hplan
  · rw [plan, if_neg henabled] at hplan
    cases hplan
    exact Planned.unchanged_answersAs _ _

theorem Host.step_plan {h : Host} {j : ℕ} (hp : h.processes[j]? = some p) (clause : Clause) :
    (h.step (.plan j clause)).1 = ((p.plan h.catalog clause).1.map .planned).mapError .plan := by
  simp only [step, withProcess, hp]

theorem Host.step_plan_iff {h : Host} {j : ℕ} (hp : h.processes[j]? = some p) :
    (h.step (.plan j clause)).1 = .ok (.planned planned) ↔
      (p.plan h.catalog clause).1 = .ok planned := by
  rw [step_plan hp]
  cases (p.plan h.catalog clause).1 <;> simp [Except.map, Except.mapError]

end Process

/-! ## The theorem -/

/-- **Planning keeps answers.** A run activates a manager and goes on in any way, and an
operator that was installed is still there. Whatever a manager then plans for a clause on
this operator, with a column of an integer type and a constant that is not null, answers
for every value of the column as the operator does on the operands of the clause. -/
theorem planning_keeps_answers (before after : List Action) (i j : ℕ) (m : Manager)
    (clause : Clause) (order : OperandOrder) (column : ColumnRef) (t : IntegerType)
    (constant : Literal) (planned : Planned)
    (hmanager : (Host.bootstrap.run before).manager? i = some m)
    (hactivated : ((Host.bootstrap.run before).step (.activate i)).1 = .ok .done)
    (hoperator : clause.operator ∈ ((Host.bootstrap.run
      (before ++ [.activate i])).catalog.operatorsOwnedBy m.extension).map (·.oid))
    (hstill : clause.operator ∈
      (Host.bootstrap.run (before ++ .activate i :: after)).catalog.operators.map (·.oid))
    (hplanner : ((Host.bootstrap.run (before ++ .activate i :: after)).manager? j).isSome)
    (hsides : (clause.left, clause.right) =
      order.arrange (.column column) (.constant (some constant)))
    (hcolumn : column.type = .integer t)
    (hplan : ((Host.bootstrap.run (before ++ .activate i :: after)).step (.plan j clause)).1 =
      .ok (.planned planned)) :
    planned.AnswersAs t fun value =>
      (Host.bootstrap.run (before ++ .activate i :: after)).catalog.invokeOperator clause.operator
        (order.arrange value constant).1 (order.arrange value constant).2 := by
  have hvalid := Host.run_valid (before ++ .activate i :: after)
  have hcoherent := Host.run_coherent (before ++ .activate i :: after)
  have hactive := Host.run_valid (before ++ [.activate i])
  obtain ⟨hinstalled, hisPlan⟩ := Host.isPlan_of_activate (Host.run_valid before) hmanager hactivated
  rw [Host.run_append, Host.run_cons] at hvalid hcoherent hstill hplanner hplan ⊢
  rw [Host.run_concat] at hactive hoperator
  -- The part of the extension is still what the activation made it.
  have hpart := Catalog.Steps.part_eq (Host.follows_run _ after).steps hactive hinstalled
    hoperator hstill
  obtain ⟨o, ho, hoid⟩ := List.mem_map.mp hoperator
  rw [← Catalog.part_operators] at ho
  rw [← hpart] at hisPlan ho
  obtain ⟨x, hfind⟩ := Catalog.findOperator?_of_isPlan hvalid hisPlan ho
  rw [hoid] at hfind
  obtain ⟨m', hm'⟩ := Option.isSome_iff_exists.mp hplanner
  obtain ⟨p, hp, hpm⟩ := Option.bind_eq_some_iff.mp hm'
  have hanswers := p.plan_answersAs hvalid (hcoherent p (List.mem_of_getElem? hp))
    (hpm ▸ rfl) hfind hsides hcolumn ((Host.step_plan_iff hp).mp hplan)
  simp only [Catalog.invokeOperator_of_isPlan hvalid hisPlan hfind]
  exact hanswers.mapError CatalogError.evaluation

/-- The float `1.5` of 64 bits. -/
def Binary.oneAndHalf : Float8 where
  bits := 0x3FF8000000000000
  bits_lt := by decide

theorem planning_keeps_answers_at_first :
    let x : CrossOperator := ⟨.lt, .int4, .float8, .integerFirst⟩
    let column : ColumnRef := ⟨Config.defaultExtension, .integer .int4⟩
    let constant : Literal := .inexact (.float8 .oneAndHalf)
    let planned : Planned := .native ⟨column, .le, ⟨523⟩, .integer .int4 1 rfl, 1⟩
    ∃ oid,
      (Host.bootstrap.run ([.newManager .default] ++ [.activate 0])).catalog.findOperator?
        x.signature = some oid ∧
      ((Host.bootstrap.run ([.newManager .default] ++ [.activate 0])).step
        (.plan 0 ⟨oid, .column column, .constant (some constant)⟩)).1 = .ok (.planned planned) ∧
      planned.AnswersAs .int4 fun value =>
        (Host.bootstrap.run ([.newManager .default] ++ [.activate 0])).catalog.invokeOperator oid
          value constant := by
  intro x column constant planned
  obtain ⟨hmanager, hactivated, hprocess⟩ := Host.activate_first .default
  obtain ⟨oid, howned, hthere, hfind⟩ := Host.exists_operator_of_activate hmanager hactivated x
  have hplanner := congrArg Option.isSome (Host.manager?_eq hprocess)
  have hcoherent := Host.run_coherent _ _ (List.mem_of_getElem? hprocess)
  let clause : Clause := ⟨oid, .column column, .constant (some constant)⟩
  have hplanned : clause.planAs x = .ok planned := rfl
  have hplan := Process.plan_eq clause (Host.run_valid _) hcoherent rfl rfl hfind
  have hanswer := (Host.step_plan_iff hprocess).mpr (hplan.trans hplanned)
  have hanswers := planning_keeps_answers [.newManager .default] [] 0 0 (Host.firstManager .default)
    clause .integerFirst column .int4 constant planned hmanager hactivated howned hthere hplanner
    rfl rfl hanswer
  exact ⟨oid, hfind, hanswer, hanswers⟩

end ExactCompare
