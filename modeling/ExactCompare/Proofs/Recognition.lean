import ExactCompare.Proofs.Catalog.Typed
import ExactCompare.Proofs.Host.History
import ExactCompare.Proofs.Operators

/-!
# Recognised operators

A process recognises an operator by its signature, and a call runs the function that the
operator was made with. The two agree exactly if that function is still there and has the
name that belongs to the signature.
-/

namespace ExactCompare

/-! ## Telling operators apart -/

theorem ComparisonOp.eq_of_accepts {op op' : ComparisonOp}
    (h : ∀ o, op.accepts o = op'.accepts o) : op = op' := by
  have hlt := h .lt
  have heq := h .eq
  have hgt := h .gt
  revert hlt heq hgt
  cases op <;> cases op' <;> decide

theorem ComparisonOp.commute_injective {op op' : ComparisonOp} (h : op.commute = op'.commute) :
    op = op' := by
  revert h
  cases op <;> cases op' <;> decide

theorem OperandOrder.type_arrange (o : OperandOrder) {t : IntegerType} {n : Int}
    (hn : t.contains n = true) (v : Inexact) :
    (o.arrange (Literal.integer t n hn) (.inexact v)).1.type = o.left t v.type ∧
      (o.arrange (Literal.integer t n hn) (.inexact v)).2.type = o.right t v.type := by
  cases o <;> exact ⟨rfl, rfl⟩

/-- Zero in each inexact type. -/
def Inexact.zero : InexactType → Inexact
  | .numeric => .numeric .zero
  | .float4 => .float4 ⟨0, by decide⟩
  | .float8 => .float8 ⟨0, by decide⟩

theorem Inexact.type_zero (t : InexactType) : (zero t).type = t := by
  cases t <;> rfl

theorem Inexact.decode_zero (t : InexactType) : (zero t).decode = .zero := by
  cases t <;> decide +kernel

namespace CrossOperator

/-- An integer that compares with zero in any given way. -/
def sample : Ordering → Int
  | .lt => -1
  | .eq => 0
  | .gt => 1

theorem contains_sample (t : IntegerType) (o : Ordering) : t.contains (sample o) = true := by
  cases t <;> cases o <;> decide

theorem holds_sample (x : CrossOperator) (o : Ordering) :
    x.holds (sample o) (Inexact.zero x.inexact).decode = x.integerOriented.accepts o := by
  rw [holds, Inexact.decode_zero]
  cases o <;> rfl

theorem eq_of_operands {x y : CrossOperator} (hleft : y.left = x.left)
    (hright : y.right = x.right) : y = { x with op := y.op } := by
  obtain ⟨op, integer, inexact, order⟩ := x
  obtain ⟨op', integer', inexact', order'⟩ := y
  obtain ⟨rfl, rfl, rfl⟩ := OperandOrder.eq_of_types hleft hright
  rfl

theorem op_eq_of_integerOriented (x : CrossOperator) {op : ComparisonOp}
    (h : integerOriented { x with op } = x.integerOriented) : op = x.op := by
  unfold integerOriented at h
  cases hx : x.order with
  | integerFirst =>
    rw [hx] at h
    exact h
  | inexactFirst =>
    rw [hx] at h
    exact ComparisonOp.commute_injective h

theorem eq_of_evaluate {x y : CrossOperator} (hleft : y.left = x.left) (hright : y.right = x.right)
    (h : ∀ left right : Literal, left.type = x.left → right.type = x.right →
      y.evaluate left right = x.evaluate left right) : y = x := by
  have hy := eq_of_operands hleft hright
  rw [hy] at h ⊢
  have haccepts (o : Ordering) :
      (integerOriented { x with op := y.op }).accepts o = x.integerOriented.accepts o := by
    have hn := contains_sample x.integer o
    have hv := Inexact.type_zero x.inexact
    obtain ⟨htleft, htright⟩ := x.order.type_arrange hn (.zero x.inexact)
    rw [hv] at htleft htright
    have hsame := h _ _ htleft htright
    have hsecond := evaluate_arrange { x with op := y.op } _ hn hv
    rw [x.evaluate_arrange _ hn hv, hsecond, holds_sample, holds_sample] at hsame
    exact Except.ok.inj hsame
  rw [x.op_eq_of_integerOriented (ComparisonOp.eq_of_accepts haccepts)]

end CrossOperator

/-! ## What an operator does -/

namespace Catalog

variable {c : Catalog} {oid : Oid} {x : CrossOperator}

/-- A call with operands of the declared types answers as `x` does. -/
def BehavesAs (c : Catalog) (oid : Oid) (x : CrossOperator) : Prop :=
  ∀ left right : Literal, left.type = x.left → right.type = x.right →
    ∃ answer, x.evaluate left right = .ok answer ∧ c.invokeOperator oid left right = .ok answer

/-- The function of the operator is there, and has the name that belongs to `x`. -/
def HasOwnFunction (c : Catalog) (oid : Oid) (x : CrossOperator) : Prop :=
  ∃ o ∈ c.operators, o.oid = oid ∧ ∃ f ∈ c.functions, o.function = some f.oid ∧ f.name = x.name

theorem exists_of_comparison? {o : OperatorEntry} (h : c.comparison? o = some x) :
    ∃ f ∈ c.functions, o.function = some f.oid ∧ f.routine = some (.operator x) := by
  unfold comparison? at h
  split at h
  · rename_i y hroutine
    cases h
    obtain ⟨f, hf, hbody⟩ := Option.bind_eq_some_iff.mp hroutine
    obtain ⟨oid, hfunction, hfind⟩ := Option.bind_eq_some_iff.mp hf
    obtain rfl : f.oid = oid := of_decide_eq_true (List.find?_some hfind :)
    exact ⟨f, List.mem_of_find?_eq_some hfind, hfunction, hbody⟩
  · cases h

theorem exists_comparison {left right : Literal} {answer : Bool} (hc : c.Valid) {o : OperatorEntry}
    (ho : o ∈ c.operators) (h : c.invokeOperator o.oid left right = .ok answer) :
    ∃ y, c.comparison? o = some y := by
  rw [invokeOperator, hc.operator? ho] at h
  dsimp only at h
  cases hcomparison : c.comparison? o with
  | none =>
    rw [hcomparison] at h
    cases h
  | some y => exact ⟨y, rfl⟩

theorem BehavesAs.hasOwnFunction (hc : c.Valid) (htyped : c.Typed) {o : OperatorEntry}
    (ho : o ∈ c.operators) (hsignature : o.signature = x.signature) (h : c.BehavesAs o.oid x) :
    c.HasOwnFunction o.oid x := by
  obtain ⟨htleft, htright⟩ :=
    x.order.type_arrange (CrossOperator.contains_sample x.integer .eq) (.zero x.inexact)
  rw [Inexact.type_zero] at htleft htright
  obtain ⟨answer, -, hinvoke⟩ := h _ _ htleft htright
  obtain ⟨y, hcomparison⟩ := exists_comparison hc ho hinvoke
  obtain ⟨f, hf, hfunction, hroutine⟩ := exists_of_comparison? hcomparison
  have hkey := (htyped.routine_iff hc hf).mp hroutine
  have htypes := htyped.operands o ho f hf hfunction
  rw [hsignature] at htypes
  have hoperands : [y.left, y.right] = [x.left, x.right] :=
    (congrArg Prod.fst hkey).symm.trans htypes
  obtain ⟨hleft, hrest⟩ := List.cons.inj hoperands
  have hright := (List.cons.inj hrest).1
  obtain rfl : y = x := by
    refine CrossOperator.eq_of_evaluate hleft hright fun left right hl hr => ?_
    obtain ⟨answer, heval, hinvoke⟩ := h left right hl hr
    rw [hc.invokeOperator ho hf hfunction hroutine] at hinvoke
    rw [heval]
    cases hy : y.evaluate left right with
    | error e =>
      rw [hy] at hinvoke
      cases hinvoke
    | ok a =>
      rw [hy] at hinvoke
      cases hinvoke
      rfl
  exact ⟨o, ho, rfl, f, hf, hfunction, congrArg Prod.snd hkey⟩

theorem HasOwnFunction.behavesAs (hc : c.Valid) (htyped : c.Typed) {o : OperatorEntry}
    (ho : o ∈ c.operators) (hsignature : o.signature = x.signature)
    (h : c.HasOwnFunction o.oid x) : c.BehavesAs o.oid x := by
  obtain ⟨o', ho', hoid, f, hf, hfunction, hname⟩ := h
  obtain rfl := hc.eq_of_oid ho' ho hoid
  have htypes := htyped.operands o' ho f hf hfunction
  rw [hsignature] at htypes
  have hroutine : f.routine = some (.operator x) :=
    (htyped.routine_iff hc hf).mpr (Prod.ext htypes hname)
  intro left right hleft hright
  obtain ⟨⟨answer, heval, -⟩, -⟩ := comparison_is_exact x left right hleft hright
  refine ⟨answer, heval, ?_⟩
  rw [hc.invokeOperator ho hf hfunction hroutine, heval]
  rfl

end Catalog

/-! ## The theorem -/

theorem Host.step_lookUpOid_of_fresh {h : Host} {i : ℕ} {p : Process}
    (hp : h.processes[i]? = some p) (hfresh : p.cache = none) (oid : Oid) :
    (h.step (.lookUpOid i oid)).1 =
      .ok (.crossOperator ((Resolution.ofCatalog h.catalog).operator? oid)) := by
  simp only [step, askCache, withProcess, hp, Process.resolution, hfresh, Option.getD_none]

/-- **Recognised operators.** After any run, where a process with an empty cache recognises an
operator, calls of it answer as what it is recognised as exactly if its function is there and has
the name that belongs to the signature. -/
theorem recognised_operators_behave_iff (actions : List Action) (i : ℕ) (p : Process) (oid : Oid)
    (x : CrossOperator) (hp : (Host.bootstrap.run actions).processes[i]? = some p)
    (hfresh : p.cache = none)
    (hlookup : ((Host.bootstrap.run actions).step (.lookUpOid i oid)).1 =
      .ok (.crossOperator (some x))) :
    (Host.bootstrap.run actions).catalog.BehavesAs oid x ↔
      (Host.bootstrap.run actions).catalog.HasOwnFunction oid x := by
  have hc := Host.run_valid actions
  have htyped := Catalog.typed_of_replay (Host.replay_history actions)
  rw [Host.step_lookUpOid_of_fresh hp hfresh, Except.ok.injEq, Answer.crossOperator.injEq,
    Resolution.operator?_ofCatalog_iff hc] at hlookup
  obtain ⟨o, ho, hsignature, rfl⟩ := Catalog.exists_of_findOperator? hlookup
  exact ⟨fun h => h.hasOwnFunction hc htyped ho hsignature,
    fun h => h.behavesAs hc htyped ho hsignature⟩

/-- An extension whose `<` runs the function of `>`. -/
def misnamedActions : List Action :=
  let greater : CrossOperator := ⟨.gt, .int4, .numeric, .integerFirst⟩
  let batch : Batch := ⟨⟨"other", by decide, by decide, by decide⟩,
    [.createFunction (.operator greater),
      .createOperator { greater with op := .lt }.signature greater.name]⟩
  [.createExtension batch, .newPlanner true]

/-- The operator is recognised as `<`, and asks for `>` when it is called. -/
theorem recognised_operator_misbehaves :
    let x : CrossOperator := ⟨.lt, .int4, .numeric, .integerFirst⟩
    let h := Host.bootstrap.run misnamedActions
    (h.step (.lookUpOid 0 ⟨16385⟩)).1 = .ok (.crossOperator (some x)) ∧
      ¬ h.catalog.BehavesAs ⟨16385⟩ x := by
  intro x h
  refine ⟨by decide +kernel, fun hbehaves => ?_⟩
  let left : Literal := .integer .int4 (-1) rfl
  let right : Literal := .inexact (.numeric .zero)
  have htrue : x.evaluate left right = .ok true := by decide +kernel
  have hfalse : h.catalog.invokeOperator ⟨16385⟩ left right = .ok false := by decide +kernel
  obtain ⟨answer, heval, hinvoke⟩ := hbehaves left right rfl rfl
  rw [htrue] at heval
  rw [hfalse] at hinvoke
  cases heval
  cases hinvoke

theorem recognised_operator_behaves :
    let x : CrossOperator := ⟨.lt, .int4, .numeric, .integerFirst⟩
    let batch : Batch := ⟨Config.defaultExtension,
      [.createFunction (.operator x), .createOperator x.signature x.name]⟩
    let actions : List Action := [.createExtension batch, .newPlanner true]
    (Host.bootstrap.run actions).catalog.BehavesAs ⟨16385⟩ x := by
  intro x batch actions
  have hp : (Host.bootstrap.run actions).processes[0]? = some ⟨none, true, none⟩ := by
    decide +kernel
  have hlookup : ((Host.bootstrap.run actions).step (.lookUpOid 0 ⟨16385⟩)).1 =
      .ok (.crossOperator (some x)) := by decide +kernel
  let o : OperatorEntry := ⟨⟨16385⟩, x.signature, some ⟨16384⟩, some batch.owner⟩
  let f : FunctionEntry := .ofRoutine ⟨16384⟩ batch.owner (.operator x)
  have ho : o ∈ (Host.bootstrap.run actions).catalog.operators := by decide +kernel
  have hf : f ∈ (Host.bootstrap.run actions).catalog.functions := by decide +kernel
  exact (recognised_operators_behave_iff actions 0 _ ⟨16385⟩ x hp rfl hlookup).mpr
    ⟨o, ho, rfl, f, hf, rfl, rfl⟩

end ExactCompare
