import ExactCompare.Proofs.Recognition

/-!
# Calls are typed

The types of an operator are stored with its signature, with its function and with the body of
the function. They stay the same three times, so a call can only fail for its operands, or
because there is nothing to run.
-/

namespace ExactCompare

/-! ## Operands of other types -/

theorem splitOperands_of_type_ne (routine : String) {o : OperandOrder} {i : IntegerType}
    {x : InexactType} {left right : Literal}
    (h : ¬ (left.type = o.left i x ∧ right.type = o.right i x)) :
    ∃ cause, splitOperands routine o i x left right = .error cause := by
  unfold splitOperands
  by_cases hleft : left.type = o.left i x
  · have hright : right.type ≠ o.right i x := fun hright => h ⟨hleft, hright⟩
    simp [hleft, hright]
  · simp [hleft]

theorem CrossOperator.evaluate_of_type_ne (x : CrossOperator) {left right : Literal}
    (h : ¬ (left.type = x.left ∧ right.type = x.right)) :
    ∃ cause, x.evaluate left right = .error cause := by
  obtain ⟨cause, hsplit⟩ := splitOperands_of_type_ne x.name h
  refine ⟨cause, ?_⟩
  unfold evaluate
  rw [hsplit]
  rfl

/-! ## What an operator can run -/

namespace Catalog

variable {c : Catalog} {o : OperatorEntry} {f : FunctionEntry}

/-- The function of the operator is there, and its body is a comparison. -/
def Callable (c : Catalog) (o : OperatorEntry) : Prop :=
  ∃ f ∈ c.functions, o.function = some f.oid ∧ ∃ x, f.routine = some (.operator x)

theorem invokeOperator_of_not_callable (hc : c.Valid) (ho : o ∈ c.operators)
    (h : ¬ c.Callable o) (left right : Literal) :
    c.invokeOperator o.oid left right = .error (.notCallable o.oid) := by
  have hnone : c.comparison? o = none := by
    by_contra hsome
    obtain ⟨x, hx⟩ := Option.ne_none_iff_exists'.mp hsome
    obtain ⟨f, hf, hfunction, hroutine⟩ := exists_of_comparison? hx
    exact h ⟨f, hf, hfunction, x, hroutine⟩
  unfold invokeOperator
  simp only [hc.operator? ho, hnone]

theorem Typed.argumentTypes_eq (htyped : c.Typed) (hc : c.Valid) (hf : f ∈ c.functions)
    {r : Routine} (hroutine : f.routine = some r) : r.argumentTypes = f.argumentTypes := by
  have hkey := (htyped.routine_iff hc hf).mp hroutine
  exact (congrArg Prod.fst hkey).symm

/-! ## Typed operators -/

/-- What a call of an operator can rely on. -/
structure IsTyped (c : Catalog) (o : OperatorEntry) : Prop where
  function : ∀ f ∈ c.functions, o.function = some f.oid →
    f.argumentTypes = [o.signature.left, o.signature.right]
  body : ∀ f ∈ c.functions, o.function = some f.oid → ∀ r, f.routine = some r →
    r.argumentTypes = [o.signature.left, o.signature.right]
  answered : c.Callable o → ∀ left right : Literal, left.type = o.signature.left →
    right.type = o.signature.right → ∃ answer, c.invokeOperator o.oid left right = .ok answer
  refused : c.Callable o → ∀ left right : Literal,
    ¬ (left.type = o.signature.left ∧ right.type = o.signature.right) →
      ∃ cause, c.invokeOperator o.oid left right = .error (.evaluation cause)
  uncallable : ¬ c.Callable o → ∀ left right : Literal,
    c.invokeOperator o.oid left right = .error (.notCallable o.oid)

theorem Typed.operands_eq (htyped : c.Typed) (hc : c.Valid) (ho : o ∈ c.operators)
    (hf : f ∈ c.functions) (hfunction : o.function = some f.oid) {x : CrossOperator}
    (hroutine : f.routine = some (.operator x)) :
    x.left = o.signature.left ∧ x.right = o.signature.right := by
  have hbody := htyped.argumentTypes_eq hc hf hroutine
  rw [htyped.operands o ho f hf hfunction] at hbody
  simpa [Routine.argumentTypes] using hbody

theorem Typed.isTyped (htyped : c.Typed) (hc : c.Valid) (ho : o ∈ c.operators) :
    c.IsTyped o where
  function := htyped.operands o ho
  body := by
    intro f hf hfunction r hroutine
    rw [htyped.argumentTypes_eq hc hf hroutine]
    exact htyped.operands o ho f hf hfunction
  answered := by
    rintro ⟨f, hf, hfunction, x, hroutine⟩ left right hleft hright
    obtain ⟨hl, hr⟩ := htyped.operands_eq hc ho hf hfunction hroutine
    obtain ⟨⟨answer, hanswer, -⟩, -⟩ :=
      comparison_is_exact x left right (hleft.trans hl.symm) (hright.trans hr.symm)
    refine ⟨answer, ?_⟩
    rw [hc.invokeOperator ho hf hfunction hroutine, hanswer]
    rfl
  refused := by
    rintro ⟨f, hf, hfunction, x, hroutine⟩ left right hne
    obtain ⟨hl, hr⟩ := htyped.operands_eq hc ho hf hfunction hroutine
    rw [← hl, ← hr] at hne
    obtain ⟨cause, hcause⟩ := x.evaluate_of_type_ne hne
    refine ⟨cause, ?_⟩
    rw [hc.invokeOperator ho hf hfunction hroutine, hcause]
    rfl
  uncallable := invokeOperator_of_not_callable hc ho

end Catalog

/-! ## The theorem -/

/-- **Calls are typed.** After any run, the function of an operator and the body of the function
take the operands of the signature, if they are there. A call of an operator that can be called
gives an answer for such operands, and an error of the evaluation for all others. Any other
operator cannot be called, whatever the operands. -/
theorem operators_are_typed (actions : List Action) :
    let c := (Host.bootstrap.run actions).catalog
    ∀ o ∈ c.operators, c.IsTyped o := by
  intro c o ho
  have hc : c.Valid := Host.run_valid actions
  have htyped : c.Typed := Catalog.typed_of_replay (Host.replay_history actions)
  exact htyped.isTyped hc ho

/-- An operator on a function of another extension, which is removed and comes back with a new
id, and an operator on a function of its own. -/
def reinstallActions : List Action :=
  let less : CrossOperator := ⟨.lt, .int4, .numeric, .integerFirst⟩
  let greater : CrossOperator := { less with op := .gt }
  let lender : Batch := ⟨⟨"lender", by decide, by decide, by decide⟩,
    [.createFunction (.operator less)]⟩
  let borrower : Batch := ⟨⟨"borrower", by decide, by decide, by decide⟩,
    [.createFunction (.operator greater), .createOperator less.signature less.name,
      .createOperator greater.signature greater.name]⟩
  [.createExtension lender, .createExtension borrower, .removeExtension lender.owner,
    .createExtension lender]

theorem operators_are_typed_after_reinstall :
    let c := (Host.bootstrap.run reinstallActions).catalog
    let integer : Literal := .integer .int4 1 rfl
    let numeric : Literal := .inexact (.numeric .zero)
    (c.findFunction? "int4_lt_numeric" [integer.type, numeric.type]).isSome ∧
      c.invokeOperator ⟨16386⟩ integer numeric = .error (.notCallable ⟨16386⟩) ∧
      (∃ answer, c.invokeOperator ⟨16387⟩ integer numeric = .ok answer) ∧
      ∃ cause, c.invokeOperator ⟨16387⟩ numeric integer = .error (.evaluation cause) := by
  intro c integer numeric
  let less : CrossOperator := ⟨.lt, .int4, .numeric, .integerFirst⟩
  let greater : CrossOperator := { less with op := .gt }
  let borrower : Identifier := ⟨"borrower", by decide, by decide, by decide⟩
  let lost : OperatorEntry := ⟨⟨16386⟩, less.signature, some ⟨16384⟩, some borrower⟩
  let own : OperatorEntry := ⟨⟨16387⟩, greater.signature, some ⟨16385⟩, some borrower⟩
  have hlost := operators_are_typed reinstallActions lost (by decide +kernel)
  have hown := operators_are_typed reinstallActions own (by decide +kernel)
  have hgone : ¬ c.Callable lost := by
    rintro ⟨f, hf, hfunction, -⟩
    have hnone : ∀ g ∈ c.functions, lost.function ≠ some g.oid := by decide +kernel
    exact hnone f hf hfunction
  have hthere : c.Callable own :=
    ⟨.ofRoutine ⟨16385⟩ borrower (.operator greater), by decide +kernel, rfl, greater, rfl⟩
  refine ⟨by decide +kernel, hlost.uncallable hgone integer numeric, ?_, ?_⟩
  · exact hown.answered hthere integer numeric rfl rfl
  · refine hown.refused hthere numeric integer ?_
    rintro ⟨hleft, -⟩
    cases hleft

end ExactCompare
