import ExactCompare.Proofs.Exact.Compare

/-!
# Operators and sort supports

Both check the types of their operands, and then answer with the truth about the
exact values.
-/

namespace ExactCompare

/-! ## Operands in order -/

namespace OperandOrder

/-- The operands in their order. -/
def arrange {α : Type} (o : OperandOrder) (integer other : α) : α × α :=
  match o with
  | integerFirst => (integer, other)
  | inexactFirst => (other, integer)

theorem arrange_flip {α : Type} (o : OperandOrder) (a b : α) :
    o.flip.arrange a b = (o.arrange a b).swap := by
  cases o <;> rfl

theorem exists_integer_operand {l : Literal} {i : IntegerType} (h : l.type = .integer i) :
    ∃ n hn, l = .integer i n hn := by
  cases l with
  | integer t n hn =>
    obtain rfl : t = i := by simpa [Literal.type] using h
    exact ⟨n, hn, rfl⟩
  | inexact v => simp [Literal.type] at h

theorem exists_inexact_operand {l : Literal} {x : InexactType} (h : l.type = .inexact x) :
    ∃ v : Inexact, v.type = x ∧ l = .inexact v := by
  cases l with
  | integer t n hn => simp [Literal.type] at h
  | inexact v => exact ⟨v, by simpa [Literal.type] using h, rfl⟩

theorem exists_operands {o : OperandOrder} {i : IntegerType} {x : InexactType}
    {left right : Literal} (hleft : left.type = o.left i x) (hright : right.type = o.right i x) :
    ∃ n hn v, Inexact.type v = x ∧ left = (o.arrange (.integer i n hn) (.inexact v)).1 ∧
      right = (o.arrange (.integer i n hn) (.inexact v)).2 := by
  cases o with
  | integerFirst =>
    obtain ⟨n, hn, rfl⟩ := exists_integer_operand hleft
    obtain ⟨v, hv, rfl⟩ := exists_inexact_operand hright
    exact ⟨n, hn, v, hv, rfl, rfl⟩
  | inexactFirst =>
    obtain ⟨v, hv, rfl⟩ := exists_inexact_operand hleft
    obtain ⟨n, hn, rfl⟩ := exists_integer_operand hright
    exact ⟨n, hn, v, hv, rfl, rfl⟩

end OperandOrder

theorem splitOperands_arrange (routine : String) (o : OperandOrder) (i : IntegerType) (n : Int)
    (hn : i.contains n = true) (v : Inexact) :
    splitOperands routine o i v.type (o.arrange (.integer i n hn) (.inexact v)).1
      (o.arrange (.integer i n hn) (.inexact v)).2 = .ok (n, v) := by
  cases o <;> simp [splitOperands, OperandOrder.arrange, OperandOrder.left, OperandOrder.right,
    OperandOrder.flip, Literal.type]

/-! ## Answers -/

theorem Outcome.satisfies_ofExact (op : ComparisonOp) (n : Int) (v : ExactValue) :
    (Outcome.ofExact n v).satisfies op = true ↔ ExactValue.Satisfies op (.ofRat n) v := by
  cases v with
  | nan => simp [ofExact, nan, satisfies, ExactValue.Satisfies, ExactValue.ofRat]
  | number x => exact op.accepts_cmp _ _

theorem Outcome.sortOrder_ofExact (n : Int) (v : ExactValue) :
    (Outcome.ofExact n v).sortOrder = ExactValue.sortOrder (.ofRat n) v := by
  cases v with
  | nan => rfl
  | number x =>
    rw [ofExact, ExactValue.ofRat, ExactValue.sortOrder]
    rcases lt_trichotomy (((n : ℚ) : WithTop ℚ) : ExtendedRat) x with h | h | h
    · rw [(cmp_eq_lt_iff _ _).mpr h]
      simp [ordered, sortOrder, h]
    · rw [(cmp_eq_eq_iff _ _).mpr h]
      simp [ordered, sortOrder, h]
    · rw [(cmp_eq_gt_iff _ _).mpr h]
      simp [ordered, sortOrder, h, h.not_gt]

theorem Outcome.sortOrder_reversed (o : Outcome) : o.reversed.sortOrder = -o.sortOrder := by
  obtain ⟨ordering, _⟩ := o
  cases ordering <;> rfl

theorem CrossOperator.evaluate_arrange (c : CrossOperator) (n : Int)
    (hn : c.integer.contains n = true) {v : Inexact} (hv : v.type = c.inexact) :
    c.evaluate (c.order.arrange (.integer c.integer n hn) (.inexact v)).1
      (c.order.arrange (.integer c.integer n hn) (.inexact v)).2 = .ok (c.holds n v.decode) := by
  rw [evaluate, ← hv, splitOperands_arrange]
  rfl

theorem CrossOperator.holds_iff (c : CrossOperator) {n : Int}
    (hn : c.integer.contains n = true) (v : Inexact) :
    c.holds n v.decode = true ↔
      ExactValue.Satisfies c.op (c.order.arrange (.ofRat n) v.exactValue).1
        (c.order.arrange (.ofRat n) v.exactValue).2 := by
  rw [holds, v.decode_eq_ofExact, compareInt_ofExact (natAbs_le_of_contains hn),
    Outcome.satisfies_ofExact, integerOriented]
  cases c.order with
  | integerFirst => rfl
  | inexactFirst => exact ExactValue.satisfies_commute _ _ _

theorem SortSupport.compare_arrange (s : SortSupport) (n : Int)
    (hn : s.integer.contains n = true) {v : Inexact} (hv : v.type = s.inexact) :
    s.compare (s.order.arrange (.integer s.integer n hn) (.inexact v)).1
      (s.order.arrange (.integer s.integer n hn) (.inexact v)).2 =
        .ok (ExactValue.sortOrder (s.order.arrange (.ofRat n) v.exactValue).1
          (s.order.arrange (.ofRat n) v.exactValue).2) := by
  rw [compare, ← hv, splitOperands_arrange]
  simp only [Except.map, sortOrder, v.decode_eq_ofExact,
    compareInt_ofExact (natAbs_le_of_contains hn)]
  cases s.order with
  | integerFirst => rw [Outcome.sortOrder_ofExact]; rfl
  | inexactFirst =>
    simp only [Outcome.sortOrder_reversed, Outcome.sortOrder_ofExact]
    rw [← ExactValue.sortOrder_swap]
    rfl

theorem exactValue_arrange (o : OperandOrder) {i : IntegerType} {n : Int}
    (hn : i.contains n = true) (v : Inexact) :
    o.arrange (.ofRat n) v.exactValue =
      Prod.map Literal.exactValue Literal.exactValue
        (o.arrange (.integer i n hn) (.inexact v)) := by
  cases o <;> rfl

/-! ## The theorem -/

/-- **Exact comparisons.** On operands of the declared types an operator answers with
the truth about their exact values. The sort support gives the sign of the
comparison, with NaN above every number, and the one for the other order negates it. -/
theorem comparison_is_exact (c : CrossOperator) (left right : Literal)
    (hleft : left.type = c.left) (hright : right.type = c.right) :
    (∃ answer, c.evaluate left right = .ok answer ∧
      (answer = true ↔ ExactValue.Satisfies c.op left.exactValue right.exactValue)) ∧
    (SortSupport.mk c.integer c.inexact c.order).compare left right =
      .ok (ExactValue.sortOrder left.exactValue right.exactValue) ∧
    (SortSupport.mk c.integer c.inexact c.order.flip).compare right left =
      .ok (-ExactValue.sortOrder left.exactValue right.exactValue) := by
  obtain ⟨n, hn, v, hv, rfl, rfl⟩ := OperandOrder.exists_operands hleft hright
  have hvalues := exactValue_arrange c.order hn v
  refine ⟨⟨_, c.evaluate_arrange n hn hv, ?_⟩, ?_, ?_⟩
  · rw [c.holds_iff hn v, hvalues]
    rfl
  · have := (SortSupport.mk c.integer c.inexact c.order).compare_arrange n hn hv
    rwa [hvalues] at this
  · have := (SortSupport.mk c.integer c.inexact c.order.flip).compare_arrange n hn hv
    simp only [OperandOrder.arrange_flip, hvalues, Prod.fst_swap, Prod.snd_swap] at this
    rwa [ExactValue.sortOrder_swap] at this

theorem comparison_is_exact_below_minimum :
    let c : CrossOperator := ⟨.lt, .int8, .numeric, .inexactFirst⟩
    let left : Literal := .inexact (.numeric .halfBelowMinimum)
    let right : Literal := .integer .int8 (-9223372036854775808) rfl
    c.evaluate left right = .ok true ∧
      ExactValue.Satisfies .lt left.exactValue right.exactValue := by
  intro c left right
  obtain ⟨⟨answer, hanswer, htruth⟩, -⟩ := comparison_is_exact c left right rfl rfl
  have htrue : c.evaluate left right = .ok true := by decide
  obtain rfl : answer = true := Except.ok.inj (hanswer.symm.trans htrue)
  exact ⟨htrue, htruth.mp rfl⟩

end ExactCompare
