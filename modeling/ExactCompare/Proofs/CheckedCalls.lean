import ExactCompare.Proofs.Operators
import ExactCompare.Routine

/-!
# Calls are checked against the declaration

A call gives a result exactly if its arguments have the declared types, position by position. Its
error says that the number of arguments is wrong, or else which of them has another type. Operators
and sort supports check from left to right. A hash checks its seed first.
-/

namespace ExactCompare

/-! ## Checking one or two arguments -/

section Operands

variable (routine : String) (o : OperandOrder) (i : IntegerType) (x : InexactType)
  (left right : Literal)

theorem splitOperands_of_left_ne (h : left.type ≠ o.left i x) :
    splitOperands routine o i x left right =
      .error (.argumentType routine 0 (o.left i x) left.type) := if_pos h

theorem splitOperands_of_right_ne (hleft : left.type = o.left i x)
    (h : right.type ≠ o.right i x) :
    splitOperands routine o i x left right =
      .error (.argumentType routine 1 (o.right i x) right.type) :=
  (if_neg (not_not.mpr hleft)).trans (if_pos h)

theorem exists_splitOperands (hleft : left.type = o.left i x) (hright : right.type = o.right i x) :
    ∃ operands, splitOperands routine o i x left right = .ok operands := by
  obtain ⟨n, hn, v, rfl, rfl, rfl⟩ := OperandOrder.exists_operands hleft hright
  exact ⟨(n, v), splitOperands_arrange routine o i n hn v⟩

end Operands

namespace HashSupport

variable (h : HashSupport) (position : ℕ) {type : IntegerType} {argument : Literal}

theorem integerAt_of_type_ne (hne : argument.type ≠ .integer type) :
    h.integerAt position type argument =
      .error (.argumentType h.name position (.integer type) argument.type) := by
  cases argument with
  | integer t n hn =>
    have ht : t ≠ type := fun ht => hne (congrArg ColumnType.integer ht)
    exact if_neg ht
  | inexact v => rfl

theorem exists_integerAt (htype : argument.type = .integer type) :
    ∃ n, h.integerAt position type argument = .ok n := by
  obtain ⟨n, hn, rfl⟩ := OperandOrder.exists_integer_operand htype
  exact ⟨n, if_pos rfl⟩

end HashSupport

/-! ## Results -/

theorem Outcome.sortOrder_cases (o : Outcome) :
    o.sortOrder = -1 ∨ o.sortOrder = 0 ∨ o.sortOrder = 1 := by
  obtain ⟨ordering, _⟩ := o
  cases ordering with
  | lt => exact .inl rfl
  | eq => exact .inr (.inl rfl)
  | gt => exact .inr (.inr rfl)

theorem SortSupport.sortOrder_cases (s : SortSupport) (n : ℤ) (d : Decoded) :
    s.sortOrder n d = -1 ∨ s.sortOrder n d = 0 ∨ s.sortOrder n d = 1 := by
  unfold sortOrder
  split
  · exact Outcome.sortOrder_cases _
  · exact Outcome.sortOrder_cases _

namespace Routine

/-- The kind of result that a routine gives. -/
inductive Gives : Routine → RoutineResult → Prop
  | truth (c : CrossOperator) (answer : Bool) : Gives (.operator c) (.bool answer)
  | order (s : SortSupport) {order : ℤ} (h : order = -1 ∨ order = 0 ∨ order = 1) :
      Gives (.sortSupport s) (.order order)
  | hash {h : HashSupport} (hplain : h.extended = false) (value : UInt32) :
      Gives (.hash h) (.hash32 value)
  | hashExtended {h : HashSupport} (hextended : h.extended = true) (value : UInt64) :
      Gives (.hash h) (.hash64 value)

/-! ## The outcomes of a call -/

/-- The positions of the arguments, in the order in which their types are checked. -/
def checkOrder : Routine → List ℕ
  | operator _ | sortSupport _ => [0, 1]
  | hash h => if h.extended then [1, 0] else [0]

/-- The types at a position differ, and at those that are checked before it they do not. -/
structure FirstMismatch (r : Routine) (arguments : List Literal) (position : ℕ)
    (expected actual : ColumnType) : Prop where
  declared : r.argumentTypes[position]? = some expected
  given : (arguments.map (·.type))[position]? = some actual
  differs : actual ≠ expected
  first : ∃ before after, r.checkOrder = before ++ position :: after ∧
    ∀ p ∈ before, (arguments.map (·.type))[p]? = r.argumentTypes[p]?

/-- How a call can end, and when it ends in this way. -/
inductive Ends (r : Routine) (arguments : List Literal) :
    Except EvaluationError RoutineResult → Prop
  | done {result : RoutineResult} (htypes : arguments.map (·.type) = r.argumentTypes)
      (hgives : r.Gives result) : Ends r arguments (.ok result)
  | wrongCount (hlength : arguments.length ≠ r.argumentTypes.length) :
      Ends r arguments
        (.error (.argumentCount r.name r.argumentTypes.length arguments.length))
  | wrongType {position : ℕ} {expected actual : ColumnType}
      (hlength : arguments.length = r.argumentTypes.length)
      (hmismatch : r.FirstMismatch arguments position expected actual) :
      Ends r arguments (.error (.argumentType r.name position expected actual))

theorem ends_of_operands {α : Type} {r : Routine} {o : OperandOrder} {i : IntegerType}
    {x : InexactType} {f : ℤ × Inexact → α} {wrap : α → RoutineResult}
    (htypes : r.argumentTypes = [o.left i x, o.right i x]) (horder : r.checkOrder = [0, 1])
    (hgives : ∀ operands, r.Gives (wrap (f operands))) (left right : Literal) :
    r.Ends [left, right] (wrap <$> (splitOperands r.name o i x left right).map f) := by
  have hlength : [left, right].length = r.argumentTypes.length := by rw [htypes]; rfl
  by_cases hleft : left.type = o.left i x
  · by_cases hright : right.type = o.right i x
    · obtain ⟨operands, hsplit⟩ := exists_splitOperands r.name o i x left right hleft hright
      rw [hsplit]
      refine .done ?_ (hgives operands)
      rw [htypes, ← hleft, ← hright]
      rfl
    · rw [splitOperands_of_right_ne r.name o i x left right hleft hright]
      refine .wrongType hlength ⟨by rw [htypes]; rfl, rfl, hright, [0], [], horder, ?_⟩
      rw [List.forall_mem_singleton, htypes, ← hleft]
      rfl
  · rw [splitOperands_of_left_ne r.name o i x left right hleft]
    exact .wrongType hlength
      ⟨by rw [htypes]; rfl, rfl, hleft, [], [1], horder, List.forall_mem_nil _⟩

theorem ends_hash {h : HashSupport} (hplain : h.extended = false) (value : Literal) :
    (Routine.hash h).Ends [value] (.hash32 <$> h.hash value) := by
  have htypes : (Routine.hash h).argumentTypes = [.integer h.integer] := by
    simp [argumentTypes, HashSupport.argumentTypes, hplain]
  have horder : (Routine.hash h).checkOrder = [0] := by simp [checkOrder, hplain]
  have hlength : [value].length = (Routine.hash h).argumentTypes.length := by rw [htypes]; rfl
  unfold HashSupport.hash
  by_cases hvalue : value.type = .integer h.integer
  · obtain ⟨n, hn⟩ := h.exists_integerAt 0 hvalue
    rw [hn]
    refine .done ?_ (.hash hplain _)
    rw [htypes, ← hvalue]
    rfl
  · rw [h.integerAt_of_type_ne 0 hvalue]
    exact .wrongType hlength
      ⟨by rw [htypes]; rfl, rfl, hvalue, [], [], horder, List.forall_mem_nil _⟩

theorem ends_hashExtended {h : HashSupport} (hextended : h.extended = true)
    (value seed : Literal) :
    (Routine.hash h).Ends [value, seed] (.hash64 <$> h.hashExtended value seed) := by
  have htypes : (Routine.hash h).argumentTypes = [.integer h.integer, .integer .int8] := by
    simp [argumentTypes, HashSupport.argumentTypes, hextended]
  have horder : (Routine.hash h).checkOrder = [1, 0] := by simp [checkOrder, hextended]
  have hlength : [value, seed].length = (Routine.hash h).argumentTypes.length := by
    rw [htypes]; rfl
  unfold HashSupport.hashExtended
  by_cases hseed : seed.type = .integer .int8
  · obtain ⟨s, hs⟩ := h.exists_integerAt 1 hseed
    rw [hs]
    by_cases hvalue : value.type = .integer h.integer
    · obtain ⟨n, hn⟩ := h.exists_integerAt 0 hvalue
      rw [hn]
      refine .done ?_ (.hashExtended hextended _)
      rw [htypes, ← hvalue, ← hseed]
      rfl
    · rw [h.integerAt_of_type_ne 0 hvalue]
      refine .wrongType hlength ⟨by rw [htypes]; rfl, rfl, hvalue, [1], [], horder, ?_⟩
      rw [List.forall_mem_singleton, htypes, ← hseed]
      rfl
  · rw [h.integerAt_of_type_ne 1 hseed]
    exact .wrongType hlength
      ⟨by rw [htypes]; rfl, rfl, hseed, [], [0], horder, List.forall_mem_nil _⟩

theorem ends_of_length {r : Routine} {arguments : List Literal}
    (hlength : arguments.length = r.argumentTypes.length) : r.Ends arguments (r.invoke arguments) := by
  unfold invoke
  rw [if_neg (not_not.mpr hlength)]
  cases r with
  | operator c =>
    obtain ⟨left, right, rfl⟩ := List.length_eq_two.mp hlength
    exact ends_of_operands rfl rfl (fun _ => .truth c _) left right
  | sortSupport s =>
    obtain ⟨left, right, rfl⟩ := List.length_eq_two.mp hlength
    exact ends_of_operands rfl rfl (fun _ => .order s (s.sortOrder_cases _ _)) left right
  | hash h =>
    cases hextended : h.extended with
    | false =>
      have hone : arguments.length = 1 := by
        rw [hlength, argumentTypes, HashSupport.argumentTypes, hextended]
        rfl
      obtain ⟨value, rfl⟩ := List.length_eq_one_iff.mp hone
      exact ends_hash hextended value
    | true =>
      have htwo : arguments.length = 2 := by
        rw [hlength, argumentTypes, HashSupport.argumentTypes, hextended]
        rfl
      obtain ⟨value, seed, rfl⟩ := List.length_eq_two.mp htwo
      exact ends_hashExtended hextended value seed

theorem ends_invoke (r : Routine) (arguments : List Literal) :
    r.Ends arguments (r.invoke arguments) := by
  by_cases hlength : arguments.length = r.argumentTypes.length
  · exact ends_of_length hlength
  · have hwrong : r.invoke arguments =
        .error (.argumentCount r.name r.argumentTypes.length arguments.length) := if_pos hlength
    rw [hwrong]
    exact .wrongCount hlength

/-! ## Which outcome it is -/

/-- What a call is checked for, and what its errors say. -/
structure IsChecked (r : Routine) (arguments : List Literal) : Prop where
  ok_iff : (∃ result, r.invoke arguments = .ok result) ↔
    arguments.map (·.type) = r.argumentTypes
  gives : ∀ result, r.invoke arguments = .ok result → r.Gives result
  count_iff : ∀ name expected actual,
    r.invoke arguments = .error (.argumentCount name expected actual) ↔
      arguments.length ≠ r.argumentTypes.length ∧ name = r.name ∧
        expected = r.argumentTypes.length ∧ actual = arguments.length
  mismatch : arguments.length = r.argumentTypes.length →
    arguments.map (·.type) ≠ r.argumentTypes → ∃ position expected actual,
      r.FirstMismatch arguments position expected actual ∧
        r.invoke arguments = .error (.argumentType r.name position expected actual)

theorem FirstMismatch.types_ne {r : Routine} {arguments : List Literal} {position : ℕ}
    {expected actual : ColumnType} (h : r.FirstMismatch arguments position expected actual) :
    arguments.map (·.type) ≠ r.argumentTypes := by
  intro htypes
  have hgiven := h.given
  rw [htypes, h.declared] at hgiven
  exact h.differs (Option.some.inj hgiven).symm

theorem length_eq_of_types {r : Routine} {arguments : List Literal}
    (htypes : arguments.map (·.type) = r.argumentTypes) :
    arguments.length = r.argumentTypes.length := by
  rw [← htypes, List.length_map]

end Routine

/-- **Calls are checked.** Whatever the routine and its arguments, a call gives a result of the
routine's own kind, or an error that names what does not fit the declaration. -/
theorem calls_are_checked (r : Routine) (arguments : List Literal) : r.IsChecked arguments := by
  have hends := r.ends_invoke arguments
  generalize hresult : r.invoke arguments = result at hends
  cases hends with
  | @done result htypes hgives =>
    have hlength := Routine.length_eq_of_types htypes
    constructor <;> simp [hresult, htypes, hlength, hgives]
  | wrongCount hlength =>
    have htypes := mt Routine.length_eq_of_types hlength
    constructor <;> simp [hresult, htypes, hlength, eq_comm]
  | @wrongType position expected actual hlength hmismatch =>
    have htypes := hmismatch.types_ne
    constructor
    case mismatch => exact fun _ _ => ⟨position, expected, actual, hmismatch, hresult⟩
    all_goals simp [hresult, htypes, hlength]

end ExactCompare
