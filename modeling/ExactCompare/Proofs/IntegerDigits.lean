import ExactCompare.Proofs.Hash.Digits
import ExactCompare.Proofs.Numeric.Integers
import Mathlib.Logic.Relation

/-!
# The digits of a 64-bit integer

The digits of an integer are divided out one by one, lowest first, into five slots. The slots are
never used up before the magnitude is, and the digits are those of the numeric of the integer.
-/

namespace ExactCompare.Hash

-- Powers are those that `Nat` and `Int` come with.
attribute [local instance (2000)] instPowNat

/-! ## Dividing out digits -/

/-- The digits that are written, lowest first, and the magnitude that is left. -/
structure Filling where
  written : List ℕ
  magnitude : ℕ

namespace Filling

/-- As long as some magnitude is left, its lowest digit goes into the next slot. -/
inductive Step : Filling → Filling → Prop
  | write {s : Filling} (h : s.magnitude ≠ 0) :
      Step s ⟨s.written ++ [s.magnitude % Numeric.base], s.magnitude / Numeric.base⟩

/-- What is reached from a magnitude and no digits, however many slots there are. -/
def Reaches (magnitude : ℕ) : Filling → Prop :=
  Relation.ReflTransGen Step ⟨[], magnitude⟩

theorem Step.digits_eq {s t : Filling} (h : Step s t) :
    t.written ++ Nat.digits Numeric.base t.magnitude =
      s.written ++ Nat.digits Numeric.base s.magnitude := by
  cases h with
  | write h =>
    rw [Nat.digits_def' (by decide) (Nat.pos_of_ne_zero h), List.append_assoc]
    rfl

theorem Reaches.digits_eq {m : ℕ} {s : Filling} (h : Reaches m s) :
    s.written ++ Nat.digits Numeric.base s.magnitude = Nat.digits Numeric.base m := by
  induction h with
  | refl => rfl
  | tail _ hstep ih => rw [hstep.digits_eq, ih]

theorem Reaches.length_lt {m slots : ℕ} {s : Filling} (h : Reaches m s)
    (hm : m < Numeric.base ^ slots) (hs : s.magnitude ≠ 0) : s.written.length < slots := by
  have hlength := congrArg List.length h.digits_eq
  have hpos := List.length_pos_iff.mpr (Nat.digits_ne_nil_iff_ne_zero (b := Numeric.base).mpr hs)
  have hle := (Nat.digits_length_le_iff (by decide : 1 < Numeric.base) m).mpr hm
  rw [List.length_append] at hlength
  omega

theorem Reaches.length_le {m slots : ℕ} {s : Filling} (h : Reaches m s)
    (hm : m < Numeric.base ^ slots) : s.written.length ≤ slots := by
  have hlength := congrArg List.length h.digits_eq
  have hle := (Nat.digits_length_le_iff (by decide : 1 < Numeric.base) m).mpr hm
  rw [List.length_append] at hlength
  omega

theorem reaches_fillSlots_from (slots : ℕ) (s : Filling) :
    Relation.ReflTransGen Step s
      ⟨s.written ++ (fillSlots slots s.magnitude).1, (fillSlots slots s.magnitude).2⟩ := by
  induction slots generalizing s with
  | zero =>
    rw [fillSlots, List.append_nil]
  | succ slots ih =>
    unfold fillSlots
    split
    case isTrue hzero =>
      rw [List.append_nil, ← hzero]
    case isFalse hne =>
      have hrest := ih ⟨s.written ++ [s.magnitude % Numeric.base], s.magnitude / Numeric.base⟩
      rw [List.append_assoc] at hrest
      exact .head (.write hne) hrest

theorem reaches_fillSlots (slots m : ℕ) :
    Reaches m ⟨(fillSlots slots m).1, (fillSlots slots m).2⟩ :=
  reaches_fillSlots_from slots ⟨[], m⟩

end Filling

/-! ## The digits of an integer -/

theorem fillSlots_eq_digits {slots m : ℕ} (h : m < Numeric.base ^ slots) :
    fillSlots slots m = (Nat.digits Numeric.base m, 0) := by
  have hleft := fillSlots_left slots m h
  have hdigits := (Filling.reaches_fillSlots slots m).digits_eq
  rw [hleft, Nat.digits_zero, List.append_nil] at hdigits
  exact Prod.ext hdigits hleft

variable {n : ℤ}

theorem integerDigits_eq (hn : n.natAbs < Numeric.base ^ maxDigits) :
    integerDigits n = ((Nat.digits Numeric.base n.natAbs).reverse,
      ((Nat.digits Numeric.base n.natAbs).length : ℤ) - 1) := by
  unfold integerDigits
  rw [fillSlots_eq_digits hn]

/-- The digits of an integer, highest first, and the weight of the first one. -/
structure Expands (n : ℤ) (ds : List ℕ) (weight : ℤ) : Prop where
  length : ds.length ≤ 5
  digits_lt : ∀ d ∈ ds, d < 10000
  first : ∀ d ∈ ds.head?, d ≠ 0
  weight_eq : weight = ds.length - 1
  sum : ∑ i : Fin ds.length, (ds[i] : ℚ) * 10000 ^ (weight - (i : ℕ) : ℤ) = |(n : ℚ)|

theorem head?_reverse_digits (m : ℕ) :
    ∀ d ∈ (Nat.digits Numeric.base m).reverse.head?, d ≠ 0 := by
  intro d hd
  rw [List.head?_reverse] at hd
  obtain ⟨hne, rfl⟩ := List.mem_getLast?_eq_getLast hd
  exact Nat.getLast_digit_ne_zero _ (Nat.digits_ne_nil_iff_ne_zero.mp hne)

theorem expands_integerDigits (hn : n.natAbs < Numeric.base ^ maxDigits) :
    Expands n (integerDigits n).1 (integerDigits n).2 where
  length := by
    rw [integerDigits_eq hn, List.length_reverse]
    exact (Nat.digits_length_le_iff (by decide) _).mpr hn
  digits_lt := integerDigits_lt n
  first := by
    rw [integerDigits_eq hn]
    exact head?_reverse_digits n.natAbs
  weight_eq := by
    rw [integerDigits_eq hn, List.length_reverse]
  sum := by
    rw [← digitSum_eq_sum, digitSum_integerDigits hn, ← Int.cast_abs, ← Nat.cast_natAbs]

/-! ## The digits that are hashed -/

theorem skipped_of_first {ds : List ℕ} (h : ∀ d ∈ ds.head?, d ≠ 0) : skipped ds = 0 := by
  cases ds with
  | nil => rfl
  | cons d ds => exact skipped_cons_of_ne_zero (h d rfl) ds

theorem wrapWeight_eq {weight : ℤ} (hmin : -2147483648 ≤ weight) (hmax : weight < 2147483648) :
    wrapWeight weight = weight :=
  Int.bmod_eq_of_le_mul_two (by omega) (by omega)

theorem significant?_of_first {ds : List ℕ} {weight : ℤ} (h : ∀ d ∈ ds.head?, d ≠ 0)
    (hmin : -2147483648 ≤ weight) (hmax : weight < 2147483648) :
    significant? ds weight = if ds = [] then none else some (Digits.trimEnd ds, weight) := by
  have hskipped := skipped_of_first h
  cases ds with
  | nil => rfl
  | cons d ds =>
    have hd : d ≠ 0 := h d rfl
    rw [significant?_of_counted (fun hzeros => hd (hzeros d List.mem_cons_self)) (by omega),
      hskipped, Nat.cast_zero, sub_zero, wrapWeight_eq hmin hmax, if_neg (List.cons_ne_nil d ds),
      List.dropWhile_cons_of_neg (by simpa using hd)]

theorem significant?_integerDigits (hn : IntegerType.int8.contains n = true) :
    significant? (integerDigits n).1 (integerDigits n).2 =
      if n = 0 then none else some ((Numeric.ofInt8 n hn).digits, (Numeric.ofInt8 n hn).weight) := by
  have hlt := Numeric.natAbs_lt_of_contains hn
  have hnil : (integerDigits n).1 = [] ↔ n = 0 := by
    rw [integerDigits_eq hlt, List.reverse_eq_nil_iff, Nat.digits_eq_nil_iff_eq_zero,
      Int.natAbs_eq_zero]
  have hexpands := expands_integerDigits hlt
  have hlength := hexpands.length
  have hweight := hexpands.weight_eq
  rw [significant?_of_first hexpands.first (by omega) (by omega)]
  simp only [hnil]
  split
  case isTrue => rfl
  case isFalse hne =>
    have hpos : 0 < (Nat.digits Numeric.base n.natAbs).length :=
      List.length_pos_iff.mpr (Nat.digits_ne_nil_iff_ne_zero.mpr (Int.natAbs_ne_zero.mpr hne))
    rw [integerDigits_eq hlt, Numeric.digits_ofInt8 hn, Numeric.weight_ofInt8 hn]
    dsimp only
    rw [Nat.cast_sub hpos, Nat.cast_one]

theorem length_digitBytes (ds : List ℕ) : (digitBytes ds).length = 2 * ds.length := by
  induction ds with
  | nil => rfl
  | cons d ds ih =>
    rw [digitBytes, List.flatMap_cons, List.length_append, ← digitBytes, ih, List.length_cons,
      List.length_cons, List.length_cons, List.length_nil]
    omega

end Hash

/-! ## The theorem -/

/-- **The digits of an integer stay in bounds.** However the magnitude is divided out, at most five
digits are written, and they expand the integer. Without the zeros at the end they are the digits of
its numeric, and at most ten bytes. Only zero has none. -/
theorem integer_digits_stay_in_bounds (n : ℤ) (hn : IntegerType.int8.contains n = true) :
    (∀ s, Hash.Filling.Reaches n.natAbs s →
      s.written.length ≤ 5 ∧ (s.magnitude ≠ 0 → s.written.length < 5)) ∧
    Hash.Filling.Reaches n.natAbs ⟨(Hash.integerDigits n).1.reverse, 0⟩ ∧
    Hash.Expands n (Hash.integerDigits n).1 (Hash.integerDigits n).2 ∧
    (Hash.significant? (Hash.integerDigits n).1 (Hash.integerDigits n).2 =
      if n = 0 then none
      else some ((Numeric.ofInt8 n hn).digits, (Numeric.ofInt8 n hn).weight)) ∧
    (Hash.digitBytes (Numeric.ofInt8 n hn).digits).length ≤ 10 := by
  have hlt := Numeric.natAbs_lt_of_contains hn
  refine ⟨fun s hs => ⟨hs.length_le hlt, hs.length_lt hlt⟩, ?_, Hash.expands_integerDigits hlt,
    Hash.significant?_integerDigits hn, ?_⟩
  · have hreached := Hash.Filling.reaches_fillSlots Hash.maxDigits n.natAbs
    rw [Hash.fillSlots_left Hash.maxDigits _ hlt] at hreached
    rwa [Hash.integerDigits, List.reverse_reverse]
  · have hlength := Numeric.length_digits_ofInt8_le hn
    rw [Hash.length_digitBytes]
    omega

theorem integer_digits_stay_in_bounds_at_minimum :
    let n : ℤ := -9223372036854775808
    IntegerType.int8.contains n = true ∧
      Hash.Filling.Reaches n.natAbs ⟨[5808, 5477, 368, 3372, 922], 0⟩ ∧
      Hash.Expands n [922, 3372, 368, 5477, 5808] 4 := by
  intro n
  have hdigits : Hash.integerDigits n = ([922, 3372, 368, 5477, 5808], 4) := by decide +kernel
  obtain ⟨-, hreached, hexpands, -, -⟩ := integer_digits_stay_in_bounds n rfl
  rw [hdigits] at hreached hexpands
  exact ⟨rfl, hreached, hexpands⟩

/-- Four zero digits are not hashed. -/
example : Hash.significant? (Hash.integerDigits (-30000000000000000)).1 4 = some ([3], 4) := by
  decide +kernel

end ExactCompare
