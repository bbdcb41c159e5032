/-!
# Digits in a base

A list of digits has its most significant digit first. `value` reads one, and
`ofNat` gives the digits of a number without leading zeros, so zero has none. Both
split into halves, which keeps numbers of many thousand digits fast.
-/

namespace ExactCompare.Digits

-- Powers are those that `Nat` and `Int` come with.
attribute [local instance (2000)] instPowNat

/-! ## The value of digits -/

def foldValue (base : Nat) (ds : List Nat) : Nat := ds.foldl (fun n d => n * base + d) 0

/-- Splits the list in halves, and those again, `k` times in all. -/
def splitValue (base : Nat) : Nat → List Nat → Nat
  | 0, ds => foldValue base ds
  | k + 1, ds =>
    let low := ds.drop (ds.length / 2)
    splitValue base k (ds.take (ds.length / 2)) * base ^ low.length + splitValue base k low

/-- The number that the digits stand for. Lists of up to 63 digits are not split. -/
def value (base : Nat) (ds : List Nat) : Nat := splitValue base (ds.length.log2 - 5) ds

theorem foldl_eq (base n : Nat) (ds : List Nat) :
    ds.foldl (fun n d => n * base + d) n = n * base ^ ds.length + foldValue base ds := by
  induction ds generalizing n with
  | nil => simp [foldValue]
  | cons d ds ih =>
    simp only [foldValue, List.foldl_cons, List.length_cons, Nat.pow_succ]
    rw [ih, ih (0 * base + d)]
    grind

theorem foldValue_append (base : Nat) (a b : List Nat) :
    foldValue base (a ++ b) = foldValue base a * base ^ b.length + foldValue base b := by
  rw [foldValue, List.foldl_append, foldl_eq]
  rfl

theorem splitValue_eq (base k : Nat) (ds : List Nat) :
    splitValue base k ds = foldValue base ds := by
  induction k generalizing ds with
  | zero => rfl
  | succ k ih => simp only [splitValue, ih, ← foldValue_append, List.take_append_drop]

theorem value_eq_foldl (base : Nat) (ds : List Nat) :
    value base ds = ds.foldl (fun n d => n * base + d) 0 :=
  splitValue_eq base _ ds

theorem value_append (base : Nat) (a b : List Nat) :
    value base (a ++ b) = value base a * base ^ b.length + value base b := by
  simp only [value, splitValue_eq, foldValue_append]

/-! ## The digits of a number -/

/-- The lowest `2 ^ k` digits, with leading zeros. -/
def padded (base : Nat) : Nat → Nat → List Nat
  | 0, n => [n % base]
  | k + 1, n => padded base k (n / base ^ (2 ^ k : Nat)) ++ padded base k (n % base ^ (2 ^ k : Nat))

/-- The digits of a number below `base ^ 2 ^ k`. -/
def unpadded (base : Nat) : Nat → Nat → List Nat
  | 0, n => if n = 0 then [] else [n % base]
  | k + 1, n =>
    if n < base ^ (2 ^ k : Nat) then unpadded base k n
    else unpadded base k (n / base ^ (2 ^ k : Nat)) ++ padded base k (n % base ^ (2 ^ k : Nat))

/-- How often a number has to be halved: it is below `2 ^ 2 ^ halvings n`. -/
def halvings (n : Nat) : Nat := n.log2.log2 + 1

def ofNat (base n : Nat) : List Nat := unpadded base (halvings n) n

/-! ## Size of the digits -/

theorem length_padded (base k n : Nat) : (padded base k n).length = 2 ^ k := by
  induction k generalizing n with
  | zero => rfl
  | succ k ih => simp only [padded, List.length_append, ih]; omega

theorem lt_of_mem_padded {base : Nat} (pos : 0 < base) {k n d : Nat}
    (h : d ∈ padded base k n) : d < base := by
  induction k generalizing n with
  | zero =>
    simp only [padded, List.mem_singleton] at h
    exact h ▸ Nat.mod_lt n pos
  | succ k ih =>
    simp only [padded, List.mem_append] at h
    exact h.elim ih ih

theorem lt_of_mem_unpadded {base : Nat} (pos : 0 < base) {k n d : Nat}
    (h : d ∈ unpadded base k n) : d < base := by
  induction k generalizing n with
  | zero =>
    simp only [unpadded] at h
    split at h
    · simp at h
    · simp only [List.mem_singleton] at h
      exact h ▸ Nat.mod_lt n pos
  | succ k ih =>
    simp only [unpadded] at h
    split at h
    · exact ih h
    · exact (List.mem_append.mp h).elim ih (lt_of_mem_padded pos)

theorem lt_of_mem_ofNat {base : Nat} (pos : 0 < base) {n d : Nat} (h : d ∈ ofNat base n) :
    d < base :=
  lt_of_mem_unpadded pos h

theorem length_unpadded_le {base : Nat} (pos : 0 < base) {k n m : Nat} (h : n < base ^ m) :
    (unpadded base k n).length ≤ m := by
  induction k generalizing n m with
  | zero =>
    simp only [unpadded]
    split
    · simp
    · have : m ≠ 0 := by
        rintro rfl
        simp only [Nat.pow_zero] at h
        omega
      simp only [List.length_singleton]
      omega
  | succ k ih =>
    simp only [unpadded]
    split
    · exact ih h
    · rename_i large
      have more : 2 ^ k < m := by
        have powers : base ^ (2 ^ k : Nat) < base ^ m := by omega
        exact Nat.lt_of_not_le fun le =>
          Nat.not_le_of_lt powers (Nat.pow_le_pow_right pos le)
      have high : n / base ^ (2 ^ k : Nat) < base ^ (m - 2 ^ k) := by
        rw [Nat.div_lt_iff_lt_mul (Nat.pow_pos pos), ← Nat.pow_add]
        rwa [Nat.sub_add_cancel (Nat.le_of_lt more)]
      simp only [List.length_append, length_padded]
      have := ih high
      omega

/-- A number below `base ^ m` has at most `m` digits. -/
theorem length_ofNat_le {base : Nat} (pos : 0 < base) {n m : Nat} (h : n < base ^ m) :
    (ofNat base n).length ≤ m :=
  length_unpadded_le pos h

/-! ## The digits of a number stand for it -/

theorem value_padded (base k n : Nat) :
    value base (padded base k n) = n % base ^ (2 ^ k : Nat) := by
  induction k generalizing n with
  | zero => simp [padded, value_eq_foldl]
  | succ k ih =>
    rw [padded, value_append, ih, ih, length_padded, Nat.mod_mod, Nat.pow_succ, Nat.mul_two,
      Nat.pow_add, Nat.mod_mul, Nat.mul_comm, Nat.add_comm]

theorem value_unpadded {base k n : Nat} (h : n < base ^ (2 ^ k : Nat)) :
    value base (unpadded base k n) = n := by
  induction k generalizing n with
  | zero =>
    rw [unpadded]
    split
    · rename_i zero
      rw [zero]
      rfl
    · rw [value_eq_foldl]
      simp only [List.foldl_cons, List.foldl_nil, Nat.zero_mul, Nat.zero_add]
      exact Nat.mod_eq_of_lt (by simpa using h)
  | succ k ih =>
    rw [unpadded]
    split
    · rename_i small
      exact ih small
    · have high : n / base ^ (2 ^ k : Nat) < base ^ (2 ^ k : Nat) := by
        apply Nat.div_lt_of_lt_mul
        rwa [← Nat.pow_add, ← Nat.mul_two, ← Nat.pow_succ]
      rw [value_append, ih high, value_padded, length_padded, Nat.mod_mod, Nat.mul_comm]
      exact Nat.div_add_mod n _

theorem lt_two_pow_two_pow_halvings (n : Nat) : n < 2 ^ (2 ^ halvings n : Nat) := by
  have length : n.log2 + 1 ≤ 2 ^ halvings n := Nat.lt_log2_self
  exact Nat.lt_of_lt_of_le Nat.lt_log2_self (Nat.pow_le_pow_right (by decide) length)

theorem value_ofNat {base : Nat} (h : 2 ≤ base) (n : Nat) : value base (ofNat base n) = n :=
  value_unpadded
    (Nat.lt_of_lt_of_le (lt_two_pow_two_pow_halvings n) (Nat.pow_le_pow_left h _))

/-! ## Digits written out -/

/-- The decimal text of a number. -/
def decimal (n : Nat) : List Char :=
  match ofNat 10 n with
  | [] => ['0']
  | ds => ds.map Nat.digitChar

def decimalInt : Int → List Char
  | .ofNat n => decimal n
  | .negSucc n => '-' :: decimal (n + 1)

def digit? (c : Char) : Option Nat := if c.isDigit then some (c.toNat - 48) else none

/-! ## Trailing zeros -/

/-- Drops the zeros at the end of a list of digits. -/
def trimEnd (ds : List Nat) : List Nat := (ds.reverse.dropWhile (· == 0)).reverse

theorem mem_of_mem_trimEnd {ds : List Nat} {d : Nat} (h : d ∈ trimEnd ds) : d ∈ ds := by
  simp only [trimEnd, List.mem_reverse] at h
  exact List.mem_reverse.mp ((List.dropWhile_sublist _).mem h)

/-- Takes `0` digits off the end of a number, first `2 ^ (k - 1)` at once, then
half as many, down to one. Gives what is left and how many were taken. -/
def dropZeros : Nat → Nat → Nat × Nat
  | 0, n => (n, 0)
  | k + 1, n =>
    if n % 10 ^ (2 ^ k : Nat) = 0 then
      let (rest, count) := dropZeros k (n / 10 ^ (2 ^ k : Nat))
      (rest, count + 2 ^ k)
    else dropZeros k n

end ExactCompare.Digits
