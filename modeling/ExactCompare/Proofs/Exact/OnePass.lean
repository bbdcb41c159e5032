import ExactCompare.Proofs.Exact.Decode

/-!
# Decoding in one pass

The digits of a numeric can be read one after the other. The integer part is given up once it is
past `2 ^ 63`, and what comes after that is only looked at for a fraction.
-/

namespace ExactCompare

-- Powers are those that `Nat` and `Int` come with.
attribute [local instance (2000)] instPowNat

/-! ## Sums that are given up -/

namespace Decoded.IntegerPart

def ofNat (n : ℕ) : IntegerPart := if n ≤ maxMagnitude then .finite n else .overflow

/-- Nothing brings a sum back that was given up. -/
def add : IntegerPart → ℕ → IntegerPart
  | .finite m, n => ofNat (m + n)
  | .overflow, _ => .overflow

theorem add_ofNat (m n : ℕ) : (ofNat m).add n = ofNat (m + n) := by
  unfold ofNat
  split
  · rfl
  · rename_i hm
    rw [if_neg (by omega)]
    rfl

end Decoded.IntegerPart

/-! ## Reading digits -/

/-- What is known of a numeric after some of its digits. -/
structure Tally where
  /-- There was no digit but zeros. -/
  zero : Bool
  part : Decoded.IntegerPart
  fraction : Bool

namespace Tally

def start : Tally := ⟨true, .finite 0, false⟩

/-- A digit before the point, with so many places between them. -/
def whole (t : Tally) (places digit : ℕ) : Tally :=
  if digit = 0 then t
  else { t with zero := false, part := t.part.add (digit * Numeric.base ^ places) }

/-- A digit behind the point. -/
def decimal (t : Tally) (digit : ℕ) : Tally :=
  if digit = 0 then t else { t with zero := false, fraction := true }

/-- Reads digits of which the point is `places` away. -/
def read (t : Tally) : ℕ → List ℕ → Tally
  | _, [] => t
  | 0, d :: ds => (t.decimal d).read 0 ds
  | places + 1, d :: ds => (t.whole places d).read places ds

end Tally

def Numeric.decodeInOnePass (n : Numeric) : Decoded :=
  let t := Tally.start.read n.wholeDigits n.digits
  match n.sign with
  | .nan => .special .nan
  | .infinity => .special .infinity
  | .negInfinity => .special .negInfinity
  | .positive => if t.zero then .zero else .finite .positive t.part t.fraction
  | .negative => if t.zero then .zero else .finite .negative t.part t.fraction

/-! ## What was read -/

namespace Tally

/-- The tally of a magnitude with an exact integer part. -/
def of (magnitude : ℕ) (fraction : Bool) : Tally where
  zero := decide (magnitude = 0) && !fraction
  part := .ofNat magnitude
  fraction := fraction

theorem whole_of (magnitude : ℕ) (fraction : Bool) (places digit : ℕ) :
    (of magnitude fraction).whole places digit =
      of (magnitude + digit * Numeric.base ^ places) fraction := by
  unfold whole
  split
  · rename_i hdigit
    rw [hdigit, Nat.zero_mul, Nat.add_zero]
  · rename_i hdigit
    have hpos : 0 < Numeric.base ^ places := Nat.pow_pos (by decide)
    have hterm : digit * Numeric.base ^ places ≠ 0 := Nat.mul_ne_zero hdigit hpos.ne'
    simp [of, Decoded.IntegerPart.add_ofNat, hterm]

theorem decimal_of (magnitude : ℕ) (fraction : Bool) (digit : ℕ) :
    (of magnitude fraction).decimal digit = of magnitude (fraction || digit != 0) := by
  unfold decimal
  split
  · rename_i hdigit
    simp [hdigit]
  · rename_i hdigit
    simp [of, hdigit]

/-- The number that digits before the point stand for. -/
def wholeValue (places : ℕ) (ds : List ℕ) : ℕ :=
  let stored := ds.take places
  Digits.value Numeric.base stored * Numeric.base ^ (places - stored.length)

theorem wholeValue_nil (places : ℕ) : wholeValue places [] = 0 := by
  simp [wholeValue, Digits.value_eq_foldl]

theorem wholeValue_zero (ds : List ℕ) : wholeValue 0 ds = 0 := by
  simp [wholeValue, Digits.value_eq_foldl]

theorem wholeValue_cons (places d : ℕ) (ds : List ℕ) :
    wholeValue (places + 1) (d :: ds) = d * Numeric.base ^ places + wholeValue places ds := by
  have hlength := List.length_take_le places ds
  unfold wholeValue
  simp only [List.take_succ_cons, List.length_cons, Nat.add_sub_add_right, value_cons, Nat.add_mul,
    Nat.mul_assoc, ← Nat.pow_add, Nat.add_sub_cancel' hlength]

theorem read_of (magnitude : ℕ) (fraction : Bool) (places : ℕ) (ds : List ℕ) :
    (of magnitude fraction).read places ds =
      of (magnitude + wholeValue places ds) (fraction || (ds.drop places).any (· != 0)) := by
  -- The sum and the place of the point change with every digit that is read.
  induction ds generalizing magnitude fraction places with
  | nil => simp [read, wholeValue_nil]
  | cons d ds ih =>
    cases places with
    | zero =>
      rw [read, decimal_of, ih]
      simp [wholeValue_zero, Bool.or_assoc]
    | succ places =>
      rw [read, whole_of, ih, wholeValue_cons, Nat.add_assoc]
      rfl

end Tally

/-- One pass over the digits decodes them. -/
theorem Numeric.decodeInOnePass_eq (n : Numeric) : n.decodeInOnePass = n.decode := by
  have hread : Tally.start.read n.wholeDigits n.digits =
      Tally.of n.whole ((n.digits.drop n.wholeDigits).any (· != 0)) := by
    have hstart := Tally.read_of 0 false n.wholeDigits n.digits
    rw [Nat.zero_add, Bool.false_or] at hstart
    exact hstart
  unfold decodeInOnePass decode
  simp only [hread]
  cases n.sign <;> rfl

end ExactCompare
