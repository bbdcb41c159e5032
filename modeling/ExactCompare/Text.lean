/-!
# Text

Blanks, lower case and byte length, over lists of characters.
-/

namespace ExactCompare.Text

/-- The characters with the Unicode property `White_Space`. -/
def isBlank (c : Char) : Bool :=
  let n := c.toNat
  (9 ≤ n && n ≤ 13) || n == 0x20 || n == 0x85 || n == 0xA0 || n == 0x1680 ||
    (0x2000 ≤ n && n ≤ 0x200A) || n == 0x2028 || n == 0x2029 || n == 0x202F || n == 0x205F ||
    n == 0x3000

/-- Drops the blanks at both ends. -/
def trim (cs : List Char) : List Char :=
  ((cs.dropWhile isBlank).reverse.dropWhile isBlank).reverse

/-- Lower case for the letters A to Z. Every other character stays as it is. -/
def lower (cs : List Char) : List Char := cs.map Char.toLower

/-- The length in UTF-8. -/
def byteLength (cs : List Char) : Nat := cs.foldr (fun c n => c.utf8Size + n) 0

def trimmed (s : String) : String := String.ofList (trim s.toList)

def lowered (s : String) : String := String.ofList (lower s.toList)

/-! ## Capitals and small letters -/

theorem isUpper_iff {c : Char} : c.isUpper = true ↔ 65 ≤ c.toNat ∧ c.toNat ≤ 90 := by
  delta Char.isUpper
  simp only [decide_eq_true_eq, ge_iff_le, UInt32.le_iff_toNat_le]
  rfl

theorem isLower_iff {c : Char} : c.isLower = true ↔ 97 ≤ c.toNat ∧ c.toNat ≤ 122 := by
  delta Char.isLower
  simp only [Bool.and_eq_true, decide_eq_true_eq, ge_iff_le, UInt32.le_iff_toNat_le]
  rfl

theorem toLower_of_not_isUpper {c : Char} (h : c.isUpper = false) : c.toLower = c := by
  delta Char.toLower
  exact dif_neg (of_decide_eq_false h)

/-- A capital and its small letter are 32 apart. -/
theorem toNat_toLower {c : Char} (h : c.isUpper = true) : c.toLower.toNat = c.toNat + 32 := by
  have range := isUpper_iff.mp h
  have shift : ('a'.val - 'A'.val).toNat = 32 := by decide
  delta Char.toLower
  rw [dif_pos (of_decide_eq_true h)]
  show (c.val + ('a'.val - 'A'.val)).toNat = c.val.toNat + 32
  rw [UInt32.toNat_add, shift]
  exact Nat.mod_eq_of_lt (by have : c.val.toNat ≤ 90 := range.2; omega)

theorem isLower_toLower {c : Char} (h : c.isUpper = true) : c.toLower.isLower = true := by
  rw [isLower_iff, toNat_toLower h]
  have := isUpper_iff.mp h
  omega

theorem isUpper_toLower (c : Char) : c.toLower.isUpper = false := by
  cases h : c.isUpper with
  | false => rw [toLower_of_not_isUpper h, h]
  | true =>
    rw [Bool.eq_false_iff, ne_eq, isUpper_iff, toNat_toLower h]
    have := isUpper_iff.mp h
    omega

theorem lower_lower (cs : List Char) : lower (lower cs) = lower cs := by
  simp [lower, Function.comp_def, toLower_of_not_isUpper (isUpper_toLower _)]

/-! ## Lower case keeps lengths -/

theorem utf8Size_of_toNat_le {c : Char} (h : c.toNat ≤ 127) : c.utf8Size = 1 := by
  rw [Char.utf8Size_eq_one_iff, UInt32.le_iff_toNat_le]
  exact h

theorem utf8Size_toLower (c : Char) : c.toLower.utf8Size = c.utf8Size := by
  cases h : c.isUpper with
  | false => rw [toLower_of_not_isUpper h]
  | true =>
    have range := isUpper_iff.mp h
    have moved := toNat_toLower h
    rw [utf8Size_of_toNat_le (by omega : c.toNat ≤ 127), utf8Size_of_toNat_le (by omega)]

theorem byteLength_lower (cs : List Char) : byteLength (lower cs) = byteLength cs := by
  simp only [byteLength, lower, List.foldr_map, utf8Size_toLower]

end ExactCompare.Text
