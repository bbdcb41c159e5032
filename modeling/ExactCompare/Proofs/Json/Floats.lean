import ExactCompare.Proofs.Exact.Shortest
import ExactCompare.Proofs.Exact.Truncation
import ExactCompare.Proofs.Json.Numbers

/-!
# Written floats

The text of a finite float lays out the double that is read for the shortest decimal of it.
-/

namespace ExactCompare

-- Powers are those that `Nat` and `Int` come with.
attribute [local instance (2000)] instPowNat

namespace Binary

open Decimal (Writes)
open Json (LaysOutDouble maxSignificand maxExponent)

/-! ## Layouts -/

/-- The digits of a text and the place of the last one. An integer that is written out has a zero
after its point. -/
def Layout.spelling (l : Layout) (n : ℕ) (grid : ℤ) : ℕ × ℤ :=
  if 0 ≤ grid ∧ (Digits.decimal n).length + grid ≤ l.maxWhole then (n * 10 ^ (grid.toNat + 1), -1)
  else (n, grid)

theorem lt_of_writes {cs : List Char} {n : ℕ} (h : Writes cs n) : n < 10 ^ cs.length := by
  obtain ⟨ds, hds, rfl, rfl⟩ := h
  have hlt := Nat.ofDigits_lt_base_pow_length (b := 10) (l := ds.reverse) (by decide)
    (fun d hd => hds d (List.mem_reverse.mp hd))
  rwa [List.length_reverse, ← List.length_map Nat.digitChar] at hlt

theorem length_decimal_le {n k : ℕ} (h : n < 10 ^ k) (hk : 0 < k) :
    (Digits.decimal n).length ≤ k := by
  unfold Digits.decimal
  split
  case h_1 => exact hk
  case h_2 =>
    rw [List.length_map]
    exact Digits.length_ofNat_le (by decide) h

section Notations

variable {l : Layout} {n : ℕ} {grid : ℤ}

theorem isWhole_append {n : ℕ} (hn : n ≠ 0) (cs : List Char) :
    Json.IsWhole (Digits.decimal n ++ cs) := by
  intro hhead
  rw [List.head?_append_of_ne_nil _ (Decimal.decimal_ne_nil n)] at hhead
  exact absurd hhead (Json.head?_decimal hn)

theorem laysOutDouble_filled (hn : n ≠ 0) (zeros : ℕ)
    (hfits : n * 10 ^ (zeros + 1) ≤ maxSignificand) :
    LaysOutDouble (Digits.decimal n ++ List.replicate zeros '0' ++ ['.', '0'])
      (n * 10 ^ (zeros + 1)) (-1) := by
  have hzeros := ((Decimal.writes_decimal n).append (Decimal.writes_zeros zeros)).append
    (Decimal.writes_zeros 1)
  have hvalue : (n * 10 ^ (List.replicate zeros '0').length + 0) *
      10 ^ (List.replicate 1 '0').length + 0 = n * 10 ^ (zeros + 1) := by
    rw [List.length_replicate, List.length_replicate]
    ring
  rw [hvalue] at hzeros
  exact Json.laysOutDouble_pointed hzeros
    (List.append_ne_nil_of_left_ne_nil (Decimal.decimal_ne_nil n) _) (isWhole_append hn _)
    (List.cons_ne_nil _ _) hfits

theorem filled_lt {zeros whole : ℕ} (h : (Digits.decimal n).length + zeros ≤ whole) :
    n * 10 ^ (zeros + 1) < 10 ^ (whole + 1) := by
  have hlt := lt_of_writes (Decimal.writes_decimal n)
  calc n * 10 ^ (zeros + 1)
      < 10 ^ (Digits.decimal n).length * 10 ^ (zeros + 1) :=
        Nat.mul_lt_mul_of_pos_right hlt (Nat.pow_pos (by decide))
    _ = 10 ^ ((Digits.decimal n).length + (zeros + 1)) := (Nat.pow_add ..).symm
    _ ≤ 10 ^ (whole + 1) := Nat.pow_le_pow_right (by decide) (by omega)

theorem laysOutDouble_cut (hn : n ≠ 0) {whole : ℕ} (hpos : 0 < whole)
    (hlt : whole < (Digits.decimal n).length) (hfits : n ≤ maxSignificand) :
    LaysOutDouble ((Digits.decimal n).take whole ++ '.' :: (Digits.decimal n).drop whole) n
      (whole - (Digits.decimal n).length) := by
  have hall := Decimal.writes_decimal n
  rw [← List.take_append_drop whole (Digits.decimal n)] at hall
  have hwhole : Json.IsWhole ((Digits.decimal n).take whole) := by
    intro hhead
    rw [List.head?_take, if_neg hpos.ne'] at hhead
    exact absurd hhead (Json.head?_decimal hn)
  have hlaid := Json.laysOutDouble_pointed hall
    (List.ne_nil_of_length_pos (by rw [List.length_take]; omega)) hwhole
    (List.ne_nil_of_length_pos (by rw [List.length_drop]; omega)) hfits
  have hplace : -(((Digits.decimal n).drop whole).length : ℤ) =
      whole - (Digits.decimal n).length := by
    rw [List.length_drop]
    omega
  rwa [hplace] at hlaid

theorem laysOutDouble_small (zeros : ℕ) (hfits : n ≤ maxSignificand) :
    LaysOutDouble ('0' :: '.' :: (List.replicate zeros '0' ++ Digits.decimal n)) n
      (-zeros - (Digits.decimal n).length) := by
  have hzeros := (Decimal.writes_zeros 1).append
    ((Decimal.writes_zeros zeros).append (Decimal.writes_decimal n))
  rw [Nat.zero_mul, Nat.zero_mul, Nat.zero_add, Nat.zero_add] at hzeros
  have hlaid := Json.laysOutDouble_pointed hzeros (List.cons_ne_nil _ _) (fun _ => rfl)
    (List.append_ne_nil_of_right_ne_nil _ (Decimal.decimal_ne_nil n)) hfits
  have hplace : -((List.replicate zeros '0' ++ Digits.decimal n).length : ℤ) =
      -zeros - (Digits.decimal n).length := by
    rw [List.length_append, List.length_replicate]
    omega
  rwa [hplace] at hlaid

theorem laysOutDouble_layOut (hn : n ≠ 0) (hmax : l.maxWhole ≤ 16) (hfits : n ≤ maxSignificand)
    (hexponent : ((Digits.decimal n).length + grid - 1).natAbs ≤ maxExponent) :
    LaysOutDouble (layOut l (Digits.decimal n) ((Digits.decimal n).length + grid))
      (l.spelling n grid).1 (l.spelling n grid).2 := by
  have hpos := List.length_pos_iff.mpr (Decimal.decimal_ne_nil n)
  unfold layOut
  split
  case isTrue hfilled =>
    obtain ⟨zeros, rfl⟩ := Int.eq_ofNat_of_zero_le (by omega : 0 ≤ grid)
    have hspelling : l.spelling n zeros = (n * 10 ^ (zeros + 1), -1) :=
      if_pos ⟨by omega, hfilled.2⟩
    have hzeros : ((Digits.decimal n).length + (zeros : ℤ)).toNat - (Digits.decimal n).length =
        zeros := by omega
    rw [hspelling, hzeros]
    -- There are at most 17 digits in all.
    have hfew := filled_lt (by omega : (Digits.decimal n).length + zeros ≤ 16)
    exact laysOutDouble_filled hn zeros (hfew.le.trans (by decide))
  case isFalse hfilled =>
    have hspelling : l.spelling n grid = (n, grid) := if_neg (by omega)
    rw [hspelling]
    split
    case isTrue hcut =>
      obtain ⟨whole, hwhole⟩ := Int.eq_ofNat_of_zero_le hcut.1.le
      have hlaid := laysOutDouble_cut hn (by omega : 0 < whole) (by omega) hfits
      have hplace : (whole : ℤ) - (Digits.decimal n).length = grid := by omega
      rw [hplace] at hlaid
      rwa [hwhole, Int.toNat_natCast]
    case isFalse =>
      split
      case isTrue hsmall =>
        have hlaid := laysOutDouble_small (-((Digits.decimal n).length + grid)).toNat hfits
        have hplace : -((-((Digits.decimal n).length + grid)).toNat : ℤ) -
            (Digits.decimal n).length = grid := by omega
        rwa [hplace] at hlaid
      case isFalse =>
        obtain ⟨first, rest, hdigits⟩ := List.exists_cons_of_ne_nil (Decimal.decimal_ne_nil n)
        have hall := Decimal.writes_decimal n
        rw [hdigits] at hall hexponent ⊢
        have hlaid := Json.laysOutDouble_scientific hall hfits hexponent
        have hplace : ((first :: rest).length : ℤ) + grid - 1 - rest.length = grid := by
          rw [List.length_cons]
          omega
        rw [hplace] at hlaid
        cases rest with
        | nil => exact hlaid
        | cons => exact hlaid

end Notations

/-! ## The text of a finite float -/

/-- A format that is no wider than that of a double. -/
structure IsNarrow (f : BinaryFormat) : Prop where
  exponentBits : f.exponentBits ≤ 11
  fractionBits : f.fractionBits ≤ 52

theorem isNarrow_binary32 : IsNarrow .binary32 := ⟨by decide, by decide⟩

theorem isNarrow_binary64 : IsNarrow .binary64 := ⟨by decide, by decide⟩

/-- The digits that a magnitude is written with, and the place of the last one. -/
def spelling (f : BinaryFormat) (mantissa : ℕ) (exponent : ℤ) : ℕ × ℤ :=
  if mantissa = 0 then (0, -1)
  else
    let (n, grid) := shortestDecimal f mantissa exponent
    (Layout.ofFormat f).spelling n grid

section Float

variable {f : BinaryFormat} {b : Binary f} {negative : Bool} {mantissa : ℕ} {exponent : ℤ}

theorem IsNarrow.bounds (hf : IsNarrow f) (h : b.view = .finite negative mantissa exponent) :
    -1074 ≤ exponent ∧ exponent ≤ 2048 ∧ mantissa < 2 ^ 53 := by
  obtain ⟨hmin, hlt, -, hfinite, -⟩ := finite_parts h
  have hplace : (exponent - f.minExponent).toNat ≤ f.specialExponent :=
    Nat.le_of_mul_le_mul_right ((Nat.le_add_right _ _).trans hfinite) (Nat.pow_pos (by decide))
  have hspecial : f.specialExponent ≤ 2 ^ 11 - 1 :=
    Nat.sub_le_sub_right (Nat.pow_le_pow_right (by decide) hf.exponentBits) 1
  have hbias : (2 : ℤ) ^ (f.exponentBits - 1) ≤ 2 ^ 10 := by
    have hbits := hf.exponentBits
    exact_mod_cast Nat.pow_le_pow_right (by decide) (by omega : f.exponentBits - 1 ≤ 10)
  have hpos : (0 : ℤ) < 2 ^ (f.exponentBits - 1) := by positivity
  have hmantissa : mantissa < 2 ^ 53 :=
    hlt.trans_le (Nat.pow_le_pow_right (by decide) (Nat.succ_le_succ hf.fractionBits))
  have hfraction := hf.fractionBits
  unfold BinaryFormat.minExponent at hmin hplace
  exact ⟨by omega, by omega, hmantissa⟩

theorem maxWhole_ofFormat_le (f : BinaryFormat) : (Layout.ofFormat f).maxWhole ≤ 16 := by
  unfold Layout.ofFormat
  split <;> decide

theorem laysOutDouble_magnitudeText (hf : IsNarrow f)
    (h : b.view = .finite negative mantissa exponent) :
    LaysOutDouble (magnitudeText f mantissa exponent) (spelling f mantissa exponent).1
      (spelling f mantissa exponent).2 := by
  obtain ⟨hmin, hmax, hmantissa⟩ := hf.bounds h
  unfold magnitudeText spelling
  split
  case isTrue =>
    have hzero := (Decimal.writes_zeros 1).append (Decimal.writes_zeros 1)
    exact Json.laysOutDouble_pointed hzero (List.cons_ne_nil _ _) (fun _ => rfl)
      (List.cons_ne_nil _ _) (Nat.zero_le _)
  case isFalse hne =>
    have hdecimal : IsDecimalOf f mantissa exponent _ _ :=
      isDecimalOf_shortest (Nat.pos_of_ne_zero hne) (by omega)
    generalize shortestDecimal f mantissa exponent = d at hdecimal ⊢
    obtain ⟨n, grid⟩ := d
    have hfew := hdecimal.le
    have hlength : (Digits.decimal n).length ≤ 18 :=
      length_decimal_le (by dsimp only at hfew; omega) (by decide)
    have hlow := hdecimal.grid_ge
    have hhigh := hdecimal.grid_le
    have hlog : mantissa.log2 < 53 := (Nat.log2_lt hne).mpr hmantissa
    rw [coarsestGrid, Int.fdiv_eq_ediv_of_nonneg _ (by decide)] at hhigh
    dsimp only at hfew hlow hhigh ⊢
    refine laysOutDouble_layOut hdecimal.pos.ne' (maxWhole_ofFormat_le f) ?_ ?_
    · unfold maxSignificand
      omega
    · unfold maxExponent
      omega

theorem layout_chars (hf : IsNarrow f) (h : b.view = .finite negative mantissa exponent) :
    Json.Layout (Json.doubleTree negative (spelling f mantissa exponent).1
      (spelling f mantissa exponent).2) (Json.Tree.chars (.float f b)) := by
  have hlaid := laysOutDouble_magnitudeText hf h negative
  have hchars : b.chars? = some (Decimal.signed negative (magnitudeText f mantissa exponent)) := by
    unfold chars?
    rw [h]
    rfl
  have htext : Json.Tree.chars (.float f b) =
      Decimal.signed negative (magnitudeText f mantissa exponent) := by
    rw [Json.Tree.chars, hchars]
    rfl
  rwa [htext]

theorem spelling_pos (hpos : 0 < mantissa) (hmin : -100000 ≤ exponent) :
    0 < (spelling f mantissa exponent).1 := by
  have hdecimal : IsDecimalOf f mantissa exponent _ _ := isDecimalOf_shortest hpos hmin
  unfold spelling Layout.spelling
  rw [if_neg hpos.ne']
  dsimp only
  split
  case isTrue => exact Nat.mul_pos hdecimal.pos (Nat.pow_pos (by decide))
  case isFalse => exact hdecimal.pos

theorem roundsTo_spelling (hpos : 0 < mantissa) (hmin : -100000 ≤ exponent) :
    RoundsTo f mantissa exponent
      ((spelling f mantissa exponent).1 * 10 ^ (spelling f mantissa exponent).2) := by
  have hdecimal : IsDecimalOf f mantissa exponent _ _ := isDecimalOf_shortest hpos hmin
  have hvalue : ((spelling f mantissa exponent).1 : ℚ) * 10 ^ (spelling f mantissa exponent).2 =
      (shortestDecimal f mantissa exponent).1 * 10 ^ (shortestDecimal f mantissa exponent).2 := by
    unfold spelling Layout.spelling
    rw [if_neg hpos.ne']
    dsimp only
    split
    case isTrue hfilled =>
      obtain ⟨grid, hgrid⟩ := Int.eq_ofNat_of_zero_le hfilled.1
      rw [hgrid, Int.toNat_natCast, zpow_natCast]
      push_cast
      rw [pow_succ]
      ring
    case isFalse => rfl
  rw [hvalue]
  exact hdecimal.rounds

end Float

end Binary

end ExactCompare
