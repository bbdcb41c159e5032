import ExactCompare.Proofs.Decimal.Printing
import ExactCompare.Proofs.Json.Tokens
import ExactCompare.Proofs.Numeric.Regrouping

/-!
# Written numbers

The text of an integer of 64 bits lays out this integer. A text with a point or an exponent lays out
the double that is read for its digits and the place of the last one.
-/

namespace ExactCompare.Json

-- Powers are those that `Nat` and `Int` come with.
attribute [local instance (2000)] instPowNat

open Decimal (Writes signed signedValue)

/-! ## Digits -/

theorem exists_spellsDigits {cs : List Char} {n : ℕ} (h : Writes cs n) (hne : cs ≠ []) :
    ∃ ds, SpellsDigits ds cs ∧ Digits.value 10 ds = n := by
  obtain ⟨ds, hds, rfl, rfl⟩ := h
  have hne' : ds ≠ [] := fun hnil => hne (hnil ▸ rfl)
  exact ⟨ds, .intro hne' hds, Digits.value_eq_ofDigits 10 ds⟩

theorem SpellsDigits.ne_nil {ds : List ℕ} {cs : List Char} (h : SpellsDigits ds cs) : ds ≠ [] := by
  cases h with
  | intro hne => exact hne

/-- Digits without a leading zero. -/
def IsWhole (cs : List Char) : Prop := cs.head? = some '0' → cs = ['0']

theorem SpellsDigits.of_isWhole {ds : List ℕ} {cs : List Char} (h : SpellsDigits ds cs)
    (hwhole : IsWhole cs) : ds.head? = some 0 → ds = [0] := by
  cases h with
  | intro hne hds =>
    intro hhead
    obtain ⟨rest, rfl⟩ := List.head?_eq_some_iff.mp hhead
    have hone := congrArg List.length (hwhole rfl)
    rw [List.length_map, List.length_cons, List.length_singleton, Nat.succ_inj,
      List.length_eq_zero_iff] at hone
    rw [hone]

theorem head?_decimal {n : ℕ} (hn : n ≠ 0) : (Digits.decimal n).head? ≠ some '0' := by
  have hfirst := Digits.head?_ofNat (by decide : 2 ≤ 10) (n := n)
  have hpos := Digits.length_ofNat_pos (by decide : 2 ≤ 10) hn
  unfold Digits.decimal
  split
  case h_1 hnone =>
    rw [hnone] at hpos
    cases hpos
  case h_2 =>
    rw [List.head?_map, Ne, Option.map_eq_some_iff]
    rintro ⟨d, hd, hzero⟩
    have hlt : d < 10 := Digits.lt_of_mem_ofNat (by decide) (List.mem_of_mem_head? hd)
    have hne := hfirst d hd
    revert hzero
    interval_cases d <;> first | exact absurd rfl hne | decide

theorem isWhole_decimal (n : ℕ) : IsWhole (Digits.decimal n) := by
  intro hhead
  by_cases hn : n = 0
  · rw [hn]
    decide +kernel
  · exact absurd hhead (head?_decimal hn)

/-! ## Integers -/

theorem spellsNumeral_signed {n : Numeral} {cs : List Char} (h : SpellsMagnitude n cs) :
    SpellsNumeral n (signed n.negative cs) := by
  cases hsign : n.negative with
  | false => exact .positive hsign h
  | true => exact .negative hsign h

theorem decimalInt_eq_signed (z : ℤ) :
    Digits.decimalInt z = signed (z < 0) (Digits.decimal z.natAbs) := by
  cases z with
  | ofNat n => rfl
  | negSucc n =>
    rw [decide_eq_true (Int.negSucc_lt_zero n)]
    rfl

theorem Numeral.integer?_eq {n : Numeral} {z : ℤ} (hinteger : n.isInteger = true)
    (hsign : n.negative = decide (z < 0)) (hvalue : Digits.value 10 n.whole = z.natAbs)
    (hlow : -2 ^ 63 ≤ z) (hhigh : z < 2 ^ 64) : n.integer? = some z := by
  unfold integer? maxNegative maxSignificand
  simp only [hinteger, hsign, hvalue, Bool.not_true, Bool.false_eq_true, if_false,
    decide_eq_true_eq]
  split
  case isTrue hneg =>
    rw [if_pos (by omega), Option.some.injEq]
    omega
  case isFalse hneg =>
    rw [if_pos (by omega), Option.some.injEq]
    omega

theorem layout_integer {z : ℤ} (hlow : -2 ^ 63 ≤ z) (hhigh : z < 2 ^ 64) :
    Layout (.integer z) (Digits.decimalInt z) := by
  obtain ⟨ds, hds, hvalue⟩ :=
    exists_spellsDigits (Decimal.writes_decimal z.natAbs) (Decimal.decimal_ne_nil _)
  let n : Numeral := ⟨z < 0, ds, [], true, false, []⟩
  have hmagnitude : SpellsMagnitude n (Digits.decimal z.natAbs ++ [] ++ []) :=
    .intro hds (hds.of_isWhole (isWhole_decimal _)) .absent .absent
  rw [List.append_nil, List.append_nil] at hmagnitude
  have hjson : n.toJson = .integer z := by
    rw [Numeral.toJson, Numeral.integer?_eq rfl rfl hvalue hlow hhigh]
  rw [decimalInt_eq_signed, ← hjson]
  exact .number (spellsNumeral_signed hmagnitude)

/-! ## Doubles -/

/-- The double that is read for `c * 10 ^ place`, if there is one. -/
def double? (c : ℕ) (place : ℤ) : Option Double :=
  scaleByTen (place.natAbs + 1) (.ofInt .binary64 c) place

/-- The tree of a number that is not an integer. -/
def doubleTree (negative : Bool) (c : ℕ) (place : ℤ) : Json :=
  ((double? c place).map fun b => .float .binary64 (if negative then b.negate else b)).getD
    (.broken ⟨true, .malformed, none⟩)

theorem accumulate_of_fits {n : ℕ} {ds : List ℕ}
    (h : ds.foldl (fun n d => n * 10 + d) n ≤ maxSignificand) :
    accumulate n ds = (ds.foldl (fun n d => n * 10 + d) n, []) := by
  induction ds generalizing n with
  | nil => rfl
  | cons d ds ih =>
    have hle := Decimal.le_foldl (n * 10 + d) ds
    rw [List.foldl_cons] at h ⊢
    rw [accumulate, if_neg (by omega), ih h]

theorem Numeral.significand_of_fits {n : Numeral}
    (h : Digits.value 10 (n.whole ++ n.fraction) ≤ maxSignificand) :
    n.significand = (Digits.value 10 (n.whole ++ n.fraction), -(n.fraction.length : ℤ)) := by
  rw [Digits.value_eq_foldl, List.foldl_append] at h ⊢
  have hwhole := (Decimal.le_foldl _ n.fraction).trans h
  rw [significand, accumulate_of_fits hwhole]
  dsimp only
  rw [accumulate_of_fits h]
  simp

theorem Numeral.toJson_eq {n : Numeral} (hinteger : n.isInteger = false)
    (hfits : Digits.value 10 (n.whole ++ n.fraction) ≤ maxSignificand)
    (hexponent : Digits.value 10 n.exponent ≤ maxExponent) :
    n.toJson = doubleTree n.negative (Digits.value 10 (n.whole ++ n.fraction))
      (-(n.fraction.length : ℤ) + signedValue n.exponentNegative (Digits.value 10 n.exponent)) := by
  have hnone : n.integer? = none := by
    rw [integer?, hinteger]
    rfl
  have hmagnitude : n.magnitude? = double? (Digits.value 10 (n.whole ++ n.fraction))
      (-(n.fraction.length : ℤ) + signedValue n.exponentNegative (Digits.value 10 n.exponent)) := by
    rw [magnitude?, significand_of_fits hfits]
    dsimp only
    rw [if_neg (Nat.not_lt.mpr hexponent)]
    rfl
  rw [toJson, hnone, doubleTree, ← hmagnitude]
  cases n.magnitude? with
  | none => rfl
  | some b => rfl

/-- The text, with either sign in front of it, lays out the double that is read for
`c * 10 ^ place`. -/
def LaysOutDouble (cs : List Char) (c : ℕ) (place : ℤ) : Prop :=
  ∀ negative, Layout (doubleTree negative c place) (signed negative cs)

theorem laysOutDouble_of_spells {whole fraction exponent : List ℕ} {exponentNegative : Bool}
    {wholeText fractionText exponentText : List Char} (hwhole : SpellsDigits whole wholeText)
    (hzero : IsWhole wholeText) (hfraction : SpellsFraction fraction fractionText)
    (hexponent : SpellsExponent exponentNegative exponent exponentText)
    (hmarked : fraction ≠ [] ∨ exponent ≠ [])
    (hfits : Digits.value 10 (whole ++ fraction) ≤ maxSignificand)
    (hsmall : Digits.value 10 exponent ≤ maxExponent) :
    LaysOutDouble (wholeText ++ fractionText ++ exponentText) (Digits.value 10 (whole ++ fraction))
      (-(fraction.length : ℤ) + signedValue exponentNegative (Digits.value 10 exponent)) := by
  intro negative
  let n : Numeral := { negative, whole, fraction, exponentNegative, exponent
                       isInteger := fraction.isEmpty && exponent.isEmpty }
  have hmagnitude : SpellsMagnitude n (wholeText ++ fractionText ++ exponentText) :=
    .intro hwhole (hwhole.of_isWhole hzero) hfraction hexponent
  have hinteger : n.isInteger = false := by
    rw [Bool.and_eq_false_iff, List.isEmpty_eq_false_iff, List.isEmpty_eq_false_iff]
    exact hmarked
  have hjson : n.toJson = doubleTree negative _ _ := Numeral.toJson_eq hinteger hfits hsmall
  rw [← hjson]
  exact .number (spellsNumeral_signed hmagnitude)

/-! ### The two notations -/

theorem exists_spellsDigits_append {whole fraction : List Char} {c : ℕ}
    (h : Writes (whole ++ fraction) c) (hne : whole ≠ []) : ∃ ds es, SpellsDigits ds whole ∧
      (fraction ≠ [] → SpellsDigits es fraction) ∧ es.length = fraction.length ∧
      Digits.value 10 (ds ++ es) = c := by
  obtain ⟨all, hall, htext, rfl⟩ := h
  obtain ⟨ds, es, rfl, rfl, rfl⟩ := List.map_eq_append_iff.mp htext.symm
  rw [List.forall_mem_append] at hall
  refine ⟨ds, es, .intro (fun hnil => hne (hnil ▸ rfl)) hall.1, fun hfraction => ?_,
    (List.length_map _).symm, Digits.value_eq_ofDigits 10 _⟩
  exact .intro (fun hnil => hfraction (hnil ▸ rfl)) hall.2

variable {whole fraction : List Char} {c : ℕ}

theorem laysOutDouble_pointed (h : Writes (whole ++ fraction) c) (hne : whole ≠ [])
    (hzero : IsWhole whole) (hfraction : fraction ≠ []) (hfits : c ≤ maxSignificand) :
    LaysOutDouble (whole ++ '.' :: fraction) c (-(fraction.length : ℤ)) := by
  obtain ⟨ds, es, hds, hes, hlength, rfl⟩ := exists_spellsDigits_append h hne
  have hmarked : es ≠ [] := by
    rintro rfl
    exact hfraction (List.length_eq_zero_iff.mp hlength.symm)
  have hlaid := laysOutDouble_of_spells hds hzero (.pointed (hes hfraction)) .absent (.inl hmarked)
    hfits (Nat.zero_le _)
  have hnone : signedValue false (Digits.value 10 []) = 0 := rfl
  rwa [List.append_nil, hlength, hnone, add_zero] at hlaid

/-- Digits with a point after the first of them, if there are more. -/
def pointedOnce (first : Char) (rest : List Char) : List Char :=
  first :: if rest = [] then [] else '.' :: rest

theorem spellsExponent_exponentText (x : ℤ) : ∃ exponent, Digits.value 10 exponent = x.natAbs ∧
    exponent ≠ [] ∧ SpellsExponent (x < 0) exponent ('e' :: Binary.exponentText x) := by
  obtain ⟨exponent, hexponent, hvalue⟩ :=
    exists_spellsDigits (Decimal.writes_decimal x.natAbs) (Decimal.decimal_ne_nil _)
  refine ⟨exponent, hvalue, hexponent.ne_nil, ?_⟩
  unfold Binary.exponentText
  rw [decimalInt_eq_signed]
  by_cases hx : x < 0
  · rw [if_pos hx, decide_eq_true hx]
    exact .minus (.inl rfl) hexponent
  · rw [if_neg hx, decide_eq_false hx]
    exact .plus (.inl rfl) hexponent

theorem laysOutDouble_scientific {first : Char} {rest : List Char} (h : Writes (first :: rest) c)
    (hfits : c ≤ maxSignificand) {x : ℤ} (hx : x.natAbs ≤ maxExponent) :
    LaysOutDouble (pointedOnce first rest ++ 'e' :: Binary.exponentText x) c (x - rest.length) := by
  have happend : Writes ([first] ++ rest) c := h
  obtain ⟨ds, es, hds, hes, hlength, rfl⟩ :=
    exists_spellsDigits_append happend (List.cons_ne_nil _ _)
  obtain ⟨exponent, hvalue, hne, hexponent⟩ := spellsExponent_exponentText x
  have hfraction : SpellsFraction es (if rest = [] then [] else '.' :: rest) := by
    split
    case isTrue hnil =>
      rw [hnil, List.length_nil, List.length_eq_zero_iff] at hlength
      rw [hlength]
      exact .absent
    case isFalse hsome => exact .pointed (hes hsome)
  have hzero : IsWhole [first] := by
    intro hhead
    rw [Option.some.inj hhead]
  have hlaid := laysOutDouble_of_spells hds hzero hfraction hexponent (.inr hne) hfits
    (hvalue ▸ hx)
  rw [hvalue, Decimal.signedValue_natAbs, hlength, neg_add_eq_sub] at hlaid
  exact hlaid

end ExactCompare.Json
