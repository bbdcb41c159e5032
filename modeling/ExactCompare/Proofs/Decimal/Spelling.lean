import ExactCompare.Decimal.Parser
import ExactCompare.Proofs.Decimal.Value
import ExactCompare.Proofs.Except
import Mathlib.Data.List.TakeWhile
import Mathlib.Tactic.IntervalCases

/-!
# How decimals are spelled

A decimal text spells an integer of digits, the number of digits after its point, and an
exponent. A text is read exactly if it spells these and its scale has 64 bits.
-/

namespace ExactCompare

-- Powers are those that `Nat` and `Int` come with.
attribute [local instance (2000)] instPowNat

namespace Decimal

/-! ## The notation -/

/-- Digits in base 10, the highest first. -/
def Writes (cs : List Char) (n : ℕ) : Prop :=
  ∃ ds : List ℕ, (∀ d ∈ ds, d < 10) ∧ cs = ds.map Nat.digitChar ∧ n = Nat.ofDigits 10 ds.reverse

/-- A first digit, then digits with underscores anywhere. -/
def SpellsDigits (cs : List Char) (n : ℕ) : Prop :=
  cs ≠ [] ∧ cs.head? ≠ some '_' ∧ Writes (cs.filter (· ≠ '_')) n

inductive SpellsInteger : List Char → ℤ → Prop
  | unsigned {cs : List Char} {n : ℕ} (h : SpellsDigits cs n) : SpellsInteger cs n
  | plus {cs : List Char} {n : ℕ} (h : SpellsDigits cs n) : SpellsInteger ('+' :: cs) n
  | minus {cs : List Char} {n : ℕ} (h : SpellsDigits cs n) : SpellsInteger ('-' :: cs) (-n)

/-- Digits with at most one point, and how many characters other than underscores follow it. The
point is taken out before the sign is read. -/
inductive SpellsBase : List Char → ℤ → ℕ → Prop
  | whole {cs : List Char} {digits : ℤ} (hpoint : '.' ∉ cs) (h : SpellsInteger cs digits) :
      SpellsBase cs digits 0
  | pointed {whole fraction : List Char} {digits : ℤ} (hpoint : '.' ∉ whole)
      (h : SpellsInteger (whole ++ fraction) digits) :
      SpellsBase (whole ++ '.' :: fraction) digits (fraction.filter (· ≠ '_')).length

/-- A signed exponent of 128 bits. -/
inductive SpellsExponent : List Char → ℤ → Prop
  | unsigned {cs : List Char} {n : ℕ} (hne : cs ≠ []) (h : Writes cs n) (hn : n < 2 ^ 127) :
      SpellsExponent cs n
  | plus {cs : List Char} {n : ℕ} (hne : cs ≠ []) (h : Writes cs n) (hn : n < 2 ^ 127) :
      SpellsExponent ('+' :: cs) n
  | minus {cs : List Char} {n : ℕ} (hne : cs ≠ []) (h : Writes cs n) (hn : n ≤ 2 ^ 127) :
      SpellsExponent ('-' :: cs) (-n)

/-- What may follow the base: nothing, or a mark and an exponent. -/
inductive SpellsTail : List Char → ℤ → Prop
  | nothing : SpellsTail [] 0
  | exponent {cs : List Char} {exponent : ℤ} (mark : Char) (hmark : mark = 'e' ∨ mark = 'E')
      (h : SpellsExponent cs exponent) : SpellsTail (mark :: cs) exponent

/-- The text stands for `digits * 10 ^ (exponent - count)`, and its scale has 64 bits. -/
inductive Spells : List Char → ℤ → ℕ → ℤ → Prop
  | intro {base tail : List Char} {digits : ℤ} {count : ℕ} {exponent : ℤ}
      (hmark : 'e' ∉ base ∧ 'E' ∉ base) (hbase : SpellsBase base digits count)
      (htail : SpellsTail tail exponent)
      (hscale : -2 ^ 63 ≤ count - exponent ∧ count - exponent < 2 ^ 63) :
      Spells (base ++ tail) digits count exponent

/-! ## Digits -/

theorem digit?_eq_some_iff {c : Char} {d : ℕ} :
    Digits.digit? c = some d ↔ d < 10 ∧ c = Nat.digitChar d := by
  unfold Digits.digit?
  constructor
  · intro h
    split at h
    case isTrue hdigit =>
      have hrange : 48 ≤ c.toNat ∧ c.toNat ≤ 57 := by
        simpa [Char.isDigit, UInt32.le_iff_toNat_le] using hdigit
      have hd : c.toNat = 48 + d := by
        have := Option.some.inj h
        omega
      have hlt : d < 10 := by omega
      refine ⟨hlt, ?_⟩
      rw [← Char.ofNat_toNat c, hd]
      interval_cases d <;> rfl
    case isFalse => cases h
  · rintro ⟨hd, rfl⟩
    interval_cases d <;> rfl

theorem mapM_digit?_cons_iff {c : Char} {cs : List Char} {ds : List ℕ} :
    (c :: cs).mapM Digits.digit? = some ds ↔
      ∃ d rest, Digits.digit? c = some d ∧ cs.mapM Digits.digit? = some rest ∧ d :: rest = ds := by
  simp only [List.mapM_cons, Option.bind_eq_bind, Option.bind_eq_some_iff, Option.pure_def,
    Option.some.injEq]
  constructor
  · rintro ⟨d, hd, rest, hrest, hds⟩
    exact ⟨d, rest, hd, hrest, hds⟩
  · rintro ⟨d, rest, hd, hrest, hds⟩
    exact ⟨d, hd, rest, hrest, hds⟩

theorem mapM_digit?_eq_some_iff {cs : List Char} {ds : List ℕ} :
    cs.mapM Digits.digit? = some ds ↔ (∀ d ∈ ds, d < 10) ∧ cs = ds.map Nat.digitChar := by
  induction cs generalizing ds with
  | nil =>
    simp only [List.mapM_nil, Option.pure_def, Option.some.injEq]
    constructor
    · rintro rfl
      exact ⟨List.forall_mem_nil _, rfl⟩
    · rintro ⟨-, hds⟩
      exact (List.map_eq_nil_iff.mp hds.symm).symm
  | cons c cs ih =>
    simp only [mapM_digit?_cons_iff, digit?_eq_some_iff, ih]
    constructor
    · rintro ⟨d, rest, ⟨hd, rfl⟩, ⟨hrest, rfl⟩, rfl⟩
      exact ⟨List.forall_mem_cons.mpr ⟨hd, hrest⟩, rfl⟩
    · rintro ⟨hds, hcs⟩
      obtain ⟨d, rest, rfl, rfl, rfl⟩ := List.map_eq_cons_iff.mp hcs.symm
      rw [List.forall_mem_cons] at hds
      exact ⟨d, rest, ⟨hds.1, rfl⟩, ⟨hds.2, rfl⟩, rfl⟩

theorem writes_iff {cs : List Char} {n : ℕ} :
    Writes cs n ↔ ∃ ds, cs.mapM Digits.digit? = some ds ∧ Digits.value 10 ds = n := by
  unfold Writes
  simp only [mapM_digit?_eq_some_iff, Digits.value_eq_ofDigits, and_assoc, eq_comm (a := n)]

/-! ## The exponent -/

theorem le_foldl (n : ℕ) (ds : List ℕ) : n ≤ ds.foldl (fun n d => n * 10 + d) n := by
  induction ds generalizing n with
  | nil => exact Nat.le_refl n
  | cons d ds ih => exact Nat.le_trans (by omega) (ih (n * 10 + d))

theorem boundedDigits_ok_iff {bound n m : ℕ} {overflow : DecimalError} {cs : List Char}
    (hn : n ≤ bound) :
    boundedDigits bound overflow n cs = .ok m ↔
      ∃ ds, cs.mapM Digits.digit? = some ds ∧ ds.foldl (fun n d => n * 10 + d) n = m ∧
        m ≤ bound := by
  induction cs generalizing n with
  | nil =>
    simp only [boundedDigits, Except.ok.injEq, List.mapM_nil, Option.pure_def, Option.some.injEq,
      exists_eq_left', List.foldl_nil]
    exact ⟨fun h => ⟨h, h ▸ hn⟩, fun h => h.1⟩
  | cons c cs ih =>
    simp only [boundedDigits, mapM_digit?_cons_iff]
    cases hc : Digits.digit? c with
    | none => simp
    | some d =>
      dsimp only
      split
      case isTrue hover =>
        simp only [reduceCtorEq, false_iff]
        rintro ⟨ds, ⟨d', rest, hd, -, rfl⟩, hm, hle⟩
        obtain rfl := Option.some.inj hd
        have hover' := le_foldl (n * 10 + d) rest
        rw [List.foldl_cons] at hm
        omega
      case isFalse hfits =>
        rw [ih (by omega)]
        constructor
        · rintro ⟨rest, hrest, hm⟩
          exact ⟨d :: rest, ⟨d, rest, rfl, hrest, rfl⟩, hm⟩
        · rintro ⟨ds, ⟨d', rest, hd, hrest, rfl⟩, hm⟩
          obtain rfl := Option.some.inj hd
          exact ⟨rest, hrest, hm⟩

theorem boundedDigits_zero_ok_iff {bound m : ℕ} {overflow : DecimalError} {cs : List Char} :
    boundedDigits bound overflow 0 cs = .ok m ↔ Writes cs m ∧ m ≤ bound := by
  rw [boundedDigits_ok_iff (Nat.zero_le _), writes_iff]
  simp only [Digits.value_eq_foldl]
  constructor
  · rintro ⟨ds, hds, hm, hle⟩
    exact ⟨⟨ds, hds, hm⟩, hle⟩
  · rintro ⟨⟨ds, hds, hm⟩, hle⟩
    exact ⟨ds, hds, hm, hle⟩

theorem maxNegativeExponent_eq : maxNegativeExponent = 2 ^ 127 := by decide

theorem writes_cons {c : Char} {cs : List Char} {n : ℕ} (h : Writes (c :: cs) n) :
    c.isDigit = true := by
  obtain ⟨ds, hds, hcs, -⟩ := h
  obtain ⟨d, rest, rfl, rfl, -⟩ := List.map_eq_cons_iff.mp hcs.symm
  have hd := hds d List.mem_cons_self
  interval_cases d <;> rfl

theorem readExponent_of_digit {c : Char} {rest : List Char} (hdigit : c.isDigit = true) :
    readExponent (c :: rest) = do
      let n ← boundedDigits maxExponent .exponentTooLarge 0 (c :: rest)
      return n := by
  have hsign : c ≠ '+' ∧ c ≠ '-' := by
    constructor <;> (rintro rfl; revert hdigit; decide)
  unfold readExponent
  split
  · contradiction
  · rename_i heq
    exact absurd (List.cons.inj heq).1 hsign.1
  · rename_i heq
    exact absurd (List.cons.inj heq).1 hsign.2
  · rename_i heq
    exact absurd (List.cons.inj heq).1 hsign.2
  · rename_i heq
    exact absurd (List.cons.inj heq).1 hsign.1
  · rfl

theorem readExponent_ok_iff {cs : List Char} {e : ℤ} :
    readExponent cs = .ok e ↔ SpellsExponent cs e := by
  have hbound (n : ℕ) : n ≤ maxExponent ↔ n < 2 ^ 127 := by
    rw [maxExponent, maxNegativeExponent_eq]
    omega
  constructor
  · intro h
    unfold readExponent at h
    split at h
    · cases h
    · cases h
    · cases h
    · rename_i rest hne
      rw [map_ok_iff] at h
      obtain ⟨n, hread, rfl⟩ := h
      obtain ⟨hwrites, hn⟩ := boundedDigits_zero_ok_iff.mp hread
      exact .minus (fun hnil => hne (hnil ▸ rfl)) hwrites (maxNegativeExponent_eq ▸ hn)
    · rename_i rest hne
      rw [map_ok_iff] at h
      obtain ⟨n, hread, rfl⟩ := h
      obtain ⟨hwrites, hn⟩ := boundedDigits_zero_ok_iff.mp hread
      exact .plus (fun hnil => hne (hnil ▸ rfl)) hwrites ((hbound n).mp hn)
    · rename_i hne _ _ _ _
      rw [map_ok_iff] at h
      obtain ⟨n, hread, rfl⟩ := h
      obtain ⟨hwrites, hn⟩ := boundedDigits_zero_ok_iff.mp hread
      exact .unsigned hne hwrites ((hbound n).mp hn)
  · intro h
    cases h with
    | @unsigned _ n hne hwrites hn =>
      obtain ⟨c, rest, rfl⟩ := List.exists_cons_of_ne_nil hne
      rw [readExponent_of_digit (writes_cons hwrites), map_ok_iff]
      exact ⟨n, boundedDigits_zero_ok_iff.mpr ⟨hwrites, (hbound n).mpr hn⟩, rfl⟩
    | @plus rest n hne hwrites hn =>
      obtain ⟨c, rest, rfl⟩ := List.exists_cons_of_ne_nil hne
      exact map_ok_iff.mpr ⟨n, boundedDigits_zero_ok_iff.mpr ⟨hwrites, (hbound n).mpr hn⟩, rfl⟩
    | @minus rest n hne hwrites hn =>
      obtain ⟨c, rest, rfl⟩ := List.exists_cons_of_ne_nil hne
      have hfits : n ≤ maxNegativeExponent := maxNegativeExponent_eq ▸ hn
      exact map_ok_iff.mpr ⟨n, boundedDigits_zero_ok_iff.mpr ⟨hwrites, hfits⟩, rfl⟩

/-! ## The digits -/

theorem readDigits_ok_iff {cs : List Char} {n : ℕ} :
    readDigits cs = .ok n ↔ Writes (cs.filter (· ≠ '_')) n := by
  unfold readDigits
  rw [writes_iff]
  cases (cs.filter (· ≠ '_')).mapM Digits.digit? with
  | none => simp
  | some ds => simp

theorem SpellsDigits.exists_digit {cs : List Char} {n : ℕ} (h : SpellsDigits cs n) :
    ∃ c rest, cs = c :: rest ∧ c.isDigit = true := by
  obtain ⟨hne, hfirst, hwrites⟩ := h
  obtain ⟨c, rest, rfl⟩ := List.exists_cons_of_ne_nil hne
  have hc : c ≠ '_' := fun hc => hfirst (congrArg some hc)
  rw [List.filter_cons, if_pos (decide_eq_true hc)] at hwrites
  exact ⟨c, rest, rfl, writes_cons hwrites⟩

theorem ne_of_isDigit {c sign : Char} (hc : c.isDigit = true) (hsign : sign.isDigit = false) :
    c ≠ sign := by
  rintro rfl
  exact Bool.noConfusion (hc.symm.trans hsign)

theorem dropSigns_cases (cs : List Char) :
    (∃ rest, cs = '-' :: rest ∧ dropSign '+' (dropSign '-' cs) = rest) ∨
      (∃ rest, cs = '+' :: rest ∧ dropSign '+' (dropSign '-' cs) = rest) ∨
      dropSign '+' (dropSign '-' cs) = cs := by
  cases cs with
  | nil => exact .inr (.inr rfl)
  | cons c rest =>
    by_cases hplus : rest.head? = some '+'
    · exact .inr (.inr (by simp [dropSign, hplus]))
    by_cases hc : c = '-'
    · subst hc
      refine .inl ⟨rest, rfl, ?_⟩
      cases rest with
      | nil => rfl
      | cons d rest =>
        have hd : d ≠ '+' := fun hd => hplus (congrArg some hd)
        simp [dropSign, hd]
    by_cases hc' : c = '+'
    · subst hc'
      exact .inr (.inl ⟨rest, rfl, by simp [dropSign, hplus]⟩)
    · exact .inr (.inr (by simp [dropSign, hc, hc']))

theorem readInteger_eq_ok_iff {cs : List Char} {z : ℤ} :
    readInteger cs = .ok z ↔ ∃ n, SpellsDigits (dropSign '+' (dropSign '-' cs)) n ∧
      (if cs.head? = some '-' then -(n : ℤ) else n) = z := by
  unfold readInteger
  generalize dropSign '+' (dropSign '-' cs) = body
  split
  · simp [SpellsDigits]
  · simp [SpellsDigits]
  · rename_i hne hfirst
    have hbody (n : ℕ) : SpellsDigits body n ↔ readDigits body = .ok n := by
      rw [SpellsDigits, readDigits_ok_iff, and_iff_right hne, and_iff_right]
      intro hhead
      obtain ⟨tail, htail⟩ := List.head?_eq_some_iff.mp hhead
      exact hfirst tail htail
    simp only [hbody]
    exact map_ok_iff

theorem readInteger_ok_iff {cs : List Char} {z : ℤ} :
    readInteger cs = .ok z ↔ SpellsInteger cs z := by
  rw [readInteger_eq_ok_iff]
  constructor
  · rintro ⟨n, hdigits, rfl⟩
    rcases dropSigns_cases cs with ⟨rest, rfl, hrest⟩ | ⟨rest, rfl, hrest⟩ | hsame
    · rw [hrest] at hdigits
      exact .minus hdigits
    · rw [hrest] at hdigits
      exact .plus hdigits
    · rw [hsame] at hdigits
      obtain ⟨c, rest, rfl, hc⟩ := hdigits.exists_digit
      have hminus : (c :: rest).head? ≠ some '-' := fun hhead =>
        ne_of_isDigit hc rfl (Option.some.inj hhead)
      rw [if_neg hminus]
      exact .unsigned hdigits
  · intro h
    cases h with
    | @unsigned _ n hdigits =>
      obtain ⟨c, rest, rfl, hc⟩ := hdigits.exists_digit
      have hminus : c ≠ '-' := ne_of_isDigit hc rfl
      have hplus : c ≠ '+' := ne_of_isDigit hc rfl
      exact ⟨n, by simpa [dropSign, hminus, hplus] using hdigits, by simp [hminus]⟩
    | @plus rest n hdigits =>
      obtain ⟨c, rest, rfl, hc⟩ := hdigits.exists_digit
      have hplus : c ≠ '+' := ne_of_isDigit hc rfl
      exact ⟨n, by simpa [dropSign, hplus] using hdigits, rfl⟩
    | @minus rest n hdigits =>
      obtain ⟨c, rest, rfl, hc⟩ := hdigits.exists_digit
      have hplus : c ≠ '+' := ne_of_isDigit hc rfl
      exact ⟨n, by simpa [dropSign, hplus] using hdigits, rfl⟩

/-! ## The base -/

theorem forall_ne_of_not_mem {cs : List Char} {mark : Char} (h : mark ∉ cs) :
    ∀ c ∈ cs, decide (c ≠ mark) = true := by
  intro c hc
  refine decide_eq_true ?_
  rintro rfl
  exact h hc

theorem splitPoint_of_not_mem {cs : List Char} (h : '.' ∉ cs) : splitPoint cs = (cs, 0) := by
  have hall := forall_ne_of_not_mem h
  unfold splitPoint
  rw [List.takeWhile_eq_self_iff.mpr hall, List.dropWhile_eq_nil_iff.mpr hall]
  simp

theorem splitPoint_of_mem {whole fraction : List Char} (h : '.' ∉ whole) :
    splitPoint (whole ++ '.' :: fraction) =
      (whole ++ fraction, (fraction.filter (· ≠ '_')).length) := by
  have hall := forall_ne_of_not_mem h
  unfold splitPoint
  rw [List.takeWhile_append_of_pos hall, List.dropWhile_append_of_pos hall]
  simp

theorem spellsBase_iff {cs : List Char} {digits : ℤ} {count : ℕ} :
    SpellsBase cs digits count ↔
      readInteger (splitPoint cs).1 = .ok digits ∧ (splitPoint cs).2 = count := by
  constructor
  · intro h
    cases h with
    | whole hpoint h =>
      rw [splitPoint_of_not_mem hpoint]
      exact ⟨readInteger_ok_iff.mpr h, rfl⟩
    | pointed hpoint h =>
      rw [splitPoint_of_mem hpoint]
      exact ⟨readInteger_ok_iff.mpr h, rfl⟩
  · rintro ⟨hread, rfl⟩
    by_cases hpoint : '.' ∈ cs
    · obtain ⟨whole, fraction, rfl, hwhole⟩ := List.eq_append_cons_of_mem hpoint
      rw [splitPoint_of_mem hwhole] at hread ⊢
      exact .pointed hwhole (readInteger_ok_iff.mp hread)
    · rw [splitPoint_of_not_mem hpoint] at hread ⊢
      exact .whole hpoint (readInteger_ok_iff.mp hread)

/-! ## The whole text -/

def readTail (cs : List Char) : Except DecimalError ℤ :=
  match cs with
  | [] => .ok 0
  | _ :: rest => readExponent rest

/-- What is left to do once the exponent is known. -/
def readScaled (cs base : List Char) (exponent : ℤ) : Except DecimalError Decimal := do
  if base.isEmpty then .error .empty
  let (digits, count) := splitPoint base
  let scale := (count : Int) - exponent
  if !scaleFits scale then .error (.scaleOverflow (String.ofList cs))
  let unscaled ← readInteger digits
  return ⟨unscaled, scale⟩

theorem read_eq (cs : List Char) :
    read cs = readTail (cs.dropWhile (!isExponentMark ·)) >>=
      readScaled cs (cs.takeWhile (!isExponentMark ·)) := by
  unfold read readTail readScaled
  generalize cs.dropWhile (!isExponentMark ·) = tail
  cases tail <;> rfl

theorem scaleFits_iff {scale : ℤ} :
    scaleFits scale = true ↔ -2 ^ 63 ≤ scale ∧ scale < 2 ^ 63 := by
  rw [scaleFits, Bool.and_eq_true, decide_eq_true_eq, decide_eq_true_eq]
  omega

theorem SpellsBase.isEmpty {cs : List Char} {digits : ℤ} {count : ℕ}
    (h : SpellsBase cs digits count) : cs.isEmpty = false := by
  cases cs with
  | nil => cases (spellsBase_iff.mp h).1
  | cons => rfl

theorem readScaled_ok_iff {cs base : List Char} {exponent : ℤ} {d : Decimal} :
    readScaled cs base exponent = .ok d ↔ ∃ digits count, SpellsBase base digits count ∧
      (-2 ^ 63 ≤ count - exponent ∧ count - exponent < 2 ^ 63) ∧
      d = ⟨digits, count - exponent⟩ := by
  constructor
  · intro h
    unfold readScaled at h
    cases hempty : base.isEmpty with
    | true =>
      rw [hempty] at h
      cases h
    | false =>
      cases hfits : scaleFits ((splitPoint base).2 - exponent) with
      | false =>
        simp only [hempty, hfits] at h
        cases h
      | true =>
        simp only [hempty, hfits, Bool.not_true] at h
        obtain ⟨digits, hread, rfl⟩ := map_ok_iff.mp h
        exact ⟨digits, _, spellsBase_iff.mpr ⟨hread, rfl⟩, scaleFits_iff.mp hfits, rfl⟩
  · rintro ⟨digits, count, hbase, hscale, rfl⟩
    have hempty := hbase.isEmpty
    obtain ⟨hread, rfl⟩ := spellsBase_iff.mp hbase
    have hfits := scaleFits_iff.mpr hscale
    unfold readScaled
    simp only [hempty, hfits, Bool.not_true]
    exact map_ok_iff.mpr ⟨digits, hread, rfl⟩

theorem isExponentMark_iff {c : Char} : isExponentMark c = true ↔ c = 'e' ∨ c = 'E' := by
  simp [isExponentMark]

theorem SpellsTail.readTail {cs : List Char} {exponent : ℤ} (h : SpellsTail cs exponent) :
    readTail cs = .ok exponent := by
  cases h with
  | nothing => rfl
  | exponent mark hmark h => exact readExponent_ok_iff.mpr h

theorem spellsTail_of_readTail {cs : List Char} {exponent : ℤ}
    (hmark : ∀ c ∈ cs.head?, isExponentMark c = true) (h : readTail cs = .ok exponent) :
    SpellsTail cs exponent := by
  cases cs with
  | nil =>
    cases h
    exact .nothing
  | cons mark rest =>
    exact .exponent mark (isExponentMark_iff.mp (hmark mark rfl)) (readExponent_ok_iff.mp h)

theorem cut_of_spells {base tail : List Char} {exponent : ℤ} (hmark : 'e' ∉ base ∧ 'E' ∉ base)
    (htail : SpellsTail tail exponent) :
    (base ++ tail).takeWhile (!isExponentMark ·) = base ∧
      (base ++ tail).dropWhile (!isExponentMark ·) = tail := by
  have hbase : ∀ c ∈ base, (!isExponentMark c) = true := by
    intro c hc
    rw [Bool.not_eq_true', ← Bool.not_eq_true, isExponentMark_iff]
    rintro (rfl | rfl)
    · exact hmark.1 hc
    · exact hmark.2 hc
  rw [List.takeWhile_append_of_pos hbase, List.dropWhile_append_of_pos hbase]
  cases htail with
  | nothing => simp
  | exponent mark hmark' => simp [isExponentMark_iff.mpr hmark']

theorem read_ok_iff {cs : List Char} {d : Decimal} :
    read cs = .ok d ↔ ∃ digits count exponent, Spells cs digits count exponent ∧
      d = ⟨digits, count - exponent⟩ := by
  rw [read_eq, bind_ok_iff]
  simp only [readScaled_ok_iff]
  constructor
  · rintro ⟨exponent, htail, digits, count, hbase, hscale, rfl⟩
    have hmark : ∀ c ∈ cs.takeWhile (!isExponentMark ·), ¬ (c = 'e' ∨ c = 'E') := by
      intro c hc
      rw [← isExponentMark_iff]
      simpa using List.mem_takeWhile_imp hc
    have hhead : ∀ c ∈ (cs.dropWhile (!isExponentMark ·)).head?, isExponentMark c = true := by
      intro c hc
      have := List.head?_dropWhile_not (!isExponentMark ·) cs
      rw [hc] at this
      simpa using this
    have hspells := Spells.intro ⟨fun he => hmark _ he (.inl rfl), fun he => hmark _ he (.inr rfl)⟩
      hbase (spellsTail_of_readTail hhead htail) hscale
    rw [List.takeWhile_append_dropWhile] at hspells
    exact ⟨digits, count, exponent, hspells, rfl⟩
  · rintro ⟨digits, count, exponent, ⟨hmark, hbase, htail, hscale⟩, rfl⟩
    obtain ⟨htake, hdrop⟩ := cut_of_spells hmark htail
    rw [htake, hdrop]
    exact ⟨exponent, htail.readTail, digits, count, hbase, hscale, rfl⟩

/-! ## The characters of a decimal -/

def IsDecimalChar (c : Char) : Prop := c.isDigit = true ∨ c ∈ ['_', '.', '+', '-', 'e', 'E']

theorem Writes.chars {cs : List Char} {n : ℕ} (h : Writes cs n) : ∀ c ∈ cs, IsDecimalChar c := by
  obtain ⟨ds, hds, rfl, -⟩ := h
  rw [List.forall_mem_map]
  intro d hd
  have hlt := hds d hd
  refine .inl ?_
  interval_cases d <;> rfl

theorem SpellsDigits.chars {cs : List Char} {n : ℕ} (h : SpellsDigits cs n) :
    ∀ c ∈ cs, IsDecimalChar c := by
  intro c hc
  by_cases hunderscore : c = '_'
  · exact .inr (by simp [hunderscore])
  · exact h.2.2.chars c (List.mem_filter.mpr ⟨hc, decide_eq_true hunderscore⟩)

theorem SpellsInteger.chars {cs : List Char} {digits : ℤ} (h : SpellsInteger cs digits) :
    ∀ c ∈ cs, IsDecimalChar c := by
  cases h with
  | unsigned h => exact h.chars
  | plus h => exact List.forall_mem_cons.mpr ⟨.inr (by decide), h.chars⟩
  | minus h => exact List.forall_mem_cons.mpr ⟨.inr (by decide), h.chars⟩

theorem SpellsBase.chars {cs : List Char} {digits : ℤ} {count : ℕ}
    (h : SpellsBase cs digits count) : ∀ c ∈ cs, IsDecimalChar c := by
  cases h with
  | whole _ h => exact h.chars
  | pointed _ h =>
    have hboth := List.forall_mem_append.mp h.chars
    refine List.forall_mem_append.mpr ⟨hboth.1, ?_⟩
    exact List.forall_mem_cons.mpr ⟨.inr (by decide), hboth.2⟩

theorem SpellsTail.chars {cs : List Char} {exponent : ℤ} (h : SpellsTail cs exponent) :
    ∀ c ∈ cs, IsDecimalChar c := by
  cases h with
  | nothing => exact List.forall_mem_nil _
  | exponent mark hmark h =>
    refine List.forall_mem_cons.mpr ⟨.inr ?_, ?_⟩
    · rcases hmark with rfl | rfl <;> decide
    · cases h with
      | unsigned _ h => exact h.chars
      | plus _ h => exact List.forall_mem_cons.mpr ⟨.inr (by decide), h.chars⟩
      | minus _ h => exact List.forall_mem_cons.mpr ⟨.inr (by decide), h.chars⟩

theorem Spells.chars {cs : List Char} {digits exponent : ℤ} {count : ℕ}
    (h : Spells cs digits count exponent) : ∀ c ∈ cs, IsDecimalChar c := by
  obtain ⟨-, hbase, htail, -⟩ := h
  exact List.forall_mem_append.mpr ⟨hbase.chars, htail.chars⟩

end Decimal

end ExactCompare
