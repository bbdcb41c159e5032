import ExactCompare.Decimal.Printer
import ExactCompare.Proofs.Decimal.Rescaling
import ExactCompare.Proofs.Decimal.Spelling

/-!
# Printed decimals read back

Each of the three notations spells the decimal that is printed. So a text is read back as the
decimal it was printed from, in normal form.
-/

namespace ExactCompare

-- Powers are those that `Nat` and `Int` come with.
attribute [local instance (2000)] instPowNat

namespace Decimal

/-! ## Digits in a row -/

theorem writes_decimal (n : ℕ) : Writes (Digits.decimal n) n := by
  unfold Digits.decimal
  split
  case h_1 hnone =>
    have hn : n = 0 := by
      by_contra hne
      have hpos := Digits.length_ofNat_pos (by decide : 2 ≤ 10) hne
      rw [hnone] at hpos
      cases hpos
    exact ⟨[0], by simp, rfl, by simp [hn]⟩
  case h_2 =>
    refine ⟨Digits.ofNat 10 n, fun d => Digits.lt_of_mem_ofNat (by decide), rfl, ?_⟩
    rw [← Digits.value_eq_ofDigits, Digits.value_ofNat (by decide)]

theorem decimal_ne_nil (n : ℕ) : Digits.decimal n ≠ [] := by
  unfold Digits.decimal
  split
  case h_1 => exact List.cons_ne_nil _ _
  case h_2 hne => exact fun hnil => hne (List.map_eq_nil_iff.mp hnil)

theorem Writes.append {a b : List Char} {m n : ℕ} (ha : Writes a m) (hb : Writes b n) :
    Writes (a ++ b) (m * 10 ^ b.length + n) := by
  obtain ⟨ds, hds, rfl, rfl⟩ := ha
  obtain ⟨es, hes, rfl, rfl⟩ := hb
  refine ⟨ds ++ es, List.forall_mem_append.mpr ⟨hds, hes⟩, List.map_append.symm, ?_⟩
  rw [← Digits.value_eq_ofDigits, ← Digits.value_eq_ofDigits, ← Digits.value_eq_ofDigits,
    Digits.value_append, List.length_map]

theorem writes_zeros (k : ℕ) : Writes (List.replicate k '0') 0 := by
  refine ⟨List.replicate k 0, ?_, ?_, ?_⟩
  · intro d hd
    rw [List.eq_of_mem_replicate hd]
    decide
  · rw [List.map_replicate]
    rfl
  · rw [List.reverse_replicate, Nat.ofDigits_replicate_zero]

theorem Writes.isDigit {cs : List Char} {n : ℕ} (h : Writes cs n) :
    ∀ c ∈ cs, c.isDigit = true := by
  obtain ⟨ds, hds, rfl, -⟩ := h
  rw [List.forall_mem_map]
  intro d hd
  have hlt := hds d hd
  interval_cases d <;> rfl

theorem Writes.not_mem {cs : List Char} {n : ℕ} (h : Writes cs n) {mark : Char}
    (hmark : mark.isDigit = false) : mark ∉ cs :=
  fun hmem => ne_of_isDigit (h.isDigit mark hmem) hmark rfl

theorem Writes.filter_eq {cs : List Char} {n : ℕ} (h : Writes cs n) :
    cs.filter (· ≠ '_') = cs :=
  List.filter_eq_self.mpr (forall_ne_of_not_mem (h.not_mem rfl))

theorem Writes.spellsDigits {cs : List Char} {n : ℕ} (h : Writes cs n) (hne : cs ≠ []) :
    SpellsDigits cs n := by
  refine ⟨hne, ?_, h.filter_eq.symm ▸ h⟩
  intro hhead
  exact h.not_mem rfl (List.mem_of_mem_head? hhead)

/-! ## Signs -/

def signed (negative : Bool) (cs : List Char) : List Char := if negative then '-' :: cs else cs

def signedValue (negative : Bool) (n : ℕ) : ℤ := if negative then -n else n

theorem signed_append (negative : Bool) (a b : List Char) :
    signed negative (a ++ b) = signed negative a ++ b := by
  cases negative <;> rfl

theorem not_mem_signed {negative : Bool} {cs : List Char} {mark : Char} (hmark : mark ≠ '-')
    (h : mark ∉ cs) : mark ∉ signed negative cs := by
  cases negative with
  | false => exact h
  | true => exact List.not_mem_cons_of_ne_of_not_mem hmark h

theorem SpellsDigits.signed {cs : List Char} {n : ℕ} (h : SpellsDigits cs n) (negative : Bool) :
    SpellsInteger (signed negative cs) (signedValue negative n) := by
  cases negative with
  | false => exact .unsigned h
  | true => exact .minus h

/-- A text without a sign that spells a decimal with either sign in front of it. -/
def SpellsMagnitude (cs : List Char) (n count : ℕ) (exponent : ℤ) : Prop :=
  ∀ negative, Spells (signed negative cs) (signedValue negative n) count exponent

section Notations

variable {base whole fraction tail : List Char} {n : ℕ} {exponent : ℤ}

theorem spellsMagnitude_whole (h : Writes base n) (hne : base ≠ [])
    (htail : SpellsTail tail exponent) (hscale : scaleFits ((0 : ℕ) - exponent) = true) :
    SpellsMagnitude (base ++ tail) n 0 exponent := by
  intro negative
  have hmark (mark : Char) (hdigit : mark.isDigit = false) (hsign : mark ≠ '-') :
      mark ∉ signed negative base := not_mem_signed hsign (h.not_mem hdigit)
  rw [signed_append]
  exact .intro ⟨hmark 'e' rfl (by decide), hmark 'E' rfl (by decide)⟩
    (.whole (hmark '.' rfl (by decide)) ((h.spellsDigits hne).signed negative)) htail
    (scaleFits_iff.mp hscale)

theorem spellsMagnitude_pointed (h : Writes (whole ++ fraction) n) (hne : whole ≠ [])
    (htail : SpellsTail tail exponent) (hscale : scaleFits (fraction.length - exponent) = true) :
    SpellsMagnitude (whole ++ '.' :: fraction ++ tail) n fraction.length exponent := by
  intro negative
  have hparts (mark : Char) (hdigit : mark.isDigit = false) : mark ∉ whole ∧ mark ∉ fraction := by
    have := h.not_mem hdigit
    rwa [List.mem_append, not_or] at this
  have hmark (mark : Char) (hdigit : mark.isDigit = false) (hsign : mark ≠ '-')
      (hpoint : mark ≠ '.') : mark ∉ signed negative (whole ++ '.' :: fraction) := by
    refine not_mem_signed hsign ?_
    rw [List.mem_append, List.mem_cons, not_or, not_or]
    exact ⟨(hparts mark hdigit).1, hpoint, (hparts mark hdigit).2⟩
  have hcount : (fraction.filter (· ≠ '_')).length = fraction.length := by
    rw [List.filter_eq_self.mpr (forall_ne_of_not_mem (hparts '_' rfl).2)]
  have hdigits := (h.spellsDigits (List.append_ne_nil_of_left_ne_nil hne fraction)).signed negative
  rw [signed_append] at hdigits
  have hbase := SpellsBase.pointed
    (not_mem_signed (by decide) (hparts '.' rfl).1) hdigits
  rw [hcount, ← signed_append] at hbase
  rw [signed_append]
  exact .intro ⟨hmark 'e' rfl (by decide) (by decide), hmark 'E' rfl (by decide) (by decide)⟩
    hbase htail (scaleFits_iff.mp hscale)

end Notations

/-! ## The three notations -/

section Printed

variable {digits : List Char} {n : ℕ}

theorem spellsMagnitude_scientific {scale : ℕ} (h : Writes digits n) (hne : digits ≠ [])
    (hlong : digits.length < scale) (hscale : scaleFits scale = true) :
    SpellsMagnitude (scientific digits scale) n (digits.length - 1)
      (-(scale + 1 - digits.length : ℕ)) := by
  have hexponent : (scale + 1 - digits.length : ℕ) ≤ 2 ^ 127 := by
    have := (scaleFits_iff.mp hscale).2
    omega
  have htail : SpellsTail ('E' :: '-' :: Digits.decimal (scale + 1 - digits.length))
      (-(scale + 1 - digits.length : ℕ)) :=
    .exponent 'E' (.inr rfl) (.minus (decimal_ne_nil _) (writes_decimal _) hexponent)
  have hcount : ((digits.length - 1 : ℕ) : ℤ) - -(scale + 1 - digits.length : ℕ) = scale := by
    have := List.length_pos_iff.mpr hne
    omega
  rw [← hcount] at hscale
  clear hexponent hcount
  unfold scientific
  generalize scale + 1 - digits.length = k at *
  obtain ⟨c, rest, rfl⟩ := List.exists_cons_of_ne_nil hne
  cases rest with
  | nil => exact spellsMagnitude_whole h hne htail hscale
  | cons d rest =>
    have hfirst : [c] ≠ [] := List.cons_ne_nil c []
    exact spellsMagnitude_pointed h hfirst htail hscale

theorem spellsMagnitude_point {scale : ℕ} (h : Writes digits n)
    (hscale : scaleFits scale = true) :
    SpellsMagnitude (pointed digits scale) n scale 0 := by
  have hcount (fraction : List Char) (hlength : fraction.length = scale) :
      scaleFits (fraction.length - 0) = true := by rwa [hlength, sub_zero]
  unfold pointed
  split
  case isTrue hlt =>
    have hlength : (digits.drop (digits.length - scale)).length = scale := by
      rw [List.length_drop]
      omega
    have hwhole : digits.take (digits.length - scale) ≠ [] := by
      rw [ne_eq, ← List.length_eq_zero_iff, List.length_take]
      omega
    rw [← List.take_append_drop (digits.length - scale) digits] at h
    have hspells := spellsMagnitude_pointed h hwhole .nothing (hcount _ hlength)
    rwa [List.append_nil, hlength] at hspells
  case isFalse hle =>
    have hlength : (List.replicate (scale - digits.length) '0' ++ digits).length = scale := by
      rw [List.length_append, List.length_replicate]
      omega
    have hwrites := (writes_zeros (1 + (scale - digits.length))).append h
    rw [Nat.zero_mul, Nat.zero_add, List.replicate_add, List.append_assoc] at hwrites
    have hspells := spellsMagnitude_pointed hwrites (List.cons_ne_nil _ _) .nothing
      (hcount _ hlength)
    rwa [List.append_nil, hlength] at hspells

theorem spellsMagnitude_exponent {k : ℕ} (h : Writes digits n) (hne : digits ≠ [])
    (hscale : scaleFits (-k) = true) :
    SpellsMagnitude (digits ++ 'e' :: '+' :: Digits.decimal k) n 0 k := by
  have hbounds := (scaleFits_iff.mp hscale).1
  refine spellsMagnitude_whole h hne
    (.exponent 'e' (.inl rfl) (.plus (decimal_ne_nil k) (writes_decimal k) ?_)) ?_
  · omega
  · rwa [Nat.cast_zero, zero_sub]

theorem spellsMagnitude_zeros (h : Writes digits n) (hne : digits ≠ []) (k : ℕ) :
    SpellsMagnitude (digits ++ List.replicate k '0') (n * 10 ^ k) 0 0 := by
  have hwrites := h.append (writes_zeros k)
  rw [List.length_replicate, Nat.add_zero] at hwrites
  have hspells := spellsMagnitude_whole hwrites (List.append_ne_nil_of_left_ne_nil hne _) .nothing
    (by decide)
  rwa [List.append_nil] at hspells

theorem exists_spellsMagnitude {scale : ℤ} (h : Writes digits n) (hne : digits ≠ [])
    (hscale : scaleFits scale = true) :
    ∃ m count exponent, SpellsMagnitude (magnitudeChars digits scale) m count exponent ∧
      (m : ℚ) * 10 ^ (exponent - count : ℤ) = n * 10 ^ (-scale) := by
  unfold magnitudeChars
  split
  case isTrue hpos =>
    obtain ⟨k, rfl⟩ := Int.eq_ofNat_of_zero_le hpos.le
    split
    case isTrue hlong =>
      rw [Int.toNat_natCast] at hlong
      have hlength := List.length_pos_iff.mpr hne
      have hlong' : digits.length < k := by omega
      refine ⟨n, _, _, spellsMagnitude_scientific h hne hlong' hscale, ?_⟩
      congr 2
      omega
    case isFalse =>
      refine ⟨n, _, _, spellsMagnitude_point h hscale, ?_⟩
      rw [zero_sub]
      rfl
  case isFalse hnonpos =>
    obtain ⟨k, rfl⟩ : ∃ k : ℕ, scale = -k := ⟨(-scale).toNat, by omega⟩
    rw [neg_neg, Int.toNat_natCast]
    split
    case isTrue =>
      refine ⟨n, _, _, spellsMagnitude_exponent h hne hscale, ?_⟩
      rw [Nat.cast_zero, sub_zero]
    case isFalse =>
      refine ⟨n * 10 ^ k, _, _, spellsMagnitude_zeros h hne k, ?_⟩
      rw [Nat.cast_zero, sub_zero, zpow_zero, mul_one, zpow_natCast]
      push_cast
      rfl

end Printed

/-! ## The whole text -/

theorem chars_of_ne_zero {d : Decimal} (hne : d.unscaled ≠ 0) :
    d.chars =
      signed (d.unscaled < 0) (magnitudeChars (Digits.decimal d.unscaled.natAbs) d.scale) := by
  unfold chars signed
  rw [if_neg hne]
  by_cases hneg : d.unscaled < 0 <;> simp [hneg]

theorem signedValue_natAbs (u : ℤ) : signedValue (u < 0) u.natAbs = u := by
  unfold signedValue
  split
  all_goals
    rename_i hsign
    rw [decide_eq_true_iff] at hsign
    omega

theorem cast_signedValue (negative : Bool) (n : ℕ) :
    (signedValue negative n : ℚ) = signedValue negative 1 * n := by
  cases negative <;> simp [signedValue]

/-- **A printed decimal spells its value.** -/
theorem spells_chars (d : Decimal) (hscale : scaleFits d.scale = true) :
    ∃ digits count exponent, Spells d.chars digits count exponent ∧
      (digits : ℚ) * 10 ^ (exponent - count : ℤ) = d.toRat := by
  by_cases hzero : d.unscaled = 0
  · refine ⟨0, 0, 0, ?_, by simp [toRat, hzero]⟩
    have hspells := spellsMagnitude_zeros (writes_zeros 1) (List.cons_ne_nil _ _) 0 false
    unfold chars
    rw [if_pos hzero]
    exact hspells
  · obtain ⟨m, count, exponent, hspells, hvalue⟩ :=
      exists_spellsMagnitude (writes_decimal d.unscaled.natAbs) (decimal_ne_nil _) hscale
    rw [chars_of_ne_zero hzero]
    refine ⟨_, count, exponent, hspells _, ?_⟩
    rw [cast_signedValue, mul_assoc, hvalue, ← mul_assoc, ← cast_signedValue, signedValue_natAbs,
      toRat]

/-! ## Reading it back -/

theorem IsDecimalChar.isBlank {c : Char} (h : IsDecimalChar c) : Text.isBlank c = false := by
  rcases h with hdigit | hmark
  · have hrange : 48 ≤ c.toNat ∧ c.toNat ≤ 57 := by
      simpa [Char.isDigit, UInt32.le_iff_toNat_le] using hdigit
    unfold Text.isBlank
    simp
    omega
  · simp only [List.mem_cons, List.not_mem_nil, or_false] at hmark
    rcases hmark with rfl | rfl | rfl | rfl | rfl | rfl <;> decide

theorem dropWhile_isBlank {cs : List Char} (h : ∀ c ∈ cs, Text.isBlank c = false) :
    cs.dropWhile Text.isBlank = cs := by
  cases cs with
  | nil => rfl
  | cons c cs => exact List.dropWhile_cons_of_neg (by simp [h c List.mem_cons_self])

theorem trim_of_spells {cs : List Char} {digits exponent : ℤ} {count : ℕ}
    (h : Spells cs digits count exponent) : Text.trim cs = cs := by
  have hblank : ∀ c ∈ cs, Text.isBlank c = false := fun c hc => (h.chars c hc).isBlank
  unfold Text.trim
  rw [dropWhile_isBlank hblank, dropWhile_isBlank fun c hc => hblank c (List.mem_reverse.mp hc),
    List.reverse_reverse]

theorem Spells.trim {cs : List Char} {digits exponent : ℤ} {count : ℕ}
    (h : Spells cs digits count exponent) : Spells (Text.trim cs) digits count exponent := by
  rwa [trim_of_spells h]

/-- **A printed decimal is read back in normal form.** -/
theorem parse_text (d : Decimal) (hscale : scaleFits d.scale = true) :
    parse d.text = .ok d.normalize := by
  obtain ⟨digits, count, exponent, hspells, hvalue⟩ := d.spells_chars hscale
  have hread := read_ok_iff.mpr ⟨digits, count, exponent, hspells, rfl⟩
  have hnormal : normalize ⟨digits, count - exponent⟩ = d.normalize := by
    refine (isNormal_normalize _).eq_of_toRat (isNormal_normalize d) ?_
    rw [toRat_normalize, toRat_normalize, ← hvalue, toRat, neg_sub]
  rw [parse, text, String.toList_ofList, trim_of_spells hspells, hread, ← hnormal]
  rfl

end Decimal

end ExactCompare
