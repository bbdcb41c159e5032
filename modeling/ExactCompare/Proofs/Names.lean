import ExactCompare.Identifier
import Mathlib.Data.List.Forall2
import Mathlib.Data.List.Induction
import Mathlib.Order.Nat

/-!
# Names by their grammar

A text is read as a name exactly if it follows the grammar of names and has at most 63 bytes. It is
kept in lower case, so texts are read as one name exactly if they differ in case alone.
-/

namespace ExactCompare

/-! ## Case and bytes -/

namespace Text

def IsCapital (c : Char) : Prop := 'A' ≤ c ∧ c ≤ 'Z'

def IsSmall (c : Char) : Prop := 'a' ≤ c ∧ c ≤ 'z'

/-- A capital becomes the small letter 32 codes above it, and every other character stays. -/
def LowersTo (c d : Char) : Prop :=
  IsCapital c ∧ d.toNat = c.toNat + 32 ∨ ¬ IsCapital c ∧ d = c

/-- The same character, or a capital and its small letter. -/
def SameLetter (c d : Char) : Prop :=
  c = d ∨ IsCapital c ∧ d.toNat = c.toNat + 32 ∨ IsCapital d ∧ c.toNat = d.toNat + 32

theorem isCapital_iff {c : Char} : IsCapital c ↔ c.isUpper = true := by
  rw [isUpper_iff]
  exact Iff.rfl

theorem isSmall_iff {c : Char} : IsSmall c ↔ c.isLower = true := by
  rw [isLower_iff]
  exact Iff.rfl

theorem lowersTo_iff {c d : Char} : LowersTo c d ↔ d = c.toLower := by
  unfold LowersTo
  rw [isCapital_iff]
  cases h : c.isUpper with
  | false => simp [toLower_of_not_isUpper h]
  | true => simp [← toNat_toLower h, Char.toNat_inj]

theorem sameLetter_iff {c d : Char} : SameLetter c d ↔ c.toLower = d.toLower := by
  constructor
  · rintro (rfl | ⟨hc, hd⟩ | ⟨hd, hc⟩)
    · rfl
    · obtain rfl := lowersTo_iff.mp (.inl ⟨hc, hd⟩)
      exact (toLower_of_not_isUpper (isUpper_toLower c)).symm
    · obtain rfl := lowersTo_iff.mp (.inl ⟨hd, hc⟩)
      exact toLower_of_not_isUpper (isUpper_toLower d)
  · intro h
    cases hc : c.isUpper with
    | false =>
      rw [toLower_of_not_isUpper hc] at h
      cases hd : d.isUpper with
      | false => exact .inl (h.trans (toLower_of_not_isUpper hd))
      | true => exact .inr (.inr ⟨isCapital_iff.mpr hd, h ▸ toNat_toLower hd⟩)
    | true =>
      cases hd : d.isUpper with
      | false =>
        rw [toLower_of_not_isUpper hd] at h
        exact .inr (.inl ⟨isCapital_iff.mpr hc, h ▸ toNat_toLower hc⟩)
      | true =>
        -- Both small letters lie 32 codes above their capitals.
        have hcodes := congrArg Char.toNat h
        rw [toNat_toLower hc, toNat_toLower hd] at hcodes
        exact .inl (Char.toNat_inj.mp (by omega))

theorem forall₂_lowersTo_iff {cs ds : List Char} :
    List.Forall₂ LowersTo cs ds ↔ ds = lower cs := by
  have hrel : LowersTo = fun c d => c.toLower = d := by
    funext c d
    exact propext (lowersTo_iff.trans eq_comm)
  rw [hrel, eq_comm, lower, ← List.forall₂_eq_eq_eq, List.forall₂_map_left_iff]

theorem forall₂_sameLetter_iff {cs ds : List Char} :
    List.Forall₂ SameLetter cs ds ↔ lower cs = lower ds := by
  have hrel : SameLetter = fun c d => c.toLower = d.toLower := by
    funext c d
    rw [sameLetter_iff]
  rw [hrel, lower, lower, ← List.forall₂_eq_eq_eq, List.forall₂_map_left_iff,
    List.forall₂_map_right_iff]

theorem byteLength_eq_utf8ByteSize (cs : List Char) :
    byteLength cs = (String.ofList cs).utf8ByteSize := by
  induction cs with
  | nil => rfl
  | cons c cs ih =>
    have hsplit : String.ofList (c :: cs) = String.singleton c ++ String.ofList cs := by
      rw [String.singleton_eq_ofList, ← String.ofList_append]
      rfl
    rw [hsplit, String.utf8ByteSize_append, String.utf8ByteSize_singleton, ← ih]
    rfl

theorem byteLength_toList (s : String) : byteLength s.toList = s.utf8ByteSize := by
  rw [byteLength_eq_utf8ByteSize, String.ofList_toList]

end Text

namespace Identifier

/-! ## The grammar -/

/-- A letter or an underscore, and then letters, digits, underscores and dollar signs. -/
inductive IsName : List Char → Prop
  | first {c : Char} (h : Text.IsCapital c ∨ Text.IsSmall c ∨ c = '_') : IsName [c]
  | next {cs : List Char} {c : Char} (hname : IsName cs)
      (h : Text.IsCapital c ∨ Text.IsSmall c ∨ ('0' ≤ c ∧ c ≤ '9') ∨ c = '_' ∨ c = '$') :
      IsName (cs ++ [c])

theorem isStart_iff {c : Char} :
    isStart c = true ↔ Text.IsCapital c ∨ Text.IsSmall c ∨ c = '_' := by
  rw [Text.isCapital_iff, Text.isSmall_iff, isStart]
  delta Char.isAlpha
  simp only [Bool.or_eq_true, beq_iff_eq, or_assoc]

theorem isPart_iff {c : Char} : isPart c = true ↔
    Text.IsCapital c ∨ Text.IsSmall c ∨ ('0' ≤ c ∧ c ≤ '9') ∨ c = '_' ∨ c = '$' := by
  have hdigit : c.isDigit = true ↔ '0' ≤ c ∧ c ≤ '9' := by
    delta Char.isDigit
    simp only [Bool.and_eq_true, decide_eq_true_eq]
    exact Iff.rfl
  rw [Text.isCapital_iff, Text.isSmall_iff, ← hdigit, isPart]
  delta Char.isAlphanum Char.isAlpha
  simp only [Bool.or_eq_true, beq_iff_eq, or_assoc]

theorem wellFormed_concat {cs : List Char} (hne : cs ≠ []) (c : Char) :
    wellFormed (cs ++ [c]) = (wellFormed cs && isPart c) := by
  obtain ⟨d, ds, rfl⟩ := List.exists_cons_of_ne_nil hne
  simp [wellFormed, Bool.and_assoc]

theorem isName_of_wellFormed (cs : List Char) (h : wellFormed cs = true) : IsName cs := by
  induction cs using List.reverseRecOn with
  | nil => cases h
  | append_singleton cs c ih =>
    by_cases hnil : cs = []
    · subst hnil
      simp only [List.nil_append, wellFormed, List.all_nil, Bool.and_true] at h
      exact .first (isStart_iff.mp h)
    · rw [wellFormed_concat hnil, Bool.and_eq_true] at h
      exact .next (ih h.1) (isPart_iff.mp h.2)

theorem IsName.wellFormed {cs : List Char} (h : IsName cs) :
    cs ≠ [] ∧ Identifier.wellFormed cs = true := by
  induction h with
  | first h => simpa [Identifier.wellFormed] using isStart_iff.mpr h
  | next hname h ih =>
    refine ⟨by simp, ?_⟩
    rw [wellFormed_concat ih.1, ih.2, isPart_iff.mpr h]
    rfl

theorem wellFormed_iff {cs : List Char} : wellFormed cs = true ↔ IsName cs :=
  ⟨isName_of_wellFormed cs, fun h => h.wellFormed.2⟩

/-! ## Reading -/

variable {s : String} {i : Identifier}

theorem fits_of_short (h : Text.byteLength s.toList ≤ maxLength) :
    Text.byteLength (Text.lowered s).toList ≤ capacity := by
  rw [Text.lowered, String.toList_ofList, Text.byteLength_lower]
  exact h.trans (by decide)

theorem parse_of_malformed (h : ¬ IsName s.toList) : parse s = .error (.malformed s) := by
  rw [parse, dif_neg (mt wellFormed_iff.mp h)]

theorem parse_of_too_long (h : IsName s.toList) (hlong : maxLength < s.utf8ByteSize) :
    parse s = .error (.tooLong s) := by
  rw [← Text.byteLength_toList] at hlong
  rw [parse, dif_pos (wellFormed_iff.mpr h), dif_neg hlong.not_ge]

theorem exists_parse (h : IsName s.toList) (hshort : s.utf8ByteSize ≤ maxLength) :
    ∃ i, parse s = .ok i ∧ i.name = Text.lowered s := by
  rw [← Text.byteLength_toList] at hshort
  unfold parse
  rw [dif_pos (wellFormed_iff.mpr h), dif_pos hshort, if_pos (fits_of_short hshort)]
  exact ⟨_, rfl, rfl⟩

theorem parse_ok_iff : parse s = .ok i ↔
    IsName s.toList ∧ s.utf8ByteSize ≤ maxLength ∧ i.name = Text.lowered s := by
  constructor
  · intro h
    by_cases hname : IsName s.toList
    · rcases le_or_gt s.utf8ByteSize maxLength with hshort | hlong
      · obtain ⟨j, hj, hlowered⟩ := exists_parse hname hshort
        obtain rfl := Except.ok.inj (h.symm.trans hj)
        exact ⟨hname, hshort, hlowered⟩
      · rw [parse_of_too_long hname hlong] at h
        cases h
    · rw [parse_of_malformed hname] at h
      cases h
  · rintro ⟨hname, hshort, hlowered⟩
    obtain ⟨j, hj, hj'⟩ := exists_parse hname hshort
    rw [hj, Except.ok.injEq]
    cases i
    cases j
    cases hlowered.trans hj'.symm
    rfl

theorem lowered_name (i : Identifier) : Text.lowered i.name = i.name := by
  rw [Text.lowered, i.canonical.lower, String.ofList_toList]

theorem parse_name (i : Identifier) : parse i.name = .ok i := by
  refine parse_ok_iff.mpr ⟨wellFormed_iff.mp i.canonical.wellFormed, ?_, i.lowered_name.symm⟩
  rw [← Text.byteLength_toList]
  exact i.canonical.short

theorem name_of_parse (h : parse s = .ok i) : List.Forall₂ Text.LowersTo s.toList i.name.toList ∧
    i.name.utf8ByteSize = s.utf8ByteSize := by
  obtain ⟨-, -, hname⟩ := parse_ok_iff.mp h
  rw [hname, Text.forall₂_lowersTo_iff, ← Text.byteLength_toList, ← Text.byteLength_toList,
    Text.lowered, String.toList_ofList, Text.byteLength_lower]
  exact ⟨rfl, rfl⟩

theorem eq_iff_of_parse {t : String} {j : Identifier} (hs : parse s = .ok i) (ht : parse t = .ok j) :
    i = j ↔ List.Forall₂ Text.SameLetter s.toList t.toList := by
  obtain ⟨-, -, hi⟩ := parse_ok_iff.mp hs
  obtain ⟨hname, hshort, hj⟩ := parse_ok_iff.mp ht
  have hlowered : i.name = j.name ↔ Text.lower s.toList = Text.lower t.toList := by
    rw [hi, hj, Text.lowered, Text.lowered, String.ofList_inj]
  rw [Text.forall₂_sameLetter_iff, ← hlowered]
  constructor
  · rintro rfl
    rfl
  · intro h
    have hi' : parse t = .ok i := parse_ok_iff.mpr ⟨hname, hshort, h.trans hj⟩
    exact Except.ok.inj (hi'.symm.trans ht)

end Identifier

/-! ## The theorem -/

/-- **Names are read by their grammar.** A text that is refused is malformed or too long, and never
lacks room. What is kept is the text in lower case, which is read back, and texts are one name
exactly if they differ in case alone. -/
theorem names_are_read_by_their_grammar :
    (∀ s, (∃ i, Identifier.parse s = .ok i) ↔
      Identifier.IsName s.toList ∧ s.utf8ByteSize ≤ 63) ∧
    (∀ s e, Identifier.parse s = .error e ↔
      e = .malformed s ∧ ¬ Identifier.IsName s.toList ∨
        e = .tooLong s ∧ Identifier.IsName s.toList ∧ 63 < s.utf8ByteSize) ∧
    (∀ s i, Identifier.parse s = .ok i → List.Forall₂ Text.LowersTo s.toList i.name.toList ∧
      i.name.utf8ByteSize = s.utf8ByteSize) ∧
    (∀ i : Identifier, Identifier.parse i.name = .ok i) ∧
    ∀ s t i j, Identifier.parse s = .ok i → Identifier.parse t = .ok j →
      (i = j ↔ List.Forall₂ Text.SameLetter s.toList t.toList) := by
  refine ⟨fun s => ?_, fun s e => ?_, fun s i h => Identifier.name_of_parse h,
    Identifier.parse_name, fun s t i j hs ht => Identifier.eq_iff_of_parse hs ht⟩
  · constructor
    · rintro ⟨i, h⟩
      obtain ⟨hname, hshort, -⟩ := Identifier.parse_ok_iff.mp h
      exact ⟨hname, hshort⟩
    · rintro ⟨hname, hshort⟩
      obtain ⟨i, h, -⟩ := Identifier.exists_parse hname hshort
      exact ⟨i, h⟩
  · by_cases hname : Identifier.IsName s.toList
    · rcases le_or_gt s.utf8ByteSize 63 with hshort | hlong
      · obtain ⟨i, hi, -⟩ := Identifier.exists_parse hname hshort
        simp [hi, hname, hshort.not_gt]
      · simp [Identifier.parse_of_too_long hname hlong, hname, hlong, eq_comm]
    · simp [Identifier.parse_of_malformed hname, hname, eq_comm]

theorem names_are_read_by_their_grammar_at_longest :
    let capitals := "_" ++ String.ofList (List.replicate 62 'Z')
    let small := "_" ++ String.ofList (List.replicate 62 'z')
    (∃ i, Identifier.parse capitals = .ok i ∧ Identifier.parse small = .ok i ∧
      i.name.utf8ByteSize = 63) ∧
      Identifier.parse (capitals ++ "$") = .error (.tooLong (capitals ++ "$")) := by
  intro capitals small
  obtain ⟨hok, herror, hkept, -, hsame⟩ := names_are_read_by_their_grammar
  have hcapitals : Identifier.IsName capitals.toList :=
    Identifier.wellFormed_iff.mp (by decide +kernel)
  have hsmall : Identifier.IsName small.toList := Identifier.wellFormed_iff.mp (by decide +kernel)
  have hlong : Identifier.IsName (capitals ++ "$").toList :=
    Identifier.wellFormed_iff.mp (by decide +kernel)
  obtain ⟨i, hi⟩ := (hok capitals).mpr ⟨hcapitals, by decide +kernel⟩
  obtain ⟨j, hj⟩ := (hok small).mpr ⟨hsmall, by decide +kernel⟩
  obtain rfl := (hsame _ _ i j hi hj).mpr (Text.forall₂_sameLetter_iff.mpr (by decide +kernel))
  exact ⟨⟨i, hi, hj, (hkept _ i hi).2.trans (by decide +kernel)⟩,
    (herror _ _).mpr (.inr ⟨rfl, hlong, by decide +kernel⟩)⟩

end ExactCompare
