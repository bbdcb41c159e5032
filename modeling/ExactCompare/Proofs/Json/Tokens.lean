import ExactCompare.Proofs.Decimal.Spelling
import ExactCompare.Proofs.Json.Grammar

/-!
# Reading strings and numerals

A string is read up to its closing quote, and a numeral up to the first character that cannot be
part of it. Each is read as what it spells.
-/

namespace ExactCompare.Json

/-! ## Strings -/

theorem readHex_append {hex : List Char} {n : ℕ} (h : SpellsCode hex n) (rest : List Char) :
    readHex (hex ++ rest) = .ok (n, rest) := by
  cases h with
  | @intro a b c d w x y z ha hb hc hd =>
    have hdigits : [a, b, c, d].mapM hexDigit? = some [w, x, y, z] := by simp [ha, hb, hc, hd]
    have hvalue : Digits.value 16 [w, x, y, z] = ((w * 16 + x) * 16 + y) * 16 + z := by
      simp [Digits.value_eq_foldl]
    simp [readHex, hdigits, hvalue]

theorem not_surrogate (c : Char) : isLeading c.toNat = false ∧ isTrailing c.toNat = false := by
  have hvalid : c.toNat < 0xD800 ∨ 0xDFFF < c.toNat ∧ c.toNat < 0x110000 := c.valid
  simp only [isLeading, isTrailing, Bool.and_eq_false_iff, decide_eq_false_iff_not]
  omega

theorem readCode_code {c : Char} {hex : List Char} (h : SpellsCode hex c.toNat)
    (rest : List Char) : readCode (hex ++ rest) = .ok (c, rest) := by
  obtain ⟨hleading, htrailing⟩ := not_surrogate c
  simp [readCode, readHex_append h, hleading, htrailing, bind, Except.bind, pure, Except.pure]

theorem readCode_pair {c : Char} {hex hex' : List Char} {leading trailing : ℕ}
    (h : SpellsCode hex leading) (h' : SpellsCode hex' trailing)
    (hleading : isLeading leading = true) (htrailing : isTrailing trailing = true)
    (hcode : c.toNat = 0x10000 + (leading - 0xD800) * 0x400 + (trailing - 0xDC00))
    (rest : List Char) : readCode (hex ++ '\\' :: 'u' :: (hex' ++ rest)) = .ok (c, rest) := by
  have hnot : isTrailing leading = false := by
    simp only [isLeading, isTrailing, Bool.and_eq_true, decide_eq_true_eq, Bool.and_eq_false_iff,
      decide_eq_false_iff_not] at hleading ⊢
    omega
  simp [readCode, readHex_append h, readHex_append h', hleading, htrailing, hnot, ← hcode, bind,
    Except.bind, pure, Except.pure]

theorem readString_char {c : Char} {text : List Char} (h : SpellsChar c text) (fuel : ℕ)
    (rest : List Char) :
    readString (fuel + 1) (text ++ rest) = do
      let (cs, rest) ← readString fuel rest
      return (c :: cs, rest) := by
  cases h with
  | plain hcode hquote hslash =>
    simp [readString, hslash, Nat.not_lt.mpr hcode]
  | @short letter hletter =>
    have hu : letter ≠ 'u' := by
      rintro rfl
      cases hletter
    simp [readString, hletter]
  | code hhex => simp [readString, readCode_code hhex, bind, Except.bind]
  | pair hhex hhex' hleading htrailing hcode =>
    simp [readString, readCode_pair hhex hhex' hleading htrailing hcode, bind, Except.bind]

theorem readString_append {cs text : List Char} (h : SpellsChars cs text) {fuel : ℕ}
    (hfuel : text.length < fuel) (rest : List Char) :
    readString fuel (text ++ '"' :: rest) = .ok (cs, rest) := by
  induction h generalizing fuel with
  | nil =>
    obtain ⟨fuel, rfl⟩ := Nat.exists_eq_add_of_lt hfuel
    simp [readString]
  | @cons c cs text more hc h ih =>
    have hpos : 0 < text.length := by cases hc <;> simp
    obtain ⟨fuel, rfl⟩ : ∃ n, fuel = n + 1 := ⟨fuel - 1, by omega⟩
    rw [List.append_assoc, readString_char hc, ih (by rw [List.length_append] at hfuel; omega)]
    rfl

theorem readStringValue_append {s : String} {text : List Char} (h : SpellsChars s.toList text)
    (rest : List Char) : readStringValue (text ++ '"' :: rest) = (.string s, some rest) := by
  have hfuel : text.length < (text ++ '"' :: rest).length + 1 := by
    rw [List.length_append]
    omega
  rw [readStringValue, readString_append h hfuel]
  simp only [String.ofList_toList]

/-! ## Digits -/

/-- The text does not go on with a digit. -/
def EndsDigits (rest : List Char) : Prop := ∀ c ∈ rest.head?, c.isDigit = false

theorem isDigit_digitChar {d : ℕ} (h : d < 10) : (Nat.digitChar d).isDigit = true := by
  interval_cases d <;> rfl

theorem SpellsDigits.exists_digit {ds : List ℕ} {cs : List Char} (h : SpellsDigits ds cs) :
    ∃ c rest, cs = c :: rest ∧ c.isDigit = true := by
  cases h with
  | intro hne hds =>
    obtain ⟨d, ds, rfl⟩ := List.exists_cons_of_ne_nil hne
    exact ⟨d.digitChar, ds.map Nat.digitChar, rfl, isDigit_digitChar (hds d List.mem_cons_self)⟩

theorem digitsOf_append {ds : List ℕ} {cs rest : List Char} (h : SpellsDigits ds cs)
    (hrest : EndsDigits rest) : digitsOf (cs ++ rest) = (ds, rest) := by
  cases h with
  | intro hne hds =>
    have hall : ∀ c ∈ ds.map Nat.digitChar, c.isDigit = true := by
      intro c hc
      obtain ⟨d, hd, rfl⟩ := List.mem_map.mp hc
      exact isDigit_digitChar (hds d hd)
    have hread : (ds.map Nat.digitChar).filterMap Digits.digit? = ds := by
      rw [List.filterMap_map]
      refine (List.filterMap_congr fun d hd => ?_).trans List.filterMap_some
      exact Decimal.digit?_eq_some_iff.mpr ⟨hds d hd, rfl⟩
    have htake : rest.takeWhile Char.isDigit = [] := by
      cases rest with
      | nil => rfl
      | cons c rest => simp [hrest c rfl]
    have hdrop : rest.dropWhile Char.isDigit = rest := by
      cases rest with
      | nil => rfl
      | cons c rest => simp [hrest c rfl]
    rw [digitsOf, List.takeWhile_append_of_pos hall, List.dropWhile_append_of_pos hall, htake,
      hdrop, List.append_nil, hread]

theorem someDigits_append {ds : List ℕ} {cs rest : List Char} (h : SpellsDigits ds cs)
    (hrest : EndsDigits rest) : someDigits (cs ++ rest) = .ok (ds, rest) := by
  rw [someDigits, digitsOf_append h hrest]
  cases h with
  | intro hne hds =>
    obtain ⟨d, ds, rfl⟩ := List.exists_cons_of_ne_nil hne
    rfl

/-! ## Numerals -/

/-- The text does not go on with a character of a numeral. -/
def EndsNumeral (rest : List Char) : Prop :=
  ∀ c ∈ rest.head?, c.isDigit = false ∧ c ≠ '.' ∧ c ≠ 'e' ∧ c ≠ 'E'

theorem wholeDigits_append {ds : List ℕ} {cs rest : List Char} (h : SpellsDigits ds cs)
    (hzero : ds.head? = some 0 → ds = [0]) (hrest : EndsDigits rest) :
    wholeDigits (cs ++ rest) = .ok (ds, rest) := by
  rw [wholeDigits, someDigits_append h hrest]
  split
  · rename_i heq
    cases heq
    cases hzero rfl
  · rfl

theorem fractionDigits_append {ds : List ℕ} {cs rest : List Char} (h : SpellsFraction ds cs)
    (hrest : EndsDigits rest) (hpoint : rest.head? ≠ some '.') :
    fractionDigits (cs ++ rest) = .ok (ds, rest) := by
  cases h with
  | absent =>
    rw [List.nil_append]
    unfold fractionDigits
    split
    · exact absurd rfl hpoint
    · rfl
  | pointed h => exact someDigits_append h hrest

theorem exponentDigits_append {negative : Bool} {ds : List ℕ} {cs rest : List Char}
    (h : SpellsExponent negative ds cs) (hrest : EndsNumeral rest) :
    exponentDigits (cs ++ rest) = .ok ((negative, ds), rest) := by
  have hends : EndsDigits rest := fun c hc => (hrest c hc).1
  cases h with
  | absent =>
    cases rest with
    | nil => rfl
    | cons c rest =>
      obtain ⟨-, -, he, hE⟩ := hrest c rfl
      simp [exponentDigits, he, hE]
  | @unsigned mark _ cs hmark h =>
    obtain ⟨c, cs, rfl, hc⟩ := h.exists_digit
    have hplus : c ≠ '+' := Decimal.ne_of_isDigit hc rfl
    have hminus : c ≠ '-' := Decimal.ne_of_isDigit hc rfl
    have hsome : someDigits (c :: (cs ++ rest)) = .ok (ds, rest) := someDigits_append h hends
    rcases hmark with rfl | rfl
    · simp [exponentDigits, hplus, hminus, hsome, Except.map]
    · simp [exponentDigits, hplus, hminus, hsome, Except.map]
  | plus hmark h =>
    rcases hmark with rfl | rfl <;> simp [exponentDigits, someDigits_append h hends, Except.map]
  | minus hmark h =>
    rcases hmark with rfl | rfl <;> simp [exponentDigits, someDigits_append h hends, Except.map]

theorem SpellsFraction.head? {ds : List ℕ} {cs : List Char} (h : SpellsFraction ds cs)
    (rest : List Char) : (cs ++ rest).head? = some '.' ∨ (cs ++ rest).head? = rest.head? := by
  cases h with
  | absent => exact .inr rfl
  | pointed => exact .inl rfl

theorem SpellsExponent.head? {negative : Bool} {ds : List ℕ} {cs : List Char}
    (h : SpellsExponent negative ds cs) (rest : List Char) : (cs ++ rest).head? = some 'e' ∨
      (cs ++ rest).head? = some 'E' ∨ (cs ++ rest).head? = rest.head? := by
  cases h with
  | absent => exact .inr (.inr rfl)
  | unsigned hmark | plus hmark | minus hmark =>
    rcases hmark with rfl | rfl
    · exact .inl rfl
    · exact .inr (.inl rfl)

theorem readNumeral_append {n : Numeral} {cs rest : List Char} (h : SpellsMagnitude n cs)
    (hrest : EndsNumeral rest) : readNumeral n.negative (cs ++ rest) = .ok (n, rest) := by
  cases h with
  | @intro negative exponentNegative whole fraction exponent wholeText fractionText exponentText
      hwhole hzero hfraction hexponent =>
    have hafterFraction : EndsDigits (exponentText ++ rest) ∧
        (exponentText ++ rest).head? ≠ some '.' := by
      rcases hexponent.head? rest with hhead | hhead | hhead
      · rw [EndsDigits, hhead]
        exact ⟨by rintro _ ⟨⟩; rfl, by decide⟩
      · rw [EndsDigits, hhead]
        exact ⟨by rintro _ ⟨⟩; rfl, by decide⟩
      · rw [EndsDigits, hhead]
        exact ⟨fun c hc => (hrest c hc).1, fun hpoint => (hrest '.' hpoint).2.1 rfl⟩
    have hafterWhole : EndsDigits (fractionText ++ (exponentText ++ rest)) := by
      rcases hfraction.head? (exponentText ++ rest) with hhead | hhead
      · rw [EndsDigits, hhead]
        rintro _ ⟨⟩
        rfl
      · rw [EndsDigits, hhead]
        exact hafterFraction.1
    rw [readNumeral, List.append_assoc, List.append_assoc,
      wholeDigits_append hwhole hzero hafterWhole]
    simp [fractionDigits_append hfraction hafterFraction.1 hafterFraction.2,
      exponentDigits_append hexponent hrest, bind, Except.bind, pure, Except.pure]

theorem readNumber_append {n : Numeral} {cs rest : List Char} (h : SpellsMagnitude n cs)
    (hrest : EndsNumeral rest) : readNumber n.negative (cs ++ rest) = (n.toJson, some rest) := by
  rw [readNumber, readNumeral_append h hrest]

end ExactCompare.Json
