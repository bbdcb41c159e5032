import ExactCompare.Proofs.Json.Tokens

/-!
# Reading documents

Every layout of a tree is read as the tree, whatever blanks stand in it and however its strings and
numbers are spelled.
-/

namespace ExactCompare.Json

/-! ## Blanks -/

theorem skipBlanks_append {before : List Char} (h : Blanks before) (cs : List Char) :
    skipBlanks (before ++ cs) = skipBlanks cs :=
  List.dropWhile_append_of_pos h

theorem skipBlanks_cons {c : Char} (h : isBlank c = false) (cs : List Char) :
    skipBlanks (c :: cs) = c :: cs := by
  simp [skipBlanks, h]

theorem skipBlanks_skipBlanks (cs : List Char) : skipBlanks (skipBlanks cs) = skipBlanks cs := by
  induction cs with
  | nil => rfl
  | cons c cs ih =>
    by_cases hc : isBlank c = true
    · have hskip : skipBlanks (c :: cs) = skipBlanks cs := by simp [skipBlanks, hc]
      rw [hskip, ih]
    · rw [skipBlanks_cons (Bool.eq_false_iff.mpr hc), skipBlanks_cons (Bool.eq_false_iff.mpr hc)]

theorem parseTree_skipBlanks (fuel : ℕ) (k : Kind) (cs : List Char) :
    parseTree fuel k (skipBlanks cs) = parseTree fuel k cs := by
  have hvalue (fuel : ℕ) : parseTree fuel .value (skipBlanks cs) = parseTree fuel .value cs := by
    cases fuel with
    | zero => rfl
    | succ fuel => rw [parseTree, parseTree, skipBlanks_skipBlanks]
  cases fuel with
  | zero => cases k <;> rfl
  | succ fuel =>
    cases k with
    | value => exact hvalue (fuel + 1)
    | items => rw [parseTree, parseTree, hvalue]
    | members => rw [parseTree, parseTree, hvalue, skipBlanks_skipBlanks]

/-! ## What stands before and after a value -/

/-- The text begins like a value. -/
inductive Starts : List Char → Prop
  | intro {c : Char} {cs : List Char} (hblank : isBlank c = false) (hbracket : c ≠ ']')
      (hbrace : c ≠ '\x7d') : Starts (c :: cs)

theorem Starts.append {cs : List Char} (h : Starts cs) (rest : List Char) :
    Starts (cs ++ rest) := by
  cases h with
  | intro hblank hbracket hbrace => exact .intro hblank hbracket hbrace

theorem Starts.skipBlanks_eq {cs : List Char} (h : Starts cs) : skipBlanks cs = cs := by
  cases h with
  | intro hblank => exact skipBlanks_cons hblank _

theorem starts_of_isDigit {c : Char} (h : c.isDigit = true) (cs : List Char) :
    Starts (c :: cs) := by
  refine .intro ?_ (Decimal.ne_of_isDigit h rfl) (Decimal.ne_of_isDigit h rfl)
  have hblank : ∀ b, b.isDigit = false → c ≠ b := fun b hb => Decimal.ne_of_isDigit h hb
  simp [isBlank, hblank]

theorem SpellsMagnitude.exists_digit {n : Numeral} {cs : List Char} (h : SpellsMagnitude n cs) :
    ∃ c rest, cs = c :: rest ∧ c.isDigit = true := by
  cases h with
  | intro hwhole =>
    obtain ⟨c, rest, rfl, hc⟩ := hwhole.exists_digit
    exact ⟨c, _, rfl, hc⟩

theorem Layout.starts {value : Json} {cs : List Char} (h : Layout value cs) : Starts cs := by
  cases h with
  | nullWord | trueWord | falseWord | noItems | items | noMembers | members =>
    exact .intro rfl (by decide) (by decide)
  | string h =>
    cases h with
    | intro => exact .intro rfl (by decide) (by decide)
  | number h =>
    cases h with
    | positive hsign h =>
      obtain ⟨c, rest, rfl, hc⟩ := h.exists_digit
      exact starts_of_isDigit hc rest
    | negative hsign h => exact .intro rfl (by decide) (by decide)

/-- What may stand right after a value: nothing, a blank, or a mark of the object or the array
around it. -/
def Follows (rest : List Char) : Prop :=
  ∀ c ∈ rest.head?, isBlank c = true ∨ c ∈ [',', ':', ']', '\x7d']

theorem Follows.append {after rest : List Char} (hafter : Blanks after) (h : Follows rest) :
    Follows (after ++ rest) := by
  cases after with
  | nil => exact h
  | cons c after =>
    rintro _ ⟨⟩
    exact .inl (hafter c List.mem_cons_self)

theorem follows_cons {c : Char} (h : c ∈ [',', ':', ']', '\x7d']) (rest : List Char) :
    Follows (c :: rest) := by
  rintro _ ⟨⟩
  exact .inr h

theorem Follows.endsNumeral {rest : List Char} (h : Follows rest) : EndsNumeral rest := by
  intro c hc
  rcases h c hc with hblank | hmark
  · simp only [isBlank, Bool.or_eq_true, beq_iff_eq] at hblank
    rcases hblank with ((rfl | rfl) | rfl) | rfl <;> decide
  · simp only [List.mem_cons, List.not_mem_nil, or_false] at hmark
    rcases hmark with rfl | rfl | rfl | rfl <;> decide

/-! ## Keys -/

theorem SpellsChars.length_le {cs text : List Char} (h : SpellsChars cs text) :
    cs.length ≤ text.length := by
  induction h with
  | nil => exact Nat.le_refl 0
  | @cons c cs text rest hc h ih =>
    have hpos : 0 < text.length := by cases hc <;> simp
    rw [List.length_cons, List.length_append]
    omega

theorem isSpelled_append {key : String} {spelled : List Char} (h : SpellsString key spelled)
    (rest : List Char) :
    isSpelled (.string key) (spelled ++ rest) = isSpelled (.string key) spelled := by
  have hlength : ('"' :: key.toList ++ ['"']).length ≤ spelled.length := by
    cases h with
    | intro h => simpa using h.length_le
  rw [isSpelled, isSpelled, Bool.eq_iff_iff, List.isPrefixOf_iff_prefix, List.isPrefixOf_iff_prefix]
  constructor
  · intro hprefix
    exact List.prefix_of_prefix_length_le hprefix (List.prefix_append spelled rest) hlength
  · intro hprefix
    exact hprefix.trans (List.prefix_append spelled rest)

/-! ## Trees -/

/-- The text of a tree is read as the tree, in as many steps as it has characters, whatever stands
around it. -/
def IsRead : {k : Kind} → Tree k → List Char → Prop
  | .value, value, cs => ∀ fuel before rest, cs.length ≤ fuel → Blanks before → Follows rest →
      parseTree fuel .value (before ++ cs ++ rest) = (value, some rest)
  | .items, items, cs => ∀ fuel rest, cs.length < fuel →
      parseTree fuel .items (cs ++ ']' :: rest) = (items, some rest)
  | .members, members, cs => ∀ fuel rest, cs.length < fuel →
      parseTree fuel .members (cs ++ '\x7d' :: rest) = (members, some rest)

theorem isRead_of_cons {value : Json} {c : Char} {cs : List Char} (hblank : isBlank c = false)
    (h : ∀ fuel rest, cs.length ≤ fuel → Follows rest →
      parseTree (fuel + 1) .value (c :: (cs ++ rest)) = (value, some rest)) :
    IsRead value (c :: cs) := by
  intro fuel before rest hfuel hbefore hrest
  obtain ⟨fuel, rfl⟩ : ∃ n, fuel = n + 1 := ⟨fuel - 1, by rw [List.length_cons] at hfuel; omega⟩
  rw [List.append_assoc, ← parseTree_skipBlanks, skipBlanks_append hbefore, List.cons_append,
    skipBlanks_cons hblank]
  exact h fuel rest (Nat.le_of_succ_le_succ hfuel) hrest

theorem isRead_string {s : String} {cs : List Char} (h : SpellsString s cs) :
    IsRead (.string s) cs := by
  cases h with
  | @intro text h =>
    refine isRead_of_cons rfl fun fuel rest _ _ => ?_
    simp only [parseTree, skipBlanks_cons (c := '"') rfl]
    have hread := readStringValue_append h rest
    rwa [← List.singleton_append, ← List.append_assoc] at hread

theorem isRead_number {n : Numeral} {cs : List Char} (h : SpellsNumeral n cs) :
    IsRead n.toJson cs := by
  cases h with
  | negative hsign h =>
    refine isRead_of_cons rfl fun fuel rest _ hrest => ?_
    simp only [parseTree, skipBlanks_cons (c := '-') rfl]
    exact hsign ▸ readNumber_append h hrest.endsNumeral
  | positive hsign h =>
    obtain ⟨c, cs, rfl, hc⟩ := h.exists_digit
    cases starts_of_isDigit hc cs with
    | intro hblank =>
      refine isRead_of_cons hblank fun fuel rest _ hrest => ?_
      have hother : ∀ b, b.isDigit = false → c ≠ b := fun b hb => Decimal.ne_of_isDigit hc hb
      have hread := readNumber_append h hrest.endsNumeral
      rw [hsign] at hread
      simp [parseTree, skipBlanks_cons hblank, hother, hc]
      exact hread

/-! ### Values with blanks around them -/

theorem Padded.starts {cs text : List Char} (h : Padded cs text) (hstarts : Starts cs) :
    Starts (skipBlanks text) := by
  cases h with
  | @intro before after hbefore hafter =>
    rw [List.append_assoc, skipBlanks_append hbefore, (hstarts.append after).skipBlanks_eq]
    exact hstarts.append after

theorem Starts.skip_append {text : List Char} (h : Starts (skipBlanks text)) (rest : List Char) :
    Starts (skipBlanks (text ++ rest)) := by
  have hskip : skipBlanks (text ++ rest) = skipBlanks text ++ rest := by
    rw [skipBlanks, List.dropWhile_append, if_neg]
    · rfl
    · rw [List.isEmpty_iff]
      intro hnil
      rw [skipBlanks, hnil] at h
      cases h
  rw [hskip]
  exact h.append rest

theorem parseTree_padded {value : Json} {cs text : List Char} (h : IsRead value cs)
    (hpadded : Padded cs text) {fuel : ℕ} (hfuel : text.length ≤ fuel) {c : Char}
    (hc : c ∈ [',', ':', ']', '\x7d']) (rest : List Char) :
    ∃ after, Blanks after ∧
      parseTree fuel .value (text ++ c :: rest) = (value, some (after ++ c :: rest)) := by
  cases hpadded with
  | @intro before after hbefore hafter =>
    refine ⟨after, hafter, ?_⟩
    rw [List.append_assoc]
    rw [List.length_append, List.length_append] at hfuel
    exact h fuel before _ (by omega) hbefore ((follows_cons hc rest).append hafter)

theorem after_comma {bracket : Char} {blanks : List Char} (h : Blanks blanks) (rest : List Char) :
    after bracket (blanks ++ ',' :: rest) = .more rest := by
  simp [after, skipBlanks_append h, skipBlanks_cons (c := ',') rfl]

theorem after_bracket (bracket : Char) (hblank : isBlank bracket = false) (hcomma : bracket ≠ ',')
    {blanks : List Char} (h : Blanks blanks) (rest : List Char) :
    after bracket (blanks ++ bracket :: rest) = .closed rest := by
  simp [after, skipBlanks_append h, skipBlanks_cons hblank, hcomma]

/-! ### Arrays -/

theorem Layout.starts_items {items : Tree .items} {cs : List Char} (h : Layout items cs) :
    Starts (skipBlanks cs) := by
  cases h with
  | lastItem h hpadded => exact hpadded.starts h.starts
  | item h hpadded => exact (hpadded.starts h.starts).skip_append _

theorem isRead_lastItem {value : Json} {cs text : List Char} (h : IsRead value cs)
    (hpadded : Padded cs text) : IsRead (.item value .endItems) text := by
  intro fuel rest hfuel
  obtain ⟨fuel, rfl⟩ : ∃ n, fuel = n + 1 := ⟨fuel - 1, by omega⟩
  obtain ⟨blanks, hblanks, hread⟩ :=
    parseTree_padded h hpadded (Nat.le_of_lt_succ hfuel) (c := ']') (by decide) rest
  simp only [parseTree, hread, after_bracket ']' rfl (by decide) hblanks]

theorem isRead_item {value : Json} {items : Tree .items} {cs text restText : List Char}
    (h : IsRead value cs) (hpadded : Padded cs text) (hrest : IsRead items restText) :
    IsRead (.item value items) (text ++ ',' :: restText) := by
  intro fuel rest hfuel
  obtain ⟨fuel, rfl⟩ : ∃ n, fuel = n + 1 := ⟨fuel - 1, by omega⟩
  rw [List.length_append, List.length_cons] at hfuel
  obtain ⟨blanks, hblanks, hread⟩ :=
    parseTree_padded h hpadded (by omega : text.length ≤ fuel) (c := ',') (by decide)
      (restText ++ ']' :: rest)
  rw [List.append_assoc, List.cons_append]
  simp only [parseTree, hread, after_comma hblanks, hrest fuel rest (by omega)]

theorem isRead_array {items : Tree .items} {cs : List Char} (hstarts : Starts (skipBlanks cs))
    (h : IsRead items cs) : IsRead (.array items) ('[' :: (cs ++ [']'])) := by
  refine isRead_of_cons rfl fun fuel rest hfuel _ => ?_
  rw [List.length_append, List.length_singleton] at hfuel
  have hread : parseTree fuel .items (skipBlanks (cs ++ ']' :: rest)) = (items, some rest) :=
    (parseTree_skipBlanks ..).trans (h fuel rest hfuel)
  have hinner := hstarts.skip_append (']' :: rest)
  rw [List.append_assoc, List.singleton_append]
  generalize hskip : skipBlanks (cs ++ ']' :: rest) = inner at hread hinner
  cases hinner with
  | intro _ hbracket =>
    simp only [parseTree, skipBlanks_cons (c := '[') rfl, hskip]
    split
    · contradiction
    · rename_i heq
      exact absurd (List.cons.inj heq).1 hbracket
    · rw [hread]

theorem isRead_noItems {blanks : List Char} (h : Blanks blanks) :
    IsRead (.array .endItems) ('[' :: (blanks ++ [']'])) := by
  refine isRead_of_cons rfl fun fuel rest _ _ => ?_
  rw [List.append_assoc, List.singleton_append]
  simp [parseTree, skipBlanks_cons (c := '[') rfl, skipBlanks_append h,
    skipBlanks_cons (c := ']') rfl]

/-! ### Objects -/

theorem Layout.starts_members {members : Tree .members} {cs : List Char}
    (h : Layout members cs) : Starts (skipBlanks cs) := by
  have hstarts {key : String} {spelled keyText : List Char} (hkey : SpellsString key spelled)
      (hpadded : Padded spelled keyText) : Starts (skipBlanks keyText) :=
    hpadded.starts (Layout.string hkey).starts
  cases h with
  | lastMember hkey hkeyPadded => exact (hstarts hkey hkeyPadded).skip_append _
  | member hkey hkeyPadded =>
    rw [List.append_assoc]
    exact (hstarts hkey hkeyPadded).skip_append _

theorem isSpelled_padded {key : String} {spelled keyText : List Char}
    (hkey : SpellsString key spelled) (hpadded : Padded spelled keyText) (rest : List Char) :
    isSpelled (.string key) (skipBlanks (keyText ++ rest)) = isSpelled (.string key) spelled := by
  cases hpadded with
  | @intro before after hbefore hafter =>
    have hstarts := (Layout.string hkey).starts
    rw [List.append_assoc, List.append_assoc, skipBlanks_append hbefore,
      (hstarts.append _).skipBlanks_eq, isSpelled_append hkey]

theorem isRead_lastMember {key : String} {value : Json} {spelled keyText cs text : List Char}
    (hkey : SpellsString key spelled) (hkeyPadded : Padded spelled keyText)
    (h : IsRead value cs) (hpadded : Padded cs text) :
    IsRead (.member (.string key) (isSpelled (.string key) spelled) value .endMembers)
      (keyText ++ ':' :: text) := by
  intro fuel rest hfuel
  obtain ⟨fuel, rfl⟩ : ∃ n, fuel = n + 1 := ⟨fuel - 1, by omega⟩
  rw [List.length_append, List.length_cons] at hfuel
  obtain ⟨keyBlanks, hkeyBlanks, hreadKey⟩ := parseTree_padded (isRead_string hkey) hkeyPadded
    (by omega : _ ≤ fuel) (c := ':') (by decide) (text ++ '\x7d' :: rest)
  obtain ⟨blanks, hblanks, hread⟩ :=
    parseTree_padded h hpadded (by omega : _ ≤ fuel) (c := '\x7d') (by decide) rest
  rw [List.append_assoc, List.cons_append]
  simp only [parseTree, hreadKey, isSpelled_padded hkey hkeyPadded, Option.map_some,
    skipBlanks_append hkeyBlanks, skipBlanks_cons (c := ':') rfl, hread,
    after_bracket '\x7d' rfl (by decide) hblanks]

theorem isRead_member {key : String} {value : Json} {members : Tree .members}
    {spelled keyText cs text restText : List Char} (hkey : SpellsString key spelled)
    (hkeyPadded : Padded spelled keyText) (h : IsRead value cs) (hpadded : Padded cs text)
    (hrest : IsRead members restText) :
    IsRead (.member (.string key) (isSpelled (.string key) spelled) value members)
      (keyText ++ ':' :: text ++ ',' :: restText) := by
  intro fuel rest hfuel
  obtain ⟨fuel, rfl⟩ : ∃ n, fuel = n + 1 := ⟨fuel - 1, by omega⟩
  simp only [List.length_append, List.length_cons] at hfuel
  obtain ⟨keyBlanks, hkeyBlanks, hreadKey⟩ := parseTree_padded (isRead_string hkey) hkeyPadded
    (by omega : _ ≤ fuel) (c := ':') (by decide) (text ++ ',' :: (restText ++ '\x7d' :: rest))
  obtain ⟨blanks, hblanks, hread⟩ := parseTree_padded h hpadded (by omega : _ ≤ fuel)
    (c := ',') (by decide) (restText ++ '\x7d' :: rest)
  rw [List.append_assoc, List.append_assoc, List.cons_append, List.cons_append]
  simp only [parseTree, hreadKey, isSpelled_padded hkey hkeyPadded, Option.map_some,
    skipBlanks_append hkeyBlanks, skipBlanks_cons (c := ':') rfl, hread, after_comma hblanks,
    hrest fuel rest (by omega)]

theorem isRead_object {members : Tree .members} {cs : List Char}
    (hstarts : Starts (skipBlanks cs)) (h : IsRead members cs) :
    IsRead (.object members) ('\x7b' :: (cs ++ ['\x7d'])) := by
  refine isRead_of_cons rfl fun fuel rest hfuel _ => ?_
  rw [List.length_append, List.length_singleton] at hfuel
  have hread : parseTree fuel .members (skipBlanks (cs ++ '\x7d' :: rest)) =
      (members, some rest) := (parseTree_skipBlanks ..).trans (h fuel rest hfuel)
  have hinner := hstarts.skip_append ('\x7d' :: rest)
  rw [List.append_assoc, List.singleton_append]
  generalize hskip : skipBlanks (cs ++ '\x7d' :: rest) = inner at hread hinner
  cases hinner with
  | intro _ _ hbrace =>
    simp only [parseTree, skipBlanks_cons (c := '\x7b') rfl, hskip]
    split
    · contradiction
    · rename_i heq
      exact absurd (List.cons.inj heq).1 hbrace
    · rw [hread]

theorem isRead_noMembers {blanks : List Char} (h : Blanks blanks) :
    IsRead (.object .endMembers) ('\x7b' :: (blanks ++ ['\x7d'])) := by
  refine isRead_of_cons rfl fun fuel rest _ _ => ?_
  rw [List.append_assoc, List.singleton_append]
  simp [parseTree, skipBlanks_cons (c := '\x7b') rfl, skipBlanks_append h,
    skipBlanks_cons (c := '\x7d') rfl]

/-! ## Documents -/

theorem Layout.isRead {k : Kind} {t : Tree k} {cs : List Char} (h : Layout t cs) : IsRead t cs := by
  induction h with
  | nullWord | trueWord | falseWord =>
    refine isRead_of_cons rfl fun fuel rest _ _ => ?_
    simp [parseTree, skipBlanks, isBlank, readWord]
  | number h => exact isRead_number h
  | string h => exact isRead_string h
  | noItems h => exact isRead_noItems h
  | items h ih => exact isRead_array h.starts_items ih
  | noMembers h => exact isRead_noMembers h
  | members h ih => exact isRead_object h.starts_members ih
  | lastItem _ hpadded ih => exact isRead_lastItem ih hpadded
  | item _ hpadded _ ih ihRest => exact isRead_item ih hpadded ihRest
  | lastMember hkey hkeyPadded _ hpadded ih => exact isRead_lastMember hkey hkeyPadded ih hpadded
  | member hkey hkeyPadded _ hpadded _ ih ihRest =>
    exact isRead_member hkey hkeyPadded ih hpadded ihRest

theorem parse_of_layout {value : Json} {cs : List Char} {text : String} (h : Layout value cs)
    (hpadded : Padded cs text.toList) : parse text = ⟨value, none⟩ := by
  generalize htext : text.toList = full at hpadded
  cases hpadded with
  | @intro before after hbefore hafter =>
    have hlength : cs.length ≤ 2 * (before ++ cs ++ after).length + 2 := by
      simp only [List.length_append]
      omega
    have hnil : Follows [] := nofun
    have hfollows : Follows after := by simpa using hnil.append hafter
    have hskip : skipBlanks after = [] := List.dropWhile_eq_nil_iff.mpr hafter
    rw [parse, htext]
    simp only [h.isRead _ _ _ hlength hbefore hfollows, hskip, List.isEmpty_nil, if_true]

theorem SpellsObject.parse_eq {ms : List (String × Json)} {text : String}
    (h : SpellsObject ms text) :
    ∃ members, Lists members ms ∧ parse text = ⟨.object members, none⟩ := by
  cases h with
  | intro hlists h hpadded => exact ⟨_, hlists, parse_of_layout h hpadded⟩

end ExactCompare.Json
