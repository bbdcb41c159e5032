import ExactCompare.Proofs.Json.Documents

/-!
# Written documents

A written string spells the string. So an object is written as an object with the members that its
values spell.
-/

namespace ExactCompare.Json

/-! ## Strings -/

theorem hexDigit?_digitChar {d : ℕ} (h : d < 16) : hexDigit? (Nat.digitChar d) = some d := by
  interval_cases d <;> rfl

theorem spellsChar_escaped (c : Char) : SpellsChar c (escaped c) := by
  unfold escaped
  split
  case h_8 hquote hslash _ _ _ _ _ =>
    split
    case isTrue hcode =>
      have hhex := SpellsCode.intro (hexDigit?_digitChar (d := 0) (by decide))
        (hexDigit?_digitChar (d := 0) (by decide))
        (hexDigit?_digitChar (d := c.toNat / 16) (by omega))
        (hexDigit?_digitChar (d := c.toNat % 16) (by omega))
      have hvalue : ((0 * 16 + 0) * 16 + c.toNat / 16) * 16 + c.toNat % 16 = c.toNat := by omega
      rw [hvalue] at hhex
      exact .code hhex
    case isFalse hcode => exact .plain (Nat.le_of_not_lt hcode) hquote hslash
  all_goals exact .short rfl

theorem spellsChars_escaped (cs : List Char) : SpellsChars cs (cs.flatMap escaped) := by
  induction cs with
  | nil => exact .nil
  | cons c cs ih => exact .cons (spellsChar_escaped c) ih

theorem spellsString_quoted (s : String) : SpellsString s (quoted s) :=
  .intro (spellsChars_escaped s.toList)

/-! ## Objects -/

theorem padded_self (cs : List Char) : Padded cs cs := by
  have hpadded : Padded cs ([] ++ cs ++ []) := .intro nofun nofun
  simpa using hpadded

/-- The members that are written need not be the ones that are spelled: a number may be read as
another one than was written. -/
theorem exists_layout_members {written spelled : List (String × Json)}
    (h : List.Forall₂ (fun m m' => m.1 = m'.1 ∧ Layout m'.2 (Tree.chars m.2)) written spelled)
    (hne : written ≠ []) :
    ∃ t, Lists t spelled ∧ Layout t (Tree.chars (members written)) := by
  induction h with
  | nil => exact absurd rfl hne
  | @cons m m' written spelled hm hrest ih =>
    obtain ⟨hkey, hvalue⟩ := hm
    have hspelled : SpellsString m'.1 (quoted m.1) := hkey ▸ spellsString_quoted m.1
    cases hrest with
    | nil =>
      have hmember := Layout.lastMember hspelled (padded_self _) hvalue (padded_self _)
      exact ⟨_, .member .endMembers, hmember⟩
    | cons =>
      obtain ⟨t, hlists, hlayout⟩ := ih (List.cons_ne_nil _ _)
      have hmember := Layout.member hspelled (padded_self _) hvalue (padded_self _) hlayout
      exact ⟨_, .member hlists, hmember⟩

theorem spellsObject_text {written spelled : List (String × Json)}
    (h : List.Forall₂ (fun m m' => m.1 = m'.1 ∧ Layout m'.2 (Tree.chars m.2)) written spelled) :
    SpellsObject spelled (text (ofMembers written)) := by
  have htext : (text (ofMembers written)).toList = Tree.chars (ofMembers written) :=
    String.toList_ofList
  by_cases hne : written = []
  · subst hne
    cases h
    have hblanks : Blanks [] := nofun
    exact .intro .endMembers (.noMembers hblanks) (htext ▸ padded_self _)
  · obtain ⟨t, hlists, hlayout⟩ := exists_layout_members h hne
    exact .intro hlists (.members hlayout) (htext ▸ padded_self _)

end ExactCompare.Json
