import ExactCompare.Json.Parser
import Mathlib.Data.Nat.Notation

/-!
# JSON texts

What a text has to look like to spell a JSON tree. Blanks may stand around every value and every
key, a character of a string may be escaped, and a number may have a point and an exponent. Nothing
here refers to how a text is read.
-/

namespace ExactCompare.Json

/-! ## Blanks -/

def Blanks (cs : List Char) : Prop := ∀ c ∈ cs, isBlank c = true

/-- The text has blanks around the rest of it. -/
inductive Padded (cs : List Char) : List Char → Prop
  | intro {before after : List Char} (hbefore : Blanks before) (hafter : Blanks after) :
      Padded cs (before ++ cs ++ after)

/-! ## Strings -/

/-- Four hex digits of a code. -/
inductive SpellsCode : List Char → ℕ → Prop
  | intro {a b c d : Char} {w x y z : ℕ} (ha : hexDigit? a = some w) (hb : hexDigit? b = some x)
      (hc : hexDigit? c = some y) (hd : hexDigit? d = some z) :
      SpellsCode [a, b, c, d] (((w * 16 + x) * 16 + y) * 16 + z)

/-- A character stands for itself, or it is escaped: by a short name, by its code, or, above four
hex digits, by a leading and a trailing surrogate. -/
inductive SpellsChar (c : Char) : List Char → Prop
  | plain (hcode : 32 ≤ c.toNat) (hquote : c ≠ '"') (hslash : c ≠ '\\') : SpellsChar c [c]
  | short {letter : Char} (h : simpleEscape? letter = some c) : SpellsChar c ['\\', letter]
  | code {hex : List Char} (h : SpellsCode hex c.toNat) : SpellsChar c ('\\' :: 'u' :: hex)
  | pair {hex hex' : List Char} {leading trailing : ℕ} (h : SpellsCode hex leading)
      (h' : SpellsCode hex' trailing) (hleading : isLeading leading = true)
      (htrailing : isTrailing trailing = true)
      (hcode : c.toNat = 0x10000 + (leading - 0xD800) * 0x400 + (trailing - 0xDC00)) :
      SpellsChar c ('\\' :: 'u' :: hex ++ '\\' :: 'u' :: hex')

inductive SpellsChars : List Char → List Char → Prop
  | nil : SpellsChars [] []
  | cons {c : Char} {cs text rest : List Char} (hc : SpellsChar c text) (h : SpellsChars cs rest) :
      SpellsChars (c :: cs) (text ++ rest)

/-- A string between its quotes. -/
inductive SpellsString (s : String) : List Char → Prop
  | intro {text : List Char} (h : SpellsChars s.toList text) : SpellsString s ('"' :: text ++ ['"'])

/-! ## Numbers -/

inductive SpellsDigits : List ℕ → List Char → Prop
  | intro {ds : List ℕ} (hne : ds ≠ []) (h : ∀ d ∈ ds, d < 10) :
      SpellsDigits ds (ds.map Nat.digitChar)

inductive SpellsFraction : List ℕ → List Char → Prop
  | absent : SpellsFraction [] []
  | pointed {ds : List ℕ} {cs : List Char} (h : SpellsDigits ds cs) : SpellsFraction ds ('.' :: cs)

/-- The mark of an exponent is small or capital, and a plus may stand after it. -/
inductive SpellsExponent : Bool → List ℕ → List Char → Prop
  | absent : SpellsExponent false [] []
  | unsigned {mark : Char} {ds : List ℕ} {cs : List Char} (hmark : mark = 'e' ∨ mark = 'E')
      (h : SpellsDigits ds cs) : SpellsExponent false ds (mark :: cs)
  | plus {mark : Char} {ds : List ℕ} {cs : List Char} (hmark : mark = 'e' ∨ mark = 'E')
      (h : SpellsDigits ds cs) : SpellsExponent false ds (mark :: '+' :: cs)
  | minus {mark : Char} {ds : List ℕ} {cs : List Char} (hmark : mark = 'e' ∨ mark = 'E')
      (h : SpellsDigits ds cs) : SpellsExponent true ds (mark :: '-' :: cs)

/-- A numeral without its sign. Its whole part has no leading zero. -/
inductive SpellsMagnitude : Numeral → List Char → Prop
  | intro {negative exponentNegative : Bool} {whole fraction exponent : List ℕ}
      {wholeText fractionText exponentText : List Char} (hwhole : SpellsDigits whole wholeText)
      (hzero : whole.head? = some 0 → whole = [0])
      (hfraction : SpellsFraction fraction fractionText)
      (hexponent : SpellsExponent exponentNegative exponent exponentText) :
      SpellsMagnitude
        { negative, whole, fraction, exponentNegative, exponent
          isInteger := fraction.isEmpty && exponent.isEmpty }
        (wholeText ++ fractionText ++ exponentText)

inductive SpellsNumeral (n : Numeral) : List Char → Prop
  | positive {cs : List Char} (hsign : n.negative = false) (h : SpellsMagnitude n cs) :
      SpellsNumeral n cs
  | negative {cs : List Char} (hsign : n.negative = true) (h : SpellsMagnitude n cs) :
      SpellsNumeral n ('-' :: cs)

/-! ## Trees -/

/-- The text of a tree. A value has no blanks around it, and the items of an array and the members
of an object come without the brackets. -/
inductive Layout : {k : Kind} → Tree k → List Char → Prop
  | nullWord : Layout .null ['n', 'u', 'l', 'l']
  | trueWord : Layout (.bool true) ['t', 'r', 'u', 'e']
  | falseWord : Layout (.bool false) ['f', 'a', 'l', 's', 'e']
  | number {n : Numeral} {cs : List Char} (h : SpellsNumeral n cs) : Layout n.toJson cs
  | string {s : String} {cs : List Char} (h : SpellsString s cs) : Layout (.string s) cs
  | noItems {blanks : List Char} (h : Blanks blanks) :
      Layout (.array .endItems) ('[' :: blanks ++ [']'])
  | items {items : Tree .items} {cs : List Char} (h : Layout items cs) :
      Layout (.array items) ('[' :: cs ++ [']'])
  | noMembers {blanks : List Char} (h : Blanks blanks) :
      Layout (.object .endMembers) ('\x7b' :: blanks ++ ['\x7d'])
  | members {members : Tree .members} {cs : List Char} (h : Layout members cs) :
      Layout (.object members) ('\x7b' :: cs ++ ['\x7d'])
  | lastItem {value : Json} {cs text : List Char} (h : Layout value cs) (hpadded : Padded cs text) :
      Layout (.item value .endItems) text
  | item {value : Json} {rest : Tree .items} {cs text restText : List Char} (h : Layout value cs)
      (hpadded : Padded cs text) (hrest : Layout rest restText) :
      Layout (.item value rest) (text ++ ',' :: restText)
  | lastMember {key : String} {value : Json} {spelled keyText cs text : List Char}
      (hkey : SpellsString key spelled) (hkeyPadded : Padded spelled keyText)
      (h : Layout value cs) (hpadded : Padded cs text) :
      Layout (.member (.string key) (isSpelled (.string key) spelled) value .endMembers)
        (keyText ++ ':' :: text)
  | member {key : String} {value : Json} {rest : Tree .members}
      {spelled keyText cs text restText : List Char} (hkey : SpellsString key spelled)
      (hkeyPadded : Padded spelled keyText) (h : Layout value cs) (hpadded : Padded cs text)
      (hrest : Layout rest restText) :
      Layout (.member (.string key) (isSpelled (.string key) spelled) value rest)
        (keyText ++ ':' :: text ++ ',' :: restText)

/-- The members of an object, in order. How their keys are spelled does not matter. -/
inductive Lists : Tree .members → List (String × Json) → Prop
  | endMembers : Lists .endMembers []
  | member {key : String} {verbatim : Bool} {value : Json} {rest : Tree .members}
      {ms : List (String × Json)} (h : Lists rest ms) :
      Lists (.member (.string key) verbatim value rest) ((key, value) :: ms)

/-- The text is an object with these members, in this order, and nothing else. -/
inductive SpellsObject (ms : List (String × Json)) (text : String) : Prop
  | intro {members : Tree .members} {cs : List Char} (hlists : Lists members ms)
      (h : Layout (.object members) cs) (hpadded : Padded cs text.toList)

end ExactCompare.Json
