import ExactCompare.Text

/-!
# Identifiers

A name is a letter or an underscore, followed by letters, digits, underscores
and dollar signs, at most 63 bytes long. Names are kept in lower case, so two
spellings of one name are one identifier.
-/

namespace ExactCompare

inductive IdentifierError where
  | malformed (text : String)
  | tooLong (text : String)
  /-- The name does not fit into the bytes that it is stored in. -/
  | noRoom
  deriving DecidableEq

namespace Identifier

def maxLength : Nat := 63

/-- The number of bytes that a name is stored in. -/
def capacity : Nat := 64

def isStart (c : Char) : Bool := c.isAlpha || c == '_'

def isPart (c : Char) : Bool := c.isAlphanum || c == '_' || c == '$'

def wellFormed : List Char → Bool
  | [] => false
  | c :: rest => isStart c && rest.all isPart

/-- A name as it is kept: well formed, short enough and without capitals. -/
structure Canonical (cs : List Char) : Prop where
  wellFormed : wellFormed cs = true
  short : Text.byteLength cs ≤ maxLength
  lower : Text.lower cs = cs

end Identifier

structure Identifier where
  name : String
  canonical : Identifier.Canonical name.toList
  deriving DecidableEq

namespace Identifier

/-! ## Lower case keeps a name well formed -/

theorem isAlpha_of_isLower {c : Char} (h : c.isLower = true) : c.isAlpha = true := by
  delta Char.isAlpha
  simp [h]

theorem isAlphanum_of_isLower {c : Char} (h : c.isLower = true) : c.isAlphanum = true := by
  delta Char.isAlphanum
  simp [isAlpha_of_isLower h]

theorem isStart_toLower {c : Char} (h : isStart c = true) : isStart c.toLower = true := by
  cases up : c.isUpper with
  | false => rwa [Text.toLower_of_not_isUpper up]
  | true => simp [isStart, isAlpha_of_isLower (Text.isLower_toLower up)]

theorem isPart_toLower {c : Char} (h : isPart c = true) : isPart c.toLower = true := by
  cases up : c.isUpper with
  | false => rwa [Text.toLower_of_not_isUpper up]
  | true => simp [isPart, isAlphanum_of_isLower (Text.isLower_toLower up)]

theorem wellFormed_lower {cs : List Char} (h : wellFormed cs = true) :
    wellFormed (Text.lower cs) = true := by
  cases cs with
  | nil => exact h
  | cons c rest =>
    simp only [wellFormed, Bool.and_eq_true, List.all_eq_true] at h
    simp only [Text.lower, List.map_cons, wellFormed, Bool.and_eq_true, List.all_eq_true,
      List.mem_map]
    refine ⟨isStart_toLower h.1, ?_⟩
    rintro _ ⟨d, hd, rfl⟩
    exact isPart_toLower (h.2 d hd)

theorem canonical_lower {cs : List Char} (form : wellFormed cs = true)
    (short : Text.byteLength cs ≤ maxLength) : Canonical (Text.lower cs) where
  wellFormed := wellFormed_lower form
  short := by rw [Text.byteLength_lower]; exact short
  lower := Text.lower_lower cs

/-! ## Reading -/

/-- The form is checked before the length, and the text is lowered before it is stored. -/
def parse (text : String) : Except IdentifierError Identifier :=
  if form : wellFormed text.toList = true then
    if short : Text.byteLength text.toList ≤ maxLength then
      let name := Text.lowered text
      if Text.byteLength name.toList ≤ capacity then
        .ok ⟨name, by
          simp only [name, Text.lowered, String.toList_ofList]
          exact canonical_lower form short⟩
      else .error .noRoom
    else .error (.tooLong text)
  else .error (.malformed text)

def byteLength (i : Identifier) : Nat := Text.byteLength i.name.toList

end Identifier

def IdentifierError.message : IdentifierError → String
  | .malformed text =>
    "Unable to parse identifier: '" ++ text ++ "' is not a valid identifier"
  | .tooLong text => "Unable to parse identifier: '" ++ text ++ "' is longer than 63 bytes"
  | .noRoom => "Unable to parse identifier: insufficient capacity"

end ExactCompare
