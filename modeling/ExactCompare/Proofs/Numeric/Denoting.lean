import ExactCompare.Proofs.Numeric.Shown
import ExactCompare.Proofs.Reading

/-!
# What texts denote

A text denotes a special value by its name, or else the rational that it spells. What is read from
it depends on this value alone: it is the canonical numeric of the value, with no more decimals than
the value needs.
-/

namespace ExactCompare

-- Powers are those that `Nat` and `Int` come with.
attribute [local instance (2000)] instPowNat

namespace Numeric

variable {text : String} {n : Numeric} {v : ExactValue}

/-! ## Names and spellings -/

/-- The names of a special value, in small letters. -/
def Sign.names : Sign → List String
  | .nan => ["nan"]
  | .infinity => ["infinity", "+infinity", "inf", "+inf"]
  | .negInfinity => ["-infinity", "-inf"]
  | .positive | .negative => []

/-- The value of a text, between blanks. Names may have capital letters. -/
inductive Denotes (text : String) : ExactValue → Prop
  | special (sign : Sign) (h : Text.lowered (Text.trimmed text) ∈ sign.names) :
      Denotes text (ofSign sign).exactValue
  | number {digits exponent : ℤ} {count : ℕ}
      (h : Decimal.Spells (Text.trim text.toList) digits count exponent) :
      Denotes text (.ofRat (digits * 10 ^ (exponent - count : ℤ)))

theorem Sign.isSpecial_of_names {sign : Sign} {name : String} (h : name ∈ sign.names) :
    sign.isSpecial = true := by
  cases sign with
  | positive | negative => cases h
  | nan | infinity | negInfinity => rfl

theorem special?_eq_some_iff {name : String} :
    special? name = some n ↔ ∃ sign : Sign, Text.lowered name ∈ sign.names ∧ n = ofSign sign := by
  unfold special?
  generalize Text.lowered name = lowered
  constructor
  · intro h
    split at h
    case h_8 => cases h
    case h_1 => exact ⟨.nan, by decide, (Option.some.inj h).symm⟩
    case h_6 | h_7 => exact ⟨.negInfinity, by decide, (Option.some.inj h).symm⟩
    all_goals exact ⟨.infinity, by decide, (Option.some.inj h).symm⟩
  · rintro ⟨sign, hname, rfl⟩
    cases sign with
    | positive | negative => cases hname
    | nan =>
      obtain rfl := List.mem_singleton.mp hname
      rfl
    | infinity | negInfinity =>
      simp only [Sign.names, List.mem_cons, List.not_mem_nil, or_false] at hname
      rcases hname with rfl | rfl | rfl | rfl <;> rfl

/-! ## What is read -/

theorem parse_of_names {sign : Sign} (h : Text.lowered (Text.trimmed text) ∈ sign.names) :
    parse text = .ok (ofSign sign) := by
  rw [parse, special?_eq_some_iff.mpr ⟨sign, h, rfl⟩]

theorem parse_ok_iff_of_spells {digits exponent : ℤ} {count : ℕ}
    (h : Decimal.Spells (Text.trim text.toList) digits count exponent) :
    parse text = .ok n ↔ n.IsCanonical ∧ n.rational = digits * 10 ^ (exponent - count : ℤ) ∧
      n.displayScale = decimalPlaces n.rational := by
  have hvalue : (Decimal.normalize ⟨digits, count - exponent⟩).toRat =
      digits * 10 ^ (exponent - count : ℤ) := by
    rw [Decimal.toRat_normalize, Decimal.toRat, neg_sub]
  have hplaces := (Decimal.isNormal_normalize ⟨digits, count - exponent⟩).decimalPlaces_toRat
  rw [parse_of_spells h, ofDecimal_eq_ok_iff, ← hvalue]
  refine and_congr_right fun _ => and_congr_right fun hrational => ?_
  rw [hrational, hplaces]
  omega

theorem names_or_spells_of_parse (h : parse text = .ok n) :
    (∃ sign : Sign, Text.lowered (Text.trimmed text) ∈ sign.names ∧ n = ofSign sign) ∨
      ∃ digits count exponent, Decimal.Spells (Text.trim text.toList) digits count exponent := by
  unfold parse at h
  split at h
  case h_1 hspecial =>
    obtain rfl := Except.ok.inj h
    exact .inl (special?_eq_some_iff.mp hspecial)
  case h_2 =>
    split at h
    case h_2 => cases h
    case h_1 hdecimal =>
      obtain ⟨d, hread, -⟩ := bind_ok_iff.mp hdecimal
      obtain ⟨digits, count, exponent, hspells, -⟩ := Decimal.read_ok_iff.mp hread
      exact .inr ⟨digits, count, exponent, hspells⟩

theorem denotes_of_parse (h : parse text = .ok n) : Denotes text n.exactValue := by
  rcases names_or_spells_of_parse h with ⟨sign, hname, rfl⟩ | ⟨digits, count, exponent, hspells⟩
  · exact .special sign hname
  · obtain ⟨hcanonical, hvalue, -⟩ := (parse_ok_iff_of_spells hspells).mp h
    rw [exactValue_of_finite hcanonical.finite, hvalue]
    exact .number hspells

theorem denotes_iff_of_parse (h : parse text = .ok n) : Denotes text v ↔ v = n.exactValue := by
  constructor
  · intro hdenotes
    cases hdenotes with
    | special sign hname =>
      obtain rfl := Except.ok.inj ((parse_of_names hname).symm.trans h)
      rfl
    | number hspells =>
      obtain ⟨hcanonical, hvalue, -⟩ := (parse_ok_iff_of_spells hspells).mp h
      rw [exactValue_of_finite hcanonical.finite, hvalue]
  · rintro rfl
    exact denotes_of_parse h

/-! ## Texts of one value -/

theorem Sign.eq_of_exactValue {a b : Sign} (ha : a.isSpecial = true) (hb : b.isSpecial = true)
    (h : (ofSign a).exactValue = (ofSign b).exactValue) : a = b := by
  cases a with
  | positive | negative => cases ha
  | nan | infinity | negInfinity =>
    cases b with
    | positive | negative => cases hb
    | nan | infinity | negInfinity =>
      first
      | rfl
      | simp [exactValue, ofSign, ExactValue.infinity, ExactValue.negInfinity] at h

/-- **The value decides what is read.** -/
theorem parse_eq_of_denotes {s t : String} {w : ExactValue} (hs : Denotes s v) (ht : Denotes t w)
    (h : v = w) : parse s = parse t := by
  cases hs with
  | special a ha =>
    have hspecial := Sign.isSpecial_of_names ha
    cases ht with
    | special b hb =>
      obtain rfl := Sign.eq_of_exactValue hspecial (Sign.isSpecial_of_names hb) h
      rw [parse_of_names ha, parse_of_names hb]
    | number =>
      have hfinite : a.isSpecial = false := finite_of_exactValue h
      rw [hspecial] at hfinite
      cases hfinite
  | number hs =>
    cases ht with
    | special b hb =>
      have hfinite : b.isSpecial = false := finite_of_exactValue h.symm
      rw [Sign.isSpecial_of_names hb] at hfinite
      cases hfinite
    | number ht =>
      have hvalue := ExactValue.ofRat_inj h
      rw [parse_of_spells hs, parse_of_spells ht]
      congr 1
      refine (Decimal.isNormal_normalize _).eq_of_toRat (Decimal.isNormal_normalize _) ?_
      rw [Decimal.toRat_normalize, Decimal.toRat_normalize, Decimal.toRat, Decimal.toRat, neg_sub,
        neg_sub, hvalue]

/-! ## The numerics that are read -/

/-- The special values, and the canonical numerics that show the decimals they need. -/
inductive IsReduced : Numeric → Prop
  | special {sign : Sign} (h : sign.isSpecial = true) : IsReduced (ofSign sign)
  | finite {n : Numeric} (hcanonical : n.IsCanonical)
      (hshown : n.displayScale = decimalPlaces n.rational) : IsReduced n

theorem isReduced_of_parse (h : parse text = .ok n) : n.IsReduced := by
  rcases names_or_spells_of_parse h with ⟨sign, hname, rfl⟩ | ⟨digits, count, exponent, hspells⟩
  · exact .special (Sign.isSpecial_of_names hname)
  · obtain ⟨hcanonical, -, hshown⟩ := (parse_ok_iff_of_spells hspells).mp h
    exact .finite hcanonical hshown

end Numeric

end ExactCompare
