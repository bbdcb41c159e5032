import ExactCompare.Proofs.Decimal.Floats
import ExactCompare.Proofs.DecimalTexts
import ExactCompare.Proofs.Json.OneField

/-!
# Decimals in documents

A text and an unscaled integer are brought to normal form when they become a decimal. A document is
not: its decimal is kept as it is written there, with the zeros at its end. So it is normal only if
it is written that way.
-/

namespace ExactCompare

open Json (Tree)

/-! ## Values that are written normally -/

namespace Decimal

/-- Whether a value is written without a zero at its end. A number may be wrapped in an object. -/
inductive WrittenNormally : Json → Prop
  | string {s : String} {digits : ℤ} {count : ℕ} {exponent : ℤ}
      (hspells : Spells s.toList digits count exponent)
      (hnormal : IsNormal ⟨digits, count - exponent⟩) : WrittenNormally (.string s)
  | integer {n : ℤ} (h : n = 0 ∨ ¬ 10 ∣ n) : WrittenNormally (.integer n)
  | float {f : BinaryFormat} {b : Binary f} (h : b.EndsNormally) : WrittenNormally (.float f b)
  | wrapped {key value : Json} {verbatim : Bool} {rest : Tree .members}
      (h : WrittenNormally value) : WrittenNormally (.object (.member key verbatim value rest))

theorem writtenNormally_string_iff {s : String} {d : Decimal} (h : read s.toList = .ok d) :
    WrittenNormally (.string s) ↔ d.IsNormal := by
  constructor
  · intro hwritten
    cases hwritten with
    | string hspells hnormal =>
      have hread := read_ok_iff.mpr ⟨_, _, _, hspells, rfl⟩
      exact Except.ok.inj (hread.symm.trans h) ▸ hnormal
  · intro hnormal
    obtain ⟨digits, count, exponent, hspells, rfl⟩ := read_ok_iff.mp h
    exact .string hspells hnormal

theorem writtenNormally_integer_iff {n : ℤ} :
    WrittenNormally (.integer n) ↔ (ofInt n).IsNormal := by
  have hzero : ofInt n = ⟨0, 0⟩ ↔ n = 0 := by simp [ofInt]
  rw [IsNormal, hzero]
  constructor
  · intro hwritten
    cases hwritten with
    | integer h => exact h
  · exact .integer

theorem writtenNormally_float_iff {f : BinaryFormat} {b : Binary f} :
    WrittenNormally (.float f b) ↔ b.toDecimal.IsNormal := by
  rw [b.isNormal_toDecimal_iff]
  constructor
  · intro hwritten
    cases hwritten with
    | float h => exact h
  · exact .float

theorem writtenNormally_wrapped_iff {key value : Json} {verbatim : Bool} {rest : Tree .members} :
    WrittenNormally (.object (.member key verbatim value rest)) ↔ WrittenNormally value := by
  constructor
  · intro hwritten
    cases hwritten with
    | wrapped h => exact h
  · exact .wrapped

theorem isNormal_iff_of_readValue {depth : ℕ} {value : Json} {d : Decimal}
    (h : readValue depth value = .ok d) : d.IsNormal ↔ WrittenNormally value := by
  fun_induction readValue depth value with
  | case1 depth s =>
    cases hread : read s.toList with
    | error e =>
      rw [hread] at h
      cases h
    | ok e =>
      rw [hread] at h
      cases h
      exact (writtenNormally_string_iff hread).symm
  | case2 depth n =>
    cases h
    exact writtenNormally_integer_iff.symm
  | case3 depth f b =>
    cases h
    exact writtenNormally_float_iff.symm
  | case4 => cases h
  | case5 => cases h
  | case6 depth value rest ih =>
    obtain ⟨e, hread, hrest⟩ := bind_ok_iff.mp h
    obtain ⟨-, -, rfl⟩ := map_ok_iff.mp hrest
    rw [ih hread, writtenNormally_wrapped_iff]
  | case7 => cases h
  | case8 depth value => exact absurd h (Json.unexpected_ne_ok value)

theorem isNormal_iff_of_decode {document : String} {d : Decimal}
    (h : codec.decode document = .ok d) :
    d.IsNormal ↔ ∃ value, Json.HasField "value" (Json.parse document).value value ∧
      WrittenNormally value := by
  obtain ⟨read, hread, htrailing⟩ := bind_ok_iff.mp h
  have hd : read = d := by
    split at htrailing
    · exact Except.ok.inj htrailing
    · cases htrailing
  subst hd
  obtain ⟨value, e, hfield, hvalue, rfl⟩ := Json.read_field_ok hread
  simp only [hfield, exists_eq_left]
  exact isNormal_iff_of_readValue hvalue

theorem decode_string {document s : String} {verbatim : Bool} {d : Decimal}
    (hdocument : Json.parse document =
      ⟨.object (.member (.string "value") verbatim (.string s) .endMembers), none⟩)
    (h : read s.toList = .ok d) : codec.decode document = .ok d := by
  have hvalue : valueCodec.read (.string s) = .ok d := congrArg (Except.mapError _) h
  unfold Json.Codec.decode
  rw [hdocument]
  exact bind_ok_iff.mpr ⟨d, Json.read_only_member hvalue, rfl⟩

/-! ## Where decimals come from -/

/-- What a decimal is made from. -/
inductive Source where
  | text (s : String)
  | parts (spelled : Decimal)
  | document (s : String)

inductive Source.Gives : Source → Decimal → Prop
  | text {s : String} {d : Decimal} (h : parse s = .ok d) : Gives (.text s) d
  | parts (spelled : Decimal) : Gives (.parts spelled) spelled.normalize
  | document {s : String} {d : Decimal} (h : codec.decode s = .ok d) : Gives (.document s) d

/-- Only a document can leave a zero at the end. -/
def Source.LeavesNoZero : Source → Prop
  | .text _ | .parts _ => True
  | .document s =>
    ∃ value, Json.HasField "value" (Json.parse s).value value ∧ WrittenNormally value

end Decimal

/-! ## The theorem -/

/-- **Every decimal from a text or an unscaled integer is normal**, and one from a document is normal
exactly if it is written so. -/
theorem decimals_are_normal_iff {source : Decimal.Source} {d : Decimal} (h : source.Gives d) :
    d.IsNormal ↔ source.LeavesNoZero := by
  cases h with
  | text h => exact iff_true_intro (Decimal.isNormal_of_parse h)
  | parts spelled => exact iff_true_intro (Decimal.isNormal_normalize spelled)
  | document h => exact Decimal.isNormal_iff_of_decode h

theorem decimals_are_normal_without_zero :
    let text : Decimal.Source := .text "1.50"
    let document : Decimal.Source := .document "\x7b\"value\":\"1.5\"\x7d"
    let d : Decimal := ⟨15, 1⟩
    text.Gives d ∧ document.Gives d ∧ d.IsNormal ∧ document.LeavesNoZero := by
  intro text document d
  have htext : text.Gives d := .text (by decide +kernel)
  have hdocument : document.Gives d := .document (Decimal.decode_string rfl (by decide +kernel))
  have hnormal : d.IsNormal := (decimals_are_normal_iff htext).mpr trivial
  exact ⟨htext, hdocument, hnormal, (decimals_are_normal_iff hdocument).mp hnormal⟩

/-- The zero at the end of a decimal in a document stays there. -/
theorem spelled_zero_is_kept :
    let d : Decimal := ⟨150, 2⟩
    (Decimal.Source.document "\x7b\"value\":\"1.50\"\x7d").Gives d ∧ ¬ d.IsNormal := by
  refine ⟨.document (Decimal.decode_string rfl (by decide +kernel)), ?_⟩
  rintro (hzero | hdvd)
  · cases hzero
  · exact hdvd (by decide)

end ExactCompare
