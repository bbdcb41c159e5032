import ExactCompare.Proofs.Json.Doubles
import ExactCompare.Proofs.Json.Writing
import ExactCompare.Proofs.Numeric.Rereading
import ExactCompare.Proofs.StoredValue

/-!
# Literals read back

The document of a literal is read back as a literal that compares alike, unless the literal is a
numeric that hides a fraction, or a float that no decimal stands for or whose decimal is rounded to
another value.
-/

namespace ExactCompare

-- Powers are those that `Nat` and `Int` come with.
attribute [local instance (2000)] instPowNat

open Json (Codec Variant Layout)

/-! ## Values under a name -/

theorem Json.Codec.decode_variant {α : Type} {c : Codec α} {variants : List (Variant α)}
    {v : Variant α} {name : String} {written value : Json} (hread : c.read = readVariant variants)
    (hfind : Variant.find variants name = .ok v) (hvalue : Layout value (Tree.chars written)) :
    c.decode (text (ofMembers [(name, written)])) = v.readMember value := by
  have hspelled : SpellsObject [(name, value)] (text (ofMembers [(name, written)])) :=
    spellsObject_text (.cons ⟨rfl, hvalue⟩ .nil)
  obtain ⟨members, hlists, hparse⟩ := hspelled.parse_eq
  cases hlists with
  | member hrest =>
    cases hrest
    rw [decode, hparse, hread]
    simp only [readVariant, hfind, onlyMember, bind, Except.bind, pure, Except.pure]
    cases v.readMember value with
    | error e => rfl
    | ok a => rfl

namespace Literal

/-! ## Survival -/

/-- The document of `l` is read as `m`, which has the same type and compares alike. -/
structure ReadsBackAs (l m : Literal) : Prop where
  read : codec.decode (codec.encode l) = .ok m
  type : m.type = l.type
  integer : m.integerValue? = l.integerValue?
  decoded : m.inexactValue?.map Inexact.decode = l.inexactValue?.map Inexact.decode

def Survives (l : Literal) : Prop := ∃ m, l.ReadsBackAs m

/-- Nothing of the literal that comparisons look at is lost in its document. -/
inductive IsKept : Literal → Prop
  | integer {t : IntegerType} {n : ℤ} {h : t.contains n = true} : IsKept (.integer t n h)
  | numeric {n : Numeric} (h : ¬ n.HidesFraction) : IsKept (.inexact (.numeric n))
  | float4 {b c : Float4} (h : b.reread = some c) (hdecode : c.decode = b.decode) :
      IsKept (.inexact (.float4 b))
  | float8 {b c : Float8} (h : b.reread = some c) (hdecode : c.decode = b.decode) :
      IsKept (.inexact (.float8 b))

/-! ## The document of a literal -/

/-- The name that the value of a literal is written under. -/
def typeName : ColumnType → String
  | .integer t => t.literalName
  | .inexact t => t.literalName

/-- The value under the name. -/
def tree : Literal → Json
  | .integer _ n _ => .integer n
  | .inexact (.numeric n) => .string n.text
  | .inexact (.float4 b) => .float .binary32 b
  | .inexact (.float8 b) => .float .binary64 b

/-- How the value under the name of a type is read. -/
def variantOf : ColumnType → Variant Literal
  | .integer t => .payload t.literalName "newtype variant" (readInteger t)
  | .inexact .numeric =>
    Numeric.codec.variant InexactType.numeric.literalName fun n => .inexact (.numeric n)
  | .inexact .float4 =>
    float4Codec.variant InexactType.float4.literalName fun b => .inexact (.float4 b)
  | .inexact .float8 =>
    float8Codec.variant InexactType.float8.literalName fun b => .inexact (.float8 b)

theorem find_variantOf (t : ColumnType) :
    Variant.find (ColumnType.all.map variantOf) (typeName t) = .ok (variantOf t) := by
  rcases t with t | t <;> cases t <;> rfl

theorem encode_eq (l : Literal) :
    codec.encode l = Json.text (Json.ofMembers [(typeName l.type, l.tree)]) := by
  rcases l with _ | v
  · rfl
  · cases v <;> rfl

theorem decode_encode {l : Literal} {value : Json} (h : Layout value l.tree.chars) :
    codec.decode (codec.encode l) = (variantOf l.type).readMember value := by
  have hread : codec.read = Json.readVariant (ColumnType.all.map variantOf) := rfl
  rw [encode_eq]
  exact Codec.decode_variant hread (find_variantOf l.type) h

/-! ## Integers -/

theorem decode_encode_integer {t : IntegerType} {n : ℤ} (h : t.contains n = true) :
    codec.decode (codec.encode (.integer t n h)) = .ok (.integer t n h) := by
  have hrange := IntegerType.contains_iff.mp h
  have hlayout : Layout (.integer n) (Json.Tree.chars (.integer n)) := by
    cases t <;> simp only [IntegerType.min, IntegerType.max] at hrange <;>
      exact Json.layout_integer (by omega) (by omega)
  rw [decode_encode hlayout]
  exact dif_pos h

/-! ## Numerics -/

theorem decode_encode_numeric {n m : Numeric} (h : Numeric.parse n.text = .ok m) :
    codec.decode (codec.encode (.inexact (.numeric n))) = .ok (.inexact (.numeric m)) := by
  have hlayout : Layout (.string n.text) (Json.Tree.chars (.string n.text)) :=
    .string (Json.spellsString_quoted n.text)
  have hread : (variantOf (inexact (.numeric n)).type).readMember (.string n.text) =
      (fun m => inexact (.numeric m)) <$> Numeric.codec.read (.string n.text) := rfl
  rw [decode_encode (l := .inexact (.numeric n)) hlayout, hread,
    (Numeric.readsBackAs_of_parse h).read]
  rfl

/-! ## Floats -/

theorem exists_layout_float {f : BinaryFormat} (hf : Binary.IsNarrow f) (b : Binary f)
    (expected : String) : ∃ value, Layout value (Json.Tree.chars (.float f b)) ∧
      (Json.readFloat f expected value).toOption = b.reread := by
  cases h : b.view with
  | finite negative mantissa exponent =>
    refine ⟨_, Binary.layout_chars hf h, ?_⟩
    rw [Binary.reread_of_view h, Json.doubleTree]
    cases Json.double? _ _ with
    | none => rfl
    | some x => rfl
  | nan | infinity =>
    have hchars : b.chars? = none := by
      unfold Binary.chars?
      rw [h]
    have hreread : b.reread = none := by
      unfold Binary.reread
      rw [h]
    refine ⟨.null, ?_, hreread.symm⟩
    rw [Json.Tree.chars, hchars]
    exact .nullWord

/-- The literals of a float type. -/
structure AreFloats (f : BinaryFormat) (wrap : Binary f → Inexact) (expected : String) : Prop where
  narrow : Binary.IsNarrow f
  type : ∀ b c, (wrap b).type = (wrap c).type
  decode : ∀ b, (wrap b).decode = b.decode
  tree : ∀ b, (inexact (wrap b)).tree = .float f b
  read : ∀ b value, (variantOf (inexact (wrap b)).type).readMember value =
    (fun c => inexact (wrap c)) <$> Json.readFloat f expected value

theorem areFloats_float4 : AreFloats .binary32 .float4 "f32" :=
  ⟨Binary.isNarrow_binary32, fun _ _ => rfl, fun _ => rfl, fun _ => rfl, fun _ _ => rfl⟩

theorem areFloats_float8 : AreFloats .binary64 .float8 "f64" :=
  ⟨Binary.isNarrow_binary64, fun _ _ => rfl, fun _ => rfl, fun _ => rfl, fun _ _ => rfl⟩

section Float

variable {f : BinaryFormat} {wrap : Binary f → Inexact} {expected : String}

theorem AreFloats.decode_encode_ok_iff (h : AreFloats f wrap expected) (b : Binary f)
    (l : Literal) : codec.decode (codec.encode (.inexact (wrap b))) = .ok l ↔
      ∃ c, b.reread = some c ∧ inexact (wrap c) = l := by
  obtain ⟨value, hlayout, hread⟩ := exists_layout_float h.narrow b expected
  rw [decode_encode (l := .inexact (wrap b)) (h.tree b ▸ hlayout), h.read, ← hread]
  cases Json.readFloat f expected value with
  | error e => simp [Except.toOption]
  | ok c => simp [Except.toOption]

end Float

/-! ## What survives -/

theorem survives_integer {t : IntegerType} {n : ℤ} (h : t.contains n = true) :
    (integer t n h).Survives :=
  ⟨_, decode_encode_integer h, rfl, rfl, rfl⟩

theorem survives_numeric_iff (n : Numeric) :
    (inexact (.numeric n)).Survives ↔ ¬ n.HidesFraction := by
  obtain ⟨m, hm, hiff⟩ := n.exists_reread
  rw [← hiff]
  constructor
  · rintro ⟨l, hl⟩
    have hread := (decode_encode_numeric hm).symm.trans hl.read
    obtain rfl := Except.ok.inj hread
    exact Option.some.inj hl.decoded
  · intro hdecode
    exact ⟨_, decode_encode_numeric hm, rfl, rfl, congrArg some hdecode⟩

theorem AreFloats.survives_iff {f : BinaryFormat} {wrap : Binary f → Inexact} {expected : String}
    (h : AreFloats f wrap expected) (b : Binary f) :
    (inexact (wrap b)).Survives ↔ ∃ c, b.reread = some c ∧ c.decode = b.decode := by
  constructor
  · rintro ⟨l, hl⟩
    obtain ⟨c, hc, rfl⟩ := (h.decode_encode_ok_iff b l).mp hl.read
    have hdecode := Option.some.inj hl.decoded
    rw [h.decode, h.decode] at hdecode
    exact ⟨c, hc, hdecode⟩
  · rintro ⟨c, hc, hdecode⟩
    rw [← h.decode, ← h.decode] at hdecode
    exact ⟨_, (h.decode_encode_ok_iff b _).mpr ⟨c, hc, rfl⟩,
      congrArg ColumnType.inexact (h.type c b), rfl, congrArg some hdecode⟩

theorem survives_iff (l : Literal) : l.Survives ↔ l.IsKept := by
  constructor
  · intro h
    rcases l with _ | v
    · exact .integer
    · cases v with
      | numeric n => exact .numeric ((survives_numeric_iff n).mp h)
      | float4 b =>
        obtain ⟨c, hc, hdecode⟩ := (areFloats_float4.survives_iff b).mp h
        exact .float4 hc hdecode
      | float8 b =>
        obtain ⟨c, hc, hdecode⟩ := (areFloats_float8.survives_iff b).mp h
        exact .float8 hc hdecode
  · intro h
    cases h with
    | integer => exact survives_integer _
    | numeric h => exact (survives_numeric_iff _).mpr h
    | float4 h hdecode => exact (areFloats_float4.survives_iff _).mpr ⟨_, h, hdecode⟩
    | float8 h hdecode => exact (areFloats_float8.survives_iff _).mpr ⟨_, h, hdecode⟩

/-- An integer, or a float of few digits that is not too large or too small. -/
inductive IsShort : Literal → Prop
  | integer {t : IntegerType} {n : ℤ} {h : t.contains n = true} : IsShort (.integer t n h)
  | float4 {b : Float4} (h : b.EndsNearPoint) : IsShort (.inexact (.float4 b))
  | float8 {b : Float8} (h : b.IsShort) : IsShort (.inexact (.float8 b))

theorem IsShort.readsBackAs {l : Literal} (h : l.IsShort) : l.ReadsBackAs l := by
  refine ⟨?_, rfl, rfl, rfl⟩
  cases h with
  | integer => exact decode_encode_integer _
  | float4 h => exact (areFloats_float4.decode_encode_ok_iff _ _).mpr ⟨_, h.reread, rfl⟩
  | float8 h => exact (areFloats_float8.decode_encode_ok_iff _ _).mpr ⟨_, h.reread, rfl⟩

end Literal

/-! ## The theorem -/

/-- **Literals survive serialization** exactly if nothing of them is lost in their document. A short
literal is read back as it is. -/
theorem literals_survive_iff (l : Literal) :
    (l.Survives ↔ l.IsKept) ∧ (l.IsShort → l.ReadsBackAs l) :=
  ⟨l.survives_iff, Literal.IsShort.readsBackAs⟩

theorem literals_survive_iff_at_tenth :
    let tenth : Literal := .inexact (.float8 ⟨0x3FB999999999999A, by decide⟩)
    let narrow : Literal := .inexact (.float4 ⟨0x3DCCCCCD, by decide⟩)
    (tenth.IsShort ∧ tenth.ReadsBackAs tenth) ∧ (narrow.IsShort ∧ narrow.ReadsBackAs narrow) ∧
      (Literal.inexact (.numeric Numeric.halfBelowMinimum)).Survives := by
  intro tenth narrow
  have htenth : tenth.IsShort :=
    .float8 ⟨false, 7205759403792794, -56, by decide, by decide +kernel, by decide +kernel⟩
  have hnarrow : narrow.IsShort := .float4 ⟨false, 13421773, -27, by decide, by decide +kernel⟩
  refine ⟨⟨htenth, (literals_survive_iff tenth).2 htenth⟩,
    ⟨hnarrow, (literals_survive_iff narrow).2 hnarrow⟩, (literals_survive_iff _).1.mpr ?_⟩
  refine .numeric ?_
  have hfract : Int.fract (-(-92233720368547758085 / 10) : ℚ) = 1 / 2 := by
    rw [Int.fract_eq_iff]
    exact ⟨by norm_num, by norm_num, 9223372036854775808, by norm_num⟩
  rw [Numeric.HidesFraction, Numeric.rational_halfBelowMinimum, abs_of_neg (by norm_num), hfract]
  norm_num [Numeric.halfBelowMinimum]

/-- The double next to `1`, below it. -/
def Binary.belowOne : Float8 := ⟨0x3FEFFFFFFFFFFFFF, by decide⟩

/-- NaN is written as nothing, a hidden half is not written, and the double below one is read as
one. -/
theorem lost_literals :
    let nan : Literal := .inexact (.float8 (Binary.nan .binary64))
    let half : Literal := .inexact (.numeric Numeric.hiddenHalf)
    let belowOne : Literal := .inexact (.float8 Binary.belowOne)
    (Literal.codec.encode nan = "\x7b\"Double\":null\x7d" ∧ ¬ nan.Survives) ∧
    (Literal.codec.encode half = "\x7b\"Numeric\":\"1\"\x7d" ∧ ¬ half.Survives) ∧
    (Literal.codec.encode belowOne = "\x7b\"Double\":0.9999999999999999\x7d" ∧
      ¬ belowOne.Survives) := by
  intro nan half belowOne
  refine ⟨⟨by decide +kernel, ?_⟩, ⟨by decide +kernel, ?_⟩, by decide +kernel, ?_⟩
  · rw [Literal.areFloats_float8.survives_iff]
    have hreread : (Binary.nan .binary64).reread = none := by decide +kernel
    rintro ⟨c, hc, -⟩
    rw [hreread] at hc
    cases hc
  · rw [Literal.survives_numeric_iff, not_not, Numeric.HidesFraction, Numeric.rational_hiddenHalf]
    norm_num [Numeric.hiddenHalf, Numeric.zero, Numeric.ofSign]
  · rw [Literal.areFloats_float8.survives_iff]
    have hreread : Binary.belowOne.reread.map Binary.decode =
        some (.finite .positive (.finite 1) false) := by decide +kernel
    have hdecode : Binary.belowOne.decode = .finite .positive (.finite 0) true := by decide +kernel
    rintro ⟨c, hc, hsame⟩
    rw [hc, Option.map_some, Option.some.injEq, hsame, hdecode] at hreread
    cases hreread

end ExactCompare
