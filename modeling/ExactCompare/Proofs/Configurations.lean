import ExactCompare.Proofs.Json.Records
import ExactCompare.Proofs.Json.Writing
import ExactCompare.Proofs.Names
import ExactCompare.Serial

/-!
# Configurations in documents

A configuration is read from every document that lists fields of it, in any order and layout. What
the document does not list has its default. A document that lists anything else, or a field twice,
is refused.
-/

namespace ExactCompare

open Json (Lists SpellsObject Tree)

/-! ## Spellings of a name -/

namespace Identifier

theorem isAlpha_of_isUpper {c : Char} (h : c.isUpper = true) : c.isAlpha = true := by
  delta Char.isAlpha
  simp [h]

theorem wellFormed_of_lower {cs : List Char} (h : wellFormed (Text.lower cs) = true) :
    wellFormed cs = true := by
  have hpart {c : Char} (h : isPart c.toLower = true) : isPart c = true := by
    cases hc : c.isUpper with
    | false => rwa [Text.toLower_of_not_isUpper hc] at h
    | true =>
      delta isPart Char.isAlphanum
      simp [isAlpha_of_isUpper hc]
  cases cs with
  | nil => exact h
  | cons c rest =>
    simp only [wellFormed, Text.lower, List.map_cons, Bool.and_eq_true, List.all_map,
      List.all_eq_true] at h ⊢
    refine ⟨?_, fun d hd => hpart (h.2 d hd)⟩
    cases hc : c.isUpper with
    | false =>
      have hstart := h.1
      rwa [Text.toLower_of_not_isUpper hc] at hstart
    | true => simp [isStart, isAlpha_of_isUpper hc]

theorem parse_of_sameLetters {s : String} {i : Identifier}
    (h : List.Forall₂ Text.SameLetter s.toList i.name.toList) : parse s = .ok i := by
  have hlower : Text.lower s.toList = i.name.toList :=
    (Text.forall₂_sameLetter_iff.mp h).trans i.canonical.lower
  refine parse_ok_iff.mpr ⟨?_, ?_, ?_⟩
  · refine wellFormed_iff.mp (wellFormed_of_lower ?_)
    rw [hlower]
    exact i.canonical.wellFormed
  · rw [← Text.byteLength_toList, ← Text.byteLength_lower, hlower]
    exact i.canonical.short
  · rw [Text.lowered, hlower, String.ofList_toList]

end Identifier

/-! ## What a document says of a configuration -/

namespace Config

inductive Field where
  | extension | enableSupport | equality
  deriving DecidableEq

def Field.all : List Field := [extension, enableSupport, equality]

def Field.name : Field → String
  | extension => "extension_name"
  | enableSupport => "enable_support_functions"
  | equality => "equality_registration"

/-- The values of a field in a document. The letters of the extension's name may be capitals. -/
inductive HasValue (c : Config) : Field → Json → Prop
  | extension {s : String} (h : List.Forall₂ Text.SameLetter s.toList c.extension.name.toList) :
      HasValue c .extension (.string s)
  | enableSupport : HasValue c .enableSupport (.bool c.enableSupport)
  | equality : HasValue c .equality (.string c.equality.name)

/-- The members are these fields of the configuration, each of them once. -/
structure Listed (c : Config) (fields : List Field) (ms : List (String × Json)) : Prop where
  once : fields.Nodup
  values : List.Forall₂ (fun f m => m.1 = f.name ∧ c.HasValue f m.2) fields ms

/-- The configuration that has these fields, and the defaults of the others. -/
def only (c : Config) (fields : List Field) : Config where
  extension := if .extension ∈ fields then c.extension else default.extension
  enableSupport := if .enableSupport ∈ fields then c.enableSupport else default.enableSupport
  equality := if .equality ∈ fields then c.equality else default.equality

/-! ## Reading -/

abbrev Draft := Option Identifier × Option Bool × Option EqualityRegistration × Unit

def record : Json.Record Draft (Identifier × Bool × EqualityRegistration × Unit) :=
  Json.Record.nil |>.fieldOr "equality_registration" EqualityRegistration.codec default.equality
    |>.fieldOr "enable_support_functions" boolCodec default.enableSupport
    |>.fieldOr "extension_name" Identifier.codec default.extension

theorem codec_eq : codec = record.codec "struct NumcmpConfig" true
    (fun (extension, enableSupport, equality, ()) => ⟨extension, enableSupport, equality⟩)
    fun c => (c.extension, c.enableSupport, c.equality, ()) :=
  rfl

def shape : Json.Shape Draft where
  name := "struct NumcmpConfig"
  fields := record.fields
  strict := true
  lenientEnd := true

/-- The draft in which these fields are set. -/
def drafted (c : Config) (fields : List Field) : Draft :=
  (if .extension ∈ fields then some c.extension else none,
    if .enableSupport ∈ fields then some c.enableSupport else none,
    if .equality ∈ fields then some c.equality else none, ())

theorem map_name_fields : record.fields.map (·.name) = Field.all.map Field.name := rfl

theorem read_extension {i : Identifier} {s : String}
    (h : List.Forall₂ Text.SameLetter s.toList i.name.toList) :
    Identifier.codec.read (.string s) = .ok i := by
  have hparse : (Identifier.parse s).mapError (fun e => Json.Error.refused e.message) = .ok i := by
    rw [Identifier.parse_of_sameLetters h]
    rfl
  exact hparse

theorem read_equality (e : EqualityRegistration) :
    EqualityRegistration.codec.read (.string e.name) = .ok e := by
  cases e <;> rfl

theorem exists_field (f : Field) :
    ∃ field, record.fields.find? (·.name = f.name) = some field ∧
      (∀ (c : Config) (fields : List Field), field.isSet (c.drafted fields) = decide (f ∈ fields)) ∧
      ∀ (c : Config) (fields : List Field) (value : Json), c.HasValue f value →
        field.read (c.drafted fields) value = .ok (c.drafted (f :: fields)) := by
  have hisSome {α : Type} (p : Prop) [Decidable p] (a : α) :
      (if p then some a else none).isSome = decide p := by
    by_cases hp : p <;> simp [hp]
  cases f with
  | extension =>
    refine ⟨_, rfl, fun c fields => hisSome _ _, fun c fields value h => ?_⟩
    cases h with
    | extension h =>
      simp [drafted, read_extension h, Except.map]
  | enableSupport =>
    refine ⟨_, rfl, fun c fields => hisSome _ _, fun c fields value h => ?_⟩
    cases h with
    | enableSupport =>
      simp [drafted, Json.Record.lift, boolCodec, Json.readBool, Except.map]
  | equality =>
    refine ⟨_, rfl, fun c fields => hisSome _ _, fun c fields value h => ?_⟩
    cases h with
    | equality =>
      simp [drafted, Json.Record.lift, read_equality, Except.map]

theorem readMembers_listed {c : Config} {fields done : List Field} {ms more : List (String × Json)}
    (hvalues : List.Forall₂ (fun f m => m.1 = f.name ∧ c.HasValue f m.2) fields ms)
    (honce : fields.Nodup) (hnew : ∀ f ∈ fields, f ∉ done) {members : Tree .members}
    (hlists : Lists members (ms ++ more)) :
    ∃ rest, Lists rest more ∧ shape.readMembers (c.drafted done) members =
      shape.readMembers (c.drafted (fields.reverse ++ done)) rest := by
  induction hvalues generalizing done members with
  | nil => exact ⟨members, hlists, rfl⟩
  | @cons f m fields ms hm _ ih =>
    obtain ⟨key, value⟩ := m
    obtain ⟨rfl, hvalue⟩ := hm
    rw [List.nodup_cons] at honce
    rw [List.forall_mem_cons] at hnew
    cases hlists with
    | member hrest =>
      obtain ⟨field, hfind, hisSet, hread⟩ := exists_field f
      have hunset : field.isSet (c.drafted done) = false := by
        rw [hisSet]
        exact decide_eq_false hnew.1
      have hnew' : ∀ g ∈ fields, g ∉ f :: done := by
        intro g hg hmem
        rcases List.mem_cons.mp hmem with rfl | hdone
        · exact honce.1 hg
        · exact hnew.2 g hg hdone
      obtain ⟨rest, hlists, heq⟩ := ih honce.2 hnew' hrest
      refine ⟨rest, hlists, ?_⟩
      rw [Json.Shape.readMembers_field hfind hunset, hread c done value hvalue]
      rw [List.reverse_cons, List.append_assoc]
      exact heq

/-! ## Documents -/

variable {text : String} {ms : List (String × Json)}

theorem ofJson_of_parse {value : Json} (h : Json.parse text = ⟨value, none⟩) :
    ofJson text = codec.read value := by
  rw [ofJson, Json.Codec.decode, h]
  cases codec.read value <;> rfl

theorem read_object (members : Tree .members) :
    codec.read (.object members) = (do
      let draft ← shape.readMembers record.empty members
      let (extension, enableSupport, equality, ()) ← record.finish draft
      return ⟨extension, enableSupport, equality⟩) :=
  rfl

theorem finish_drafted (c : Config) (fields : List Field) :
    record.finish (c.drafted fields) = .ok
      ((c.only fields).extension, (c.only fields).enableSupport, (c.only fields).equality, ()) := by
  have hgetD {α : Type} (p : Prop) [Decidable p] (a b : α) :
      (if p then some a else none).getD b = if p then a else b := by
    split <;> rfl
  have hfinish (draft : Draft) : record.finish draft = .ok (draft.1.getD default.extension,
      draft.2.1.getD default.enableSupport, draft.2.2.1.getD default.equality, ()) := rfl
  rw [hfinish]
  simp only [drafted, only, hgetD]

theorem exists_readMembers {c : Config} {fields : List Field} {more : List (String × Json)}
    (h : c.Listed fields ms) (htext : SpellsObject (ms ++ more) text) :
    ∃ members rest, Json.parse text = ⟨.object members, none⟩ ∧ Lists rest more ∧
      shape.readMembers record.empty members =
        shape.readMembers (c.drafted fields.reverse) rest := by
  obtain ⟨members, hlists, hparse⟩ := htext.parse_eq
  have hnew : ∀ f ∈ fields, f ∉ ([] : List Field) := fun f _ => List.not_mem_nil
  obtain ⟨rest, hrest, hread⟩ := readMembers_listed h.values h.once hnew hlists
  rw [List.append_nil] at hread
  exact ⟨members, rest, hparse, hrest, hread⟩

theorem ofJson_listed {c : Config} {fields : List Field} (h : c.Listed fields ms)
    (htext : SpellsObject ms text) : ofJson text = .ok (c.only fields) := by
  rw [← List.append_nil ms] at htext
  obtain ⟨members, rest, hparse, hrest, hread⟩ := exists_readMembers h htext
  cases hrest
  rw [Json.Shape.readMembers] at hread
  have honly : c.only fields.reverse = c.only fields := by simp only [only, List.mem_reverse]
  rw [ofJson_of_parse hparse, read_object, ← honly]
  exact bind_ok_iff.mpr ⟨_, hread, map_ok_iff.mpr ⟨_, finish_drafted c _, rfl⟩⟩

theorem ofJson_of_readMembers {members : Tree .members} {e : Json.Error}
    (hparse : Json.parse text = ⟨.object members, none⟩)
    (h : shape.readMembers record.empty members = .error e) : ofJson text = .error e := by
  rw [ofJson_of_parse hparse, read_object, h]
  rfl

theorem ofJson_unknown {c : Config} {fields : List Field} {key : String} {value : Json}
    {more : List (String × Json)} (h : c.Listed fields ms) (hkey : ∀ f : Field, key ≠ f.name)
    (htext : SpellsObject (ms ++ (key, value) :: more) text) :
    ofJson text = .error (.unknownField key (Field.all.map Field.name)) := by
  obtain ⟨members, rest, hparse, hrest, hread⟩ := exists_readMembers h htext
  have hfind : shape.fields.find? (·.name = key) = none := by
    rw [List.find?_eq_none]
    intro field hfield hname
    have hmem : key ∈ Field.all.map Field.name :=
      map_name_fields ▸ List.mem_map.mpr ⟨field, hfield, of_decide_eq_true hname⟩
    obtain ⟨f, -, hf⟩ := List.mem_map.mp hmem
    exact hkey f hf.symm
  cases hrest with
  | member =>
    rw [Json.Shape.readMembers_unknown rfl hfind] at hread
    exact ofJson_of_readMembers hparse hread

theorem ofJson_duplicate {c : Config} {fields : List Field} {f : Field} {value : Json}
    {more : List (String × Json)} (h : c.Listed fields ms) (hf : f ∈ fields)
    (htext : SpellsObject (ms ++ (f.name, value) :: more) text) :
    ofJson text = .error (.duplicateField f.name) := by
  obtain ⟨members, rest, hparse, hrest, hread⟩ := exists_readMembers h htext
  obtain ⟨field, hfind, hisSet, -⟩ := exists_field f
  have hset : field.isSet (c.drafted fields.reverse) = true := by
    rw [hisSet]
    exact decide_eq_true (List.mem_reverse.mpr hf)
  cases hrest with
  | member =>
    rw [Json.Shape.readMembers_duplicate hfind hset] at hread
    exact ofJson_of_readMembers hparse hread

theorem keys_of_ofJson {c : Config} (h : ofJson text = .ok c) (htext : SpellsObject ms text) :
    (∀ m ∈ ms, ∃ f : Field, m.1 = f.name) ∧ (ms.map (·.1)).Nodup := by
  obtain ⟨members, hlists, hparse⟩ := htext.parse_eq
  have honce : Json.SetsOnce record.fields :=
    Json.Record.setsOnce_fieldWith (Json.Record.setsOnce_fieldWith
      (Json.Record.setsOnce_fieldWith Json.Record.setsOnce_nil))
  rw [ofJson_of_parse hparse, codec_eq] at h
  obtain ⟨hknown, hnodup⟩ := Json.Record.keys_of_read honce hlists h
  refine ⟨fun m hm => ?_, hnodup⟩
  obtain ⟨f, -, hf⟩ := List.mem_map.mp (map_name_fields ▸ hknown m hm)
  exact ⟨f, hf.symm⟩

/-! ## Writing -/

theorem spellsObject_toJson (c : Config) :
    ∃ ms, c.Listed Field.all ms ∧ SpellsObject ms c.toJson := by
  have hname : List.Forall₂ Text.SameLetter c.extension.name.toList c.extension.name.toList :=
    Text.forall₂_sameLetter_iff.mpr rfl
  refine ⟨[("extension_name", .string c.extension.name),
    ("enable_support_functions", .bool c.enableSupport),
    ("equality_registration", .string c.equality.name)], ⟨by decide, ?_⟩, ?_⟩
  · exact .cons ⟨rfl, .extension hname⟩ (.cons ⟨rfl, .enableSupport⟩ (.cons ⟨rfl, .equality⟩ .nil))
  · have hbool : Json.Layout (.bool c.enableSupport) (Tree.chars (.bool c.enableSupport)) := by
      cases c.enableSupport with
      | false => exact .falseWord
      | true => exact .trueWord
    refine Json.spellsObject_text (.cons ⟨rfl, ?_⟩ (.cons ⟨rfl, hbool⟩ (.cons ⟨rfl, ?_⟩ .nil)))
    · exact .string (Json.spellsString_quoted _)
    · exact .string (Json.spellsString_quoted _)

theorem only_all (c : Config) : c.only Field.all = c := rfl

end Config

/-! ## The theorem -/

open Config (Field)

/-- **Configurations survive JSON in any layout.** The document of a configuration is read as the
configuration. A document that lists fields of it, in any order and layout, gives these fields and
the defaults of the others. After listed fields, an unknown member or a repeated one is refused by
its name, and a document with such a member anywhere is never read. -/
theorem configurations_survive_any_layout :
    (∀ c : Config, Config.ofJson c.toJson = .ok c) ∧
    (∀ (c : Config) (fields : List Field) (ms : List (String × Json)) (text : String),
      c.Listed fields ms → SpellsObject ms text → Config.ofJson text = .ok (c.only fields)) ∧
    (∀ (c : Config) (fields : List Field) (ms more : List (String × Json)) (key : String)
      (value : Json) (text : String), c.Listed fields ms →
      SpellsObject (ms ++ (key, value) :: more) text →
      ((∀ f : Field, key ≠ f.name) →
        Config.ofJson text = .error (.unknownField key (Field.all.map Field.name))) ∧
      (∀ f ∈ fields, key = f.name → Config.ofJson text = .error (.duplicateField key))) ∧
    ∀ (ms : List (String × Json)) (text : String), SpellsObject ms text →
      (∃ m ∈ ms, ∀ f : Field, m.1 ≠ f.name) ∨ ¬ (ms.map (·.1)).Nodup →
      ∃ e, Config.ofJson text = .error e := by
  refine ⟨fun c => ?_, fun c fields ms text h htext => Config.ofJson_listed h htext,
    fun c fields ms more key value text h htext => ⟨fun hkey => ?_, ?_⟩,
    fun ms text htext hbad => ?_⟩
  · obtain ⟨ms, hlisted, htext⟩ := c.spellsObject_toJson
    exact c.only_all ▸ Config.ofJson_listed hlisted htext
  · exact Config.ofJson_unknown h hkey htext
  · rintro f hf rfl
    exact Config.ofJson_duplicate h hf htext
  · cases hread : Config.ofJson text with
    | error e => exact ⟨e, rfl⟩
    | ok c =>
      obtain ⟨hknown, hnodup⟩ := Config.keys_of_ofJson hread htext
      rcases hbad with ⟨m, hm, hother⟩ | hrepeated
      · obtain ⟨f, hf⟩ := hknown m hm
        exact absurd hf (hother f)
      · exact absurd hnodup hrepeated

theorem configurations_survive_any_layout_escaped :
    let c : Config := ⟨⟨"num_2", ⟨by decide, by decide, by decide⟩⟩, false, .integerFamilyOnly⟩
    Config.ofJson "\x7b \"equality_registration\" : \"integer_family_only\",
      \"extension_name\":\"N\\u0075M_2\"\x7d" = .ok ⟨c.extension, true, .integerFamilyOnly⟩ ∧
    Config.ofJson (Json.text (Json.ofMembers [("extension_name", .string "Num_2"),
      ("equality", .null)])) = .error (.unknownField "equality" (Field.all.map Field.name)) := by
  intro c
  obtain ⟨-, hlisted, hother, -⟩ := configurations_survive_any_layout
  have hletters {s : String} (h : Text.lower s.toList = "num_2".toList) :
      c.HasValue .extension (.string s) :=
    .extension (Text.forall₂_sameLetter_iff.mpr (h.trans (by decide +kernel)))
  constructor
  · have hu : Json.SpellsCode ['0', '0', '7', '5'] 'u'.toNat :=
      Json.SpellsCode.intro (w := 0) (x := 0) (y := 7) (z := 5) rfl rfl rfl rfl
    have hname : Json.SpellsString "NuM_2" ('"' :: "N\\u0075M_2".toList ++ ['"']) :=
      .intro (.cons (.plain (by decide) (by decide) (by decide))
        (.cons (.code hu) (Json.spellsChars_escaped "M_2".toList)))
    have hblanks (k : ℕ) : Json.Blanks (List.replicate k ' ') := fun b hb =>
      List.eq_of_mem_replicate hb ▸ rfl
    have hnewline : Json.Blanks ('\n' :: List.replicate 6 ' ') :=
      List.forall_mem_cons.mpr ⟨rfl, hblanks 6⟩
    have hlast := Json.Layout.lastMember (Json.spellsString_quoted "extension_name")
      (.intro hnewline (hblanks 0)) (.string hname) (Json.padded_self _)
    have hmembers := Json.Layout.member (Json.spellsString_quoted "equality_registration")
      (.intro (hblanks 1) (hblanks 1)) (.string (Json.spellsString_quoted "integer_family_only"))
      (.intro (hblanks 1) (hblanks 0)) hlast
    refine hlisted c [.equality, .extension] _ _
      ⟨by decide, .cons ⟨rfl, .equality⟩ (.cons ⟨rfl, hletters (by decide)⟩ .nil)⟩
      (.intro (.member (.member .endMembers)) (.members hmembers) ?_)
    convert Json.padded_self _ using 1
    decide +kernel
  · have htext : SpellsObject [("extension_name", .string "Num_2"), ("equality", .null)] _ :=
      Json.spellsObject_text (.cons ⟨rfl, .string (Json.spellsString_quoted "Num_2")⟩
        (.cons ⟨rfl, .nullWord⟩ .nil))
    refine (hother c [.extension] [("extension_name", .string "Num_2")] [] _ _ _
      ⟨by decide, .cons ⟨rfl, hletters (by decide)⟩ .nil⟩ htext).1 fun f => ?_
    cases f <;> decide

end ExactCompare
