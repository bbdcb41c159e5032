import ExactCompare.Json.Codec
import ExactCompare.Proofs.Except

/-!
# Records with one field

What is read from a record with one field is read from the one value that the document holds there.
Members with other names are skipped, and a second member with the name is an error.
-/

namespace ExactCompare.Json

/-! ## What a document holds -/

/-- Whether an object has a member with this name and value. -/
inductive HasMember (name : String) : Tree .members → Json → Prop
  | here {verbatim : Bool} {value : Json} {rest : Tree .members} :
      HasMember name (.member (.string name) verbatim value rest) value
  | there {key other value : Json} {verbatim : Bool} {rest : Tree .members}
      (h : HasMember name rest value) : HasMember name (.member key verbatim other rest) value

/-- Whether a record with one field holds this value in it. The record is an object, or an array
with one item. -/
inductive HasField (name : String) : Json → Json → Prop
  | member {members : Tree .members} {value : Json} (h : HasMember name members value) :
      HasField name (.object members) value
  | item {value : Json} : HasField name (.array (.item value .endItems)) value

@[elab_as_elim]
theorem members_induction {motive : Tree .members → Prop} (endMembers : motive .endMembers)
    (brokenMembers : ∀ f, motive (.brokenMembers f))
    (member : ∀ key verbatim value rest, motive rest →
      motive (.member key verbatim value rest)) (members : Tree .members) : motive members := by
  suffices hall : ∀ (k : Kind) (t : Tree k) (hk : k = .members), motive (hk ▸ t) from
    hall .members members rfl
  intro k t hk
  induction t with
  | endMembers => exact endMembers
  | brokenMembers f => exact brokenMembers f
  | member key verbatim value rest _ _ ih => exact member key verbatim value rest (ih rfl)
  | _ => cases hk

theorem hasMember_member_iff {name : String} {key other value : Json} {verbatim : Bool}
    {rest : Tree .members} : HasMember name (.member key verbatim other rest) value ↔
      key = .string name ∧ value = other ∨ HasMember name rest value := by
  constructor
  · intro h
    cases h with
    | here => exact .inl ⟨rfl, rfl⟩
    | there h => exact .inr h
  · rintro (⟨rfl, rfl⟩ | h)
    · exact .here
    · exact .there h

theorem unexpected_ne_ok {α : Type} {expected : String} {a : α} (j : Json) :
    unexpected expected j ≠ .ok a := by
  cases j <;> exact nofun

/-! ## Reading members -/

variable {α β : Type} {name recordName : String} {c : Codec α} {value : Json}

/-- The one field, read into a draft of the record. -/
def onlyField (name : String) (c : Codec α) : Field (Option α × Unit) where
  name := name
  isSet draft := draft.1.isSome
  read draft j := (c.read j).map fun a => (some a, draft.2)

def fieldShape (recordName name : String) (c : Codec α) : Shape (Option α × Unit) where
  name := recordName
  fields := [onlyField name c]
  strict := false
  lenientEnd := false

theorem find?_fieldShape (k : String) :
    (fieldShape recordName name c).fields.find? (·.name = k) =
      if name = k then some (onlyField name c) else none := by
  by_cases hk : name = k <;> simp [fieldShape, onlyField, hk]

theorem readMembers_member {start draft : Option α × Unit} {key : Json} {verbatim : Bool}
    {rest : Tree .members}
    (h : (fieldShape recordName name c).readMembers start (.member key verbatim value rest) =
      .ok draft) :
    (key = .string name ∧ start.1 = none ∧ ∃ a, c.read value = .ok a ∧
      (fieldShape recordName name c).readMembers (some a, ()) rest = .ok draft) ∨
    (key ≠ .string name ∧ (fieldShape recordName name c).readMembers start rest = .ok draft) := by
  unfold Shape.readMembers at h
  split at h
  case h_3 k _ _ _ heq =>
    cases heq
    rw [find?_fieldShape] at h
    by_cases hk : name = k
    · rw [if_pos hk] at h
      dsimp only at h
      split at h
      case isTrue => cases h
      case isFalse hunset =>
        obtain ⟨next, hread, hrest⟩ := bind_ok_iff.mp h
        obtain ⟨a, ha, rfl⟩ := map_ok_iff.mp hread
        exact .inl ⟨hk ▸ rfl, Option.not_isSome_iff_eq_none.mp hunset, a, ha, hrest⟩
    · have hother : Tree.string k ≠ .string name := fun hkey => hk (Tree.string.inj hkey).symm
      rw [if_neg hk] at h
      dsimp only at h
      split at h
      · contradiction
      split at h
      · cases h
      · exact .inr ⟨hother, h⟩
  case h_4 => cases h
  all_goals contradiction

theorem readMembers_set {a : α} {draft : Option α × Unit} {members : Tree .members}
    (h : (fieldShape recordName name c).readMembers (some a, ()) members = .ok draft) :
    draft = (some a, ()) ∧ ∀ value, ¬ HasMember name members value := by
  induction members using members_induction with
  | endMembers =>
    rw [Shape.readMembers, Except.ok.injEq] at h
    refine ⟨h.symm, fun value hmember => ?_⟩
    cases hmember
  | brokenMembers f =>
    rw [Shape.readMembers] at h
    cases h
  | member key verbatim other rest ih =>
    rcases readMembers_member h with ⟨-, hset, -⟩ | ⟨hkey, hrest⟩
    · cases hset
    · obtain ⟨hdraft, hnone⟩ := ih hrest
      refine ⟨hdraft, fun value hmember => ?_⟩
      rcases hasMember_member_iff.mp hmember with ⟨hname, -⟩ | hmember
      · exact hkey hname
      · exact hnone value hmember

theorem readMembers_unset {a : α} {members : Tree .members}
    (h : (fieldShape recordName name c).readMembers (none, ()) members = .ok (some a, ())) :
    ∃ value, c.read value = .ok a ∧ ∀ v, HasMember name members v ↔ v = value := by
  induction members using members_induction with
  | endMembers =>
    rw [Shape.readMembers] at h
    cases h
  | brokenMembers f =>
    rw [Shape.readMembers] at h
    cases h
  | member key verbatim other rest ih =>
    rcases readMembers_member h with ⟨rfl, -, b, hread, hrest⟩ | ⟨hkey, hrest⟩
    · obtain ⟨hdraft, hnone⟩ := readMembers_set hrest
      cases hdraft
      refine ⟨other, hread, fun v => ?_⟩
      rw [hasMember_member_iff, and_iff_right rfl, or_iff_left (hnone v)]
    · obtain ⟨value, hread, hiff⟩ := ih hrest
      refine ⟨value, hread, fun v => ?_⟩
      rw [hasMember_member_iff, hiff, or_iff_right fun hname => hkey hname.1]

theorem readItems_ok {a : α} {items : Tree .items}
    (h : (fieldShape recordName name c).readItems (none, ()) [onlyField name c] items =
      .ok (some a, ())) :
    ∃ value, c.read value = .ok a ∧ items = .item value .endItems := by
  unfold Shape.readItems at h
  split at h
  case h_5 value rest heq =>
    obtain ⟨rfl, rfl⟩ := List.cons.inj heq
    obtain ⟨draft, hread, hrest⟩ := bind_ok_iff.mp h
    obtain ⟨b, hb, rfl⟩ := map_ok_iff.mp hread
    unfold Shape.readItems at hrest
    cases rest with
    | endItems =>
      cases hrest
      exact ⟨value, hb, rfl⟩
    | brokenItems | item => cases hrest
  case h_4 => cases h
  all_goals contradiction

theorem read_field_ok {ofFields : α × Unit → β} {toFields : β → α × Unit} {document : Json} {b : β}
    (h : ((Record.nil.field name c).codec recordName false ofFields toFields).read document =
      .ok b) :
    ∃ value a, (∀ v, HasField name document v ↔ v = value) ∧ c.read value = .ok a ∧
      ofFields (a, ()) = b := by
  obtain ⟨⟨set, ⟨⟩⟩, hdraft, h⟩ := bind_ok_iff.mp h
  obtain ⟨fields, hfinish, rfl⟩ := map_ok_iff.mp h
  have hset : ∃ a, set = some a ∧ fields = (a, ()) := by
    cases set with
    | none => cases hfinish
    | some a => exact ⟨a, rfl, (Except.ok.inj hfinish).symm⟩
  obtain ⟨a, rfl, rfl⟩ := hset
  have hshape : (fieldShape recordName name c).read (none, ()) document = .ok (some a, ()) := hdraft
  unfold Shape.read at hshape
  split at hshape
  case h_1 members =>
    obtain ⟨value, hread, hiff⟩ := readMembers_unset hshape
    refine ⟨value, a, fun v => ?_, hread, rfl⟩
    rw [← hiff]
    constructor
    · rintro ⟨hmember⟩
      exact hmember
    · exact .member
  case h_2 items =>
    obtain ⟨value, hread, rfl⟩ := readItems_ok hshape
    refine ⟨value, a, fun v => ?_, hread, rfl⟩
    constructor
    · rintro ⟨⟩
      rfl
    · rintro rfl
      exact .item
  case h_3 => exact absurd hshape (unexpected_ne_ok document)

theorem read_only_member {ofFields : α × Unit → β} {toFields : β → α × Unit} {verbatim : Bool} {a : α}
    (h : c.read value = .ok a) :
    ((Record.nil.field name c).codec recordName false ofFields toFields).read
      (.object (.member (.string name) verbatim value .endMembers)) = .ok (ofFields (a, ())) := by
  have hmembers : (fieldShape recordName name c).readMembers (none, ())
      (.member (.string name) verbatim value .endMembers) = .ok (some a, ()) := by
    rw [Shape.readMembers, find?_fieldShape, if_pos rfl]
    simp only [onlyField, h]
    exact Shape.readMembers.eq_1 _ _
  exact bind_ok_iff.mpr
    ⟨(some a, ()), hmembers, map_ok_iff.mpr ⟨(a, ()), rfl, rfl⟩⟩

end ExactCompare.Json
