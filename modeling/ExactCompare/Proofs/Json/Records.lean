import ExactCompare.Proofs.Json.Grammar
import ExactCompare.Proofs.Json.OneField
import Mathlib.Data.List.Nodup

/-!
# Strict records

A strict record is read field by field. It has no members but its fields, and none of them twice.
-/

namespace ExactCompare.Json

variable {σ α β : Type}

/-! ## One member -/

namespace Shape

variable {s : Shape σ} {draft : σ} {name : String} {verbatim : Bool} {value : Json}
  {rest : Tree .members} {field : Field σ}

theorem readMembers_field (hfind : s.fields.find? (·.name = name) = some field)
    (hunset : field.isSet draft = false) :
    s.readMembers draft (.member (.string name) verbatim value rest) =
      (do
        let next ← field.read draft value
        s.readMembers next rest) := by
  rw [readMembers, hfind]
  simp only [hunset, Bool.false_eq_true, if_false]

theorem readMembers_duplicate (hfind : s.fields.find? (·.name = name) = some field)
    (hset : field.isSet draft = true) :
    s.readMembers draft (.member (.string name) verbatim value rest) =
      .error (.duplicateField name) := by
  rw [readMembers, hfind]
  simp only [hset, if_true]

theorem readMembers_unknown (hstrict : s.strict = true)
    (hfind : s.fields.find? (·.name = name) = none) :
    s.readMembers draft (.member (.string name) verbatim value rest) =
      .error (.unknownField name (s.fields.map (·.name))) := by
  rw [readMembers, hfind]
  simp only [hstrict, if_true]

end Shape

/-! ## All members -/

/-- A field is set once it is read, and reading it leaves the other fields as they are. -/
structure SetsOnce (fields : List (Field σ)) : Prop where
  sets : ∀ f ∈ fields, ∀ draft j next, f.read draft j = .ok next → f.isSet next = true
  keeps : ∀ f ∈ fields, ∀ g ∈ fields, f.name ≠ g.name → ∀ draft j next,
    f.read draft j = .ok next → g.isSet next = g.isSet draft

theorem Shape.keys_of_readMembers {s : Shape σ} (hstrict : s.strict = true)
    (honce : SetsOnce s.fields) {members : Tree .members} {ms : List (String × Json)}
    (hlists : Lists members ms) {draft next : σ} (h : s.readMembers draft members = .ok next) :
    (∀ m ∈ ms, ∃ f, s.fields.find? (·.name = m.1) = some f ∧ f.isSet draft = false) ∧
      (ms.map (·.1)).Nodup := by
  induction hlists generalizing draft with
  | endMembers => exact ⟨List.forall_mem_nil _, List.nodup_nil⟩
  | @member key verbatim value rest ms _ ih =>
    cases hfind : s.fields.find? (·.name = key) with
    | none =>
      rw [readMembers_unknown hstrict hfind] at h
      cases h
    | some field =>
      cases hset : field.isSet draft with
      | true =>
        rw [readMembers_duplicate hfind hset] at h
        cases h
      | false =>
        rw [readMembers_field hfind hset] at h
        obtain ⟨middle, hread, hrest⟩ := bind_ok_iff.mp h
        obtain ⟨hknown, hnodup⟩ := ih hrest
        have hmem : field ∈ s.fields := List.mem_of_find?_eq_some hfind
        have hname : field.name = key := by simpa using List.find?_some hfind
        -- The field is set now, so its key does not come again.
        have hfresh : ∀ m ∈ ms, m.1 ≠ key := by
          rintro m hm rfl
          obtain ⟨f, hf, hunset⟩ := hknown m hm
          obtain rfl : f = field := Option.some.inj (hf.symm.trans hfind)
          rw [honce.sets f hmem _ _ _ hread] at hunset
          cases hunset
        constructor
        · rw [List.forall_mem_cons]
          refine ⟨⟨field, hfind, hset⟩, fun m hm => ?_⟩
          obtain ⟨f, hf, hunset⟩ := hknown m hm
          have hfname : f.name = m.1 := by simpa using List.find?_some hf
          have hne : field.name ≠ f.name := by
            rw [hname, hfname]
            exact (hfresh m hm).symm
          have hkeep := honce.keeps field hmem f (List.mem_of_find?_eq_some hf) hne _ _ _ hread
          exact ⟨f, hf, hkeep ▸ hunset⟩
        · rw [List.map_cons, List.nodup_cons]
          refine ⟨?_, hnodup⟩
          intro hkey
          obtain ⟨m, hm, hmkey⟩ := List.mem_map.mp hkey
          exact hfresh m hm hmkey

/-! ## Records put together field by field -/

namespace Record

theorem setsOnce_nil : SetsOnce nil.fields where
  sets := nofun
  keeps := nofun

theorem setsOnce_fieldWith {name : String} {c : Codec β}
    {finish : Option β → Except Error β} {r : Record σ α} (h : SetsOnce r.fields) :
    SetsOnce (fieldWith name c finish r).fields where
  sets := by
    intro f hf draft j next hread
    rcases List.mem_cons.mp hf with rfl | hf
    · obtain ⟨b, -, rfl⟩ := map_ok_iff.mp hread
      rfl
    · obtain ⟨g, hg, rfl⟩ := List.mem_map.mp hf
      obtain ⟨rest, hrest, rfl⟩ := map_ok_iff.mp hread
      exact h.sets g hg _ _ _ hrest
  keeps := by
    intro f hf g hg hne draft j next hread
    rcases List.mem_cons.mp hf with rfl | hf
    · obtain ⟨b, -, rfl⟩ := map_ok_iff.mp hread
      rcases List.mem_cons.mp hg with rfl | hg
      · exact absurd rfl hne
      · obtain ⟨g, hg, rfl⟩ := List.mem_map.mp hg
        rfl
    · obtain ⟨f', hf', rfl⟩ := List.mem_map.mp hf
      obtain ⟨rest, hrest, rfl⟩ := map_ok_iff.mp hread
      rcases List.mem_cons.mp hg with rfl | hg
      · rfl
      · obtain ⟨g', hg', rfl⟩ := List.mem_map.mp hg
        exact h.keeps f' hf' g' hg' hne _ _ _ hrest

theorem keys_of_read {r : Record σ α} (h : SetsOnce r.fields) {name : String} {ofFields : α → β}
    {toFields : β → α} {members : Tree .members} {ms : List (String × Json)}
    (hlists : Lists members ms) {b : β}
    (hread : (r.codec name true ofFields toFields).read (.object members) = .ok b) :
    (∀ m ∈ ms, m.1 ∈ r.fields.map (·.name)) ∧ (ms.map (·.1)).Nodup := by
  obtain ⟨draft, hdraft, -⟩ := bind_ok_iff.mp hread
  obtain ⟨hknown, hnodup⟩ := Shape.keys_of_readMembers rfl h hlists hdraft
  refine ⟨fun m hm => ?_, hnodup⟩
  obtain ⟨f, hf, -⟩ := hknown m hm
  exact List.mem_map.mpr ⟨f, List.mem_of_find?_eq_some hf, by simpa using List.find?_some hf⟩

end Record

end ExactCompare.Json
