import ExactCompare.Planner.Resolution
import ExactCompare.Proofs.Plan.Contents

/-!
# Looking up in a valid catalog

Nothing is there twice, so an entry is found by its id and by its key, and calling it
runs its own routine. A resolution knows an id exactly if the operator with that id
has the signature of an operator across types.
-/

namespace ExactCompare

theorem find?_eq_some_of_unique {α : Type} {l : List α} {p : α → Bool} {a : α} (ha : a ∈ l)
    (hpa : p a = true) (hunique : ∀ b ∈ l, p b = true → b = a) : l.find? p = some a := by
  cases hfind : l.find? p with
  | none =>
    rw [List.find?_eq_none] at hfind
    exact absurd hpa (hfind a ha)
  | some b => rw [hunique b (List.mem_of_find?_eq_some hfind) (List.find?_some hfind)]

theorem find?_eq_some_of_nodup {α β : Type} [DecidableEq β] {l : List α} {key : α → β} {a : α}
    (hnodup : (l.map key).Nodup) (ha : a ∈ l) : l.find? (fun b => key b = key a) = some a :=
  find?_eq_some_of_unique ha (decide_eq_true rfl) fun _ hb hkey =>
    List.inj_on_of_nodup_map hnodup hb ha (of_decide_eq_true hkey)

theorem find?_eq_some_iff_of_nodup {α β : Type} [DecidableEq β] {l : List α} {key : α → β}
    (hnodup : (l.map key).Nodup) {k : β} {a : α} :
    l.find? (fun b => key b = k) = some a ↔ a ∈ l ∧ key a = k := by
  constructor
  · intro hfind
    exact ⟨List.mem_of_find?_eq_some hfind, of_decide_eq_true (List.find?_some hfind :)⟩
  · rintro ⟨ha, rfl⟩
    exact find?_eq_some_of_nodup hnodup ha

namespace Catalog

variable {c : Catalog} {f : FunctionEntry} {o : OperatorEntry}

theorem Valid.function? (hc : c.Valid) (hf : f ∈ c.functions) : c.function? f.oid = some f :=
  find?_eq_some_of_nodup hc.oids.of_append_left hf

theorem Valid.operator? (hc : c.Valid) (ho : o ∈ c.operators) : c.operator? o.oid = some o :=
  find?_eq_some_of_nodup hc.oids.of_append_right ho

theorem Valid.findOperator? (hc : c.Valid) (ho : o ∈ c.operators) :
    c.findOperator? o.signature = some o.oid := by
  rw [Catalog.findOperator?, find?_eq_some_of_nodup hc.signatures ho]
  rfl

theorem Valid.eq_of_oid {o r : OperatorEntry} (hc : c.Valid) (ho : o ∈ c.operators)
    (hr : r ∈ c.operators) (h : o.oid = r.oid) : o = r :=
  List.inj_on_of_nodup_map hc.oids.of_append_right ho hr h

/-! ## Calling -/

theorem Valid.invokeFunction (hc : c.Valid) (hf : f ∈ c.functions) {r : Routine}
    (hroutine : f.routine = some r) (arguments : List Literal) :
    c.invokeFunction f.oid arguments = (r.invoke arguments).mapError .evaluation := by
  simp only [Catalog.invokeFunction, hc.function? hf, hroutine]

theorem Valid.invokeOperator (hc : c.Valid) (ho : o ∈ c.operators) (hf : f ∈ c.functions)
    (hfunction : o.function = some f.oid) {x : CrossOperator}
    (hroutine : f.routine = some (.operator x)) (left right : Literal) :
    c.invokeOperator o.oid left right = (x.evaluate left right).mapError .evaluation := by
  simp only [Catalog.invokeOperator, hc.operator? ho, comparison?, hfunction, Option.bind_some,
    hc.function? hf, hroutine]

end Catalog

/-! ## Resolutions -/

namespace Resolution

variable {c : Catalog} {oid : Oid} {x : CrossOperator}

theorem mem_ofCatalog_iff :
    (x, oid) ∈ (ofCatalog c).entries ↔ c.findOperator? x.signature = some oid := by
  simp only [ofCatalog, List.mem_filterMap, Option.map_eq_some_iff, Prod.mk.injEq]
  constructor
  · rintro ⟨_, -, _, hfind, rfl, rfl⟩
    exact hfind
  · intro hfind
    exact ⟨x, x.mem_all, oid, hfind, rfl, rfl⟩

theorem operator?_ofCatalog_iff (hc : c.Valid) :
    (ofCatalog c).operator? oid = some x ↔ c.findOperator? x.signature = some oid := by
  rw [← mem_ofCatalog_iff, operator?, Option.map_eq_some_iff]
  constructor
  · rintro ⟨⟨y, oid'⟩, hfind, rfl⟩
    obtain rfl : oid' = oid := of_decide_eq_true (List.find?_some hfind :)
    exact List.mem_of_find?_eq_some hfind
  · intro hmem
    refine ⟨_, find?_eq_some_of_unique hmem (decide_eq_true rfl) ?_, rfl⟩
    rintro ⟨y, oid'⟩ hentry hoid
    obtain rfl : oid' = oid := of_decide_eq_true hoid
    obtain ⟨o, ho, hsignature, hoid⟩ := Catalog.exists_of_findOperator? (mem_ofCatalog_iff.mp hmem)
    obtain ⟨r, hr, hsignature', hoid'⟩ :=
      Catalog.exists_of_findOperator? (mem_ofCatalog_iff.mp hentry)
    obtain rfl := hc.eq_of_oid ho hr (hoid.trans hoid'.symm)
    rw [CrossOperator.signature_injective (hsignature'.symm.trans hsignature)]

theorem oid?_ofCatalog (c : Catalog) (x : CrossOperator) :
    (ofCatalog c).oid? x = c.findOperator? x.signature := by
  rw [Option.ext_iff]
  intro oid
  rw [← mem_ofCatalog_iff, oid?, Option.map_eq_some_iff]
  constructor
  · rintro ⟨⟨y, oid'⟩, hfind, rfl⟩
    obtain rfl : y = x := of_decide_eq_true (List.find?_some hfind :)
    exact List.mem_of_find?_eq_some hfind
  · intro hmem
    refine ⟨_, find?_eq_some_of_unique hmem (decide_eq_true rfl) ?_, rfl⟩
    rintro ⟨y, oid'⟩ hentry hy
    obtain rfl : y = x := of_decide_eq_true hy
    rw [mem_ofCatalog_iff] at hmem hentry
    rw [Option.some.inj (hentry.symm.trans hmem)]

end Resolution

end ExactCompare
