import ExactCompare.Proofs.Host.History

/-!
# Uninstalling takes out what was installed

The part of an installed extension was made by the batch that installed it last, so a removal
counts what this batch counts. It takes out the part, and leaves the rest in its order.
-/

namespace ExactCompare

/-! ## The batch that installed an extension -/

def Transaction.batchOf? (e : Identifier) : Transaction → Option Batch
  | .install batch => if batch.owner = e then some batch else none
  | .remove _ => none

def latestBatch? (transactions : List Transaction) (e : Identifier) : Option Batch :=
  transactions.reverse.findSome? (·.batchOf? e)

theorem latestBatch?_concat (transactions : List Transaction) (t : Transaction) (e : Identifier) :
    latestBatch? (transactions ++ [t]) e = (t.batchOf? e).or (latestBatch? transactions e) := by
  unfold latestBatch?
  rw [List.reverse_append, List.reverse_singleton, List.singleton_append, List.findSome?_cons]
  cases t.batchOf? e <;> rfl

/-- What the removal of a batch counts. -/
def Batch.summary (b : Batch) : RemovalSummary where
  functions := b.functionCount
  operators := b.operatorCount
  members := b.memberCount

/-! ## Counting -/

namespace Change

theorem isSome_routine? (change : Change) : change.routine?.isSome = change.isFunction := by
  cases change <;> rfl

theorem isSome_signature? (change : Change) : change.signature?.isSome = change.isOperator := by
  cases change <;> rfl

theorem isSome_place? (change : Change) : change.place?.isSome = change.isMember := by
  cases change <;> rfl

end Change

namespace Catalog

variable {c c' : Catalog} {e owner : Identifier} {changes : List Change} {p : Part}
  {batch : Batch} {transactions : List Transaction}

theorem removalSummary_eq (c : Catalog) (e : Identifier) :
    c.removalSummary e =
      ⟨(c.part e).functions.length, (c.part e).operators.length, (c.part e).members.length⟩ := by
  have hsub {α : Type} (ownerOf : α → Option Identifier) (l : List α) :
      l.length - (l.filter (ownerOf · ≠ some e)).length =
        (l.filter (ownerOf · = some e)).length := by
    have := List.length_eq_length_filter_add (l := l) (ownerOf · = some e)
    simp only [ne_eq, decide_not]
    omega
  rw [removalSummary, RemovalSummary.mk.injEq]
  exact ⟨hsub _ _, hsub _ _, hsub _ _⟩

theorem removalSummary_of_madeBy (h : (c.part batch.owner).MadeBy batch.owner batch.changes) :
    c.removalSummary batch.owner = batch.summary := by
  have hfunctions := congrArg List.length h.routines
  have hoperators := congrArg List.length h.signatures
  have hmembers := congrArg List.length h.places
  simp only [List.length_map, List.length_filterMap_eq_countP, Change.isSome_routine?,
    Change.isSome_signature?, Change.isSome_place?] at hfunctions hoperators hmembers
  rw [removalSummary_eq, hfunctions, hoperators, hmembers]
  rfl

/-! ## The latest batch over time -/

/-- The part of an installed extension was made by the batch that installed it last. -/
def PartsMade (transactions : List Transaction) (c : Catalog) : Prop :=
  ∀ e ∈ c.extensions, ∃ batch, latestBatch? transactions e = some batch ∧ batch.owner = e ∧
    (c.part e).MadeBy e batch.changes

theorem PartsMade.install (hmade : PartsMade transactions c) (hc : c.Valid)
    (hcreate : c.createExtension batch = .ok c') :
    PartsMade (transactions ++ [.install batch]) c' := by
  obtain ⟨hfree, hextensions, p, hp⟩ := createExtension_adds hcreate
  intro e he
  rw [latestBatch?_concat, Transaction.batchOf?]
  by_cases howner : batch.owner = e
  · subst howner
    rw [hp.part_of_eq (hc.part_eq_empty hfree)]
    exact ⟨batch, by simp, rfl, hp.made⟩
  · rw [hextensions, List.mem_append, List.mem_singleton] at he
    rw [if_neg howner, Option.none_or, hp.part_of_ne howner]
    exact hmade e (he.resolve_right (Ne.symm howner))

theorem PartsMade.remove {extension : Identifier} (hmade : PartsMade transactions c) :
    PartsMade (transactions ++ [.remove extension]) (c.withoutOwner extension).commit := by
  intro e he
  obtain ⟨he, hne⟩ := List.mem_filter.mp he
  rw [latestBatch?_concat, Transaction.batchOf?, Option.none_or]
  have hpart : (c.withoutOwner extension).commit.part e = c.part e :=
    part_withoutOwner_of_ne (Ne.symm (of_decide_eq_true hne))
  rw [hpart]
  exact hmade e he

theorem partsMade_of_replay (h : bootstrap.replay transactions = .ok c) :
    PartsMade transactions c := by
  induction h using replay_induction with
  | nil => exact List.forall_mem_nil _
  | install hbefore hcreate ih => exact ih.install (valid_of_replay hbefore) hcreate
  | remove _ _ ih => exact ih.remove

/-! ## What a removal leaves -/

/-- The catalog `rest` is `c` without an extension, and with everything else as it was. -/
structure IsRest (c : Catalog) (e : Identifier) (rest : Catalog) : Prop where
  functions : rest.functions = c.functions.filter (·.owner ≠ some e)
  operators : rest.operators = c.operators.filter (·.owner ≠ some e)
  membersOf : ∀ f, rest.membersOf f = (c.membersOf f).filter (·.owner ≠ some e)
  others : ∀ other, other ≠ e → rest.part other = c.part other
  none_left : rest.part e = .empty
  extensions : rest.extensions = c.extensions.filter (· ≠ e)
  nextOid : rest.nextOid = c.nextOid
  version : rest.version = c.version + 1

theorem isRest_withoutOwner (c : Catalog) (e : Identifier) :
    c.IsRest e (c.withoutOwner e).commit where
  functions := rfl
  operators := rfl
  membersOf f := by
    unfold Catalog.membersOf
    exact List.filter_comm _ _ _
  others _ hne := part_withoutOwner_of_ne hne.symm
  none_left := c.part_withoutOwner_self e
  extensions := rfl
  nextOid := rfl
  version := rfl

/-! ## Removing what was just installed -/

theorem Adds.tables_withoutOwner (h : Adds owner changes c p c') (hc : c.Valid)
    (hfree : owner ∉ c.extensions) : (c'.withoutOwner owner).tables = c.tables := by
  have hkeep {α : Type} (ownerOf : α → Option Identifier) (l added : List α)
      (hl : ∀ a ∈ l, ∀ e, ownerOf a = some e → e ∈ c.extensions)
      (hadded : ∀ a ∈ added, ownerOf a = some owner) :
      (l ++ added).filter (ownerOf · ≠ some owner) = l := by
    have hold : l.filter (ownerOf · ≠ some owner) = l := by
      refine List.filter_eq_self.mpr fun a ha => decide_eq_true ?_
      intro howner
      exact hfree (hl a ha owner howner)
    have hnew : added.filter (ownerOf · ≠ some owner) = [] := by
      refine List.filter_eq_nil_iff.mpr fun a ha => ?_
      simp [hadded a ha]
    rw [List.filter_append, hold, hnew, List.append_nil]
  simp only [tables, withoutOwner, h.functions, h.operators, h.members, Part.mk.injEq]
  exact ⟨hkeep _ _ _ (fun f hf e he => (hc.function_owned f hf e he).1) h.made.function_owner,
    hkeep _ _ _ (fun o ho e he => (hc.operator_owned o ho e he).1) h.made.operator_owner,
    hkeep _ _ _ hc.member_owned h.made.member_owner⟩

theorem removeExtension_of_createExtension (hc : c.Valid)
    (h : c.createExtension batch = .ok c') :
    c'.removeExtension batch.owner =
      .ok (batch.summary, { c with version := c.version + 2, nextOid := c'.nextOid }) := by
  obtain ⟨hfree, hextensions, p, hp⟩ := createExtension_adds h
  have hinstalled : batch.owner ∈ c'.extensions := by simp [hextensions]
  have hmade : (c'.part batch.owner).MadeBy batch.owner batch.changes := by
    rw [hp.part_of_eq (hc.part_eq_empty hfree)]
    exact hp.made
  have htables := hp.tables_withoutOwner hc hfree
  have hothers : c'.extensions.filter (· ≠ batch.owner) = c.extensions := by
    rw [hextensions, List.filter_append, List.filter_eq_self.mpr]
    · simp
    · intro e he
      refine decide_eq_true ?_
      rintro rfl
      exact hfree he
  refine removeExtension_ok_iff.mpr ⟨hinstalled, removalSummary_of_madeBy hmade, ?_⟩
  obtain ⟨hfunctions, hoperators, hmembers⟩ := Part.mk.inj htables
  have hversion : c'.version + 1 = c.version + 2 := by
    rw [version_of_createExtension h]
  rw [commit, Catalog.mk.injEq]
  exact ⟨hversion, rfl, hfunctions, hoperators, hmembers, hothers⟩

end Catalog

/-! ## The theorem -/

theorem Host.step_removeExtension {h : Host} {e : Identifier} {summary : RemovalSummary}
    {rest : Catalog} (hremove : h.catalog.removeExtension e = .ok (summary, rest)) :
    h.step (.removeExtension e) = (.ok (.removed summary), h.commit rest) := by
  have hremoved : h.removeExtension e = (.ok summary, h.commit rest) := by
    unfold removeExtension
    rw [hremove]
  exact congrArg (inCatalog .removed) hremoved

/-- **Uninstalling takes out what was installed.** After any run, an extension can be removed,
and the answer counts what its latest batch counts. The catalog that is committed, and left if
listeners are silent, is the one before without the extension. Where a batch can be installed,
removing it at once gives back every table as it was. -/
theorem uninstalling_takes_out_what_was_installed (actions : List Action) :
    let h := Host.bootstrap.run actions
    (∀ e ∈ h.catalog.extensions, ∃ batch rest,
      latestBatch? (Host.bootstrap.history actions) e = some batch ∧
        h.step (.removeExtension e) = (.ok (.removed batch.summary), h.commit rest) ∧
        (h.Silent → (h.step (.removeExtension e)).2.catalog = rest) ∧
        h.catalog.IsRest e rest) ∧
      ∀ batch c, h.catalog.createExtension batch = .ok c →
        c.removeExtension batch.owner = .ok (batch.summary,
          { h.catalog with version := h.catalog.version + 2, nextOid := c.nextOid }) := by
  intro h
  have hc : h.catalog.Valid := Host.run_valid actions
  refine ⟨fun e he => ?_, fun batch c => Catalog.removeExtension_of_createExtension hc⟩
  obtain ⟨batch, hlatest, rfl, hmade⟩ :=
    Catalog.partsMade_of_replay (Host.replay_history actions) e he
  have hsummary := Catalog.removalSummary_of_madeBy hmade
  have hremove := Catalog.removeExtension_ok_iff.mpr ⟨he, hsummary, rfl⟩
  have hstep := Host.step_removeExtension hremove
  refine ⟨batch, _, hlatest, hstep, fun hsilent => ?_, h.catalog.isRest_withoutOwner _⟩
  rw [hstep]
  exact hsilent.catalog_commit _

theorem uninstalling_takes_out_what_was_reinstalled :
    let x : CrossOperator := ⟨.lt, .int4, .float8, .integerFirst⟩
    let y : CrossOperator := ⟨.lt, .int8, .float8, .integerFirst⟩
    let first : Batch := ⟨Config.defaultExtension, [.createFunction (.operator x)]⟩
    let second : Batch := ⟨Config.defaultExtension,
      [.createFunction (.operator x), .createFunction (.operator y),
        .createOperator y.signature y.name]⟩
    let other : Batch := ⟨⟨"other", by decide, by decide, by decide⟩,
      [.createOperator x.signature x.name]⟩
    let actions : List Action := [.createExtension first, .createExtension other,
      .removeExtension first.owner, .createExtension second]
    ((Host.bootstrap.run actions).step (.removeExtension first.owner)).1 =
      .ok (.removed ⟨2, 1, 0⟩) := by
  intro x y first second other actions
  have hinstalled : first.owner ∈ (Host.bootstrap.run actions).catalog.extensions := by
    decide +kernel
  have hsecond : latestBatch? (Host.bootstrap.history actions) first.owner = some second := by
    decide +kernel
  obtain ⟨hall, -⟩ := uninstalling_takes_out_what_was_installed actions
  obtain ⟨batch, rest, hlatest, hstep, -⟩ := hall first.owner hinstalled
  rw [hsecond, Option.some.injEq] at hlatest
  rw [hstep, ← hlatest]
  rfl

end ExactCompare
