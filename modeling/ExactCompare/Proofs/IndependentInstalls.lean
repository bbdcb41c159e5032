import ExactCompare.Proofs.Catalog.Rows
import ExactCompare.Proofs.Host.History

/-!
# Independent installs commute

An install adds the rows of its batch, and these are the same whatever was installed before. So
batches that can be installed in two orders lead to the same rows, under different ids.
-/

namespace ExactCompare

/-- The catalogs differ in nothing but ids and the order in their tables. -/
structure Catalog.Agrees (c d : Catalog) : Prop where
  rows : c.rows.Perm d.rows
  extensions : c.extensions.Perm d.extensions
  version : c.version = d.version

def Batch.rows (b : Batch) : List Row := b.changes.map (·.row b.owner)

namespace Catalog

variable {c c' c₁ c₂ : Catalog} {batch : Batch} {batches batches' : List Batch}

/-! ## What installs add -/

theorem Grounded.rows_of_createExtension (hc : c.Grounded)
    (h : c.createExtension batch = .ok c') :
    c'.Grounded ∧ c'.rows.Perm (batch.rows ++ c.rows) := by
  obtain ⟨hfree, c₁, hall, rfl⟩ := createExtension_ok_iff.mp h
  have howner : batch.owner ∈ (c.withExtension batch.owner).extensions :=
    List.mem_append_right _ (List.mem_singleton_self _)
  obtain ⟨hgrounded, hrows⟩ := hall.rows_perm howner (hc.withExtension hfree)
  exact ⟨hgrounded.commit, hrows⟩

theorem Grounded.rows_of_replay (hc : c.Grounded)
    (h : c.replay (batches.map .install) = .ok c') :
    c'.rows.Perm (batches.flatMap (·.rows) ++ c.rows) := by
  induction batches generalizing c with
  | nil =>
    obtain rfl : c = c' := Except.ok.inj h
    exact .refl _
  | cons batch batches ih =>
    obtain ⟨c₁, hfirst, hrest⟩ := replay_cons_iff.mp h
    obtain ⟨hgrounded, hrows⟩ := hc.rows_of_createExtension (transact_install_iff.mp hfirst)
    rw [List.flatMap_cons, List.append_assoc]
    refine (ih hgrounded hrest).trans ((hrows.append_left _).trans ?_)
    exact List.perm_append_comm_assoc _ _ _

/-- **The order of installs makes no difference**, as long as all of them succeed. -/
theorem Grounded.agrees_of_perm (hc : c.Grounded) (hperm : batches.Perm batches')
    (h₁ : c.replay (batches.map .install) = .ok c₁)
    (h₂ : c.replay (batches'.map .install) = .ok c₂) : c₁.Agrees c₂ where
  rows := by
    have hrows := (hperm.flatMap_right (·.rows)).append_right c.rows
    exact (hc.rows_of_replay h₁).trans (hrows.trans (hc.rows_of_replay h₂).symm)
  extensions := by
    rw [extensions_of_replay h₁, extensions_of_replay h₂]
    exact (hperm.map _).append_left _
  version := by
    rw [version_of_replay h₁, version_of_replay h₂, List.length_map, List.length_map,
      hperm.length_eq]

theorem replay_pair {x y : Batch} (hx : c.createExtension x = .ok c₁)
    (hy : c₁.createExtension y = .ok c₂) : c.replay ([x, y].map .install) = .ok c₂ :=
  replay_cons_iff.mpr ⟨c₁, hx, (c₁.replay_singleton _).trans hy⟩

end Catalog

/-! ## The theorem -/

/-- **Independent installs commute.** After any run, where two batches can be installed in either
order, both orders lead to the same functions, operators and members up to their ids, the same
extensions and the same version. The rows are those of both batches and those that were there. -/
theorem independent_installs_commute (actions : List Action) {x y : Batch}
    {c₁ c₁₂ c₂ c₂₁ : Catalog}
    (hx : (Host.bootstrap.run actions).catalog.createExtension x = .ok c₁)
    (hxy : c₁.createExtension y = .ok c₁₂)
    (hy : (Host.bootstrap.run actions).catalog.createExtension y = .ok c₂)
    (hyx : c₂.createExtension x = .ok c₂₁) :
    c₁₂.Agrees c₂₁ ∧
      c₁₂.rows.Perm (x.rows ++ y.rows ++ (Host.bootstrap.run actions).catalog.rows) := by
  have hbase := Catalog.grounded_of_replay (Host.replay_history actions)
  have h₁₂ := Catalog.replay_pair hx hxy
  have h₂₁ := Catalog.replay_pair hy hyx
  refine ⟨hbase.agrees_of_perm (.swap y x []) h₁₂ h₂₁, ?_⟩
  have hrows := hbase.rows_of_replay h₁₂
  rwa [List.flatMap_cons, List.flatMap_singleton] at hrows

theorem independent_installs_commute_under_other_ids :
    let less : CrossOperator := ⟨.lt, .int4, .numeric, .integerFirst⟩
    let greater : CrossOperator := ⟨.gt, .int4, .numeric, .integerFirst⟩
    let x : Batch := ⟨⟨"first", by decide, by decide, by decide⟩,
      [.createFunction (.operator less), .createOperator less.signature less.name]⟩
    let y : Batch := ⟨⟨"second", by decide, by decide, by decide⟩,
      [.createFunction (.operator greater),
        .addSupport ⟨.btree, .integer⟩ 1 (.integer .int4) (.inexact .numeric) "btint4cmp"
          [.integer .int4, .integer .int4]]⟩
    let install (b b' : Batch) := Catalog.bootstrap.replay ([b, b'].map .install)
    ∃ c₁₂ c₂₁, install x y = .ok c₁₂ ∧ install y x = .ok c₂₁ ∧ c₁₂ ≠ c₂₁ ∧ c₁₂.Agrees c₂₁ ∧
      c₁₂.rows.Perm (x.rows ++ y.rows ++ Catalog.bootstrap.rows) := by
  intro less greater x y install
  have hne : install x y ≠ install y x := by decide +kernel
  have hok₁₂ : (install x y).toBool = true := by decide +kernel
  have hok₂₁ : (install y x).toBool = true := by decide +kernel
  cases h₁₂ : install x y with
  | error e => simp [h₁₂, Except.toBool] at hok₁₂
  | ok c₁₂ =>
    cases h₂₁ : install y x with
    | error e => simp [h₂₁, Except.toBool] at hok₂₁
    | ok c₂₁ =>
      obtain ⟨c₁, hx, hxy⟩ := Catalog.replay_cons_iff.mp h₁₂
      obtain ⟨c₂, hy, hyx⟩ := Catalog.replay_cons_iff.mp h₂₁
      rw [List.map_singleton, Catalog.replay_singleton] at hxy hyx
      refine ⟨c₁₂, c₂₁, rfl, rfl, ?_, independent_installs_commute [] hx hxy hy hyx⟩
      rintro rfl
      exact hne (h₁₂.trans h₂₁.symm)

end ExactCompare
