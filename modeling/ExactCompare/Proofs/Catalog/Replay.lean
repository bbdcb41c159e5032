import ExactCompare.Proofs.Catalog.Valid
import Mathlib.Data.List.Induction

/-!
# Replaying transactions

A catalog changes by installing a batch or removing an extension. A list of such
transactions can be carried out again, and leads where it led before. Each of them is
one version.
-/

namespace ExactCompare

inductive Transaction where
  | install (batch : Batch)
  | remove (extension : Identifier)
  deriving DecidableEq

namespace Catalog

variable {c c' : Catalog} {transactions later : List Transaction}

def transact (c : Catalog) : Transaction → Except CatalogError Catalog
  | .install batch => c.createExtension batch
  | .remove extension => (c.removeExtension extension).map (·.2)

/-- Carries out transactions in order, and fails where one of them does. -/
def replay (c : Catalog) (transactions : List Transaction) : Except CatalogError Catalog :=
  transactions.foldlM transact c

theorem transact_install_iff {batch : Batch} :
    c.transact (.install batch) = .ok c' ↔ c.createExtension batch = .ok c' := Iff.rfl

theorem transact_remove_iff {extension : Identifier} :
    c.transact (.remove extension) = .ok c' ↔
      extension ∈ c.extensions ∧ (c.withoutOwner extension).commit = c' := by
  constructor
  · intro h
    simp only [transact] at h
    cases hremove : c.removeExtension extension with
    | error e =>
      rw [hremove] at h
      cases h
    | ok result =>
      rw [hremove] at h
      cases h
      obtain ⟨hinstalled, -, hcommit⟩ := removeExtension_ok_iff.mp hremove
      exact ⟨hinstalled, hcommit⟩
  · rintro ⟨hinstalled, rfl⟩
    simp only [transact]
    rw [removeExtension_ok_iff.mpr ⟨hinstalled, rfl, rfl⟩]
    rfl

theorem replay_append_iff : c.replay (transactions ++ later) = .ok c' ↔
    ∃ c₁, c.replay transactions = .ok c₁ ∧ c₁.replay later = .ok c' := by
  unfold replay
  rw [List.foldlM_append]
  cases transactions.foldlM transact c with
  | error e => simp [bind, Except.bind]
  | ok c₁ => simp [bind, Except.bind]

theorem replay_singleton (c : Catalog) (t : Transaction) : c.replay [t] = c.transact t := by
  unfold replay
  rw [List.foldlM_cons]
  cases c.transact t <;> rfl

theorem replay_concat_iff {t : Transaction} : c.replay (transactions ++ [t]) = .ok c' ↔
    ∃ c₁, c.replay transactions = .ok c₁ ∧ c₁.transact t = .ok c' := by
  simp only [replay_append_iff, replay_singleton]

theorem replay_cons_iff {t : Transaction} : c.replay (t :: transactions) = .ok c' ↔
    ∃ c₁, c.transact t = .ok c₁ ∧ c₁.replay transactions = .ok c' := by
  rw [← List.singleton_append, replay_append_iff]
  simp only [replay_singleton]

/-! ## Induction -/

/-- What holds at first, and is kept by whatever succeeds, holds of every replay. -/
@[elab_as_elim]
theorem replay_induction
    {motive : (transactions : List Transaction) → (c' : Catalog) →
      c.replay transactions = .ok c' → Prop} (nil : motive [] c rfl)
    (install : ∀ {transactions c₁ batch c₂} (h : c.replay transactions = .ok c₁)
      (hcreate : c₁.createExtension batch = .ok c₂), motive transactions c₁ h →
      motive (transactions ++ [.install batch]) c₂
        (replay_concat_iff.mpr ⟨c₁, h, transact_install_iff.mpr hcreate⟩))
    (remove : ∀ {transactions c₁ e} (h : c.replay transactions = .ok c₁)
      (he : e ∈ c₁.extensions), motive transactions c₁ h →
      motive (transactions ++ [.remove e]) (c₁.withoutOwner e).commit
        (replay_concat_iff.mpr ⟨c₁, h, transact_remove_iff.mpr ⟨he, rfl⟩⟩))
    {transactions : List Transaction} {c' : Catalog} (h : c.replay transactions = .ok c') :
    motive transactions c' h := by
  induction transactions using List.reverseRecOn generalizing c' with
  | nil =>
    obtain rfl : c = c' := Except.ok.inj h
    exact nil
  | append_singleton transactions t ih =>
    obtain ⟨c₁, hbefore, hlast⟩ := replay_concat_iff.mp h
    cases t with
    | install batch => exact install hbefore hlast (ih hbefore)
    | remove e =>
      obtain ⟨he, rfl⟩ := transact_remove_iff.mp hlast
      exact remove hbefore he (ih hbefore)

theorem steps_of_replay (h : c.replay transactions = .ok c') : Steps c c' := by
  induction h using replay_induction with
  | nil => exact .refl
  | install _ hcreate ih => exact ih.tail (.create hcreate)
  | remove _ he ih => exact ih.tail (.remove (removeExtension_ok_iff.mpr ⟨he, rfl, rfl⟩))

theorem valid_of_replay (h : bootstrap.replay transactions = .ok c) : c.Valid :=
  Steps.valid (steps_of_replay h) bootstrap_valid

/-! ## Versions and extensions -/

theorem Applies.version_eq {owner : Identifier} {change : Change} (h : Applies c owner change c') :
    c'.version = c.version := by
  cases h <;> rfl

theorem AppliesAll.version_eq {owner : Identifier} {changes : List Change}
    (h : AppliesAll owner c changes c') : c'.version = c.version := by
  induction h with
  | nil => rfl
  | cons hfirst _ ih => rw [ih, hfirst.version_eq]

theorem version_of_createExtension {batch : Batch} (h : c.createExtension batch = .ok c') :
    c'.version = c.version + 1 := by
  obtain ⟨-, c₁, hall, rfl⟩ := createExtension_ok_iff.mp h
  exact congrArg (· + 1) hall.version_eq

theorem extensions_of_createExtension {batch : Batch} (h : c.createExtension batch = .ok c') :
    c'.extensions = c.extensions ++ [batch.owner] := by
  obtain ⟨-, c₁, hall, rfl⟩ := createExtension_ok_iff.mp h
  exact hall.extensions_eq

theorem version_of_transact {t : Transaction} (h : c.transact t = .ok c') :
    c'.version = c.version + 1 := by
  cases t with
  | install batch => exact version_of_createExtension h
  | remove extension =>
    obtain ⟨-, rfl⟩ := transact_remove_iff.mp h
    rfl

theorem version_of_replay (h : c.replay transactions = .ok c') :
    c'.version = c.version + transactions.length := by
  induction transactions generalizing c with
  | nil =>
    obtain rfl : c = c' := Except.ok.inj h
    rfl
  | cons t transactions ih =>
    obtain ⟨c₁, hfirst, hrest⟩ := replay_cons_iff.mp h
    rw [ih hrest, version_of_transact hfirst, List.length_cons]
    omega

theorem extensions_of_replay {batches : List Batch}
    (h : c.replay (batches.map .install) = .ok c') :
    c'.extensions = c.extensions ++ batches.map (·.owner) := by
  induction batches generalizing c with
  | nil =>
    obtain rfl : c = c' := Except.ok.inj h
    exact (List.append_nil _).symm
  | cons batch batches ih =>
    rw [List.map_cons] at h
    obtain ⟨c₁, hfirst, hrest⟩ := replay_cons_iff.mp h
    have hextensions := extensions_of_createExtension (transact_install_iff.mp hfirst)
    rw [ih hrest, hextensions, List.append_assoc, List.map_cons, List.singleton_append]

end Catalog

end ExactCompare
