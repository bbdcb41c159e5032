import ExactCompare.Proofs.Catalog.Ids
import ExactCompare.Proofs.Planning

/-!
# Ids are given out once

Whatever is done to a host, the id of an object that was removed stays dead, and no two
objects that are created get the same id. Ids are natural numbers, so there is always a
next one.
-/

namespace ExactCompare

/-! ## Planning with a dead id -/

section Process

variable {c : Catalog} {p : Process} {clause : Clause} {oid : Oid}

theorem Catalog.Dead.resolve (hdead : c.Dead oid) :
    (Resolution.ofCatalog c).operator? oid = none := by
  rw [Resolution.operator?, Option.map_eq_none_iff, List.find?_eq_none]
  rintro ⟨x, oid'⟩ hentry hoid
  obtain ⟨o, ho, -, hfound⟩ := exists_of_findOperator? (Resolution.mem_ofCatalog_iff.mp hentry)
  refine hdead.2 ?_
  rw [← of_decide_eq_true hoid, ← hfound]
  exact List.mem_append_right _ (List.mem_map_of_mem ho)

theorem Process.plan_of_dead (hp : p.Coherent c) (hmanager : p.manager.isSome)
    (hdead : c.Dead clause.operator) : (p.plan c clause).1 = .ok .unchanged := by
  unfold plan
  split
  · rw [hp.resolution_eq hmanager, hdead.resolve]
  · rfl

end Process

namespace Host

variable {h : Host} {oid : Oid}

/-- No object has the id, a call with it finds nothing, and no manager plans with it. -/
structure Unusable (h : Host) (oid : Oid) : Prop where
  absent : ∀ x ∈ h.catalog.entries, x.oid ≠ oid
  function : ∀ arguments,
    h.catalog.invokeFunction oid arguments = .error (.unknownFunctionOid oid)
  operator : ∀ left right,
    h.catalog.invokeOperator oid left right = .error (.unknownOperatorOid oid)
  plan : ∀ i clause, (h.manager? i).isSome → clause.operator = oid →
    (h.step (.plan i clause)).1 = .ok (.planned .unchanged)

theorem unusable_of_dead (hcoherent : h.Coherent) (hdead : h.catalog.Dead oid) :
    h.Unusable oid where
  absent x hx hoid := hdead.2 (hoid ▸ Catalog.oid_mem_oids hx)
  function := hdead.invokeFunction
  operator := hdead.invokeOperator
  plan i clause hmanager hclause := by
    obtain ⟨m, hm⟩ := Option.isSome_iff_exists.mp hmanager
    obtain ⟨p, hp, hpm⟩ := exists_process hm
    rw [step_plan_iff hp]
    exact Process.plan_of_dead (hcoherent p (List.mem_of_getElem? hp)) (hpm ▸ rfl) (hclause ▸ hdead)

/-! ## What a run creates -/

/-- The entries that an action brings into the catalog. -/
def newEntries (h h' : Host) : List Entry :=
  h'.catalog.entries.filter (· ∉ h.catalog.entries)

/-- The ids of all functions and operators that a list of actions creates, one after the other. -/
def createdIds (h : Host) : List Action → List Oid
  | [] => []
  | a :: actions =>
    let h' := (h.step a).2
    (newEntries h h').map (·.oid) ++ h'.createdIds actions

theorem oid_of_mem_newEntries {h' : Host} (hissues : h.catalog.Issues h'.catalog) {x : Entry}
    (hx : x ∈ newEntries h h') :
    x ∈ h'.catalog.entries ∧ h.catalog.nextOid.number ≤ x.oid.number := by
  obtain ⟨hx, hnew⟩ := List.mem_filter.mp hx
  exact ⟨hx, (hissues.entries x hx).resolve_left (of_decide_eq_true hnew)⟩

theorem nextOid_le_of_mem_createdIds {actions : List Action} (h : Host)
    (hoid : oid ∈ h.createdIds actions) : h.catalog.nextOid.number ≤ oid.number := by
  induction actions generalizing h with
  | nil => cases hoid
  | cons a actions ih =>
    have hissues := Catalog.Steps.issues (h.follows_step a).steps
    rcases List.mem_append.mp hoid with hnew | hlater
    · obtain ⟨x, hx, rfl⟩ := List.mem_map.mp hnew
      exact (oid_of_mem_newEntries hissues hx).2
    · exact Nat.le_trans hissues.nextOid_le (ih _ hlater)

/-- What an action creates is below the counter, and what comes later is not. -/
theorem nodup_createdIds (actions : List Action) (hc : h.catalog.Valid) :
    (h.createdIds actions).Nodup := by
  induction actions generalizing h with
  | nil => exact List.nodup_nil
  | cons a actions ih =>
    have hsteps := (h.follows_step a).steps
    have hc' := Catalog.Steps.valid hsteps hc
    refine List.Nodup.append ?_ (ih hc') ?_
    · have hsub := List.filter_sublist (p := (· ∉ h.catalog.entries))
        (l := (h.step a).2.catalog.entries)
      refine List.Nodup.sublist (hsub.map (·.oid)) ?_
      rw [Catalog.map_oid_entries]
      exact hc'.oids
    · intro oid hnew hlater
      obtain ⟨x, hx, rfl⟩ := List.mem_map.mp hnew
      have hx := (oid_of_mem_newEntries (Catalog.Steps.issues hsteps) hx).1
      have hlt := hc'.oids_lt x.oid (Catalog.oid_mem_oids hx)
      exact Nat.not_lt_of_le (nextOid_le_of_mem_createdIds _ hlater) hlt

end Host

/-! ## The theorem -/

/-- **Ids are given out once.** All functions and operators that a run creates have different
ids. And where an object was in the catalog at one point of the run and is not at a later one,
its id is unusable from there on. -/
theorem ids_are_given_out_once (actions : List Action) :
    (Host.bootstrap.createdIds actions).Nodup ∧
      ∀ before between after : List Action, actions = before ++ between ++ after →
        ∀ x ∈ (Host.bootstrap.run before).catalog.entries,
          x ∉ (Host.bootstrap.run (before ++ between)).catalog.entries →
            (Host.bootstrap.run actions).Unusable x.oid := by
  refine ⟨Host.nodup_createdIds actions Catalog.bootstrap_valid, ?_⟩
  rintro before between after rfl x hx hremoved
  refine Host.unusable_of_dead (Host.run_coherent _) ?_
  rw [Host.run_append] at hremoved
  rw [Host.run_append, Host.run_append]
  have hdead := Catalog.Steps.dead_of_removed (Host.follows_run _ between).steps
    (Host.run_valid before) hx hremoved
  exact Catalog.Steps.dead (Host.follows_run _ after).steps hdead

theorem ids_are_given_out_once_after_reinstall :
    let x : CrossOperator := ⟨.lt, .int4, .float8, .integerFirst⟩
    let batch : Batch :=
      ⟨Config.defaultExtension, [.createFunction (.operator x), .createOperator x.signature x.name]⟩
    let before : List Action := [.newManager .default, .createExtension batch]
    let between : List Action := [.removeExtension batch.owner]
    let after : List Action := [.createExtension batch]
    let h := Host.bootstrap.run (before ++ between ++ after)
    (Host.bootstrap.run before).catalog.findOperator? x.signature = some ⟨16385⟩ ∧
      h.catalog.findOperator? x.signature = some ⟨16387⟩ ∧ h.Unusable ⟨16385⟩ := by
  intro x batch before between after h
  let first : OperatorEntry := ⟨⟨16385⟩, x.signature, some ⟨16384⟩, some batch.owner⟩
  have hfound : (Host.bootstrap.run before).catalog.findOperator? x.signature = some first.oid := by
    decide +kernel
  have hnew : h.catalog.findOperator? x.signature = some ⟨16387⟩ := by decide +kernel
  have hcreated : .operator first ∈ (Host.bootstrap.run before).catalog.entries := by
    decide +kernel
  have hremoved : .operator first ∉ (Host.bootstrap.run (before ++ between)).catalog.entries := by
    decide +kernel
  have honce := (ids_are_given_out_once (before ++ between ++ after)).2
  exact ⟨hfound, hnew, honce before between after rfl _ hcreated hremoved⟩

end ExactCompare
