import ExactCompare.Proofs.Catalog.Typed
import ExactCompare.Proofs.HashJoin
import ExactCompare.Proofs.Host.History
import ExactCompare.Proofs.Plan.Families

/-!
# The lifecycle leaves no residue

What an activated manager lists depends, apart from the ids, on its equality policy only.
Nothing that was in the catalog before shows in it. Deactivation takes everything out.
-/

namespace ExactCompare

/-! ## The list -/

/-- What the list says of an operator across types, whatever ids were given out. -/
structure InstalledOperator.Describes (c : Catalog) (equality : EqualityRegistration)
    (x : CrossOperator) (entry : InstalledOperator) : Prop where
  operator : entry.operator = x
  oid : c.findOperator? x.signature = some entry.oid
  function : ∃ f ∈ c.functions, f.oid = entry.function ∧ f.name = x.name ∧
    f.argumentTypes = [x.left, x.right]
  hash : x.op = .eq → ∃ f ∈ c.functions, entry.hashFunction = some f.oid ∧
    f.name = "hash_" ++ x.integer.name ++ "_as_" ++ x.inexact.hashTarget.name ∧
    f.argumentTypes = [.integer x.integer]
  no_hash : x.op ≠ .eq → entry.hashFunction = none
  families : entry.families = x.families equality

theorem forall₂_filterMap {α β : Type} {R : α → β → Prop} {f : α → Option β} {l : List α}
    (h : ∀ a ∈ l, ∃ b, f a = some b ∧ R a b) : List.Forall₂ R l (l.filterMap f) := by
  induction l with
  | nil => exact .nil
  | cons a l ih =>
    rw [List.forall_mem_cons] at h
    obtain ⟨⟨b, hb, hR⟩, hrest⟩ := h
    rw [List.filterMap_cons_some hb]
    exact .cons hR (ih hrest)

theorem Manager.installed?_eq {m : Manager} {c : Catalog} (hc : c.Valid) {x : CrossOperator}
    {o : OperatorEntry} (ho : o ∈ c.operators) (hs : o.signature = x.signature) {function : Oid}
    (hfunction : o.function = some function) :
    m.installed? c (.ofCatalog c) x = some
      { operator := x, oid := o.oid, function
        hashFunction := if x.op = .eq then m.hashFunction? c x else none
        families := familiesOf c o.oid } := by
  have hfind := hc.findOperator? ho
  rw [hs] at hfind
  rw [installed?, Resolution.oid?_ofCatalog, hfind, Option.bind_eq_bind, Option.bind_some,
    hc.operator? ho, Option.bind_eq_bind, Option.bind_some, hfunction]
  rfl

namespace Catalog

variable {c c' : Catalog} {m : Manager} {x : CrossOperator} {transactions : List Transaction}

theorem exists_hashFunction (hc : c.Valid) (htyped : c.Typed)
    (hplan : (c.part m.extension).IsPlan m.extension m.equality) (x : CrossOperator) :
    ∃ f ∈ c.functions, m.hashFunction? c x = some f.oid ∧
      f.name = "hash_" ++ x.integer.name ++ "_as_" ++ x.inexact.hashTarget.name ∧
      f.argumentTypes = [.integer x.integer] := by
  obtain ⟨f, hf, hroutine, member, hmember, howner, hslot, hobject⟩ :=
    exists_hashSupport hplan x false
  have hkey := (htyped.routine_iff hc hf).mp hroutine
  refine ⟨f, hf, ?_, ?_, congrArg Prod.fst hkey⟩
  · rw [← hobject]
    exact m.hashFunction?_eq hc hplan hmember howner hslot
  · have hname := congrArg Prod.snd hkey
    simpa [FunctionEntry.key, Routine.key, Routine.name, HashSupport.name,
      CrossOperator.hashSupport] using hname

theorem owner_of_new_operator (hreplay : bootstrap.replay transactions = .ok c) {owner : Identifier}
    {changes : List Change} {p : Part} (hp : Adds owner changes c p c') {o : OperatorEntry}
    (ho : o ∈ p.operators) {member : FamilyMember} (hmember : member ∈ c'.members)
    (hkind : member.slot.kind = .operator) (hobject : member.object = o.oid) :
    member.owner = some owner := by
  rw [hp.members, List.mem_append] at hmember
  rcases hmember with hold | hnew
  · -- An older member holds an id that was given out before the operator's.
    have href : .operator member.object ∈ (Referrer.member member).reference? := by
      simp [Referrer.reference?, hkind]
    have hlt := oid_lt_of_mem_referrers hreplay (member_mem_referrers.mpr hold) href
    have hge := hp.oids_ge o.oid (List.mem_append_right _ (List.mem_map_of_mem ho))
    rw [← hobject] at hge
    exact absurd hlt (Nat.not_lt_of_le hge)
  · exact hp.made.member_owner member hnew

theorem describes_inventory (hreplay : bootstrap.replay transactions = .ok c)
    (hcreate : c.createExtension m.batch = .ok c') :
    List.Forall₂ (InstalledOperator.Describes c' m.equality) CrossOperator.all
      (m.inventory c' (.ofCatalog c')) := by
  have hreplay' : bootstrap.replay (transactions ++ [.install m.batch]) = .ok c' :=
    replay_concat_iff.mpr ⟨c, hreplay, hcreate⟩
  have hc := valid_of_replay hreplay
  have hc' := hc.createExtension hcreate
  have hplan := isPlan_of_createExtension hc hcreate
  obtain ⟨hfree, -, p, hp⟩ := createExtension_adds hcreate
  have hpart : c'.part m.extension = p := hp.part_of_eq (hc.part_eq_empty hfree)
  refine forall₂_filterMap fun x _ => ?_
  obtain ⟨oid, f, hf, hkey, ho⟩ := hplan.held _ (Plan.createOperator_mem_changes x)
  have hnew := ho
  rw [hpart] at hnew
  have ho' := (mem_part_operators.mp ho).1
  refine ⟨_, Manager.installed?_eq hc' ho' rfl rfl, ?_⟩
  exact {
    operator := rfl
    oid := hc'.findOperator? ho'
    function :=
      ⟨f, (mem_part_functions.mp hf).1, rfl, congrArg Prod.snd hkey, congrArg Prod.fst hkey⟩
    hash := fun hop => by
      rw [if_pos hop]
      exact exists_hashFunction hc' (typed_of_replay hreplay') hplan x
    no_hash := fun hop => if_neg hop
    families := familiesOf_eq hc' hplan ho rfl fun member hmember hkind hobject =>
      owner_of_new_operator hreplay hp hnew hmember hkind hobject }

/-! ## Taking everything out -/

variable {e : Identifier} {later : List Transaction}

theorem part_eq_empty_of_replay (h : c.replay later = .ok c') (hempty : c.part e = .empty)
    (hnone : ∀ batch, .install batch ∈ later → batch.owner ≠ e) : c'.part e = .empty := by
  induction h using replay_induction with
  | nil => exact hempty
  | @install later c₁ batch c₂ _ hcreate ih =>
    obtain ⟨-, -, p, hp⟩ := createExtension_adds hcreate
    have hne := hnone batch (List.mem_append_right _ (List.mem_singleton_self _))
    rw [hp.part_of_ne hne]
    exact ih fun batch hbatch => hnone batch (List.mem_append_left _ hbatch)
  | @remove later c₁ extension _ _ ih =>
    have hpart := ih fun batch hbatch => hnone batch (List.mem_append_left _ hbatch)
    by_cases hsame : extension = e
    · subst hsame
      exact c₁.part_withoutOwner_self extension
    · exact (part_withoutOwner_of_ne hsame).trans hpart

theorem countMembersOwnedBy_of_empty (hempty : c.part e = .empty) (f : Family) :
    c.countMembersOwnedBy f e = 0 := by
  have hmembers := List.filter_eq_nil_iff.mp (congrArg Part.members hempty)
  unfold countMembersOwnedBy
  rw [List.countP_eq_zero]
  intro member hmember
  exact hmembers member (List.mem_filter.mp hmember).1

end Catalog

namespace Host

variable {h : Host} {i : ℕ} {m : Manager} {c : Catalog} {e : Identifier}

theorem residue?_of_empty (hempty : c.part e = .empty) : residue? c e = none := by
  unfold residue?
  rw [Option.map_eq_none_iff, List.find?_eq_none]
  intro f _
  simp [Catalog.countMembersOwnedBy_of_empty hempty f]

theorem step_deactivate (hm : h.manager? i = some m) :
    h.step (.deactivate i) = inLifecycle (h.deactivate i m) := by
  obtain ⟨p, -, -, hstep⟩ := withManager_eq hm fun _ m => inLifecycle (h.deactivate i m)
  exact hstep

theorem stepHistory_deactivate (hm : h.manager? i = some m) :
    h.stepHistory (.deactivate i) = h.removeHistory m.extension := by
  rw [stepHistory, hm]
  rfl

theorem step_deactivate_of_not_installed (hm : h.manager? i = some m)
    (hnot : m.extension ∉ h.catalog.extensions) :
    h.step (.deactivate i) = (.error (.lifecycle (.notRegistered m.extension)), h) := by
  rw [step_deactivate hm]
  unfold deactivate removeExtension Catalog.removeExtension
  rw [if_neg (mt Catalog.isInstalled_iff.mp hnot)]
  rfl

theorem step_deactivate_of_empty (hm : h.manager? i = some m) {summary : RemovalSummary}
    {rest : Catalog} (hremove : h.catalog.removeExtension m.extension = .ok (summary, rest))
    (hempty : (h.commit rest).catalog.part m.extension = .empty) :
    h.step (.deactivate i) = (.ok .done, (h.commit rest).invalidate i) := by
  have hclean : residue? ((h.commit rest).invalidate i).catalog m.extension = none :=
    residue?_of_empty hempty
  rw [step_deactivate hm]
  unfold deactivate removeExtension
  rw [hremove]
  dsimp only
  rw [hclean]
  rfl

/-- What a deactivation leaves of the extension. -/
structure LeavesNothing (h : Host) (m : Manager) (result : Except HostError Answer × Host) :
    Prop where
  done_iff : result.1 = .ok .done ↔ m.extension ∈ h.catalog.extensions
  no_residue : ∀ f count, result.1 ≠ .error (.lifecycle (.residualEntries f count))
  nothing : result.2.catalog.part m.extension = .empty

theorem leavesNothing_of_not_installed (hc : h.catalog.Valid)
    (hnot : m.extension ∉ h.catalog.extensions) :
    h.LeavesNothing m (.error (.lifecycle (.notRegistered m.extension)), h) where
  done_iff := ⟨nofun, fun hinstalled => absurd hinstalled hnot⟩
  no_residue := nofun
  nothing := hc.part_eq_empty hnot

theorem leavesNothing_of_installed (hm : h.manager? i = some m)
    (hinstalled : m.extension ∈ h.catalog.extensions)
    (hnone : ∀ batch, .install batch ∈ h.removeHistory m.extension → batch.owner ≠ m.extension) :
    h.LeavesNothing m (h.step (.deactivate i)) := by
  have hremove := Catalog.removeExtension_ok_iff.mpr ⟨hinstalled, rfl, rfl⟩
  generalize hrest : (h.catalog.withoutOwner m.extension).commit = rest at hremove
  have hempty : rest.part m.extension = .empty := by
    rw [← hrest]
    exact h.catalog.part_withoutOwner_self m.extension
  have hhistory : h.removeHistory m.extension = .remove m.extension :: h.commitHistory rest := by
    rw [removeHistory, hremove]
  rw [hhistory] at hnone
  have hnothing := Catalog.part_eq_empty_of_replay (h.leads_commit rest) hempty fun batch hbatch =>
    hnone batch (List.mem_cons_of_mem _ hbatch)
  rw [step_deactivate_of_empty hm hremove hnothing]
  exact {
    done_iff := ⟨fun _ => hinstalled, fun _ => rfl⟩
    no_residue := nofun
    nothing := hnothing }

end Host

/-! ## The theorem -/

/-- **The lifecycle leaves no residue.** After any run, an activation that succeeds commits a
catalog where the manager lists every operator across types, in order, as its equality policy says.
This is its answer if listeners are silent, or leave the catalog as it was committed. A deactivation
takes out everything, if listeners are silent, or none installs the extension again meanwhile. -/
theorem lifecycle_leaves_no_residue (actions : List Action) (i : ℕ) (m : Manager)
    (hmanager : (Host.bootstrap.run actions).manager? i = some m) :
    let h := Host.bootstrap.run actions
    let activated := h.step (.activate i)
    (activated.1 = .ok .done → ∃ c entries,
      h.catalog.createExtension m.batch = .ok c ∧
        List.Forall₂ (InstalledOperator.Describes c m.equality) CrossOperator.all entries ∧
        (h.Silent ∨ activated.2.catalog = c →
          (activated.2.step (.inventory i)).1 = .ok (.inventory entries))) ∧
      ((h.Silent ∨ ∀ batch, .install batch ∈ h.stepHistory (.deactivate i) →
          batch.owner ≠ m.extension) →
        h.LeavesNothing m (h.step (.deactivate i))) := by
  intro h activated
  have hc : h.catalog.Valid := Host.run_valid actions
  refine ⟨fun hdone => ?_, fun hnone => ?_⟩
  · obtain ⟨c, hcreate, -⟩ := Host.announced_of_activate hmanager hdone
    refine ⟨c, _, hcreate, Catalog.describes_inventory (Host.replay_history actions) hcreate, ?_⟩
    intro hsettled
    have hcommit : activated = (.ok .done, h.commit c) :=
      Host.step_activate_of_ok hmanager hcreate
    have hcatalog : activated.2.catalog = c := by
      refine hsettled.elim (fun hsilent => ?_) id
      rw [hcommit]
      exact hsilent.catalog_commit c
    have hm := Host.manager?_of_activate hmanager hdone
    have hcoherent := (Host.follows_step h (.activate i)).coherent (Host.run_coherent actions)
    rw [Host.inventory_eq hcoherent hm, hcatalog]
  · rw [Host.stepHistory_deactivate hmanager] at hnone
    have hkept : ∀ batch, .install batch ∈ h.removeHistory m.extension →
        batch.owner ≠ m.extension := by
      refine hnone.elim (fun hsilent batch hbatch => ?_) id
      exact absurd hbatch (hsilent.install_not_mem_removeHistory _ _)
    by_cases hinstalled : m.extension ∈ h.catalog.extensions
    · exact Host.leavesNothing_of_installed hmanager hinstalled hkept
    · rw [Host.step_deactivate_of_not_installed hmanager hinstalled]
      exact Host.leavesNothing_of_not_installed hc hinstalled

theorem lifecycle_leaves_no_residue_at_first :
    ∃ h entries, h = Host.bootstrap.run ([.newManager .default] ++ [.activate 0]) ∧
      (h.step (.inventory 0)).1 = .ok (.inventory entries) ∧
      List.Forall₂ (InstalledOperator.Describes h.catalog .allFamilies) CrossOperator.all entries ∧
      (h.step (.deactivate 0)).1 = .ok .done ∧
      (h.step (.deactivate 0)).2.catalog.part Config.defaultExtension = .empty := by
  obtain ⟨hmanager, hactivated, -⟩ := Host.activate_first .default
  have hm := Host.manager?_of_activate hmanager hactivated
  rw [← Host.run_concat] at hm
  obtain ⟨hlists, -⟩ := lifecycle_leaves_no_residue [.newManager .default] 0 _ hmanager
  obtain ⟨-, hleaves⟩ := lifecycle_leaves_no_residue _ 0 _ hm
  obtain ⟨c, entries, hcreate, hentries, hanswer⟩ := hlists hactivated
  have hsilent : (Host.bootstrap.run [.newManager .default]).Silent := List.forall_mem_nil _
  have hcommit : Host.bootstrap.run ([.newManager .default] ++ [.activate 0]) =
      (Host.bootstrap.run [.newManager .default]).commit c := by
    rw [Host.run_concat, Host.step_activate_of_ok hmanager hcreate]
  have hsilent' : (Host.bootstrap.run ([.newManager .default] ++ [.activate 0])).Silent := by
    rw [hcommit]
    exact List.forall_mem_nil _
  have hcatalog : (Host.bootstrap.run ([.newManager .default] ++ [.activate 0])).catalog = c := by
    rw [hcommit]
    exact hsilent.catalog_commit c
  rw [← Host.run_concat] at hanswer
  -- From here on nothing may compute what the host is.
  generalize hrun : Host.bootstrap.run ([.newManager .default] ++ [.activate 0]) = h at *
  have hinstalled : (Host.firstManager .default).extension ∈ h.catalog.extensions := by
    obtain ⟨-, hextensions, -⟩ := Catalog.createExtension_adds hcreate
    rw [hcatalog, hextensions]
    exact List.mem_append_right _ (List.mem_singleton_self _)
  have hnothing := hleaves (.inl hsilent')
  rw [← hcatalog] at hentries
  exact ⟨h, entries, rfl, hanswer (.inl hsilent), hentries, hnothing.done_iff.mpr hinstalled,
    hnothing.nothing⟩

end ExactCompare
