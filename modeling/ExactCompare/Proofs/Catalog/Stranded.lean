import ExactCompare.Proofs.Catalog.Held
import ExactCompare.Proofs.Catalog.References
import ExactCompare.Proofs.Catalog.Replay

/-!
# Stranded references

Removing an extension takes out what it owns, whatever refers to it. A reference is to nothing
exactly if one of the transactions removed the owner of its target and left the referrer.
-/

namespace ExactCompare

namespace Catalog

variable {c c' : Catalog} {e : Identifier} {r : Referrer} {ref : Reference} {x : Entry}
  {transactions later : List Transaction}

/-! ## What breaks a reference -/

/-- The extension owns what the reference is to, and not the referrer. -/
def Strands (c : Catalog) (e : Identifier) (r : Referrer) (ref : Reference) : Prop :=
  (r ∈ c.referrers ∧ r.owner ≠ some e) ∧ ∃ x ∈ c.entries, x.reference = ref ∧ x.owner = some e

/-- One of the transactions removed an extension that strands the reference. -/
def Stranded (transactions : List Transaction) (r : Referrer) (ref : Reference) : Prop :=
  ∃ earlier e later c, transactions = earlier ++ .remove e :: later ∧
    bootstrap.replay earlier = .ok c ∧ c.Strands e r ref

theorem Stranded.append (h : Stranded transactions r ref) (later : List Transaction) :
    Stranded (transactions ++ later) r ref := by
  obtain ⟨earlier, e, between, c, rfl, hreplay, hstrands⟩ := h
  exact ⟨earlier, e, between ++ later, c, by simp, hreplay, hstrands⟩

/-! ## References over time -/

/-- What is referred to is there, or the history says who took it away. -/
def Accounted (transactions : List Transaction) (c : Catalog) : Prop :=
  ∀ r ∈ c.referrers, ∀ ref ∈ r.reference?, c.Resolves ref ∨ Stranded transactions r ref

theorem Accounted.install {batch : Batch} (h : Accounted transactions c)
    (hcreate : c.createExtension batch = .ok c') :
    Accounted (transactions ++ [.install batch]) c' := by
  intro r hr ref href
  rcases mem_referrers_of_createExtension hcreate hr with hold | hnew
  · obtain ⟨-, -, p, hp⟩ := createExtension_adds hcreate
    exact (h r hold ref href).imp hp.resolves (·.append _)
  · exact .inl (hnew ref href)

theorem Accounted.remove (h : Accounted transactions c)
    (hreplay : bootstrap.replay transactions = .ok c) :
    Accounted (transactions ++ [.remove e]) (c.withoutOwner e).commit := by
  intro r hr ref href
  have hr := mem_referrers_withoutOwner.mp hr
  rcases h r hr.1 ref href with ⟨x, hx, hreference⟩ | hstranded
  · by_cases howner : x.owner = some e
    · exact .inr ⟨transactions, e, [], c, rfl, hreplay, hr, x, hx, hreference, howner⟩
    · exact .inl ⟨x, mem_entries_withoutOwner.mpr ⟨hx, howner⟩, hreference⟩
  · exact .inr (hstranded.append _)

theorem accounted_of_replay (h : bootstrap.replay transactions = .ok c) :
    Accounted transactions c := by
  induction h using replay_induction with
  | nil => exact fun r hr ref href => .inl (bootstrap_integral r hr ref href)
  | install _ hcreate ih => exact ih.install hcreate
  | remove hbefore _ ih => exact ih.remove hbefore

/-! ## What is stranded stays so -/

theorem oid_mem_part (hx : x ∈ c.entries) (howner : x.owner = some e) :
    x.oid ∈ (c.part e).oids := by
  cases x with
  | function f =>
    have hf := mem_part_functions.mpr ⟨function_mem_entries.mp hx, howner⟩
    exact List.mem_append_left _ (List.mem_map_of_mem hf)
  | operator o =>
    have ho := mem_part_operators.mpr ⟨operator_mem_entries.mp hx, howner⟩
    exact List.mem_append_right _ (List.mem_map_of_mem ho)

theorem Stranded.dead (h : Stranded transactions r ref)
    (hreplay : bootstrap.replay transactions = .ok c) : c.Dead ref.oid := by
  obtain ⟨earlier, e, later, c₀, rfl, hearlier, -, x, hx, rfl, howner⟩ := h
  obtain ⟨c₀', hearlier', hrest⟩ := replay_append_iff.mp hreplay
  obtain rfl : c₀ = c₀' := Except.ok.inj (hearlier.symm.trans hearlier')
  obtain ⟨c₁, hremove, hlater⟩ := replay_cons_iff.mp hrest
  obtain ⟨-, rfl⟩ := transact_remove_iff.mp hremove
  rw [Entry.oid_reference]
  have hdead := (valid_of_replay hearlier).dead_withoutOwner (oid_mem_part hx howner)
  exact Steps.dead (steps_of_replay hlater) hdead

theorem oid_lt_of_mem_referrers (hreplay : bootstrap.replay transactions = .ok c)
    (hr : r ∈ c.referrers) (href : ref ∈ r.reference?) :
    ref.oid.number < c.nextOid.number := by
  rcases accounted_of_replay hreplay r hr ref href with hresolves | hstranded
  · exact (valid_of_replay hreplay).oid_lt_of_resolves hresolves
  · exact (hstranded.dead hreplay).1

end Catalog

end ExactCompare
