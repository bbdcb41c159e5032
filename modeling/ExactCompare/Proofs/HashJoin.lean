import ExactCompare.Proofs.Hash.Equal
import ExactCompare.Proofs.Host.Activation
import ExactCompare.Proofs.Operators

/-!
# Hash joins keep every match

The inventory of an activated manager has a hash for the integer side of every `=`, and
operands that the operator finds equal have the same hash on both sides.
-/

namespace ExactCompare

/-! ## Equal operands -/

theorem ExactValue.eq_of_satisfies {x y : ExactValue} (h : Satisfies .eq x y) : x = y := by
  cases x <;> cases y
  · exact congrArg number h
  all_goals cases h

theorem CrossOperator.exactValue_of_evaluate {x : CrossOperator} (hop : x.op = .eq) {n : Int}
    (hn : x.integer.contains n = true) {v : Inexact} (hv : v.type = x.inexact)
    (h : x.evaluate (x.order.arrange (.integer x.integer n hn) (.inexact v)).1
      (x.order.arrange (.integer x.integer n hn) (.inexact v)).2 = .ok true) :
    v.exactValue = .ofRat n := by
  rw [x.evaluate_arrange n hn hv, Except.ok.injEq, x.holds_iff hn, hop] at h
  have heq := ExactValue.eq_of_satisfies h
  cases hx : x.order with
  | integerFirst => rw [hx] at heq; exact heq.symm
  | inexactFirst => rw [hx] at heq; exact heq

/-! ## Hash supports -/

namespace HashSupport

theorem integerAt_eq (s : HashSupport) (position : ℕ) (t : IntegerType) {n : Int}
    (hn : t.contains n = true) : s.integerAt position t (.integer t n hn) = .ok n := if_pos rfl

theorem invoke_hash {s : HashSupport} (hs : s.extended = false) {n : Int}
    (hn : s.integer.contains n = true) :
    (Routine.hash s).invoke [.integer s.integer n hn] =
      .ok (.hash32 (Hash.integer n s.target)) := by
  simp [Routine.invoke, Routine.argumentTypes, argumentTypes, hs, hash, integerAt_eq, bind,
    Except.bind, pure, Except.pure, Functor.map, Except.map]

theorem invoke_hashExtended {s : HashSupport} (hs : s.extended = true) {n seed : Int}
    (hn : s.integer.contains n = true) (hseed : IntegerType.int8.contains seed = true) :
    (Routine.hash s).invoke [.integer s.integer n hn, .integer .int8 seed hseed] =
      .ok (.hash64 (Hash.integerExtended n s.target (Hash.word64 seed))) := by
  simp [Routine.invoke, Routine.argumentTypes, argumentTypes, hs, hashExtended, integerAt_eq, bind,
    Except.bind, pure, Except.pure, Functor.map, Except.map]

end HashSupport

theorem Catalog.Valid.invokeFunction_hash {c : Catalog} (hc : c.Valid) {f : FunctionEntry}
    (hf : f ∈ c.functions) {s : HashSupport} (hroutine : f.routine = some (.hash s))
    (hs : s.extended = false) {n : Int} (hn : s.integer.contains n = true) :
    c.invokeFunction f.oid [.integer s.integer n hn] = .ok (.hash32 (Hash.integer n s.target)) := by
  rw [hc.invokeFunction hf hroutine, HashSupport.invoke_hash hs hn]
  rfl

theorem Catalog.Valid.invokeFunction_hashExtended {c : Catalog} (hc : c.Valid) {f : FunctionEntry}
    (hf : f ∈ c.functions) {s : HashSupport} (hroutine : f.routine = some (.hash s))
    (hs : s.extended = true) {n seed : Int} (hn : s.integer.contains n = true)
    (hseed : IntegerType.int8.contains seed = true) :
    c.invokeFunction f.oid [.integer s.integer n hn, .integer .int8 seed hseed] =
      .ok (.hash64 (Hash.integerExtended n s.target (Hash.word64 seed))) := by
  rw [hc.invokeFunction hf hroutine, HashSupport.invoke_hashExtended hs hn hseed]
  rfl

theorem FamilyName.ofInexact_hashTarget (x : InexactType) : ofInexact x.hashTarget = ofInexact x := by
  cases x <;> rfl

theorem InexactType.hashTarget_ne (x : InexactType) : x.hashTarget ≠ .float4 := by
  cases x <;> decide

/-! ## The manager's own supports -/

section Supports

variable {c : Catalog} {e : Identifier} {equality : EqualityRegistration}

/-- The support of an operator's integer side, for the type that its other side hashes as. -/
def CrossOperator.hashSupport (x : CrossOperator) (extended : Bool) : HashSupport :=
  ⟨x.integer, x.inexact.hashTarget, extended⟩

theorem Catalog.exists_hashSupport (hplan : (c.part e).IsPlan e equality) (x : CrossOperator)
    (extended : Bool) :
    ∃ f ∈ c.functions, f.routine = some (.hash (x.hashSupport extended)) ∧
      ∃ m ∈ c.membersOf ⟨.hash, .ofInexact x.inexact⟩, m.owner = some e ∧
        m.slot = ⟨.support, (x.hashSupport extended).number, .integer x.integer,
          .integer x.integer⟩ ∧ m.object = f.oid := by
  obtain ⟨f, hf, hroutine, m, hm, hplace, hobject⟩ :=
    hplan.hashSupport (s := x.hashSupport extended) x.inexact.hashTarget_ne
  obtain ⟨hfamily, hslot⟩ := Prod.mk.inj hplace
  obtain ⟨hm, howner⟩ := mem_part_members.mp hm
  refine ⟨f, (mem_part_functions.mp hf).1, hroutine, m, ?_, howner, hslot, hobject⟩
  rw [membersOf, List.mem_filter]
  refine ⟨hm, decide_eq_true ?_⟩
  rw [hfamily, CrossOperator.hashSupport, FamilyName.ofInexact_hashTarget]

theorem Manager.hashFunction?_eq {m : Manager} (hc : c.Valid)
    (hplan : (c.part m.extension).IsPlan m.extension equality) {x : CrossOperator}
    {member : FamilyMember} (hmember : member ∈ c.membersOf ⟨.hash, .ofInexact x.inexact⟩)
    (howner : member.owner = some m.extension)
    (hslot : member.slot = ⟨.support, 1, .integer x.integer, .integer x.integer⟩) :
    m.hashFunction? c x = some member.object := by
  unfold hashFunction?
  rw [find?_eq_some_of_unique hmember]
  · rfl
  · simp [hslot, howner]
  · intro other hother hkey
    obtain ⟨hkind, hnumber, hleft, hown⟩ := of_decide_eq_true hkey
    obtain ⟨hother, hfamily'⟩ := List.mem_filter.mp hother
    obtain ⟨hmember, hfamily⟩ := List.mem_filter.mp hmember
    have hfamily' := of_decide_eq_true hfamily'
    obtain ⟨s, -, hplace⟩ := hplan.exists_hashSupport
      (Catalog.mem_part_members.mpr ⟨hother, hown⟩) (congrArg (·.method) hfamily') hkind
    have hslot' := (Prod.mk.inj hplace).2
    rw [hslot'] at hnumber hleft
    -- A support has the same type on both sides, so the whole slot is the same.
    dsimp only at hnumber hleft
    rw [hnumber, hleft] at hslot'
    refine List.inj_on_of_nodup_map hc.places hother hmember (Prod.ext ?_ ?_)
    · exact hfamily'.trans (of_decide_eq_true hfamily).symm
    · exact hslot'.trans hslot.symm

end Supports

/-! ## The inventory -/

theorem Manager.mem_inventory {m : Manager} {c : Catalog} {entry : InstalledOperator}
    (h : entry ∈ m.inventory c (.ofCatalog c)) :
    c.findOperator? entry.operator.signature = some entry.oid ∧
      (entry.operator.op = .eq → entry.hashFunction = m.hashFunction? c entry.operator) := by
  obtain ⟨x, -, hx⟩ := List.mem_filterMap.mp h
  unfold installed? at hx
  simp only [Option.bind_eq_bind, Option.bind_eq_some_iff, Resolution.oid?_ofCatalog] at hx
  obtain ⟨oid, hfind, o, -, function, -, hentry⟩ := hx
  cases hentry
  exact ⟨hfind, fun hop => if_pos hop⟩

theorem Manager.exists_mem_inventory {m : Manager} {c : Catalog} {e : Identifier}
    {equality : EqualityRegistration} (hc : c.Valid) (hplan : (c.part e).IsPlan e equality)
    (x : CrossOperator) : ∃ entry ∈ m.inventory c (.ofCatalog c), entry.operator = x := by
  obtain ⟨oid, f, -, -, ho⟩ := hplan.operator x
  have ho := (Catalog.mem_part_operators.mp ho).1
  have hfind := hc.findOperator? ho
  have hentry := hc.operator? ho
  dsimp only at hfind hentry
  have hinstalled : ∃ entry, m.installed? c (.ofCatalog c) x = some entry ∧ entry.operator = x := by
    rw [installed?, Resolution.oid?_ofCatalog, hfind, Option.bind_eq_bind, Option.bind_some, hentry]
    exact ⟨_, rfl, rfl⟩
  obtain ⟨entry, hentry, hx⟩ := hinstalled
  exact ⟨entry, List.mem_filterMap.mpr ⟨x, x.mem_all, hentry⟩, hx⟩

theorem Host.inventory_eq {h : Host} {i : ℕ} {m : Manager} (hcoherent : h.Coherent)
    (hm : h.manager? i = some m) :
    (h.step (.inventory i)).1 = .ok (.inventory (m.inventory h.catalog (.ofCatalog h.catalog))) := by
  obtain ⟨p, hp, hpm, hstep⟩ := withManager_eq hm fun _ m =>
    h.askCache i fun _ r => .inventory (m.inventory h.catalog r)
  have hresolution := (hcoherent p (List.mem_of_getElem? hp)).resolution_eq (hpm ▸ rfl)
  rw [step, hstep]
  simp only [askCache, withProcess, hp, hresolution]

theorem Host.exists_entry_of_activate {before : List Action} {i : ℕ} {m : Manager}
    {entries : List InstalledOperator}
    (hmanager : (bootstrap.run before).manager? i = some m)
    (hactivated : ((bootstrap.run before).step (.activate i)).1 = .ok .done)
    (hentries : ((bootstrap.run (before ++ [.activate i])).step (.inventory i)).1 =
      .ok (.inventory entries)) (x : CrossOperator) :
    ∃ entry ∈ entries, entry.operator = x ∧ ∀ left right,
      (bootstrap.run (before ++ [.activate i])).catalog.invokeOperator entry.oid left right =
        (x.evaluate left right).mapError .evaluation := by
  have hc := run_valid (before ++ [.activate i])
  have hm := manager?_of_activate hmanager hactivated
  obtain ⟨-, hplan⟩ := isPlan_run hmanager hactivated
  rw [← run_concat] at hm
  rw [inventory_eq (run_coherent _) hm, Except.ok.injEq, Answer.inventory.injEq] at hentries
  obtain ⟨entry, hentry, rfl⟩ := m.exists_mem_inventory hc hplan x
  obtain ⟨hfind, -⟩ := Manager.mem_inventory hentry
  exact ⟨entry, hentries ▸ hentry, rfl, Catalog.invokeOperator_of_isPlan hc hplan hfind⟩

/-! ## The theorem -/

theorem Catalog.hash_of_invokeOperator {c : Catalog} {e : Identifier}
    {equality : EqualityRegistration} (hc : c.Valid) (hplan : (c.part e).IsPlan e equality)
    {x : CrossOperator} (hop : x.op = .eq) {oid : Oid}
    (hfind : c.findOperator? x.signature = some oid) {n : Int}
    (hn : x.integer.contains n = true) {v : Inexact} (hv : v.type = x.inexact)
    (hequal : c.invokeOperator oid (x.order.arrange (.integer x.integer n hn) (.inexact v)).1
      (x.order.arrange (.integer x.integer n hn) (.inexact v)).2 = .ok true) :
    Hash.integer n x.inexact.hashTarget = v.hash ∧
      ∀ seed, Hash.integerExtended n x.inexact.hashTarget seed = v.hashExtended seed := by
  rw [invokeOperator_of_isPlan hc hplan hfind, x.evaluate_arrange n hn hv] at hequal
  have hanswer : x.evaluate (x.order.arrange (.integer x.integer n hn) (.inexact v)).1
      (x.order.arrange (.integer x.integer n hn) (.inexact v)).2 = .ok true := by
    rw [x.evaluate_arrange n hn hv]
    simpa [Except.mapError] using hequal
  have hexact := x.exactValue_of_evaluate hop hn hv hanswer
  rw [← hv]
  exact ⟨v.hash_of_exactValue hn hexact, v.hashExtended_of_exactValue hn hexact⟩

/-- **Hash joins keep every match.** After a run that ends with the activation of a
manager, its inventory has for every `=` a hash of the integer side, and the same family
has the extended hash. For operands that the operator finds equal, they give the hash of
the other side, with every seed. -/
theorem hash_join_keeps_matches (before : List Action) (i : ℕ) (m : Manager)
    (hmanager : (Host.bootstrap.run before).manager? i = some m)
    (hactivated : ((Host.bootstrap.run before).step (.activate i)).1 = .ok .done) :
    let h := Host.bootstrap.run (before ++ [.activate i])
    ∃ entries, (h.step (.inventory i)).1 = .ok (.inventory entries) ∧
      ∀ entry ∈ entries, entry.operator.op = .eq →
        let x := entry.operator
        let family : Family := ⟨.hash, .ofInexact x.inexact⟩
        ∃ first ∈ h.catalog.membersOf family, ∃ second ∈ h.catalog.membersOf family,
          first.slot = ⟨.support, 1, .integer x.integer, .integer x.integer⟩ ∧
          second.slot = ⟨.support, 2, .integer x.integer, .integer x.integer⟩ ∧
          entry.hashFunction = some first.object ∧
          ∀ (n : Int) (hn : x.integer.contains n = true) (v : Inexact), v.type = x.inexact →
            let value : Literal := .integer x.integer n hn
            let operands := x.order.arrange value (.inexact v)
            h.catalog.invokeOperator entry.oid operands.1 operands.2 = .ok true →
              h.catalog.invokeFunction first.object [value] = .ok (.hash32 v.hash) ∧
              ∀ (seed : Int) (hseed : IntegerType.int8.contains seed = true),
                h.catalog.invokeFunction second.object [value, .integer .int8 seed hseed] =
                  .ok (.hash64 (v.hashExtended (Hash.word64 seed))) := by
  intro h
  have hc : h.catalog.Valid := Host.run_valid _
  have hcoherent : h.Coherent := Host.run_coherent _
  have hrun : h = ((Host.bootstrap.run before).step (.activate i)).2 := Host.run_concat _ _ _
  have hm := Host.manager?_of_activate hmanager hactivated
  obtain ⟨-, hplan⟩ := Host.isPlan_of_activate (Host.run_valid before) hmanager hactivated
  rw [← hrun] at hm hplan
  refine ⟨_, Host.inventory_eq hcoherent hm, fun entry hentry hop => ?_⟩
  obtain ⟨hfind, hhash⟩ := Manager.mem_inventory hentry
  obtain ⟨f, hf, hfr, first, hfirst, howner, hfslot, hfobject⟩ :=
    Catalog.exists_hashSupport hplan entry.operator false
  obtain ⟨g, hg, hgr, second, hsecond, -, hgslot, hgobject⟩ :=
    Catalog.exists_hashSupport hplan entry.operator true
  refine ⟨first, hfirst, second, hsecond, hfslot, hgslot, ?_, fun n hn v hv hequal => ?_⟩
  · rw [hhash hop]
    exact m.hashFunction?_eq hc hplan hfirst howner hfslot
  · obtain ⟨hvalue, hextended⟩ := Catalog.hash_of_invokeOperator hc hplan hop hfind hn hv hequal
    refine ⟨?_, fun seed hseed => ?_⟩
    · rw [hfobject, ← hvalue]
      exact hc.invokeFunction_hash hf hfr rfl hn
    · rw [hgobject, ← hextended]
      exact hc.invokeFunction_hashExtended hg hgr rfl hn hseed

/-- Negative zero, as a float of 32 bits. -/
def Binary.negativeZero : Float4 where
  bits := 0x80000000
  bits_lt := by decide

theorem hash_join_keeps_matches_at_first :
    let value : Literal := .integer .int2 0 rfl
    let zero : Inexact := .float4 .negativeZero
    ∃ oid hash,
      (Host.bootstrap.run ([.newManager .default] ++ [.activate 0])).catalog.invokeOperator oid
        value (.inexact zero) = .ok true ∧
      (Host.bootstrap.run ([.newManager .default] ++ [.activate 0])).catalog.invokeFunction hash
        [value] = .ok (.hash32 zero.hash) := by
  intro value zero
  obtain ⟨hmanager, hactivated, -⟩ := Host.activate_first .default
  obtain ⟨entries, hentries, hall⟩ := hash_join_keeps_matches [.newManager .default] 0
    (Host.firstManager .default) hmanager hactivated
  obtain ⟨⟨_, oid, function, hash, families⟩, hentry, rfl, hinvoke⟩ :=
    Host.exists_entry_of_activate hmanager hactivated hentries ⟨.eq, .int2, .float4, .integerFirst⟩
  have hequal := hinvoke value (.inexact zero)
  obtain ⟨first, -, second, -, -, -, -, hhash⟩ := hall _ hentry rfl
  exact ⟨oid, first.object, hequal, (hhash 0 rfl zero rfl hequal).1⟩

end ExactCompare
