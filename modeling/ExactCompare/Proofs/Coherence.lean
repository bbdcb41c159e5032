import ExactCompare.Proofs.Host.Activation

/-!
# Caches are coherent

Between actions, the cache of a process with a manager is empty or is what the catalog
resolves to. So a question gets the answer that an empty cache would give.
-/

namespace ExactCompare

/-- The questions that process `i` answers from its cache. -/
inductive Action.AsksCache (i : ℕ) : Action → Prop
  | lookUpOid (oid : Oid) : AsksCache i (.lookUpOid i oid)
  | lookUpOperator (operator : CrossOperator) : AsksCache i (.lookUpOperator i operator)
  | plan (clause : Clause) : AsksCache i (.plan i clause)
  | inventory : AsksCache i (.inventory i)

/-! ## Two processes that answer alike -/

namespace Process

/-- Two processes that see the same in a catalog, whatever is in their caches. -/
structure Agree (c : Catalog) (p q : Process) : Prop where
  resolution : p.resolution c = q.resolution c
  enabled : p.enabled = q.enabled
  manager : p.manager = q.manager

variable {c : Catalog} {p q : Process}

theorem Agree.plan (hagree : Agree c p q) (clause : Clause) :
    (p.plan c clause).1 = (q.plan c clause).1 := by
  unfold Process.plan
  rw [hagree.enabled, hagree.resolution]
  split
  · split <;> rfl
  · rfl

theorem Coherent.agree_forget (hp : p.Coherent c) (hmanager : p.manager.isSome) :
    Agree c p p.forget where
  resolution := hp.resolution_eq hmanager
  enabled := rfl
  manager := rfl

end Process

namespace Host

variable {h h' : Host} {i : ℕ} {p q : Process} {question : Action}

theorem answer_eq_of_agree (hp : h.processes[i]? = some p) (hq : h'.processes[i]? = some q)
    (hcatalog : h'.catalog = h.catalog) (hagree : Process.Agree h.catalog p q)
    (hquestion : question.AsksCache i) : (h.step question).1 = (h'.step question).1 := by
  cases hquestion with
  | lookUpOid oid => simp only [step, askCache, withProcess, hp, hq, hcatalog, hagree.resolution]
  | lookUpOperator operator =>
    simp only [step, askCache, withProcess, hp, hq, hcatalog, hagree.resolution]
  | plan clause => simp only [step, withProcess, hp, hq, hcatalog, hagree.plan clause]
  | inventory =>
    simp only [step, askCache, withManager, withProcess, hp, hq, hcatalog, hagree.resolution,
      hagree.manager]
    cases q.manager <;> rfl

theorem catalog_invalidate (h : Host) (i : ℕ) : (h.invalidate i).catalog = h.catalog := rfl

theorem getElem?_invalidate (hp : h.processes[i]? = some p) :
    (h.invalidate i).processes[i]? = some p.forget := by
  simp [invalidate, modifyProcess, hp]

/-- What a process finds through its cache is what is in the catalog. -/
theorem lookUpOperator_eq (hcoherent : h.Coherent) (hp : h.processes[i]? = some p)
    (hmanager : p.manager.isSome) (x : CrossOperator) :
    (h.step (.lookUpOperator i x)).1 = .ok (.oid (h.catalog.findOperator? x.signature)) := by
  have hresolution := (hcoherent p (List.mem_of_getElem? hp)).resolution_eq hmanager
  simp only [step, askCache, withProcess, hp, hresolution, Resolution.oid?_ofCatalog]

end Host

/-! ## The theorem -/

/-- **Caches are coherent.** After any run, the cache of a process with a manager is empty or
is what the catalog resolves to now, and every question that is answered from it gets the
answer that it gets when the cache is empty. -/
theorem caches_are_coherent (actions : List Action) (i : ℕ) (p : Process)
    (hp : (Host.bootstrap.run actions).processes[i]? = some p) (hmanager : p.manager.isSome) :
    let h := Host.bootstrap.run actions
    (p.cache = none ∨ p.cache = some (.ofCatalog h.catalog)) ∧
      ∀ question : Action, question.AsksCache i →
        (h.step question).1 = ((h.invalidate i).step question).1 := by
  intro h
  have hcoherent : p.Coherent h.catalog :=
    Host.run_coherent actions p (List.mem_of_getElem? hp)
  refine ⟨hcoherent hmanager, fun question hquestion => ?_⟩
  exact Host.answer_eq_of_agree hp (Host.getElem?_invalidate hp) rfl
    (hcoherent.agree_forget hmanager) hquestion

theorem caches_are_coherent_after_activation :
    let x : CrossOperator := ⟨.lt, .int4, .float8, .integerFirst⟩
    let before : List Action :=
      [.newManager .default, .newManager .default, .lookUpOperator 1 x]
    ((Host.bootstrap.run before).step (.lookUpOperator 1 x)).1 = .ok (.oid none) ∧
      ∃ oid, ((Host.bootstrap.run (before ++ [.activate 0])).step (.lookUpOperator 1 x)).1 =
        .ok (.oid (some oid)) := by
  intro x before
  have hmanager : (Host.bootstrap.run before).manager? 0 = some (Host.firstManager .default) := rfl
  have hother : (Host.bootstrap.run before).manager? 1 = some (Host.firstManager .default) := rfl
  have hcatalog : (Host.bootstrap.run before).catalog = .bootstrap := rfl
  -- From here on only these three facts about the run matter, and nothing evaluates it.
  clear_value before
  refine ⟨?_, ?_⟩
  · obtain ⟨p, hp, hpm⟩ := Host.exists_process hother
    rw [Host.lookUpOperator_eq (Host.run_coherent before) hp (hpm ▸ rfl), hcatalog,
      Plan.findOperator?_bootstrap]
  · have hactivated := Host.step_activate_bootstrap hcatalog hmanager
    obtain ⟨oid, -, -, hfind⟩ := Host.exists_operator_of_activate hmanager hactivated x
    obtain ⟨c, -, hannounced⟩ := Host.announced_of_activate hmanager hactivated
    rw [← Host.run_concat] at hannounced
    obtain ⟨p, hp, hpm⟩ := Host.exists_process ((hannounced.manager? 1).trans hother)
    obtain ⟨-, hsame⟩ := caches_are_coherent (before ++ [.activate 0]) 1 p hp (hpm ▸ rfl)
    have hcold := (Host.follows_invalidate _ 1).coherent (Host.run_coherent (before ++ [.activate 0]))
    refine ⟨oid, ?_⟩
    rw [hsame _ (.lookUpOperator x),
      Host.lookUpOperator_eq hcold (Host.getElem?_invalidate hp) (hpm ▸ rfl),
      Host.catalog_invalidate, hfind]

end ExactCompare
