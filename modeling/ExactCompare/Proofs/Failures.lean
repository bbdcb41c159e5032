import ExactCompare.Proofs.Host.Calls
import ExactCompare.Proofs.Uninstalling

/-!
# Failed calls leave no trace

A run ends where it ends without the calls that fail. Every call that succeeds is one version of
the catalog, and every listener is told it once.
-/

namespace ExactCompare

namespace Host

variable {h h' : Host} {a : Action} {actions : List Action} {k : ℕ} {versions : List ℕ}

/-! ## The run without its failures -/

def fails (h : Host) (a : Action) : Bool := a.isCall && !(h.step a).1.isOk

/-- The actions of a run, less the calls that fail in it. -/
def withoutFailures (h : Host) : List Action → List Action
  | [] => []
  | a :: actions =>
    let rest := (h.step a).2.withoutFailures actions
    if h.fails a then rest else a :: rest

/-- How many calls of a run succeed. -/
def successes (h : Host) (actions : List Action) : ℕ :=
  (h.withoutFailures actions).countP (·.isCall)

theorem fails_of_not_call (hcall : a.isCall = false) : h.fails a = false := by
  simp [fails, hcall]

theorem successes_of_fails (hfails : h.fails a = true) :
    h.successes (a :: actions) = (h.step a).2.successes actions := by
  rw [successes, withoutFailures, if_pos hfails]
  rfl

theorem successes_of_call (hcall : a.isCall = true) (hfails : h.fails a = false) :
    h.successes (a :: actions) = (h.step a).2.successes actions + 1 := by
  rw [successes, withoutFailures, hfails]
  exact List.countP_cons_of_pos hcall

theorem successes_of_not_call (hcall : a.isCall = false) :
    h.successes (a :: actions) = (h.step a).2.successes actions := by
  rw [successes, withoutFailures, fails_of_not_call hcall]
  exact List.countP_cons_of_neg (by simp [hcall])

/-- What an action does to a plain host: a call fails or commits, anything else is no call. -/
inductive Outcome (h : Host) (a : Action) : Prop
  | failed (hfails : h.fails a = true) (hstep : (h.step a).2 = h)
  | committed (hcall : a.isCall = true) (hfails : h.fails a = false) {c : Catalog}
      (hversion : c.version = h.catalog.version + 1) (hstep : (h.step a).2 = h.tell c)
  | other (hcall : a.isCall = false)

theorem outcome (hplain : h.Plain) (a : Action) : h.Outcome a := by
  cases hcall : a.isCall with
  | false => exact .other hcall
  | true =>
    have hfails : h.fails a = !(h.step a).1.isOk := by rw [fails, hcall, Bool.true_and]
    have hsettles := settles_step hplain hcall
    generalize hstep : h.step a = result at hsettles hfails
    cases hsettles with
    | failed e => exact .failed hfails (congrArg Prod.snd hstep)
    | committed answer htransact =>
      exact .committed hcall hfails (Catalog.version_of_transact htransact)
        (congrArg Prod.snd hstep)

theorem run_withoutFailures (hplain : h.Plain) (hactions : ∀ a ∈ actions, a.IsPlain) :
    h.run (h.withoutFailures actions) = h.run actions := by
  induction actions generalizing h with
  | nil => rfl
  | cons a actions ih =>
    rw [List.forall_mem_cons] at hactions
    have hrest := ih (plain_step hplain hactions.1) hactions.2
    rw [withoutFailures, run_cons]
    split
    case isTrue hfails =>
      cases outcome hplain a with
      | failed _ hstep =>
        rw [hstep] at hrest ⊢
        exact hrest
      | committed _ hok => exact absurd hfails (Bool.not_eq_true _ ▸ hok)
      | other hcall => exact absurd hfails (Bool.not_eq_true _ ▸ fails_of_not_call hcall)
    case isFalse => exact hrest

/-! ## Versions -/

theorem catalog_step_of_not_call (h : Host) (hcall : a.isCall = false) :
    (h.step a).2.catalog = h.catalog := by
  by_cases hregisters : a.registers = true
  · cases a with
    | newManager | subscribe | unsubscribe | registerHook => rfl
    | _ => cases hregisters
  · exact (h.keeps_step hcall (Bool.eq_false_iff.mpr hregisters)).catalog

theorem version_run (hplain : h.Plain) (hactions : ∀ a ∈ actions, a.IsPlain) :
    (h.run actions).catalog.version = h.catalog.version + h.successes actions := by
  induction actions generalizing h with
  | nil => rfl
  | cons a actions ih =>
    rw [List.forall_mem_cons] at hactions
    rw [run_cons, ih (plain_step hplain hactions.1) hactions.2]
    cases outcome hplain a with
    | failed hfails hstep => rw [successes_of_fails hfails, hstep]
    | @committed hcall hfails c hversion hstep =>
      have htold : (h.step a).2.catalog.version = h.catalog.version + 1 := by
        rw [hstep]
        exact hversion
      rw [successes_of_call hcall hfails, htold]
      omega
    | other hcall => rw [successes_of_not_call hcall, h.catalog_step_of_not_call hcall]

/-! ## What a listener hears -/

/-- Listener `k` is alive, never answers, and was told these versions. -/
def HasHeard (h : Host) (k : ℕ) (versions : List ℕ) : Prop :=
  h.listeners[k]? = some { live := true, heard := versions, reaction := none }

theorem HasHeard.tell (hheard : h.HasHeard k versions) (c : Catalog) :
    (h.tell c).HasHeard k (versions ++ [c.version]) := by
  unfold HasHeard at hheard ⊢
  rw [Host.tell, List.getElem?_map, hheard]
  rfl

theorem HasHeard.step_of_not_call (hheard : h.HasHeard k versions) (hcall : a.isCall = false)
    (hstays : a ≠ .unsubscribe k) : (h.step a).2.HasHeard k versions := by
  by_cases hregisters : a.registers = true
  · cases a with
    | newManager | registerHook => exact hheard
    | subscribe reaction =>
      have hlt := (List.getElem?_eq_some_iff.mp hheard).1
      exact (List.getElem?_append_left hlt).trans hheard
    | unsubscribe j =>
      have hne : j ≠ k := fun hj => hstays (congrArg Action.unsubscribe hj)
      exact (List.getElem?_modify_ne _ _ hne).trans hheard
    | _ => cases hregisters
  · have hkeeps := h.keeps_step hcall (Bool.eq_false_iff.mpr hregisters)
    rwa [HasHeard, hkeeps.listeners]

/-- A listener that stays is told every version from then on, once and in order. -/
theorem HasHeard.run (hheard : h.HasHeard k versions) (hplain : h.Plain)
    (hactions : ∀ a ∈ actions, a.IsPlain) (hstays : .unsubscribe k ∉ actions) :
    (h.run actions).HasHeard k
      (versions ++ List.range' (h.catalog.version + 1) (h.successes actions)) := by
  induction actions generalizing h versions with
  | nil =>
    rw [successes, withoutFailures, List.countP_nil, List.range'_zero, List.append_nil]
    exact hheard
  | cons a actions ih =>
    rw [List.forall_mem_cons] at hactions
    rw [List.mem_cons, not_or] at hstays
    have hplain' := plain_step hplain hactions.1
    rw [run_cons]
    cases outcome hplain a with
    | failed hfails hstep =>
      rw [successes_of_fails hfails]
      rw [hstep] at hplain' ⊢
      exact ih hheard hplain' hactions.2 hstays.2
    | @committed hcall hfails c hversion hstep =>
      rw [successes_of_call hcall hfails, List.range'_succ, ← List.singleton_append,
        ← List.append_assoc]
      rw [hstep] at hplain' ⊢
      have htold := ih (hheard.tell c) hplain' hactions.2 hstays.2
      rwa [show (h.tell c).catalog.version = h.catalog.version + 1 from hversion, hversion] at htold
    | other hcall =>
      have hsame := h.catalog_step_of_not_call hcall
      have htold := ih (hheard.step_of_not_call hcall (Ne.symm hstays.1)) hplain' hactions.2 hstays.2
      rwa [hsame, ← successes_of_not_call hcall] at htold

theorem hasHeard_subscribe (h : Host) : (h.subscribe none).HasHeard h.listeners.length [] := by
  unfold HasHeard subscribe
  exact List.getElem?_concat_length

end Host

/-! ## The theorem -/

/-- **Failed calls leave no trace.** Where listeners only listen and every drop hook is a manager,
a run without the calls that fail leads to the same host: catalog, caches and what was heard. The
version counts the calls that succeed. A listener that stays hears of each of them since it
subscribed, once and in order. -/
theorem failed_calls_leave_no_trace (actions : List Action) (hactions : ∀ a ∈ actions, a.IsPlain) :
    let h := Host.bootstrap.run actions
    let kept := Host.bootstrap.withoutFailures actions
    Host.bootstrap.run kept = h ∧ h.catalog.version = kept.countP (·.isCall) ∧
      ∀ before after, actions = before ++ .subscribe none :: after →
        let start := (Host.bootstrap.run before).subscribe none
        let k := (Host.bootstrap.run before).listeners.length
        .unsubscribe k ∉ after →
          h.HasHeard k (List.range' (start.catalog.version + 1)
            ((start.withoutFailures after).countP (·.isCall))) := by
  intro h kept
  have hplain := Host.bootstrap_plain
  refine ⟨Host.run_withoutFailures hplain hactions, ?_, ?_⟩
  · rw [Host.version_run hplain hactions]
    exact Nat.zero_add _
  · intro before after hsplit start k hstays
    subst hsplit
    rw [List.forall_mem_append, List.forall_mem_cons] at hactions
    have hstart := Host.plain_run hplain hactions.1
    have hheard := (Host.hasHeard_subscribe (Host.bootstrap.run before)).run hstart.subscribe
      hactions.2.2 hstays
    rw [List.nil_append] at hheard
    rw [show h = start.run after from Host.run_append _ _ _]
    exact hheard

theorem failed_calls_leave_no_trace_of_first :
    let batch : Batch := ⟨Config.defaultExtension,
      [.createFunction (.operator ⟨.lt, .int4, .float8, .integerFirst⟩)]⟩
    let after : List Action := [.deactivate 0, .createExtension batch, .createExtension batch,
      .dropExtension batch.owner]
    let actions : List Action := [.newManager .default] ++ .subscribe none :: after
    (Host.bootstrap.withoutFailures actions).length = 4 ∧
      Host.bootstrap.run (Host.bootstrap.withoutFailures actions) = Host.bootstrap.run actions ∧
      (Host.bootstrap.run actions).catalog.version = 2 ∧
      (Host.bootstrap.run actions).HasHeard 0 [1, 2] := by
  intro batch after actions
  have hplain : ∀ a ∈ actions, a.IsPlain := by simp [actions, after, Action.IsPlain]
  have hstays : .unsubscribe 0 ∉ after := by simp [after]
  have hlength : (Host.bootstrap.withoutFailures actions).length = 4 := by decide +kernel
  have hcalls : (Host.bootstrap.withoutFailures actions).countP (·.isCall) = 2 := by decide +kernel
  let start := (Host.bootstrap.run [.newManager .default]).subscribe none
  have hlater : (start.withoutFailures after).countP (·.isCall) = 2 := by decide +kernel
  obtain ⟨hrun, hversion, hheard⟩ := failed_calls_leave_no_trace actions hplain
  have hlistener := hheard [.newManager .default] after rfl hstays
  rw [hlater] at hlistener
  exact ⟨hlength, hrun, hversion.trans hcalls, hlistener⟩

end ExactCompare
