import Crasy.Base.Amortized
import Crasy.Executor.Core

/-!
# The executor after its context has stopped

Library `Executor`. `core_work` calls `run()` again whenever `core_work_pending_` is set
(`src/executor.cpp:136–148`), but nothing calls `restart()` on the context. Once the
`io_context` of `Crasy.Executor.Core` has stopped it therefore stays stopped: no handler is taken
any more, and no call of `block_on` made from then on returns.
-/

namespace Crasy.Executor.Core

open Crasy.Base

variable {ω ι τ : Type} {A : IoContext (Handler ι τ)} {s s' : State A ω}

/-- The caller is inside `block_on`, its handler has not started, and it has not been released. -/
structure Caller.Unserved (caller : Caller) : Prop where
  started : caller.started = false
  done : caller.done = false
  inside : caller.pc ≠ .idle ∧ caller.pc ≠ .dropGuard

/-- A step on a stopped context leaves it stopped and takes no handler. -/
structure Idles (s s' : State A ω) : Prop where
  stopped : A.stopped s'.context = true
  handlers : A.handlers s.context <+: A.handlers s'.context

/-- What a step on a stopped context does to a caller: one that is not served stays so, and one
that makes no call stays outside. -/
structure Neglects (s s' : State A ω) (a : Act ω ι τ) (c : ι) : Prop where
  unserved : (s.callers c).Unserved → (s'.callers c).Unserved
  idle : (s.callers c).pc = .idle → a ≠ .call c → (s'.callers c).pc = .idle
  call : a = .call c → (s'.callers c).Unserved

private theorem Neglects.of_eq {a : Act ω ι τ} {c : ι} (hc : s'.callers c = s.callers c)
    (ha : a ≠ .call c) : Neglects s s' a c :=
  ⟨fun hu ↦ hc ▸ hu, fun hi _ ↦ hc ▸ hi, fun he ↦ absurd he ha⟩

private theorem Idles.of_eq (hstop : A.stopped s.context = true) (hc : s'.context = s.context) :
    Idles s s' :=
  ⟨hc ▸ hstop, hc ▸ List.prefix_rfl⟩

private theorem Idles.of_post {x : Handler ι τ} (hstop : A.stopped s.context = true)
    (hc : s'.context = A.post s.context x) : Idles s s' := by
  refine ⟨by rw [hc, A.stopped_post, hstop], ?_⟩
  rw [hc, A.handlers_post]
  exact List.prefix_append _ _

private theorem Idles.of_handlers (hstop : A.stopped s'.context = true)
    (hh : A.handlers s'.context = A.handlers s.context) : Idles s s' :=
  ⟨hstop, hh ▸ List.prefix_rfl⟩

section Steps

variable [DecidableEq ω] [DecidableEq ι]

omit [DecidableEq ω] in
private theorem Neglects.of_caller {c d : ι} {pc : CallerPc} {wakes : Option ω}
    (hc : s'.callers = Function.update s.callers c { s.callers c with pc := pc })
    (hold : (s.callers c).pc ≠ .idle) (hidle : pc = .idle → (s.callers c).pc = .dropGuard)
    (hdrop : pc = .dropGuard → (s.callers c).done = true) :
    Neglects s s' (.caller c wakes : Act ω ι τ) d := by
  by_cases hd : d = c
  · subst hd
    refine ⟨fun hu ↦ ?_, fun hi ↦ absurd hi hold, nofun⟩
    rw [hc, Function.update_self]
    refine ⟨hu.started, hu.done, fun he ↦ hu.inside.2 (hidle he), fun he ↦ ?_⟩
    rw [hu.done] at hdrop
    exact nomatch hdrop he
  · exact .of_eq (by rw [hc, Function.update_of_ne hd]) nofun

omit [DecidableEq ω] in
/-- What a task does on a stopped context: only a caller whose handler has started is released. -/
theorem effect_stopped {e : Effect ι τ} {a : Act ω ι τ} (hstop : A.stopped s.context = true)
    (hn : effect s e = some s') (ha : ∀ d, a ≠ .call d) :
    Idles s s' ∧ ∀ d, Neglects s s' a d := by
  cases e with
  | scheduleTask t =>
    cases hn
    exact ⟨.of_post hstop rfl, fun d ↦ .of_eq rfl (ha d)⟩
  | spawnBlocking =>
    cases hn
    exact ⟨.of_eq hstop rfl, fun d ↦ .of_eq rfl (ha d)⟩
  | startOperation =>
    cases hn
    exact ⟨.of_handlers ((A.stopped_workStarted _).trans hstop) (A.handlers_workStarted _),
      fun d ↦ .of_eq rfl (ha d)⟩
  | setDone c =>
    simp only [effect] at hn
    split at hn
    · next hstarted =>
      cases hn
      refine ⟨.of_eq hstop rfl, fun d ↦ ?_⟩
      by_cases hd : d = c
      · subst hd
        have hself : (s.setCaller d { s.callers d with done := true }).callers d =
            { s.callers d with done := true } := Function.update_self ..
        refine ⟨fun hu ↦ ?_, fun hi _ ↦ by rw [hself]; exact hi, fun he ↦ absurd he (ha d)⟩
        rw [hu.started] at hstarted
        cases hstarted
      · exact .of_eq (Function.update_of_ne hd ..) (ha d)
    · cases hn
  | finish => cases hn

/-- A worker finds that the context is stopped. -/
theorem workerStep_stopped {w : ω} {i : Nat} (hstop : A.stopped s.context = true)
    (hn : workerStep s w i = some s') : Idles s s' ∧ s'.callers = s.callers := by
  simp only [workerStep] at hn
  split at hn
  · split at hn
    · cases hn
    · cases hn
      exact ⟨.of_eq hstop rfl, rfl⟩
  · cases hn
    exact ⟨.of_eq hstop rfl, rfl⟩
  · cases hn
    exact ⟨.of_eq hstop rfl, rfl⟩
  · cases hn
    split <;> exact ⟨.of_eq hstop rfl, rfl⟩
  · cases hn
    exact ⟨.of_handlers (A.stopped_runBegin _ hstop) (A.handlers_runBegin _), rfl⟩
  · split at hn
    · cases hn
      exact ⟨.of_eq hstop rfl, rfl⟩
    · next hrun => exact absurd hstop hrun
  all_goals cases hn

variable [Fintype ω] [DecidableEq τ]

/-- A caller's step on a stopped context. -/
theorem callerStep_stopped {c : ι} {wakes : Option ω} (hstop : A.stopped s.context = true)
    (hn : callerStep s c wakes = some s') :
    Idles s s' ∧ ∀ d, Neglects s s' (.caller c wakes : Act ω ι τ) d := by
  simp only [callerStep] at hn
  split at hn
  · next hpc =>
    cases hn
    exact ⟨.of_handlers ((A.stopped_workStarted _).trans hstop) (A.handlers_workStarted _),
      fun _ ↦ .of_caller rfl (by simp [hpc]) (by simp) (by simp)⟩
  · next hpc =>
    cases hn
    exact ⟨.of_post hstop rfl, fun _ ↦ .of_caller rfl (by simp [hpc]) (by simp) (by simp)⟩
  · next hpc =>
    split at hn
    · cases hn
    · cases hn
      exact ⟨.of_eq hstop rfl, fun _ ↦ .of_caller rfl (by simp [hpc]) (by simp) (by simp)⟩
  · next hpc =>
    cases hn
    exact ⟨.of_eq hstop rfl, fun _ ↦ .of_caller rfl (by simp [hpc]) (by simp) (by simp)⟩
  · next hpc =>
    cases hn
    exact ⟨.of_eq hstop rfl, fun _ ↦ .of_caller rfl (by simp [hpc]) (by simp) (by simp)⟩
  · next hpc =>
    obtain ⟨t, ht, rfl⟩ := Option.map_eq_some_iff.mp hn
    rcases Served.notifyOne_cases ht with rfl | ⟨w, -, rfl⟩
    · exact ⟨.of_eq hstop rfl, fun _ ↦ .of_caller rfl (by simp [hpc]) (by simp) (by simp)⟩
    · exact ⟨.of_eq hstop rfl, fun _ ↦ .of_caller rfl (by simp [hpc]) (by simp) (by simp)⟩
  · next hpc =>
    split at hn
    · next hdone =>
      cases hn
      exact ⟨.of_eq hstop rfl, fun _ ↦ .of_caller rfl (by simp [hpc]) (by simp) fun _ ↦ hdone⟩
    · cases hn
  · next hpc =>
    cases hn
    exact ⟨.of_handlers (A.stopped_workFinished _ hstop) (A.handlers_workFinished _),
      fun _ ↦ .of_caller rfl (by simp [hpc]) (fun _ ↦ hpc) (by simp)⟩
  · cases hn

/-- Every step on a stopped context leaves it stopped, takes no handler and serves no caller. -/
theorem next_stopped {a : Act ω ι τ} (hstop : A.stopped s.context = true)
    (hn : next s a = some s') : Idles s s' ∧ ∀ d, Neglects s s' a d := by
  cases a with
  | call c =>
    simp only [next] at hn
    split at hn
    · next hpc =>
      cases hn
      refine ⟨.of_eq hstop rfl, fun d ↦ ?_⟩
      by_cases hd : d = c
      · subst hd
        have hself : (s.setCaller d { pc := .workGuard, started := false, done := false }).callers d
            = { pc := .workGuard, started := false, done := false } := Function.update_self ..
        refine ⟨fun hu ↦ absurd hpc hu.inside.1, fun _ ha ↦ absurd rfl ha, fun _ ↦ ?_⟩
        rw [hself]
        exact ⟨rfl, rfl, by simp, by simp⟩
      · refine .of_eq (Function.update_of_ne hd ..) fun he ↦ hd ?_
        cases he
        rfl
    · cases hn
  | caller c wakes => exact callerStep_stopped hstop hn
  | worker w i =>
    obtain ⟨hidles, hc⟩ := workerStep_stopped hstop hn
    exact ⟨hidles, fun _ ↦ .of_eq (by rw [hc]) (by simp)⟩
  | handler w e =>
    simp only [next, handlerStep] at hn
    split at hn
    · cases hn
      exact ⟨.of_handlers (A.stopped_workFinished _ hstop) (A.handlers_workFinished _),
        fun _ ↦ .of_eq rfl (by simp)⟩
    · exact effect_stopped hstop hn (by simp)
    · cases hn
  | blocking e =>
    simp only [next, blockingStep] at hn
    split at hn
    · cases hn
    · cases hn
      exact ⟨.of_eq hstop rfl, fun _ ↦ .of_eq rfl (by simp)⟩
    · exact effect_stopped hstop hn (by simp)
  | complete t =>
    simp only [next] at hn
    split at hn
    · cases hn
    · next hrun => exact absurd (.inr hstop) hrun
  | spurious w =>
    simp only [next] at hn
    split at hn
    · cases hn
      exact ⟨.of_eq hstop rfl, fun _ ↦ .of_eq rfl (by simp)⟩
    · cases hn
  | setDone =>
    simp only [next] at hn
    split at hn
    · cases hn
    · cases hn
      exact ⟨.of_eq hstop rfl, fun _ ↦ .of_eq rfl (by simp)⟩
  | notifyAll =>
    cases hn
    exact ⟨.of_eq hstop rfl, fun _ ↦ .of_eq rfl (by simp)⟩

/-- A stopped executor stays stopped: no handler that is or will be posted is ever taken, and no
call of `block_on` that begins then is ever over. -/
theorem never_returns (hstop : A.stopped s.context = true) {rest : List (Act ω ι τ)}
    (hrest : ((system A ω).beginningIn s).Run rest s') :
    A.stopped s'.context = true ∧ A.handlers s.context <+: A.handlers s'.context ∧
      ∀ c, (s.callers c).pc = .idle → .call c ∈ rest → (s'.callers c).pc ≠ .idle := by
  have hrun := hrest.invariant (I := fun rest s' ↦ Idles s s' ∧
      ∀ c, (s.callers c).pc = .idle → (.call c ∉ rest → (s'.callers c).pc = .idle) ∧
        (.call c ∈ rest → (s'.callers c).Unserved))
    ⟨.of_eq hstop rfl, fun c hc ↦ ⟨fun _ ↦ hc, nofun⟩⟩ fun rest t a t' hi _ hn ↦ by
      obtain ⟨hidles, hneglects⟩ := next_stopped hi.1.stopped hn
      refine ⟨⟨hidles.stopped, hi.1.handlers.trans hidles.handlers⟩, fun c hc ↦ ?_⟩
      obtain ⟨hout, hin⟩ := hi.2 c hc
      simp only [List.mem_append, List.mem_singleton, not_or]
      refine ⟨fun hno ↦ (hneglects c).idle (hout hno.1) fun he ↦ hno.2 he.symm, ?_⟩
      rintro (hcall | he)
      · exact (hneglects c).unserved (hin hcall)
      · exact (hneglects c).call he.symm
  exact ⟨hrun.1.stopped, hrun.1.handlers, fun c hc hcall ↦ ((hrun.2 c hc).2 hcall).inside.1⟩

end Steps

/-- One call of `block_on` has returned and its worker has left `run()`: the next call stays
inside. -/
theorem never_returns_blockOn : ∃ s s' : State (countedContext (Handler (Fin 1) Unit)) (Fin 1),
    (system _ (Fin 1)).Reachable s ∧ ((system _ (Fin 1)).beginningIn s).Run
      (postAndNotify 0 0 ++ List.replicate 4 (.worker 0 0)) s' ∧ (s'.callers 0).pc ≠ .idle := by
  have hrun : ∃ s, (system (countedContext (Handler (Fin 1) Unit)) (Fin 1)).Reachable s ∧
      (countedContext _).stopped s.context = true ∧ (s.callers 0).pc = .idle ∧
        ∃ s' ∈ ((system _ (Fin 1)).beginningIn s).execBy (fun _ _ ↦ True) s
          (postAndNotify 0 0 ++ List.replicate 4 (.worker 0 0)), True :=
    System.exists_reachable (blockOn 0 0) (by decide)
  obtain ⟨s, hr, hstop, hidle, hrest⟩ := hrun
  obtain ⟨s', hrun', -⟩ := System.exists_runBy (M := (system _ (Fin 1)).beginningIn s) _ hrest
  exact ⟨s, s', hr, hrun', (never_returns hstop hrun').2.2 0 hidle (by decide)⟩

end Crasy.Executor.Core
