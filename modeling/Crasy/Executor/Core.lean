import Crasy.Base.System
import Mathlib.Data.Fintype.Basic

/-!
# The core pool of the executor and its io_context

Library `Executor`. Models `block_on_impl`, `schedule_task`, `core_work` and the core half of
the destructor (`src/executor.cpp:79–127,136–148`), one action for each lock operation,
predicate evaluation, wait, notification and call into asio. The `io_context` is not part of
this library: it is a parameter, with what its documentation promises of the calls made
here. What a task does inside a handler is left open: it may schedule handles, spawn
blocking tasks, start operations and release callers of `block_on` in any order.
-/

namespace Crasy.Executor.Core

open Crasy.Base

/-- What the executor relies on of an `io_context` that carries handlers in `η`. A post or
new work does not change whether the context is stopped; it stops only with no handler
left, when work is finished or in a `run()` that finds none outstanding; only `run()` on a
context that is not stopped takes handlers. -/
structure IoContext (η : Type) where
  Ctx : Type
  new : Ctx
  handlers : Ctx → List η
  stopped : Ctx → Bool
  post : Ctx → η → Ctx
  workStarted : Ctx → Ctx
  workFinished : Ctx → Ctx
  runBegin : Ctx → Ctx
  take : Ctx → Nat → Option (η × Ctx)
  handlers_new : handlers new = []
  handlers_post : ∀ c h, handlers (post c h) = handlers c ++ [h]
  stopped_post : ∀ c h, stopped (post c h) = stopped c
  handlers_workStarted : ∀ c, handlers (workStarted c) = handlers c
  stopped_workStarted : ∀ c, stopped (workStarted c) = stopped c
  handlers_workFinished : ∀ c, handlers (workFinished c) = handlers c
  stopped_workFinished : ∀ c, stopped c = true → stopped (workFinished c) = true
  of_stopped_workFinished : ∀ c, stopped (workFinished c) = true →
    stopped c = true ∨ handlers c = []
  handlers_runBegin : ∀ c, handlers (runBegin c) = handlers c
  stopped_runBegin : ∀ c, stopped c = true → stopped (runBegin c) = true
  of_stopped_runBegin : ∀ c, stopped (runBegin c) = true → stopped c = true ∨ handlers c = []
  take_eq : ∀ c i h c', take c i = some (h, c') → stopped c = false ∧ stopped c' = false ∧
    (handlers c)[i]? = some h ∧ handlers c' = (handlers c).eraseIdx i

/-- A context that counts its outstanding work: the queued handlers, and `held` for work
guards, operations and handlers being executed. -/
structure CountedContext (η : Type) where
  queue : List η
  held : Nat
  stopped : Bool
  deriving Repr

namespace CountedContext

variable {η : Type}

/-- Stop once no work is outstanding. -/
def settle (c : CountedContext η) : CountedContext η :=
  { c with stopped := c.stopped || c.queue.isEmpty && c.held == 0 }

/-- Run one queued handler, which is outstanding work while it runs. -/
def take (c : CountedContext η) (i : Nat) : Option (η × CountedContext η) :=
  if c.stopped then none
  else c.queue[i]?.map fun h ↦ (h, { c with queue := c.queue.eraseIdx i, held := c.held + 1 })

end CountedContext

/-- An `io_context` in which any queued handler may be the next one. -/
def countedContext (η : Type) : IoContext η where
  Ctx := CountedContext η
  new := { queue := [], held := 0, stopped := false }
  handlers c := c.queue
  stopped c := c.stopped
  post c h := { c with queue := c.queue ++ [h] }
  workStarted c := { c with held := c.held + 1 }
  workFinished c := { c with held := c.held - 1 : CountedContext η }.settle
  runBegin c := c.settle
  take := CountedContext.take
  handlers_new := rfl
  handlers_post _ _ := rfl
  stopped_post _ _ := rfl
  handlers_workStarted _ := rfl
  stopped_workStarted _ := rfl
  handlers_workFinished _ := rfl
  stopped_workFinished c hc := by simp [CountedContext.settle, hc]
  of_stopped_workFinished c := by
    simp only [CountedContext.settle, Bool.or_eq_true, Bool.and_eq_true, List.isEmpty_iff]
    exact Or.imp_right And.left
  handlers_runBegin _ := rfl
  stopped_runBegin c hc := by simp [CountedContext.settle, hc]
  of_stopped_runBegin c := by
    simp only [CountedContext.settle, Bool.or_eq_true, Bool.and_eq_true, List.isEmpty_iff]
    exact Or.imp_right And.left
  take_eq c i h c' ht := by
    simp only [CountedContext.take] at ht
    split at ht
    · cases ht
    · next hs =>
      obtain ⟨x, hx, he⟩ := Option.map_eq_some_iff.mp ht
      cases he
      exact ⟨by simpa using hs, by simpa using hs, hx, rfl⟩

/-- A posted handler: the lambda that `block_on_impl` posts, the handle that
`schedule_task` posts, or the completion of an operation. -/
inductive Handler (ι τ : Type) where
  | start (caller : ι)
  | resume (task : τ)
  | completion (task : τ)
  deriving DecidableEq, Repr

/-- Where a worker stands in `core_work`. From `evaluate` to `block` or `proceed` it holds
`core_mut_`; at `runBegin` it is about to call `run()`, at `running` and `handler` it is in it. -/
inductive WorkerPc (ι τ : Type) where
  | lock
  | evaluate
  | block
  | blocked
  | proceed
  | runBegin
  | running
  | handler (h : Handler ι τ)
  | exited
  deriving DecidableEq, Repr

/-- Where a caller stands in `block_on_impl`. -/
inductive CallerPc where
  | idle
  | workGuard
  | post
  | lock
  | setPending
  | unlock
  | notify
  | wait
  | dropGuard
  deriving DecidableEq, Repr

/-- A caller, with whether the handler it posted has started, and its local `done`. -/
structure Caller where
  pc : CallerPc
  started : Bool
  done : Bool
  deriving DecidableEq, Repr

/-- What a task does inside a handler or on a blocking worker. -/
inductive Effect (ι τ : Type) where
  | scheduleTask (task : τ)
  | spawnBlocking
  | startOperation
  | setDone (caller : ι)
  | finish
  deriving DecidableEq, Repr

/-- The core pool: `context_`, whether `core_mut_` is locked, `core_work_pending_`,
`core_done_`, the threads, and how many blocking tasks and operations are in flight. -/
structure State {ι τ : Type} (A : IoContext (Handler ι τ)) (ω : Type) where
  context : A.Ctx
  locked : Bool
  pending : Bool
  done : Bool
  workers : ω → WorkerPc ι τ
  callers : ι → Caller
  blocking : Nat
  operations : Nat

/-- The choices of the scheduler, of asio and of the tasks. A caller's step carries the
worker that a notification reaches, and a worker's step the handler that `run()` takes. -/
inductive Act (ω ι τ : Type) where
  | call (c : ι)
  | caller (c : ι) (wakes : Option ω)
  | worker (w : ω) (i : Nat)
  | handler (w : ω) (effect : Effect ι τ)
  | blocking (effect : Effect ι τ)
  | complete (task : τ)
  | spurious (w : ω)
  | setDone
  | notifyAll
  deriving DecidableEq, Repr

variable {ω ι τ : Type} {A : IoContext (Handler ι τ)}

/-- An executor just constructed. -/
def init (A : IoContext (Handler ι τ)) (ω : Type) : State A ω :=
  { context := A.new, locked := false, pending := false, done := false,
    workers := fun _ ↦ .lock,
    callers := fun _ ↦ { pc := .idle, started := false, done := false },
    blocking := 0, operations := 0 }

section Steps

variable [DecidableEq ω] [DecidableEq ι]

/-- Move one worker. -/
def State.setWorker (s : State A ω) (w : ω) (pc : WorkerPc ι τ) : State A ω :=
  { s with workers := Function.update s.workers w pc }

/-- Change one caller. -/
def State.setCaller (s : State A ω) (c : ι) (caller : Caller) : State A ω :=
  { s with callers := Function.update s.callers c caller }

/-- A handler that a worker took out of the context begins: the lambda of a caller has
started. -/
def begin (s : State A ω) (w : ω) (h : Handler ι τ) (context : A.Ctx) : State A ω :=
  let s := { s with context := context }.setWorker w (.handler h)
  match h with
  | .start c => s.setCaller c { s.callers c with started := true }
  | .resume _ | .completion _ => s

/-- The next step of a worker; `core_work`, `src/executor.cpp:136–148`. `run()` returns when
the context is stopped. -/
def workerStep (s : State A ω) (w : ω) (i : Nat) : Option (State A ω) :=
  match s.workers w with
  | .lock => if s.locked then none else some ({ s with locked := true }.setWorker w .evaluate)
  | .evaluate => some (s.setWorker w (if s.pending || s.done then .proceed else .block))
  | .block => some ({ s with locked := false }.setWorker w .blocked)
  | .proceed =>
    some (if s.done then { s with locked := false }.setWorker w .exited
      else { s with locked := false, pending := false }.setWorker w .runBegin)
  | .runBegin => some ({ s with context := A.runBegin s.context }.setWorker w .running)
  | .running =>
    if A.stopped s.context then some (s.setWorker w .lock)
    else (A.take s.context i).map fun (h, context) ↦ begin s w h context
  | .blocked | .handler _ | .exited => none

/-- What a task does, on a core worker or on a blocking worker; `schedule_task`,
`src/executor.cpp:117–127`. -/
def effect (s : State A ω) : Effect ι τ → Option (State A ω)
  | .scheduleTask t => some { s with context := A.post s.context (.resume t) }
  | .spawnBlocking => some { s with blocking := s.blocking + 1 }
  | .startOperation =>
    some { s with context := A.workStarted s.context, operations := s.operations + 1 }
  | .setDone c =>
    if (s.callers c).started then some (s.setCaller c { s.callers c with done := true }) else none
  | .finish => none

/-- The next step of the handler a worker is executing. -/
def handlerStep (s : State A ω) (w : ω) (e : Effect ι τ) : Option (State A ω) :=
  match s.workers w, e with
  | .handler _, .finish =>
    some ({ s with context := A.workFinished s.context }.setWorker w .running)
  | .handler _, e => effect s e
  | _, _ => none

/-- A step of one of the blocking tasks in flight. -/
def blockingStep (s : State A ω) (e : Effect ι τ) : Option (State A ω) :=
  match s.blocking, e with
  | 0, _ => none
  | n + 1, .finish => some { s with blocking := n }
  | _ + 1, e => effect s e

variable [Fintype ω] [DecidableEq τ]

/-- `notify_one`: one blocked worker wakes, if there is one. -/
def notifyOne (s : State A ω) : Option ω → Option (State A ω)
  | some w => if s.workers w = .blocked then some (s.setWorker w .lock) else none
  | none => if ∀ w, s.workers w ≠ .blocked then some s else none

/-- The next step of a call; `block_on_impl`, `src/executor.cpp:87–115`. -/
def callerStep (s : State A ω) (c : ι) (wakes : Option ω) : Option (State A ω) :=
  let moveTo (pc : CallerPc) : Caller := { s.callers c with pc := pc }
  match (s.callers c).pc with
  | .workGuard =>
    some ({ s with context := A.workStarted s.context }.setCaller c (moveTo .post))
  | .post => some ({ s with context := A.post s.context (.start c) }.setCaller c (moveTo .lock))
  | .lock =>
    if s.locked then none else some ({ s with locked := true }.setCaller c (moveTo .setPending))
  | .setPending => some ({ s with pending := true }.setCaller c (moveTo .unlock))
  | .unlock => some ({ s with locked := false }.setCaller c (moveTo .notify))
  | .notify => (notifyOne s wakes).map fun s ↦ s.setCaller c (moveTo .wait)
  | .wait => if (s.callers c).done then some (s.setCaller c (moveTo .dropGuard)) else none
  | .dropGuard =>
    some ({ s with context := A.workFinished s.context }.setCaller c (moveTo .idle))
  | .idle => none

/-- One step of the core pool. An operation in flight is outstanding work, so that the
context is not stopped when it completes. -/
def next (s : State A ω) : Act ω ι τ → Option (State A ω)
  | .call c =>
    if (s.callers c).pc = .idle then
      some (s.setCaller c { pc := .workGuard, started := false, done := false })
    else none
  | .caller c wakes => callerStep s c wakes
  | .worker w i => workerStep s w i
  | .handler w e => handlerStep s w e
  | .blocking e => blockingStep s e
  | .complete t =>
    if s.operations = 0 ∨ A.stopped s.context then none
    else some { s with
      context := A.workFinished (A.post s.context (.completion t))
      operations := s.operations - 1 }
  | .spurious w => if s.workers w = .blocked then some (s.setWorker w .lock) else none
  | .setDone => if s.locked then none else some { s with done := true }
  | .notifyAll =>
    some { s with workers := fun w ↦ if s.workers w = .blocked then .lock else s.workers w }

/-- The core pool over an `io_context`, under all interleavings of its threads. -/
def system (A : IoContext (Handler ι τ)) (ω : Type) [DecidableEq ω] [Fintype ω] :
    System (State A ω) (Act ω ι τ) :=
  { init := init A ω, next := next }

end Steps

/-! ### No stranded handler -/

/-- The worker has cleared `core_work_pending_` and is in `run()` or about to be. -/
def WorkerPc.InRun : WorkerPc ι τ → Prop
  | .runBegin | .running | .handler _ => True
  | _ => False

/-- The caller is between its post and its notification. -/
def CallerPc.Announcing (pc : CallerPc) : Prop :=
  pc = .lock ∨ pc = .setPending ∨ pc = .unlock ∨ pc = .notify

/-- Every worker is blocked, with nothing that would let it go on, and no call of `block_on`
is between its post and its notification. -/
structure Quiet (s : State A ω) : Prop where
  blocked : ∀ w, s.workers w = .blocked
  pending : s.pending = false
  done : s.done = false
  callers : ∀ c, ¬(s.callers c).pc.Announcing

/-- The steps that strand no handler: neither `block_on_impl` nor `schedule_task` posts to a
context that is stopped. -/
def StepOk (s : State A ω) : Act ω ι τ → Prop
  | .caller c _ => (s.callers c).pc = .post → A.stopped s.context = false
  | .handler _ (.scheduleTask _) | .blocking (.scheduleTask _) => A.stopped s.context = false
  | _ => True

/-- Some worker is in `run()`, or about to be. -/
def State.Running (s : State A ω) : Prop := ∃ w, (s.workers w).InRun

/-- Who will take the queued handlers, and why the context keeps running while a blocking
task or an operation is in flight. -/
structure Served (s : State A ω) : Prop where
  live : A.handlers s.context ≠ [] → A.stopped s.context = false
  served : A.handlers s.context ≠ [] → s.pending = true ∨ s.Running ∨
    ∃ c, (s.callers c).pc = .lock ∨ (s.callers c).pc = .setPending
  outside : s.blocking ≠ 0 ∨ s.operations ≠ 0 → A.stopped s.context = true ∨ s.Running

variable {s s' : State A ω}

private theorem State.running_setWorker [DecidableEq ω] {w : ω} {pc : WorkerPc ι τ}
    (hpc : pc.InRun) :
    (s.setWorker w pc).Running :=
  ⟨w, by simpa [State.setWorker] using hpc⟩

private theorem State.Running.setWorker [DecidableEq ω] {w : ω} {pc : WorkerPc ι τ} (h : s.Running)
    (hpc : (s.workers w).InRun → pc.InRun) : (s.setWorker w pc).Running := by
  obtain ⟨v, hv⟩ := h
  by_cases he : v = w
  · subst he
    exact running_setWorker (hpc hv)
  · exact ⟨v, by simpa [State.setWorker, he] using hv⟩

namespace Served

/-- A step that posts nothing. -/
theorem of_step (h : Served s)
    (hh : A.handlers s'.context ≠ [] → A.handlers s.context ≠ [])
    (hstop : A.stopped s.context = true → A.stopped s'.context = true)
    (hlive : A.stopped s'.context = true → A.stopped s.context = true ∨
      A.handlers s'.context = [])
    (hp : s.pending = true → s'.pending = true ∨ s'.Running)
    (hw : s.Running → A.stopped s'.context = true ∨ s'.Running)
    (hc : ∀ c, (s.callers c).pc = .lock ∨ (s.callers c).pc = .setPending →
      s'.pending = true ∨ (s'.callers c).pc = .lock ∨ (s'.callers c).pc = .setPending)
    (hb : s'.blocking ≠ 0 ∨ s'.operations ≠ 0 →
      (s.blocking ≠ 0 ∨ s.operations ≠ 0) ∨ s'.Running) : Served s' := by
  have hlive' (hne : A.handlers s'.context ≠ []) : A.stopped s'.context = false := by
    by_contra hs
    rcases hlive (by simpa using hs) with hs | hs
    · simp [h.live (hh hne)] at hs
    · exact hne hs
  refine ⟨hlive', fun hne ↦ ?_, fun hout ↦ ?_⟩
  · rcases h.served (hh hne) with hs | hs | ⟨c, hs⟩
    · exact (hp hs).imp_right .inl
    · have hrun := (hw hs).resolve_left (by simp [hlive' hne])
      exact .inr (.inl hrun)
    · exact (hc c hs).imp_right fun hs ↦ .inr ⟨c, hs⟩
  · rcases hb hout with hout | hrun
    · rcases h.outside hout with hs | hs
      · exact .inl (hstop hs)
      · exact hw hs
    · exact .inr hrun

private theorem of_post {x : Handler ι τ} (h : Served s) (hx : s'.context = A.post s.context x)
    (hlive : A.stopped s.context = false) (hw : s.Running → s'.Running)
    (hb : s'.blocking ≠ 0 ∨ s'.operations ≠ 0 → s.blocking ≠ 0 ∨ s.operations ≠ 0)
    (hserved : s'.Running ∨ ∃ c, (s'.callers c).pc = .lock) : Served s' := by
  refine ⟨fun _ ↦ by rw [hx, A.stopped_post, hlive], fun _ ↦ ?_, fun hout ↦ ?_⟩
  · exact .inr (hserved.imp_right fun ⟨c, hc⟩ ↦ ⟨c, .inl hc⟩)
  · exact ((h.outside (hb hout)).resolve_left (by simp [hlive])).elim fun w hrun ↦
      .inr (hw ⟨w, hrun⟩)

/-- What a task does inside a handler or on a blocking worker. -/
theorem of_effect [DecidableEq ι] {e : Effect ι τ} (h : Served s) (he : effect s e = some s')
    (hok : ∀ t, e = .scheduleTask t → A.stopped s.context = false)
    (hby : (s.blocking ≠ 0 ∨ s.operations ≠ 0) ∨ s.Running) : Served s' := by
  cases e with
  | scheduleTask t =>
    cases he
    have hlive := hok t rfl
    have hrun : s.Running :=
      hby.elim (fun hout ↦ (h.outside hout).resolve_left (by simp [hlive])) id
    exact h.of_post rfl hlive id id (.inl hrun)
  | spawnBlocking =>
    cases he
    exact h.of_step id id .inl .inl .inr (fun _ hc ↦ .inr hc) fun _ ↦ hby
  | startOperation =>
    cases he
    refine h.of_step ?_ ?_ ?_ .inl .inr (fun _ hc ↦ .inr hc) fun _ ↦ hby
    · rw [A.handlers_workStarted]
      exact id
    · rw [A.stopped_workStarted]
      exact id
    · rw [A.stopped_workStarted]
      exact .inl
  | setDone c =>
    simp only [effect] at he
    split at he
    · cases he
      refine h.of_step id id .inl .inl .inr (fun d hd ↦ .inr ?_) .inl
      by_cases hdc : d = c
      · subst hdc
        simpa [State.setCaller] using hd
      · simpa [State.setCaller, hdc] using hd
    · cases he
  | finish => cases he

private theorem of_context (h : Served s) (hh : A.handlers s'.context = A.handlers s.context)
    (hstop : A.stopped s.context = true → A.stopped s'.context = true)
    (hlive : A.stopped s'.context = true → A.stopped s.context = true ∨
      A.handlers s.context = [])
    (hp : s'.pending = s.pending) (hc : s'.callers = s.callers)
    (hb : s'.blocking = s.blocking) (ho : s'.operations = s.operations)
    (hw : s.Running → s'.Running) : Served s' := by
  refine h.of_step (by rw [hh]; exact id) hstop (by rw [hh]; exact hlive)
    (fun h ↦ .inl (hp ▸ h)) (fun h ↦ .inr (hw h)) (fun c h ↦ .inr (hc ▸ h)) ?_
  rw [hb, ho]
  exact .inl

section Steps

variable [DecidableEq ω] [DecidableEq ι]

/-- A worker's step: it leaves `run()` only on a stopped context. -/
theorem workerStep {w : ω} {i : Nat} (h : Served s) (hn : workerStep s w i = some s') :
    Served s' := by
  simp only [Core.workerStep] at hn
  split at hn
  · next hpc =>
    split at hn
    · cases hn
    · cases hn
      exact h.of_context rfl id .inl rfl rfl rfl rfl
        fun hr ↦ hr.setWorker (by simp [hpc, WorkerPc.InRun])
  · next hpc =>
    cases hn
    exact h.of_context rfl id .inl rfl rfl rfl rfl
      fun hr ↦ hr.setWorker (by simp [hpc, WorkerPc.InRun])
  · next hpc =>
    cases hn
    exact h.of_context rfl id .inl rfl rfl rfl rfl
      fun hr ↦ State.Running.setWorker (s := s) hr (by simp [hpc, WorkerPc.InRun])
  · next hpc =>
    cases hd : s.done with
    | true =>
      simp only [hd, if_true] at hn
      cases hn
      exact h.of_context rfl id .inl rfl rfl rfl rfl
        fun hr ↦ State.Running.setWorker (s := s) hr (by simp [hpc, WorkerPc.InRun])
    | false =>
      simp only [hd] at hn
      cases hn
      have hrun : State.Running (State.setWorker { s with locked := false, pending := false } w
        .runBegin) := State.running_setWorker trivial
      exact h.of_step id id .inl (fun _ ↦ .inr hrun) (fun _ ↦ .inr hrun) (fun _ hc ↦ .inr hc) .inl
  · next hpc =>
    cases hn
    exact h.of_context (A.handlers_runBegin _) (A.stopped_runBegin _) (A.of_stopped_runBegin _)
      rfl rfl rfl rfl fun _ ↦ State.running_setWorker trivial
  · next hpc =>
    split at hn
    · next hstop =>
      cases hn
      exact h.of_step id id .inl .inl (fun _ ↦ .inl hstop) (fun _ hc ↦ .inr hc) .inl
    · next hstop =>
      obtain ⟨⟨x, context⟩, htake, rfl⟩ := Option.map_eq_some_iff.mp hn
      obtain ⟨-, hs', -, hrest⟩ := A.take_eq _ _ _ _ htake
      have hrun : State.Running (begin s w x context) := by
        cases x <;> exact State.running_setWorker (s := { s with context := context }) trivial
      have hpc (c : ι) : ((begin s w x context).callers c).pc = (s.callers c).pc := by
        cases x with
        | start d =>
          by_cases hc : c = d
          · subst hc
            simp [begin, State.setCaller, State.setWorker]
          · simp [begin, State.setCaller, State.setWorker, hc]
        | resume | completion => rfl
      have hcontext : (begin s w x context).context = context := by
        cases x <;> rfl
      refine h.of_step ?_ ?_ ?_ (fun _ ↦ .inr hrun) (fun _ ↦ .inr hrun)
        (fun c hc ↦ .inr (by rwa [hpc])) fun _ ↦ .inr hrun
      · rw [hcontext, hrest]
        intro hne he
        simp [he] at hne
      · exact fun hs ↦ absurd hs hstop
      · rw [hcontext, hs']
        exact fun hs ↦ nomatch hs
  all_goals cases hn

omit [DecidableEq ω] in
private theorem of_caller {c : ι} {caller : Caller} (h : Served s)
    (hc : s'.callers = Function.update s.callers c caller)
    (hold : (s.callers c).pc ≠ .lock ∧ (s.callers c).pc ≠ .setPending ∨
      caller.pc = .setPending)
    (hh : A.handlers s'.context = A.handlers s.context)
    (hstop : A.stopped s.context = true → A.stopped s'.context = true)
    (hlive : A.stopped s'.context = true → A.stopped s.context = true ∨
      A.handlers s.context = [])
    (hp : s'.pending = s.pending) (hw : s.Running → s'.Running)
    (hb : s'.blocking = s.blocking) (ho : s'.operations = s.operations) : Served s' := by
  refine h.of_step (by rw [hh]; exact id) hstop (by rw [hh]; exact hlive)
    (fun h ↦ .inl (hp ▸ h)) (fun h ↦ .inr (hw h)) (fun d hd ↦ .inr ?_)
    (by rw [hb, ho]; exact .inl)
  rw [hc]
  by_cases hdc : d = c
  · subst hdc
    rw [Function.update_self]
    rcases hold with hold | hold
    · exact (hd.elim hold.1 hold.2).elim
    · exact .inr hold
  · rwa [Function.update_of_ne hdc]

variable [DecidableEq τ] [Fintype ω]

/-- A notification wakes at most one blocked worker. -/
theorem notifyOne_cases {wakes : Option ω} (hn : notifyOne s wakes = some s') :
    s' = s ∨ ∃ w, s.workers w = .blocked ∧ s' = s.setWorker w .lock := by
  cases wakes with
  | none =>
    simp only [notifyOne] at hn
    split at hn
    · exact .inl (Option.some.inj hn).symm
    · cases hn
  | some w =>
    simp only [notifyOne] at hn
    split at hn
    · next hb => exact .inr ⟨w, hb, (Option.some.inj hn).symm⟩
    · cases hn

/-- A caller's step: it posts to a context that is not stopped, and then announces its
handler in `core_work_pending_`. -/
theorem callerStep {c : ι} {wakes : Option ω} (h : Served s)
    (hok : (s.callers c).pc = .post → A.stopped s.context = false)
    (hn : callerStep s c wakes = some s') : Served s' := by
  simp only [Core.callerStep] at hn
  split at hn
  · next hpc =>
    cases hn
    refine h.of_caller rfl (.inl (by simp [hpc])) (A.handlers_workStarted _) ?_ ?_ rfl id rfl rfl
    · simp only [State.setCaller, A.stopped_workStarted]
      exact id
    · simp only [State.setCaller, A.stopped_workStarted]
      exact .inl
  · next hpc =>
    cases hn
    exact h.of_post rfl (hok hpc) id id (.inr ⟨c, by simp [State.setCaller]⟩)
  · split at hn
    · cases hn
    · cases hn
      exact h.of_caller rfl (.inr rfl) rfl id .inl rfl id rfl rfl
  · cases hn
    exact h.of_step id id .inl (fun _ ↦ .inl rfl) .inr (fun _ _ ↦ .inl rfl) .inl
  · next hpc =>
    cases hn
    exact h.of_caller rfl (.inl (by simp [hpc])) rfl id .inl rfl id rfl rfl
  · next hpc =>
    obtain ⟨t, ht, rfl⟩ := Option.map_eq_some_iff.mp hn
    rcases notifyOne_cases ht with rfl | ⟨w, hb, rfl⟩
    · exact h.of_caller rfl (.inl (by simp [hpc])) rfl id .inl rfl id rfl rfl
    · exact h.of_caller rfl (.inl (by simp [hpc])) rfl id .inl rfl
        (fun hr ↦ hr.setWorker (by simp [hb, WorkerPc.InRun])) rfl rfl
  · next hpc =>
    split at hn
    · cases hn
      exact h.of_caller rfl (.inl (by simp [hpc])) rfl id .inl rfl id rfl rfl
    · cases hn
  · next hpc =>
    cases hn
    exact h.of_caller rfl (.inl (by simp [hpc])) (A.handlers_workFinished _)
      (A.stopped_workFinished _) (A.of_stopped_workFinished _) rfl id rfl rfl
  · cases hn

/-- Every permitted step keeps the queued handlers served. -/
theorem next {a : Act ω ι τ} (h : Served s) (hok : StepOk s a) (hn : Core.next s a = some s') :
    Served s' := by
  cases a with
  | call c =>
    simp only [Core.next] at hn
    split at hn
    · next hpc =>
      cases hn
      exact h.of_caller rfl (.inl (by simp [hpc])) rfl id .inl rfl id rfl rfl
    · cases hn
  | caller c wakes => exact h.callerStep hok hn
  | worker w i => exact h.workerStep hn
  | handler w e =>
    simp only [Core.next, handlerStep] at hn
    split at hn
    · cases hn
      exact h.of_context (A.handlers_workFinished _) (A.stopped_workFinished _)
        (A.of_stopped_workFinished _) rfl rfl rfl rfl fun _ ↦ State.running_setWorker trivial
    · next hpc _ =>
      refine h.of_effect hn (fun t ht ↦ ?_) (.inr ⟨w, by simp [hpc, WorkerPc.InRun]⟩)
      subst ht
      exact hok
    · cases hn
  | blocking e =>
    simp only [Core.next, blockingStep] at hn
    split at hn
    · cases hn
    · next n hb =>
      cases hn
      exact h.of_step id id .inl .inl .inr (fun _ hc ↦ .inr hc) fun _ ↦
        .inl (.inl (by simp [hb]))
    · next hb _ =>
      refine h.of_effect hn (fun t ht ↦ ?_) (.inl (.inl (by simp [hb])))
      subst ht
      exact hok
  | complete t =>
    simp only [Core.next] at hn
    split at hn
    · cases hn
    · next hc =>
      cases hn
      obtain ⟨hops, hlive⟩ := not_or.mp hc
      have hrun : s.Running := (h.outside (.inr hops)).resolve_left hlive
      have hpost : Served { s with context := A.post s.context (.completion t) } :=
        h.of_post rfl (by simpa using hlive) id id (.inl hrun)
      exact hpost.of_step (by rw [A.handlers_workFinished]; exact id) (A.stopped_workFinished _)
        (by rw [A.handlers_workFinished]; exact A.of_stopped_workFinished _) .inl .inr
        (fun _ hc ↦ .inr hc) fun _ ↦ .inr hrun
  | spurious w =>
    simp only [Core.next] at hn
    split at hn
    · next hpc =>
      cases hn
      exact h.of_context rfl id .inl rfl rfl rfl rfl fun hr ↦
        hr.setWorker (by simp [hpc, WorkerPc.InRun])
    · cases hn
  | setDone =>
    simp only [Core.next] at hn
    split at hn
    · cases hn
    · cases hn
      exact h.of_context rfl id .inl rfl rfl rfl rfl id
  | notifyAll =>
    cases hn
    refine h.of_context rfl id .inl rfl rfl rfl rfl ?_
    rintro ⟨w, hw⟩
    have hb : s.workers w ≠ .blocked := by
      intro he
      simp [he, WorkerPc.InRun] at hw
    exact ⟨w, by simpa [hb] using hw⟩

end Steps

end Served

/-- On runs whose every post finds the context running, a quiet pool has no handler left. -/
theorem no_stranded_handler [DecidableEq ω] [DecidableEq ι] [DecidableEq τ] [Fintype ω]
    (hr : (system A ω).ReachableBy StepOk s) (hq : Quiet s) : A.handlers s.context = [] := by
  have h : Served s := by
    refine hr.invariant ?_ fun _ _ _ hi hok hn ↦ hi.next hok hn
    constructor <;> simp [system, init, A.handlers_new]
  by_contra hne
  rcases h.served hne with hp | ⟨w, hw⟩ | ⟨c, hc⟩
  · rw [hq.pending] at hp
    cases hp
  · simp [hq.blocked w, WorkerPc.InRun] at hw
  · exact hq.callers c (hc.imp_right .inl)

instance (pc : CallerPc) : Decidable pc.Announcing :=
  inferInstanceAs (Decidable (_ ∨ _ ∨ _ ∨ _))

instance [DecidableEq ι] [DecidableEq τ] [Fintype ω] [Fintype ι] (s : State A ω) :
    Decidable (Quiet s) :=
  decidable_of_iff ((∀ w, s.workers w = .blocked) ∧ s.pending = false ∧ s.done = false ∧
      ∀ c, ¬(s.callers c).pc.Announcing)
    ⟨fun ⟨hb, hp, hd, hc⟩ ↦ ⟨hb, hp, hd, hc⟩, fun ⟨hb, hp, hd, hc⟩ ↦ ⟨hb, hp, hd, hc⟩⟩

instance (s : State A ω) (a : Act ω ι τ) : Decidable (StepOk s a) :=
  match a with
  | .caller c _ =>
    inferInstanceAs (Decidable ((s.callers c).pc = .post → A.stopped s.context = false))
  | .handler _ e | .blocking e =>
    match e with
    | .scheduleTask _ => inferInstanceAs (Decidable (A.stopped s.context = false))
    | .spawnBlocking | .startOperation | .setDone _ | .finish => isTrue trivial
  | .call _ | .worker _ _ | .complete _ | .spurious _ | .setDone | .notifyAll => isTrue trivial

/-- A caller posts its handler and notifies a worker, which wakes. -/
def postAndNotify (w : ω) (c : ι) : List (Act ω ι τ) :=
  .call c :: List.replicate 6 (.caller c (some w)) ++ List.replicate 4 (.worker w 0)

/-- One call of `block_on`: the worker finds no work and blocks, then runs the caller's
handler; the caller returns, and the worker returns from `run()` and blocks again. -/
def blockOn (w : ω) (c : ι) : List (Act ω ι τ) :=
  List.replicate 3 (.worker w 0) ++ postAndNotify w c ++ [.worker w 0, .handler w (.setDone c),
    .handler w .finish, .caller c none, .caller c none] ++ List.replicate 4 (.worker w 0)

/-- After a call of `block_on` has returned and the worker is blocked, nothing is left. -/
theorem no_stranded_handler_blockOn :
    ∃ s, (system (countedContext (Handler (Fin 1) Unit)) (Fin 1)).ReachableBy StepOk s ∧
      (s.callers 0).done = true ∧ Quiet s ∧ (countedContext _).handlers s.context = [] := by
  have hrun : ∃ s, (system (countedContext (Handler (Fin 1) Unit)) (Fin 1)).ReachableBy
      StepOk s ∧ (s.callers 0).done = true ∧ Quiet s :=
    System.exists_reachableBy (blockOn 0 0) (by decide)
  obtain ⟨s, hr, hd, hq⟩ := hrun
  exact ⟨s, hr, hd, hq, no_stranded_handler hr hq⟩

/-- A second call of `block_on` posts to the stopped context: `run()` returns at once, and
the handler stays. -/
theorem stranded_handler :
    ¬∀ s, (system (countedContext (Handler (Fin 1) Unit)) (Fin 1)).Reachable s → Quiet s →
      (countedContext _).handlers s.context = [] := by
  intro h
  have hrun : ∃ s, (system (countedContext (Handler (Fin 1) Unit)) (Fin 1)).Reachable s ∧
      Quiet s ∧ (countedContext _).handlers s.context ≠ [] :=
    System.exists_reachable
      (blockOn 0 0 ++ postAndNotify 0 0 ++ List.replicate 4 (.worker 0 0)) (by decide)
  obtain ⟨s, hr, hq, hne⟩ := hrun
  exact hne (h s hr hq)

end Crasy.Executor.Core
