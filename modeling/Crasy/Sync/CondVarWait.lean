import Crasy.Sync.CondVar

/-!
# Waiting on a condition variable with a lock

Library `Sync`. Models the tasks that `co_await` the result of
`condition_variable::wait(lk)`, beside tasks that take and release `lk` and calls of the two
notify functions; `include/crasy/condition_variable.hpp:65–110`. `lk` is a lock with one owner
at a time. A wait future lives in the frame of the task that waits, so that it goes by that
task, which is also its handle.
-/

namespace Crasy.Sync.CondVar.Wait

open Crasy.Base

variable {ι ν : Type}

/-- Where a task stands: outside a wait, in front of `await_ready`, in front of
`await_suspend`, suspended in `waiters_`, suspended on `lk`, in front of `await_resume`, or
past it. -/
inductive TaskPc where
  | idle
  | ready
  | suspend
  | waiting
  | locking
  | resume
  | waited
  deriving DecidableEq, Repr

/-- The condition variable with the handles its core has yet to resume (`scheduled`), the
owner of `lk`, and the tasks. -/
structure State (ι ν : Type) where
  condvar : CondVar.State ι ι ν
  owner : Option ι
  tasks : ι → TaskPc

/-- The choices of the scheduler and of the program; `inner` is what the await_ready of the
future of `lk.lock()` would answer. -/
inductive Act (ι ν : Type) where
  | acquire (t : ι)
  | release (t : ι)
  | wait (t : ι)
  | awaitReady (t : ι) (inner : Bool)
  | awaitSuspend (t : ι)
  | granted (t : ι)
  | resume (t : ι)
  | awaitResume (t : ι)
  | leave (t : ι)
  | notifyOne (n : ν)
  | notifyAll (n : ν)
  | notifier (n : ν)
  deriving DecidableEq, Repr

/-- Nobody has waited, and `lk` is free. -/
def init : State ι ν := { condvar := CondVar.init, owner := none, tasks := fun _ ↦ .idle }

section Steps

variable [DecidableEq ι] [DecidableEq ν]

/-- Move one task. -/
def State.setTask (s : State ι ν) (t : ι) (pc : TaskPc) : State ι ν :=
  { s with tasks := Function.update s.tasks t pc }

/-- Change the wait future of a task. -/
def State.setFuture (s : State ι ν) (t : ι) (f : WaitFuture ι) : State ι ν :=
  { s with condvar := { s.condvar with futures := Function.update s.condvar.futures t f } }

/-- `await_ready` of the wait future. It answers yes only where the future of `lk.lock()`
does, which then has taken `lk`. -/
def awaitReady (s : State ι ν) (t : ι) (inner : Bool) : Option (State ι ν) :=
  let (f, ready) := (s.condvar.futures t).awaitReady inner
  if ready then
    if s.owner = none then some ({ s with owner := some t }.setFuture t f |>.setTask t .resume)
    else none
  else some ((s.setFuture t f).setTask t .suspend)

/-- `await_suspend` of the wait future pushes it to `waiters_`, or suspends on `lk`. -/
def awaitSuspend (s : State ι ν) (t : ι) : State ι ν :=
  let (f, pushes) := (s.condvar.futures t).awaitSuspend t
  if pushes then
    { s.setFuture t f with
      condvar := { (s.setFuture t f).condvar with
        waiters := s.condvar.waiters.push t
        registered := s.condvar.registered ++ [(t, t)] } }.setTask t .waiting
  else (s.setFuture t f).setTask t .locking

/-- A step of the condition variable itself. -/
def State.notify (s : State ι ν) (a : CondVar.Act ι ι ν) : Option (State ι ν) :=
  (CondVar.next s.condvar a).map fun c ↦ { s with condvar := c }

/-- One step of the tasks or of a notify call. `await_resume` has no meaning without an
`awaiter_`. -/
def next (s : State ι ν) : Act ι ν → Option (State ι ν)
  | .acquire t =>
    if s.tasks t = .idle ∧ s.owner = none then some { s with owner := some t } else none
  | .release t =>
    if s.tasks t = .idle ∧ s.owner = some t then some { s with owner := none } else none
  | .wait t =>
    if s.tasks t = .idle ∧ s.owner = some t then some ((s.setFuture t .new).setTask t .ready)
    else none
  | .awaitReady t inner => if s.tasks t = .ready then awaitReady s t inner else none
  | .awaitSuspend t => if s.tasks t = .suspend then some (awaitSuspend s t) else none
  | .granted t =>
    if s.tasks t = .locking ∧ s.owner = none then
      some ({ s with owner := some t }.setTask t .resume)
    else none
  | .resume t =>
    if s.tasks t = .waiting ∧ (t, t) ∈ s.condvar.scheduled then
      some ({ s with condvar := { s.condvar with
        scheduled := s.condvar.scheduled.erase (t, t) } }.setTask t .resume)
    else none
  | .awaitResume t =>
    if s.tasks t = .resume ∧ (s.condvar.futures t).awaiter then some (s.setTask t .waited)
    else none
  | .leave t => if s.tasks t = .waited then some (s.setTask t .idle) else none
  | .notifyOne n => s.notify (.notifyOne n)
  | .notifyAll n => s.notify (.notifyAll n)
  | .notifier n => s.notify (.notifier n)

/-- Tasks that wait on a condition variable with `lk`, under all interleavings. -/
def system (ι ν : Type) [DecidableEq ι] [DecidableEq ν] : System (State ι ν) (Act ι ν) :=
  { init := init, next := next }

end Steps

/-- What a wait owes its lock: a waiter that has not been notified does not hold `lk`, a wait
that completes does, and `await_resume` never runs without an `awaiter_`. -/
structure Lawful (s : State ι ν) : Prop where
  released : ∀ t, s.tasks t = .waiting → (s.condvar.futures t).notified = false →
    s.owner ≠ some t
  reacquired : ∀ t, s.tasks t = .waited → s.owner = some t
  awaiter : ∀ t, s.tasks t = .resume → (s.condvar.futures t).awaiter = true

/-! ### The lock is kept -/

/-- A task that a notify call has yet to pop or to notify. -/
def Pending (c : CondVar.State ι ι ν) (t : ι) : Prop :=
  t ∈ c.waiters.values ∨ ∃ n, (c.notifiers n).waiter = some t

/-- What every wait comes to: the lock stays with the task, and no `awaiter_` is ever made. -/
structure Kept (s : State ι ν) : Prop where
  holds : ∀ t, s.tasks t ≠ .idle → s.owner = some t
  stuck : ∀ t, s.tasks t ≠ .locking ∧ s.tasks t ≠ .waited
  fresh : ∀ t, s.tasks t = .ready ∨ s.tasks t = .suspend → s.condvar.futures t = .new
  noAwaiter : ∀ t, (s.condvar.futures t).awaiter = false
  pending : ∀ t, Pending s.condvar t → s.tasks t = .waiting ∨ s.tasks t = .resume

section Notify

variable [DecidableEq ι] [DecidableEq ν] {c c' : CondVar.State ι ι ν}

omit [DecidableEq ι] in
private theorem pending_setNotifier {n : ν} {pc : NotifyPc ι} {t : ι}
    (hp : Pending (c.setNotifier n pc) t) : Pending c t ∨ pc.waiter = some t := by
  rcases hp with hq | ⟨m, hm⟩
  · exact .inl (.inl hq)
  · by_cases hmn : m = n
    · subst hmn
      right
      simpa [CondVar.State.setNotifier] using hm
    · left
      right
      exact ⟨m, by simpa [CondVar.State.setNotifier, hmn] using hm⟩

/-- A step of a notify call makes nothing pending, and notifies only a task that is. -/
theorem notifierStep_cases {n : ν} (hn : notifierStep c n = some c') :
    (∀ t, Pending c' t → Pending c t) ∧ ∀ t, c'.futures t = c.futures t ∨
      Pending c t ∧ c'.futures t = (c.futures t).notify.1 := by
  cases hpc : c.notifiers n with
  | idle => simp [notifierStep, hpc] at hn
  | pop all =>
    simp only [notifierStep, hpc] at hn
    cases hn
    refine ⟨fun t ht ↦ ?_, fun t ↦ .inl rfl⟩
    rcases pending_setNotifier ht with (hq | htaken) | hw
    · exact .inl (c.waiters.pop_values_subset hq)
    · exact .inr htaken
    · left
      cases hp : c.waiters.pop.1 with
      | none =>
        rw [hp] at hw
        cases hw
      | some w =>
        rw [hp] at hw
        cases hw
        rw [LfQueue.Content.pop_some hp]
        exact List.mem_cons_self
  | notify all w =>
    simp only [notifierStep, hpc] at hn
    cases hn
    have hw : Pending c w := .inr ⟨n, by rw [hpc]; rfl⟩
    refine ⟨fun t ht ↦ ?_, fun t ↦ ?_⟩
    · rcases pending_setNotifier ht with ht | hnone
      · exact ht
      · cases all <;> cases hnone
    · by_cases ht : t = w
      · subst ht
        exact .inr ⟨hw, Function.update_self ..⟩
      · exact .inl (Function.update_of_ne ht ..)

end Notify

namespace Kept

variable {s s' : State ι ν}

private theorem of_owner {o : Option ι} (h : Kept s) (hidle : ∀ t, s.tasks t = .idle) :
    Kept { s with owner := o } :=
  { h with holds := fun t ht ↦ absurd (hidle t) ht }

variable [DecidableEq ι]

private theorem of_task {t : ι} {c : CondVar.State ι ι ν} {pc : TaskPc} (h : Kept s)
    (ho : s.owner = some t) (hfut : ∀ u, u ≠ t → c.futures u = s.condvar.futures u)
    (hpend : ∀ u, u ≠ t → Pending c u → Pending s.condvar u)
    (hstuck : pc ≠ .locking ∧ pc ≠ .waited)
    (hfresh : pc = .ready ∨ pc = .suspend → c.futures t = .new)
    (hnone : (c.futures t).awaiter = false)
    (hself : Pending c t → pc = .waiting ∨ pc = .resume) :
    Kept ({ s with condvar := c }.setTask t pc) := by
  have htask : ({ s with condvar := c }.setTask t pc).tasks t = pc := Function.update_self ..
  have hother {u : ι} (hu : u ≠ t) :
      ({ s with condvar := c }.setTask t pc).tasks u = s.tasks u := Function.update_of_ne hu ..
  constructor
  · intro u hu
    by_cases hut : u = t
    · exact hut ▸ ho
    · rw [hother hut] at hu
      exact h.holds u hu
  · intro u
    by_cases hut : u = t
    · rw [hut, htask]
      exact hstuck
    · rw [hother hut]
      exact h.stuck u
  · intro u hu
    by_cases hut : u = t
    · subst hut
      rw [htask] at hu
      exact hfresh hu
    · rw [hother hut] at hu
      exact (hfut u hut).trans (h.fresh u hu)
  · intro u
    by_cases hut : u = t
    · exact hut ▸ hnone
    · change (c.futures u).awaiter = false
      rw [hfut u hut]
      exact h.noAwaiter u
  · intro u hu
    by_cases hut : u = t
    · subst hut
      rw [htask]
      exact hself hu
    · rw [hother hut]
      exact h.pending u (hpend u hut hu)

omit [DecidableEq ι] in
private theorem not_pending {t : ι} (h : Kept s)
    (ht : s.tasks t ≠ .waiting ∧ s.tasks t ≠ .resume) : ¬Pending s.condvar t := by
  intro hp
  rcases h.pending t hp with hw | hr
  · exact ht.1 hw
  · exact ht.2 hr

private theorem of_future {t : ι} {f : WaitFuture ι} {pc : TaskPc} (h : Kept s)
    (ho : s.owner = some t)
    (ht : s.tasks t ≠ .waiting ∧ s.tasks t ≠ .resume)
    (hpc : pc = .ready ∨ pc = .suspend) (hf : f = .new) :
    Kept ((s.setFuture t f).setTask t pc) := by
  have hfut : Function.update s.condvar.futures t f t = .new := by rw [Function.update_self, hf]
  refine h.of_task (c := (s.setFuture t f).condvar) ho
    (fun u hu ↦ Function.update_of_ne hu ..) (fun u _ hp ↦ hp) ?_ (fun _ ↦ hfut) ?_
    fun hp ↦ absurd hp (h.not_pending ht)
  · rcases hpc with rfl | rfl <;> decide
  · change (Function.update s.condvar.futures t f t).awaiter = false
    rw [hfut]
    rfl

/-- `await_suspend` pushes the future to `waiters_`; `lk` is not touched. -/
theorem awaitSuspend {t : ι} (h : Kept s) (ht : s.tasks t = .suspend) :
    Kept (awaitSuspend s t) := by
  have hnew := h.fresh t (.inr ht)
  have ho := h.holds t (by rw [ht]; decide)
  simp only [Wait.awaitSuspend, hnew, WaitFuture.awaitSuspend_new, if_true]
  refine h.of_task ho (fun u hu ↦ Function.update_of_ne hu ..) (fun u hu hp ↦ ?_) (by decide)
    (by simp) ?_ fun _ ↦ .inl rfl
  · rcases hp with hq | htaken
    · rcases List.mem_append.mp hq with hq | hq
      · exact .inl hq
      · exact absurd (List.mem_singleton.mp hq) hu
    · exact .inr htaken
  · simp [State.setFuture]

variable [DecidableEq ν]

private theorem of_notify {n : ν} {a : CondVar.Act ι ι ν} (h : Kept s)
    (ha : a = .notifyOne n ∨ a = .notifyAll n ∨ a = .notifier n)
    (hn : s.notify a = some s') : Kept s' := by
  obtain ⟨c, hc, rfl⟩ := Option.map_eq_some_iff.mp hn
  have hcases : (∀ t, Pending c t → Pending s.condvar t) ∧ ∀ t, c.futures t =
      s.condvar.futures t ∨ Pending s.condvar t ∧
        c.futures t = (s.condvar.futures t).notify.1 := by
    rcases ha with rfl | rfl | rfl
    case inr.inr => exact notifierStep_cases hc
    all_goals
      simp only [CondVar.next] at hc
      split at hc
      · cases hc
        refine ⟨fun t ht ↦ ?_, fun t ↦ .inl rfl⟩
        rcases pending_setNotifier ht with hp | hw
        · exact hp
        · cases hw
      · cases hc
  obtain ⟨hpend, hfut⟩ := hcases
  refine ⟨h.holds, h.stuck, fun t ht ↦ ?_, fun t ↦ ?_, fun t ht ↦ h.pending t (hpend t ht)⟩
  · rcases hfut t with he | ⟨hp, -⟩
    · exact he.trans (h.fresh t ht)
    · have hpc : s.tasks t = .ready ∨ s.tasks t = .suspend := ht
      refine absurd hp (h.not_pending ?_)
      rcases hpc with hpc | hpc <;> simp [hpc]
  · rcases hfut t with he | ⟨-, he⟩
    · exact (congrArg WaitFuture.awaiter he).trans (h.noAwaiter t)
    · exact (congrArg WaitFuture.awaiter he).trans (h.noAwaiter t)

/-- Every step keeps the lock with the tasks that wait. -/
theorem next {a : Act ι ν} (h : Kept s) (hn : Wait.next s a = some s') : Kept s' := by
  have hall {t : ι} (ht : s.tasks t = .idle) (ho : s.owner = none ∨ s.owner = some t) :
      ∀ u, s.tasks u = .idle := by
    intro u
    by_contra hu
    rcases ho with ho | ho
    · have := (h.holds u hu).symm.trans ho
      cases this
    · have hut : u = t := Option.some.inj ((h.holds u hu).symm.trans ho)
      exact hu (hut ▸ ht)
  cases a with
  | acquire t =>
    obtain ⟨⟨ht, ho⟩, rfl⟩ : (s.tasks t = .idle ∧ s.owner = none) ∧
      { s with owner := some t } = s' := by simpa [Wait.next] using hn
    exact h.of_owner (hall ht (.inl ho))
  | release t =>
    obtain ⟨⟨ht, ho⟩, rfl⟩ : (s.tasks t = .idle ∧ s.owner = some t) ∧
      { s with owner := none } = s' := by simpa [Wait.next] using hn
    exact h.of_owner (hall ht (.inr ho))
  | wait t =>
    obtain ⟨⟨ht, ho⟩, rfl⟩ : (s.tasks t = .idle ∧ s.owner = some t) ∧
      (s.setFuture t .new).setTask t .ready = s' := by simpa [Wait.next] using hn
    exact h.of_future ho (by simp [ht]) (.inl rfl) rfl
  | awaitReady t inner =>
    obtain ⟨ht, hn⟩ : s.tasks t = .ready ∧ awaitReady s t inner = some s' := by
      simpa [Wait.next] using hn
    have ho := h.holds t (by rw [ht]; decide)
    rw [Wait.awaitReady, h.fresh t (.inl ht)] at hn
    cases hn
    exact h.of_future ho (by simp [ht]) (.inr rfl) rfl
  | awaitSuspend t =>
    obtain ⟨ht, rfl⟩ : s.tasks t = .suspend ∧ Wait.awaitSuspend s t = s' := by
      simpa [Wait.next] using hn
    exact h.awaitSuspend ht
  | granted t =>
    simp [Wait.next, (h.stuck t).1] at hn
  | resume t =>
    obtain ⟨⟨ht, -⟩, rfl⟩ : (s.tasks t = .waiting ∧ (t, t) ∈ s.condvar.scheduled) ∧
      { s with condvar := { s.condvar with
        scheduled := s.condvar.scheduled.erase (t, t) } }.setTask t .resume = s' := by
      simpa [Wait.next] using hn
    exact h.of_task (h.holds t (by rw [ht]; decide)) (fun _ _ ↦ rfl) (fun _ _ hp ↦ hp)
      (by decide) (by simp) (h.noAwaiter t) fun _ ↦ .inr rfl
  | awaitResume t =>
    simp [Wait.next, h.noAwaiter t] at hn
  | leave t =>
    simp [Wait.next, (h.stuck t).2] at hn
  | notifyOne n => exact h.of_notify (.inl rfl) hn
  | notifyAll n => exact h.of_notify (.inr (.inl rfl)) hn
  | notifier n => exact h.of_notify (.inr (.inr rfl)) hn

end Kept

section Lawful

variable [DecidableEq ι] [DecidableEq ν]

/-- Whether an action is the `await_suspend` of a wait. -/
def Act.suspends : Act ι ν → Bool
  | .awaitSuspend _ => true
  | _ => false

/-- No task has got past `await_ready` of a wait. -/
def Unsuspended (s : State ι ν) : Prop :=
  ∀ t, s.tasks t = .idle ∨ s.tasks t = .ready ∨ s.tasks t = .suspend

/-- Only `await_suspend` takes a task past `await_ready`, which always answers no. -/
theorem Unsuspended.next {s s' : State ι ν} {a : Act ι ν} (h : Unsuspended s) (hk : Kept s)
    (ha : a.suspends = false) (hn : next s a = some s') : Unsuspended s' := by
  have htask {s : State ι ν} {t : ι} {pc : TaskPc} (h : Unsuspended s)
      (hpc : pc = .idle ∨ pc = .ready ∨ pc = .suspend) : Unsuspended (s.setTask t pc) := by
    intro u
    by_cases hu : u = t
    · subst hu
      simpa [State.setTask] using hpc
    · simpa [State.setTask, hu] using h u
  have hnot {t : ι} {pc : TaskPc} (hpc : pc ≠ .idle ∧ pc ≠ .ready ∧ pc ≠ .suspend) :
      s.tasks t ≠ pc := by
    intro ht
    have := h t
    simp_all
  cases a with
  | acquire t | release t =>
    simp only [Wait.next] at hn
    split at hn <;> cases hn
    exact h
  | wait t =>
    simp only [Wait.next] at hn
    split at hn <;> cases hn
    exact htask (s := s.setFuture t .new) h (.inr (.inl rfl))
  | awaitReady t inner =>
    simp only [Wait.next] at hn
    split at hn
    · next ht =>
      rw [awaitReady, hk.fresh t (.inl ht)] at hn
      cases hn
      exact htask (s := s.setFuture t .new) h (.inr (.inr rfl))
    · cases hn
  | awaitSuspend t => cases ha
  | granted t => simp [Wait.next, hnot] at hn
  | resume t => simp [Wait.next, hnot] at hn
  | awaitResume t => simp [Wait.next, hnot] at hn
  | leave t => simp [Wait.next, hnot] at hn
  | notifyOne n | notifyAll n | notifier n =>
    obtain ⟨c, -, rfl⟩ := Option.map_eq_some_iff.mp hn
    exact h

omit [DecidableEq ι] [DecidableEq ν] in
/-- While nobody has suspended, nothing is owed. -/
theorem Unsuspended.lawful {s : State ι ν} (h : Unsuspended s) : Lawful s := by
  constructor
  all_goals
    intro t ht
    have := h t
    simp [ht] at this

private theorem not_lawful_awaitSuspend {s s' : State ι ν} {a : Act ι ν} (hk : Kept s)
    (ha : ¬a.suspends = false) (hn : next s a = some s') : ¬Lawful s' := by
  cases a with
  | awaitSuspend t =>
    simp only [Wait.next] at hn
    split at hn
    · next ht =>
      cases hn
      intro hl
      have hnew := hk.fresh t (.inr ht)
      have ho := hk.holds t (by rw [ht]; decide)
      have hnot := hl.released t
      simp only [awaitSuspend, hnew, WaitFuture.awaitSuspend_new, if_true] at hnot
      simp [State.setTask, State.setFuture, ho] at hnot
    · cases hn
  | _ => exact absurd rfl ha

/-- A run is lawful throughout exactly when no wait in it gets to its `await_suspend`. One that
does keeps `lk`, comes to `await_resume` without an `awaiter_`, and never completes. -/
theorem lawful_iff {acts : List (Act ι ν)} {s : State ι ν} (hr : (system ι ν).Run acts s) :
    ((∀ before t, before <+: acts → (system ι ν).Run before t → Lawful t) ↔
      (system ι ν).RunBy (fun _ a ↦ a.suspends = false) acts s) ∧
    ∀ t, (s.tasks t = .waiting ∨ s.tasks t = .resume →
      s.owner = some t ∧ (s.condvar.futures t).awaiter = false) ∧ s.tasks t ≠ .waited := by
  have hkept : Kept (system ι ν).init := by
    constructor <;> simp [system, init, CondVar.init, WaitFuture.new, Pending,
      LfQueue.Content.empty, NotifyPc.waiter]
  have hfirst : Unsuspended (system ι ν).init := fun t ↦ .inl rfl
  constructor
  · exact hr.passes_iff ⟨hkept, hfirst⟩ (fun _ _ _ hk hn ↦ hk.next hn)
      (fun _ _ _ hk hu ha hn ↦ hu.next hk ha hn) (fun _ _ hu ↦ hu.lawful)
      fun _ _ _ hk _ ha hn ↦ not_lawful_awaitSuspend hk ha hn
  · have h : Kept s := hr.invariant (I := fun _ s ↦ Kept s) hkept fun _ _ _ _ hk _ hn ↦ hk.next hn
    refine fun t ↦ ⟨fun ht ↦ ⟨h.holds t ?_, h.noAwaiter t⟩, (h.stuck t).2⟩
    rcases ht with ht | ht <;> simp [ht]

end Lawful

/-- A task takes `lk`, waits on the condition variable and suspends. -/
def lockAndWait (t : ι) : List (Act ι ν) :=
  [.acquire t, .wait t, .awaitReady t false, .awaitSuspend t]

/-- A task notifies and releases `lk`, and another takes it and begins to wait. -/
def notifyThenLock (t u : ι) (n : ν) : List (Act ι ν) :=
  [.acquire t, .notifyOne n, .notifier n, .release t, .acquire u, .wait u]

/-- Until the wait suspends all is well. -/
theorem lawful_iff_notifyThenLock : ∃ s, (system (Fin 2) (Fin 1)).Run (notifyThenLock 0 1 0) s ∧
    s.owner = some 1 ∧ Lawful s := by
  have hrun : ∃ s, (system (Fin 2) (Fin 1)).RunBy (fun _ a ↦ a.suspends = false)
      (notifyThenLock 0 1 0) s ∧ s.owner = some 1 :=
    System.exists_runBy _ (by decide)
  obtain ⟨s, hgood, ho⟩ := hrun
  have hr : (system (Fin 2) (Fin 1)).Run (notifyThenLock 0 1 0) s := hgood.mono fun _ _ _ ↦ trivial
  exact ⟨s, hr, ho, (lawful_iff hr).1.mpr hgood _ s List.prefix_rfl hr⟩

/-- A task that waits keeps `lk` while it is suspended. -/
theorem not_lawful_lockAndWait : ¬∀ s, (system (Fin 1) (Fin 1)).Reachable s → Lawful s := by
  intro h
  have hrun : ∃ s, (system (Fin 1) (Fin 1)).Reachable s ∧ s.tasks 0 = .waiting ∧
      (s.condvar.futures 0).notified = false ∧ s.owner = some 0 :=
    System.exists_reachable (lockAndWait 0) (by decide)
  obtain ⟨s, hr, ht, hnotified, ho⟩ := hrun
  exact (h s hr).released 0 ht hnotified ho

end Crasy.Sync.CondVar.Wait
