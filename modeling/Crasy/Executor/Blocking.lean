import Crasy.Base.System
import Crasy.Base.Tally
import Crasy.LfQueue.Fifo

/-!
# The blocking pool of the executor

Library `Executor`. Models `run_blocking`, `blocking_work` and the blocking half of the
destructor (`src/executor.cpp:71–77,129–134,150–166`), one action for each queue
operation, atomic access, lock operation, predicate evaluation, wait and notification.
The mutex and the condition variable are the standard ones: a notification reaches only a
worker that is already blocked, and a worker may also wake spuriously.
-/

namespace Crasy.Executor.Blocking

open Crasy.Base Crasy.LfQueue

variable {ω κ τ : Type}

/-- Where a worker stands in `blocking_work`. From `evaluate` to `block` or `checkDone` it
holds `blocking_mut_`. -/
inductive WorkerPc (τ : Type) where
  | pop
  | fetchSub (task : τ)
  | invoke (task : τ)
  | lock
  | evaluate
  | block
  | blocked
  | relock
  | checkDone
  | exited
  deriving DecidableEq, Repr

/-- Where a caller stands in `run_blocking`. -/
inductive CallerPc (τ : Type) where
  | idle
  | push (task : τ)
  | fetchAdd
  | tryLock
  | unlock
  | notify
  deriving DecidableEq, Repr

/-- Where the destructor stands. -/
inductive DestructorPc where
  | idle
  | lock
  | setDone
  | unlock
  | notifyAll
  | join
  | joined
  deriving DecidableEq, Repr

/-- The pool: `blocking_tasks_`, `blocking_waiting_`, whether `blocking_mut_` is locked,
`blocking_done_`, the threads, and the tasks whose functions were invoked. -/
structure State (ω κ τ : Type) where
  tasks : Content τ
  waiting : BitVec 64
  locked : Bool
  done : Bool
  workers : ω → WorkerPc τ
  callers : κ → CallerPc τ
  destructor : DestructorPc
  invoked : List τ

/-- The choices of the scheduler. A caller's step carries the worker that a notification
reaches; it is read only by `notify_one`. -/
inductive Act (ω κ τ : Type) where
  | call (c : κ) (task : τ)
  | caller (c : κ) (wakes : Option ω)
  | worker (w : ω)
  | spurious (w : ω)
  | destroy
  deriving DecidableEq, Repr

/-- A pool just constructed: every worker is about to pop. -/
def init : State ω κ τ :=
  { tasks := .empty, waiting := 0, locked := false, done := false, workers := fun _ ↦ .pop,
    callers := fun _ ↦ .idle, destructor := .idle, invoked := [] }

/-- The predicate of the wait; `src/executor.cpp:159–162`. -/
def State.ready (s : State ω κ τ) : Bool := s.done || decide (0 < s.waiting)

/-- Move one worker. -/
def State.setWorker [DecidableEq ω] (s : State ω κ τ) (w : ω) (pc : WorkerPc τ) : State ω κ τ :=
  { s with workers := Function.update s.workers w pc }

/-- Move one caller. -/
def State.setCaller [DecidableEq κ] (s : State ω κ τ) (c : κ) (pc : CallerPc τ) : State ω κ τ :=
  { s with callers := Function.update s.callers c pc }

@[simp] theorem setWorker_workers [DecidableEq ω] (s : State ω κ τ) (w : ω) (pc : WorkerPc τ) :
    (s.setWorker w pc).workers = Function.update s.workers w pc := rfl

@[simp] theorem setCaller_callers [DecidableEq κ] (s : State ω κ τ) (c : κ) (pc : CallerPc τ) :
    (s.setCaller c pc).callers = Function.update s.callers c pc := rfl

section Steps

variable [DecidableEq ω] [DecidableEq κ]

/-- The next step of a worker; `blocking_work`, `src/executor.cpp:150–166`. -/
def workerStep (s : State ω κ τ) (w : ω) : Option (State ω κ τ) :=
  match s.workers w with
  | .pop =>
    let (task, tasks) := s.tasks.pop
    some ({ s with tasks := tasks }.setWorker w
      (match task with | some t => .fetchSub t | none => .lock))
  | .fetchSub t => some ({ s with waiting := s.waiting - 1 }.setWorker w (.invoke t))
  | .invoke t => some ({ s with invoked := s.invoked ++ [t] }.setWorker w .pop)
  | .lock | .relock =>
    if s.locked then none else some ({ s with locked := true }.setWorker w .evaluate)
  | .evaluate => some (s.setWorker w (if s.ready then .checkDone else .block))
  | .block => some ({ s with locked := false }.setWorker w .blocked)
  | .checkDone =>
    some ({ s with locked := false }.setWorker w (if s.done then .exited else .pop))
  | .blocked | .exited => none

variable [DecidableEq τ] [Fintype ω]

/-- `notify_one`: one blocked worker wakes, if there is one. -/
def notifyOne (s : State ω κ τ) : Option ω → Option (State ω κ τ)
  | some w => if s.workers w = .blocked then some (s.setWorker w .relock) else none
  | none => if ∀ w, s.workers w ≠ .blocked then some s else none

/-- The next step of a call; `run_blocking`, `src/executor.cpp:129–134`. -/
def callerStep (s : State ω κ τ) (c : κ) (wakes : Option ω) : Option (State ω κ τ) :=
  match s.callers c with
  | .push t => some ({ s with tasks := s.tasks.push t }.setCaller c .fetchAdd)
  | .fetchAdd => some ({ s with waiting := s.waiting + 1 }.setCaller c .tryLock)
  | .tryLock =>
    some (if s.locked then s.setCaller c .notify
      else { s with locked := true }.setCaller c .unlock)
  | .unlock => some ({ s with locked := false }.setCaller c .notify)
  | .notify => (notifyOne s wakes).map fun s ↦ s.setCaller c .idle
  | .idle => none

/-- The next step of the destructor; `src/executor.cpp:71–77`. -/
def destructorStep (s : State ω κ τ) : Option (State ω κ τ) :=
  match s.destructor with
  | .idle => some { s with destructor := .lock }
  | .lock => if s.locked then none else some { s with locked := true, destructor := .setDone }
  | .setDone => some { s with done := true, destructor := .unlock }
  | .unlock => some { s with locked := false, destructor := .notifyAll }
  | .notifyAll =>
    some { s with
      workers := fun w ↦ if s.workers w = .blocked then .relock else s.workers w
      destructor := .join }
  | .join => if ∀ w, s.workers w = .exited then some { s with destructor := .joined } else none
  | .joined => none

/-- One step of the pool. -/
def next (s : State ω κ τ) : Act ω κ τ → Option (State ω κ τ)
  | .call c t => if s.callers c = .idle then some (s.setCaller c (.push t)) else none
  | .caller c wakes => callerStep s c wakes
  | .worker w => workerStep s w
  | .spurious w => if s.workers w = .blocked then some (s.setWorker w .relock) else none
  | .destroy => destructorStep s

/-- The pool under all interleavings of its threads. -/
def system (ω κ τ : Type) [DecidableEq ω] [DecidableEq κ] [DecidableEq τ] [Fintype ω] :
    System (State ω κ τ) (Act ω κ τ) := { init := init, next := next }

end Steps

/-! ### What a step does -/

/-- The worker's last pop has found nothing. -/
def WorkerPc.Waiting : WorkerPc τ → Prop
  | .pop | .fetchSub _ | .invoke _ => False
  | .lock | .evaluate | .block | .blocked | .relock | .checkDone | .exited => True

/-- A worker's step takes a task one stage further, or is one of its steps around the wait, from
which it goes back to the queue only while the pool is not shutting down. -/
inductive WorkerMoves [DecidableEq ω] (s : State ω κ τ) (w : ω) : State ω κ τ → Prop where
  | pop_none (hpc : s.workers w = .pop) (hp : s.tasks.pop.1 = none) :
      WorkerMoves s w ({ s with tasks := s.tasks.pop.2 }.setWorker w .lock)
  | pop_some {t : τ} (hpc : s.workers w = .pop) (hp : s.tasks.pop.1 = some t) :
      WorkerMoves s w ({ s with tasks := s.tasks.pop.2 }.setWorker w (.fetchSub t))
  | fetchSub {t : τ} (hpc : s.workers w = .fetchSub t) :
      WorkerMoves s w ({ s with waiting := s.waiting - 1 }.setWorker w (.invoke t))
  | invoke {t : τ} (hpc : s.workers w = .invoke t) :
      WorkerMoves s w ({ s with invoked := s.invoked ++ [t] }.setWorker w .pop)
  | wait {pc : WorkerPc τ} {locked : Bool} (hpc : (s.workers w).Waiting)
      (hto : pc.Waiting ∨ pc = .pop ∧ s.done = false)
      (hblock : pc = .block → s.workers w = .evaluate ∧ s.ready = false)
      (hblocked : pc = .blocked → s.workers w = .block) :
      WorkerMoves s w ({ s with locked := locked }.setWorker w pc)

/-- A worker has no other steps. -/
theorem workerStep_moves [DecidableEq ω] {s s' : State ω κ τ} {w : ω}
    (hn : workerStep s w = some s') : WorkerMoves s w s' := by
  simp only [workerStep] at hn
  split at hn
  · next hpc =>
    cases hn
    cases hp : s.tasks.pop.1 with
    | none => exact .pop_none hpc hp
    | some t => exact .pop_some hpc hp
  · next hpc =>
    cases hn
    exact .fetchSub hpc
  · next hpc =>
    cases hn
    exact .invoke hpc
  · next hpc =>
    split at hn
    · cases hn
    · cases hn
      exact .wait (by simp [hpc, WorkerPc.Waiting]) (.inl trivial) (by simp) (by simp)
  · next hpc =>
    split at hn
    · cases hn
    · cases hn
      exact .wait (by simp [hpc, WorkerPc.Waiting]) (.inl trivial) (by simp) (by simp)
  · next hpc =>
    cases hn
    cases hr : s.ready with
    | true => exact .wait (by simp [hpc, WorkerPc.Waiting]) (.inl trivial) (by simp) (by simp)
    | false =>
      exact .wait (by simp [hpc, WorkerPc.Waiting]) (.inl trivial) (fun _ ↦ ⟨hpc, hr⟩) (by simp)
  · next hpc =>
    cases hn
    exact .wait (by simp [hpc, WorkerPc.Waiting]) (.inl trivial) (by simp) fun _ ↦ hpc
  · next hpc =>
    cases hn
    by_cases hd : s.done = true
    · rw [if_pos hd]
      exact .wait (by simp [hpc, WorkerPc.Waiting]) (.inl trivial) (by simp) (by simp)
    · rw [if_neg hd]
      refine .wait (by simp [hpc, WorkerPc.Waiting]) (.inr ⟨rfl, ?_⟩) (by simp) (by simp)
      exact Bool.eq_false_iff.mpr hd
  all_goals cases hn

/-- A caller publishes its task, counts it, tries the mutex, and wakes a blocked worker if there
is one. -/
inductive CallerMoves [DecidableEq ω] [DecidableEq κ] (s : State ω κ τ) (c : κ) :
    State ω κ τ → Prop where
  | push {t : τ} (hpc : s.callers c = .push t) :
      CallerMoves s c ({ s with tasks := s.tasks.push t }.setCaller c .fetchAdd)
  | fetchAdd (hpc : s.callers c = .fetchAdd) :
      CallerMoves s c ({ s with waiting := s.waiting + 1 }.setCaller c .tryLock)
  | tryLock {pc : CallerPc τ} {locked : Bool} (hpc : s.callers c = .tryLock)
      (hto : pc = .unlock ∨ pc = .notify) :
      CallerMoves s c ({ s with locked := locked }.setCaller c pc)
  | unlock (hpc : s.callers c = .unlock) :
      CallerMoves s c ({ s with locked := false }.setCaller c .notify)
  | notify (hpc : s.callers c = .notify) (hnone : ∀ w, s.workers w ≠ .blocked) :
      CallerMoves s c (s.setCaller c .idle)
  | wake {w : ω} (hpc : s.callers c = .notify) (hb : s.workers w = .blocked) :
      CallerMoves s c ((s.setWorker w .relock).setCaller c .idle)

section Moves

variable [DecidableEq ω] [DecidableEq κ] [DecidableEq τ] [Fintype ω] {s s' : State ω κ τ}

/-- A call has no other steps. -/
theorem callerStep_moves {c : κ} {wakes : Option ω} (hn : callerStep s c wakes = some s') :
    CallerMoves s c s' := by
  simp only [callerStep] at hn
  split at hn
  · next hpc =>
    cases hn
    exact .push hpc
  · next hpc =>
    cases hn
    exact .fetchAdd hpc
  · next hpc =>
    cases hn
    split
    · exact .tryLock hpc (.inr rfl)
    · exact .tryLock hpc (.inl rfl)
  · next hpc =>
    cases hn
    exact .unlock hpc
  · next hpc =>
    obtain ⟨t, ht, rfl⟩ := Option.map_eq_some_iff.mp hn
    cases wakes with
    | none =>
      simp only [notifyOne] at ht
      split at ht
      · next hnone =>
        cases ht
        exact .notify hpc hnone
      · cases ht
    | some w =>
      simp only [notifyOne] at ht
      split at ht
      · next hb =>
        cases ht
        exact .wake hpc hb
      · cases ht
  · cases hn

omit [DecidableEq ω] [DecidableEq κ] in
/-- A step of the destructor moves no task, and of the workers it only wakes blocked ones. -/
theorem destructorStep_cases (hn : destructorStep s = some s') :
    s'.tasks = s.tasks ∧ s'.waiting = s.waiting ∧ s'.callers = s.callers ∧
      s'.invoked = s.invoked ∧
        ∀ w, s'.workers w = s.workers w ∨ s.workers w = .blocked ∧ s'.workers w = .relock := by
  simp only [destructorStep] at hn
  split at hn
  · cases hn
    exact ⟨rfl, rfl, rfl, rfl, fun _ ↦ .inl rfl⟩
  · split at hn
    · cases hn
    · cases hn
      exact ⟨rfl, rfl, rfl, rfl, fun _ ↦ .inl rfl⟩
  · cases hn
    exact ⟨rfl, rfl, rfl, rfl, fun _ ↦ .inl rfl⟩
  · cases hn
    exact ⟨rfl, rfl, rfl, rfl, fun _ ↦ .inl rfl⟩
  · cases hn
    refine ⟨rfl, rfl, rfl, rfl, fun w ↦ ?_⟩
    by_cases hb : s.workers w = .blocked <;> simp [hb]
  · split at hn
    · cases hn
      exact ⟨rfl, rfl, rfl, rfl, fun _ ↦ .inl rfl⟩
    · cases hn
  · cases hn

omit [DecidableEq ω] [DecidableEq κ] [DecidableEq τ] in
/-- Waking blocked workers changes no tally that does not tell them from woken ones. -/
theorem tally_woken {weight : WorkerPc τ → Nat} (hsame : weight .blocked = weight .relock)
    (hw : ∀ w, s'.workers w = s.workers w ∨ s.workers w = .blocked ∧ s'.workers w = .relock) :
    tally weight s'.workers = tally weight s.workers := by
  apply Finset.sum_congr rfl
  intro w _
  rcases hw w with he | ⟨hb, hr⟩
  · rw [he]
  · rw [hb, hr, hsame]

end Moves

/-! ### The pending counter -/

/-- One for a caller between its push and its `fetch_add`. -/
def CallerPc.adding : CallerPc τ → Nat
  | .fetchAdd => 1
  | _ => 0

/-- One for a worker between its pop of a task and its `fetch_sub`. -/
def WorkerPc.discounting : WorkerPc τ → Nat
  | .fetchSub _ => 1
  | _ => 0

/-- How many `fetch_add`s a step performs. -/
def Act.adds (s : State ω κ τ) : Act ω κ τ → Nat
  | .caller c _ => (s.callers c).adding
  | .call _ _ | .worker _ | .spurious _ | .destroy => 0

/-- How many `fetch_sub`s a step performs. -/
def Act.subs (s : State ω κ τ) : Act ω κ τ → Nat
  | .worker w => (s.workers w).discounting
  | .call _ _ | .caller _ _ | .spurious _ | .destroy => 0

private theorem WorkerPc.Waiting.discounting {pc : WorkerPc τ} (h : pc.Waiting) :
    pc.discounting = 0 := by
  cases pc <;> first | rfl | cases h

/-- The worker has found the wait predicate false and is blocked or about to block. -/
def WorkerPc.Asleep (pc : WorkerPc τ) : Prop := pc = .block ∨ pc = .blocked

/-- Tasks that are queued, or popped and not yet discounted. -/
def State.pending [Fintype ω] (s : State ω κ τ) : Nat :=
  s.tasks.values.length + tally WorkerPc.discounting s.workers

/-- The caller has published its task and has yet to try the mutex. -/
def CallerPc.Early (pc : CallerPc τ) : Prop := pc = .fetchAdd ∨ pc = .tryLock

/-- The caller has tried the mutex and has yet to notify. -/
def CallerPc.Late (pc : CallerPc τ) : Prop := pc = .unlock ∨ pc = .notify

/-- The steps at which no wakeup is lost. `run_blocking` tries the mutex only while no
worker that found the predicate false still holds it; and a worker evaluates the predicate
only while fewer than `2 ^ 64` tasks are pending, so that the counter cannot be back
at 0. -/
def StepOk [Fintype ω] (s : State ω κ τ) : Act ω κ τ → Prop
  | .caller c _ => s.callers c = .tryLock → ∀ w, s.workers w ≠ .block
  | .worker w => s.workers w = .evaluate → s.pending < 2 ^ 64
  | _ => True

section Counter

variable [Fintype ω] [Fintype κ]

/-- The counter with the callers yet to count agrees with the pending tasks, modulo the
width of the counter. -/
def Counted (s : State ω κ τ) : Prop :=
  (s.waiting.toNat + tally CallerPc.adding s.callers) % 2 ^ 64 = s.pending % 2 ^ 64

/-- While tasks are queued and all workers are asleep, some caller has yet to reach its
`try_lock`, or has passed it with no worker about to block and has yet to notify. -/
def Watched (s : State ω κ τ) : Prop :=
  s.tasks.values ≠ [] → (∀ w, (s.workers w).Asleep) →
    (∃ c, (s.callers c).Early) ∨ (∀ w, s.workers w ≠ .block) ∧ ∃ c, (s.callers c).Late

end Counter

section Preservation

variable [Fintype ω] [Fintype κ] {s s' u : State ω κ τ} {added subbed : Nat}

/-- What a step with so many `fetch_add`s and `fetch_sub`s does to the counter, to the pending
tasks and to the callers yet to count. -/
structure Counts (added subbed : Nat) (s s' : State ω κ τ) : Prop where
  waiting : (s'.waiting.toNat + subbed) % 2 ^ 64 = (s.waiting.toNat + added) % 2 ^ 64
  balance : s.pending + tally CallerPc.adding s'.callers + added =
    s'.pending + tally CallerPc.adding s.callers + subbed

private theorem Counts.of_eq (hw : tally WorkerPc.discounting s'.workers =
      tally WorkerPc.discounting s.workers) (hc : s'.callers = s.callers)
    (hn : s'.waiting = s.waiting) (ht : s'.tasks = s.tasks) : Counts 0 0 s s' := by
  refine ⟨by rw [hn], ?_⟩
  simp only [State.pending]
  rw [hw, hc, ht]

private theorem Counts.worker [DecidableEq ω] {w : ω} {pc : WorkerPc τ}
    (hw : s'.workers = Function.update s.workers w pc) (hc : s'.callers = s.callers)
    (hn : (s'.waiting.toNat + subbed) % 2 ^ 64 = s.waiting.toNat % 2 ^ 64)
    (hp : s'.tasks.values.length + pc.discounting + subbed =
      s.tasks.values.length + (s.workers w).discounting) : Counts 0 subbed s s' := by
  have hu := tally_update WorkerPc.discounting s.workers w pc
  refine ⟨hn, ?_⟩
  simp only [State.pending]
  rw [hw, hc]
  omega

private theorem Counts.caller [DecidableEq κ] {c : κ} {pc : CallerPc τ}
    (hc : s'.callers = Function.update s.callers c pc) (hw : s'.workers = s.workers)
    (hn : s'.waiting.toNat % 2 ^ 64 = (s.waiting.toNat + added) % 2 ^ 64)
    (hp : s.tasks.values.length + pc.adding + added =
      s'.tasks.values.length + (s.callers c).adding) : Counts added 0 s s' := by
  have hu := tally_update CallerPc.adding s.callers c pc
  refine ⟨hn, ?_⟩
  simp only [State.pending]
  rw [hw, hc]
  omega

private theorem Counts.trans (h : Counts 0 0 s u) (h' : Counts added subbed u s') :
    Counts added subbed s s' := by
  have hwaiting := h.waiting
  have hwaiting' := h'.waiting
  have hbalance := h.balance
  have hbalance' := h'.balance
  constructor <;> omega

private theorem Counted.adding_of_not_ready (h : Counted s) (hr : s.ready = false)
    (hlt : s.pending < 2 ^ 64) (hne : s.tasks.values ≠ []) :
    ∃ c, s.callers c = .fetchAdd := by
  have hz : s.waiting.toNat = 0 := by
    simp only [State.ready, Bool.or_eq_false_iff, decide_eq_false_iff_not] at hr
    simpa [BitVec.lt_def] using hr.2
  have hpos := List.length_pos_iff.mpr hne
  have hadd : 0 < tally CallerPc.adding s.callers := by
    simp only [Counted] at h
    simp only [State.pending] at h hlt
    omega
  obtain ⟨c, hc⟩ := tally_pos.mp hadd
  refine ⟨c, ?_⟩
  cases hpc : s.callers c with
  | fetchAdd => rfl
  | idle | push | tryLock | unlock | notify => simp [hpc, CallerPc.adding] at hc

end Preservation

section Wakeup

variable [DecidableEq ω] [DecidableEq κ] [DecidableEq τ] [Fintype ω] [Fintype κ]
  {s s' : State ω κ τ}

omit [DecidableEq κ] [DecidableEq τ] in
/-- A worker's step discounts its task at the `fetch_sub`. -/
theorem Counts.workerStep {w : ω} (hn : workerStep s w = some s') :
    Counts 0 (s.workers w).discounting s s' := by
  cases workerStep_moves hn with
  | pop_none hpc hp =>
    rw [hpc]
    refine .worker rfl rfl rfl ?_
    simp [hpc, WorkerPc.discounting, State.setWorker, Content.pop_none hp]
  | pop_some hpc hp =>
    rw [hpc]
    refine .worker rfl rfl rfl ?_
    simp [hpc, WorkerPc.discounting, State.setWorker, Content.pop_some hp]
  | fetchSub hpc =>
    rw [hpc]
    have hsub : (s.waiting - 1).toNat = (s.waiting.toNat + (2 ^ 64 - 1)) % 2 ^ 64 := by
      rw [BitVec.toNat_sub, Nat.add_comm]
      rfl
    refine .worker rfl rfl ?_ (by simp [hpc, WorkerPc.discounting, State.setWorker])
    simp only [State.setWorker, WorkerPc.discounting, hsub]
    omega
  | invoke hpc =>
    rw [hpc]
    exact .worker rfl rfl rfl (by simp [hpc, WorkerPc.discounting, State.setWorker])
  | wait hpc hto =>
    rw [hpc.discounting]
    refine .worker rfl rfl rfl ?_
    rw [hpc.discounting]
    rcases hto with hto | ⟨rfl, -⟩
    · rw [hto.discounting]
      rfl
    · rfl

/-- A caller's step counts its task at the `fetch_add`. -/
theorem Counts.callerStep {c : κ} {wakes : Option ω} (hn : callerStep s c wakes = some s') :
    Counts (s.callers c).adding 0 s s' := by
  cases callerStep_moves hn with
  | push hpc | unlock hpc | notify hpc =>
    rw [hpc]
    exact .caller rfl rfl rfl (by simp [hpc, CallerPc.adding, State.setCaller])
  | fetchAdd hpc =>
    rw [hpc]
    refine .caller rfl rfl ?_ (by simp [hpc, CallerPc.adding, State.setCaller])
    simp [State.setCaller, CallerPc.adding]
  | tryLock hpc hto =>
    rw [hpc]
    rcases hto with rfl | rfl <;>
      exact .caller rfl rfl rfl (by simp [hpc, CallerPc.adding, State.setCaller])
  | @wake w hpc hb =>
    rw [hpc]
    have hwoken : Counts 0 0 s (s.setWorker w .relock) :=
      .worker rfl rfl rfl (by simp [hb, WorkerPc.discounting, State.setWorker])
    refine hwoken.trans (.caller rfl rfl rfl ?_)
    simp [hpc, CallerPc.adding, State.setCaller, State.setWorker]

omit [DecidableEq ω] [DecidableEq κ] in
/-- A step of the destructor leaves the counter alone. -/
theorem Counts.destructorStep (hn : destructorStep s = some s') : Counts 0 0 s s' := by
  obtain ⟨ht, hwaiting, hc, -, hw⟩ := destructorStep_cases hn
  exact .of_eq (tally_woken rfl hw) hc hwaiting ht

/-- Every step counts and discounts what it performs. -/
theorem Counts.next {a : Act ω κ τ} (hn : next s a = some s') :
    Counts (a.adds s) (a.subs s) s s' := by
  cases a with
  | call c t =>
    simp only [Blocking.next] at hn
    split at hn
    · next hpc =>
      cases hn
      exact .caller rfl rfl rfl (by simp [hpc, Act.adds, CallerPc.adding, State.setCaller])
    · cases hn
  | caller c wakes => exact .callerStep hn
  | worker w => exact .workerStep hn
  | spurious w =>
    simp only [Blocking.next] at hn
    split at hn
    · next hb =>
      cases hn
      exact .worker rfl rfl rfl (by simp [hb, Act.subs, WorkerPc.discounting, State.setWorker])
    · cases hn
  | destroy => exact .destructorStep hn

/-- Every step keeps the counter in agreement. -/
theorem Counted.step {a : Act ω κ τ} (h : Counted s) (hn : next s a = some s') :
    Counted s' := by
  have hwaiting := (Counts.next hn).waiting
  have hbalance := (Counts.next hn).balance
  simp only [Counted] at h ⊢
  omega

/-! ### No lost wakeup -/

omit [DecidableEq ω] [DecidableEq κ] [DecidableEq τ] [Fintype ω] [Fintype κ] in
private theorem watched_of_awake {w : ω} (hw : ¬(s.workers w).Asleep) : Watched s :=
  fun _ hall ↦ absurd (hall w) hw

omit [DecidableEq ω] [DecidableEq κ] [DecidableEq τ] [Fintype ω] [Fintype κ] in
private theorem Watched.mono (h : Watched s) (ht : s'.tasks = s.tasks) (hw : s'.workers = s.workers)
    (he : ∀ c, (s.callers c).Early → (s'.callers c).Early)
    (hl : ∀ c, (s.callers c).Late → (s'.callers c).Late) : Watched s' := by
  intro hne hall
  rw [ht] at hne
  rw [hw] at hall ⊢
  rcases h hne hall with ⟨c, hc⟩ | ⟨hb, c, hc⟩
  · exact .inl ⟨c, he c hc⟩
  · exact .inr ⟨hb, c, hl c hc⟩

omit [DecidableEq ω] [DecidableEq τ] [Fintype ω] [Fintype κ] in
private theorem Watched.caller {c : κ} {pc : CallerPc τ} (h : Watched s) (ht : s'.tasks = s.tasks)
    (hw : s'.workers = s.workers) (hc : s'.callers = Function.update s.callers c pc)
    (he : (s.callers c).Early → pc.Early) (hl : (s.callers c).Late → pc.Late) :
    Watched s' := by
  refine h.mono ht hw (fun d hd ↦ ?_) (fun d hd ↦ ?_)
  all_goals
    rw [hc]
    by_cases heq : d = c
    · subst heq
      rw [Function.update_self]
      first | exact he hd | exact hl hd
    · rwa [Function.update_of_ne heq]

omit [DecidableEq ω] [DecidableEq τ] [Fintype ω] [Fintype κ] in
private theorem watched_of_early {c : κ} {pc : CallerPc τ} (he : pc.Early)
    (hc : s'.callers = Function.update s.callers c pc) : Watched s' :=
  fun _ _ ↦ .inl ⟨c, by rwa [hc, Function.update_self]⟩

omit [DecidableEq κ] [DecidableEq τ] in
/-- A worker's step: one that goes to sleep does so while a caller has yet to count. -/
theorem Watched.workerStep {w : ω} (hcount : Counted s) (h : Watched s)
    (hok : s.workers w = .evaluate → s.pending < 2 ^ 64) (hn : workerStep s w = some s') :
    Watched s' := by
  cases workerStep_moves hn with
  | pop_none | pop_some | fetchSub | invoke =>
    exact watched_of_awake (w := w) (by simp [WorkerPc.Asleep])
  | @wait pc locked hpc hto hblock hblocked =>
    by_cases hpc' : pc.Asleep
    · rcases hpc' with rfl | rfl
      -- it has just found the predicate false, so some caller has yet to count its task
      · obtain ⟨heval, hr⟩ := hblock rfl
        intro hne _
        obtain ⟨c, hc⟩ := hcount.adding_of_not_ready hr (hok heval) hne
        exact .inl ⟨c, .inl hc⟩
      · have hbefore := hblocked rfl
        intro hne hall
        -- the worker was asleep before, so its blocking only rules the late callers out
        have hasleep (v : ω) : (s.workers v).Asleep := by
          by_cases heq : v = w
          · subst heq
            exact .inl hbefore
          · simpa [heq] using hall v
        rcases h hne hasleep with he | ⟨hb, _⟩
        · exact .inl he
        · exact absurd hbefore (hb w)
    · exact watched_of_awake (w := w) (by simpa using hpc')

omit [DecidableEq ω] [DecidableEq κ] [Fintype κ] in
/-- A step of the destructor. -/
theorem Watched.destructorStep (h : Watched s) (hn : destructorStep s = some s') :
    Watched s' := by
  obtain ⟨ht, -, hc, -, hw⟩ := destructorStep_cases hn
  by_cases hb : ∃ w, s'.workers w = .relock
  · obtain ⟨w, hrelock⟩ := hb
    exact watched_of_awake (w := w) (by simp [hrelock, WorkerPc.Asleep])
  · refine h.mono ht ?_ (fun c ↦ hc ▸ id) fun c ↦ hc ▸ id
    funext w
    exact (hw w).resolve_right fun hwoken ↦ hb ⟨w, hwoken.2⟩

/-- Every permitted step leaves someone responsible for the queued tasks. -/
theorem Watched.step [Nonempty ω] {a : Act ω κ τ} (hcount : Counted s) (h : Watched s)
    (hok : StepOk s a) (hn : next s a = some s') : Watched s' := by
  cases a with
  | call c t =>
    simp only [next] at hn
    split at hn
    · next hpc =>
      cases hn
      exact h.caller rfl rfl rfl (by simp [hpc, CallerPc.Early]) (by simp [hpc, CallerPc.Late])
    · cases hn
  | caller c wakes =>
    cases callerStep_moves hn with
    | push => exact watched_of_early (.inl rfl) rfl
    | fetchAdd => exact watched_of_early (.inr rfl) rfl
    | tryLock hpc hto =>
      -- no worker is about to block, so whoever sleeps now can be notified
      refine fun _ _ ↦ .inr ⟨hok hpc, c, ?_⟩
      rw [setCaller_callers, Function.update_self]
      exact hto
    | unlock hpc =>
      exact h.caller rfl rfl rfl (by simp [hpc, CallerPc.Early]) fun _ ↦ .inr rfl
    | notify hpc hnone =>
      intro hne hall
      -- nobody is blocked, so some worker is about to block and another caller is early
      obtain ⟨w⟩ := ‹Nonempty ω›
      have hw : s.workers w = .block := (hall w).resolve_right (hnone w)
      rcases h hne hall with ⟨d, hd⟩ | ⟨hb, _⟩
      · refine .inl ⟨d, ?_⟩
        have hdc : d ≠ c := by
          rintro rfl
          simp [hpc, CallerPc.Early] at hd
        rwa [setCaller_callers, Function.update_of_ne hdc]
      · exact absurd hw (hb w)
    | @wake w hpc hb =>
      apply watched_of_awake (w := w)
      simp [State.setCaller, WorkerPc.Asleep]
  | worker w => exact h.workerStep hcount hok hn
  | spurious w =>
    simp only [next] at hn
    split at hn
    · cases hn
      exact watched_of_awake (w := w) (by simp [WorkerPc.Asleep])
    · cases hn
  | destroy => exact h.destructorStep hn

/-- On runs whose every step is harmless, no task is left in the queue once all workers
are blocked, no call is in progress and the pool is not shutting down. -/
theorem no_lost_wakeup [Nonempty ω] (hr : (system ω κ τ).ReachableBy StepOk s)
    (hw : ∀ w, s.workers w = .blocked) (hc : ∀ c, s.callers c = .idle)
    (_hd : s.done = false) : s.tasks.values = [] := by
  have hinv : Counted s ∧ Watched s := by
    refine hr.invariant (I := fun s ↦ Counted s ∧ Watched s) ⟨?_, ?_⟩
      fun _ _ _ hi hok hn ↦ ⟨hi.1.step hn, hi.2.step hi.1 hok hn⟩
    · simp [Counted, State.pending, tally, system, init, Content.empty, CallerPc.adding,
        WorkerPc.discounting]
    · intro hne
      exact absurd rfl hne
  by_contra hne
  rcases hinv.2 hne fun w ↦ .inr (hw w) with ⟨c, hearly⟩ | ⟨_, c, hlate⟩
  · simp [hc c, CallerPc.Early] at hearly
  · simp [hc c, CallerPc.Late] at hlate

instance (s : State ω κ τ) (a : Act ω κ τ) : Decidable (StepOk s a) :=
  match a with
  | .caller c _ => inferInstanceAs (Decidable (s.callers c = .tryLock →
      ∀ w, s.workers w ≠ .block))
  | .worker w => inferInstanceAs (Decidable (s.workers w = .evaluate → s.pending < 2 ^ 64))
  | .call _ _ | .spurious _ | .destroy => isTrue trivial

end Wakeup

/-- One worker blocks; one caller then submits a task, which wakes the worker to run it and
block again. -/
def submitted (w : ω) (c : κ) (task : τ) : List (Act ω κ τ) :=
  List.replicate 4 (.worker w) ++ .call c task :: List.replicate 4 (.caller c none) ++
    .caller c (some w) :: List.replicate 10 (.worker w)

/-- After the submission all workers are blocked again and the queue is empty. -/
theorem no_lost_wakeup_submitted : ∃ s, (system (Fin 1) (Fin 1) Nat).ReachableBy StepOk s ∧
    s.invoked = [7] ∧ s.tasks.values = [] := by
  have hrun : ∃ s, (system (Fin 1) (Fin 1) Nat).ReachableBy StepOk s ∧ s.invoked = [7] ∧
      (∀ w, s.workers w = .blocked) ∧ (∀ c, s.callers c = .idle) ∧ s.done = false :=
    System.exists_reachableBy (submitted 0 0 7) (by decide)
  obtain ⟨s, hr, hi, hw, hc, hd⟩ := hrun
  exact ⟨s, hr, hi, no_lost_wakeup hr hw hc hd⟩

/-- The worker finds the predicate false; the caller publishes its task, fails to lock the
mutex and notifies nobody; then the worker blocks, and the task stays. -/
theorem lost_wakeup : ¬∀ s, (system (Fin 1) (Fin 1) Nat).Reachable s →
    (∀ w, s.workers w = .blocked) → (∀ c, s.callers c = .idle) → s.done = false →
      s.tasks.values = [] := by
  intro h
  have hrun : ∃ s, (system (Fin 1) (Fin 1) Nat).Reachable s ∧ (∀ w, s.workers w = .blocked) ∧
      (∀ c, s.callers c = .idle) ∧ s.done = false ∧ s.tasks.values = [7] :=
    System.exists_reachable [.worker 0, .worker 0, .worker 0, .call 0 7, .caller 0 none,
      .caller 0 none, .caller 0 none, .caller 0 none, .worker 0] (by decide)
  obtain ⟨s, hr, hw, hc, hd, hq⟩ := hrun
  have hnil := h s hr hw hc hd
  rw [hq] at hnil
  cases hnil

end Crasy.Executor.Blocking
