import Crasy.Base.System
import Crasy.LfQueue.Fifo
import Mathlib.Data.Fintype.Basic

/-!
# The coroutine mutex

Library `Sync`. Models `src/mutex.cpp:5–22` with the classes of
`include/crasy/mutex.hpp:17–48`, one action for each atomic step. The waiter queue takes
each push and pop as one step with the behaviour that `Crasy.LfQueue.Sequential` proves
of `lfqueue`. A coroutine counts as suspended once `await_ready` has returned false, so
the rest of `await_suspend` runs beside it: another task may wake and resume it before
that call returns.
-/

namespace Crasy.Sync.Mutex

open Crasy.Base Crasy.LfQueue

variable {ι : Type}

/-- Where a task stands. `woken` tells a holder that was resumed from the waiter queue
from one whose exchange took the flag. -/
inductive Pc (ι : Type) where
  | idle
  | tryLock
  | awaitReady
  | awaitSuspend
  | suspended
  | holding (woken : Bool)
  | unlockStore (woken : Bool)
  | unlockPop
  | unlockSchedule (handle : ι)
  deriving DecidableEq, Repr

/-- Where a call of `await_suspend` stands after its push. -/
inductive SuspendPc (ι : Type) where
  | load
  | pop
  | schedule (handle : ι)
  deriving DecidableEq, Repr

/-- The mutex (`locked_`, `suspended_`), its tasks, the calls of `await_suspend` past
their push, and the handles given to `schedule_task` and not yet resumed. -/
structure State (ι : Type) where
  locked : Bool
  suspended : Content ι
  tasks : ι → Pc ι
  suspenders : List (SuspendPc ι)
  runQueue : List ι
  undefined : Bool

/-- The choices of the scheduler and of the program. -/
inductive Act (ι : Type) where
  | callTryLock (t : ι)
  | callLock (t : ι)
  | callUnlock (t : ι)
  | task (t : ι)
  | suspender (i : Nat)
  | resume (i : Nat)
  deriving DecidableEq, Repr

/-- An unlocked mutex that no task has used. -/
def init : State ι :=
  { locked := false, suspended := .empty, tasks := fun _ ↦ .idle, suspenders := [],
    runQueue := [], undefined := false }

section Steps

variable [DecidableEq ι]

/-- Move one task. -/
def State.setTask (s : State ι) (t : ι) (pc : Pc ι) : State ι :=
  { s with tasks := Function.update s.tasks t pc }

/-- `mutex::try_lock`; `src/mutex.cpp:16`: the exchange, and where each answer leads. -/
def exchange (s : State ι) (t : ι) (failed : Pc ι) : State ι :=
  { s with locked := true }.setTask t (if s.locked then failed else .holding false)

/-- The next step of a task inside an operation. `await_ready` is `try_lock`
(`src/mutex.cpp:5`); `await_suspend` pushes the suspended handle
(`src/mutex.cpp:8`); `unlock` stores, pops and schedules (`src/mutex.cpp:18–22`). -/
def taskStep (s : State ι) (t : ι) : Option (State ι) :=
  match s.tasks t with
  | .tryLock => some (exchange s t .idle)
  | .awaitReady => some (exchange s t .awaitSuspend)
  | .awaitSuspend =>
    some ({ s with suspended := s.suspended.push t,
                   suspenders := s.suspenders ++ [SuspendPc.load] }.setTask t .suspended)
  | .unlockStore _ => some ({ s with locked := false }.setTask t .unlockPop)
  | .unlockPop =>
    let (handle, queue) := s.suspended.pop
    some ({ s with suspended := queue }.setTask t
      (match handle with | some h => .unlockSchedule h | none => .idle))
  | .unlockSchedule h => some ({ s with runQueue := s.runQueue ++ [h] }.setTask t .idle)
  | .idle | .suspended | .holding _ => none

/-- The next step of an `await_suspend` past its push; `src/mutex.cpp:9–11`. The popped
option is dereferenced unchecked. -/
def suspenderStep (s : State ι) (i : Nat) : Option (State ι) :=
  match s.suspenders[i]? with
  | some .load =>
    some (if s.locked then { s with suspenders := s.suspenders.eraseIdx i }
      else { s with suspenders := s.suspenders.set i .pop })
  | some .pop =>
    let (handle, queue) := s.suspended.pop
    some (match handle with
      | some h => { s with suspended := queue, suspenders := s.suspenders.set i (.schedule h) }
      | none => { s with suspended := queue, suspenders := s.suspenders.eraseIdx i,
                         undefined := true })
  | some (.schedule h) =>
    some { s with suspenders := s.suspenders.eraseIdx i, runQueue := s.runQueue ++ [h] }
  | none => none

/-- A worker resumes a scheduled handle: the coroutine goes on at `await_resume`, which
does nothing, and so holds the mutex. -/
def resume (s : State ι) (i : Nat) : Option (State ι) :=
  match s.runQueue[i]? with
  | some t =>
    if s.tasks t = .suspended then
      some ({ s with runQueue := s.runQueue.eraseIdx i }.setTask t (.holding true))
    else none
  | none => none

/-- One step of the system. A task calls `unlock` only while it holds the mutex. -/
def next (s : State ι) : Act ι → Option (State ι)
  | .callTryLock t => if s.tasks t = .idle then some (s.setTask t .tryLock) else none
  | .callLock t => if s.tasks t = .idle then some (s.setTask t .awaitReady) else none
  | .callUnlock t =>
    match s.tasks t with
    | .holding woken => some (s.setTask t (.unlockStore woken))
    | _ => none
  | .task t => taskStep s t
  | .suspender i => suspenderStep s i
  | .resume i => resume s i

/-- The mutex under all interleavings of its tasks. -/
def system (ι : Type) [DecidableEq ι] : System (State ι) (Act ι) := { init := init, next := next }

end Steps

/-! ### Ownership -/

/-- The task holds the mutex: from the successful `try_lock` or the completed `co_await`
until it calls `unlock`. -/
def Holds (s : State ι) (t : ι) : Prop := ∃ woken, s.tasks t = .holding woken

/-- How a task came to own the mutex, until its `unlock` has cleared the flag. -/
def Pc.owner : Pc ι → Option Bool
  | .holding woken | .unlockStore woken => some woken
  | _ => none

/-- No waiter resumed from the queue still owns the mutex. -/
def NoWokenOwner (s : State ι) : Prop := ∀ t, (s.tasks t).owner ≠ some true

/-- The steps on which a resumed waiter's ownership, which `locked_` does not record, does
no harm. A waiter is resumed only while the flag is clear and no earlier resumed waiter
owns the mutex; no exchange takes the flag while a resumed waiter owns the mutex; and no
`await_suspend` dereferences an empty option. -/
def StepOk (s : State ι) : Act ι → Prop
  | .task t => s.tasks t = .tryLock ∨ s.tasks t = .awaitReady → s.locked = false → NoWokenOwner s
  | .resume _ => s.locked = false ∧ NoWokenOwner s
  | .suspender i => s.suspenders[i]? = some .pop → s.suspended.pop.1 ≠ none
  | _ => True

/-- No `await_suspend` dereferences an empty option; what such a step leads to is not defined. -/
def Defined (s : State ι) : Act ι → Prop
  | .suspender i => s.suspenders[i]? = some .pop → s.suspended.pop.1 ≠ none
  | .task _ | .resume _ | .callTryLock _ | .callLock _ | .callUnlock _ => True

/-- At most one task owns the mutex, and one that took the flag still has it set. -/
structure Invariant (s : State ι) : Prop where
  unique : ∀ t u, (s.tasks t).owner ≠ none → (s.tasks u).owner ≠ none → t = u
  flagged : ∀ t, (s.tasks t).owner = some false → s.locked = true

namespace Invariant

variable {s s' : State ι}

private theorem no_owner (h : Invariant s) (hl : s.locked = false) (hw : NoWokenOwner s) (t : ι) :
    (s.tasks t).owner = none := by
  cases ho : (s.tasks t).owner with
  | none => rfl
  | some woken =>
    cases woken with
    | true => exact absurd ho (hw t)
    | false =>
      have := h.flagged t ho
      rw [hl] at this
      cases this

private theorem of_eq (h : Invariant s) (ht : s'.tasks = s.tasks) (hl : s'.locked = s.locked) :
    Invariant s' := by
  constructor
  · rw [ht]
    exact h.unique
  · rw [ht, hl]
    exact h.flagged

variable [DecidableEq ι]

private theorem of_keep {t : ι} {pc : Pc ι} (h : Invariant s)
    (ht : s'.tasks = Function.update s.tasks t pc)
    (ho : pc.owner = none ∨ pc.owner = (s.tasks t).owner)
    (hl : s.locked = true → s'.locked = true) : Invariant s' := by
  have hold (u : ι) : (s'.tasks u).owner = none ∨ (s'.tasks u).owner = (s.tasks u).owner := by
    rw [ht]
    by_cases he : u = t
    · subst he
      rwa [Function.update_self]
    · rw [Function.update_of_ne he]
      exact .inr rfl
  constructor
  · intro u v hu hv
    have hu' := (hold u).resolve_left hu
    have hv' := (hold v).resolve_left hv
    exact h.unique u v (hu' ▸ hu) (hv' ▸ hv)
  · intro u hu
    have hu' := (hold u).resolve_left (by simp [hu])
    exact hl (h.flagged u (hu' ▸ hu))

private theorem of_release {t : ι} {pc : Pc ι} (h : Invariant s)
    (ht : s'.tasks = Function.update s.tasks t pc) (ho : pc.owner = none)
    (hown : (s.tasks t).owner ≠ none) : Invariant s' := by
  have hnone (u : ι) : (s'.tasks u).owner = none := by
    rw [ht]
    by_cases he : u = t
    · subst he
      rwa [Function.update_self]
    · rw [Function.update_of_ne he]
      by_contra hu
      exact he (h.unique u t hu hown)
  exact ⟨fun u v hu _ ↦ absurd (hnone u) hu, fun u hu ↦ by simp [hnone u] at hu⟩

private theorem of_acquire {t : ι} {woken : Bool}
    (ht : s'.tasks = Function.update s.tasks t (.holding woken))
    (hnone : ∀ u, (s.tasks u).owner = none) (hl : woken = false → s'.locked = true) :
    Invariant s' := by
  have honly (u : ι) (hu : (s'.tasks u).owner ≠ none) : u = t := by
    by_contra he
    rw [ht, Function.update_of_ne he] at hu
    exact hu (hnone u)
  refine ⟨fun u v hu hv ↦ (honly u hu).trans (honly v hv).symm, fun u hu ↦ ?_⟩
  have he := honly u (by simp [hu])
  subst he
  rw [ht, Function.update_self] at hu
  exact hl (Option.some.inj hu)

/-- The exchange of `try_lock` or `await_ready`. -/
theorem exchange {t : ι} {failed : Pc ι} (h : Invariant s) (hf : failed.owner = none)
    (hok : s.locked = false → NoWokenOwner s) : Invariant (Mutex.exchange s t failed) := by
  cases hl : s.locked with
  | true =>
    have ht : (Mutex.exchange s t failed).tasks = Function.update s.tasks t failed := by
      simp [Mutex.exchange, State.setTask, hl]
    exact h.of_keep ht (.inl hf) fun _ ↦ rfl
  | false =>
    have ht : (Mutex.exchange s t failed).tasks =
        Function.update s.tasks t (.holding false) := by
      simp [Mutex.exchange, State.setTask, hl]
    exact of_acquire ht (h.no_owner hl (hok hl)) fun _ ↦ rfl

/-- Every permitted step keeps the invariant. -/
theorem step {a : Act ι} (h : Invariant s) (hok : StepOk s a) (hn : next s a = some s') :
    Invariant s' := by
  cases a with
  | callTryLock t | callLock t =>
    simp only [next] at hn
    split at hn
    · cases hn
      exact h.of_keep rfl (.inl rfl) id
    · cases hn
  | callUnlock t =>
    simp only [next] at hn
    split at hn
    · next woken hpc =>
      cases hn
      exact h.of_keep rfl (.inr (by rw [hpc]; rfl)) id
    · cases hn
  | task t =>
    simp only [next, taskStep] at hn
    split at hn
    · next hpc =>
      cases hn
      exact h.exchange rfl (hok (.inl hpc))
    · next hpc =>
      cases hn
      exact h.exchange rfl (hok (.inr hpc))
    · cases hn
      exact h.of_keep rfl (.inl rfl) id
    · next woken hpc =>
      cases hn
      exact h.of_release rfl rfl (by simp [hpc, Pc.owner])
    · cases hn
      refine h.of_keep rfl (.inl ?_) id
      cases s.suspended.pop.1 <;> rfl
    · cases hn
      exact h.of_keep rfl (.inl rfl) id
    all_goals cases hn
  | suspender i =>
    simp only [next, suspenderStep] at hn
    split at hn
    · cases hn
      cases hl : s.locked <;> exact h.of_eq (by simp) (by simp [hl])
    · cases hn
      cases s.suspended.pop.1 <;> exact h.of_eq rfl rfl
    · cases hn
      exact h.of_eq rfl rfl
    · cases hn
  | resume i =>
    simp only [next, resume] at hn
    split at hn
    · next t _ =>
      split at hn
      · cases hn
        exact of_acquire rfl (h.no_owner hok.1 hok.2) (by simp)
      · cases hn
    · cases hn

end Invariant

variable [DecidableEq ι]

/-- On runs whose every step is harmless, at most one task holds the mutex in every state
reached. -/
theorem mutual_exclusion {s : State ι} (hr : (system ι).ReachableBy StepOk s) {t u : ι}
    (ht : Holds s t) (hu : Holds s u) : t = u := by
  have hinv : Invariant s := by
    refine hr.invariant ?_ fun _ _ _ hi hok hn ↦ hi.step hok hn
    constructor <;> simp [system, init, Pc.owner]
  obtain ⟨v, ht⟩ := ht
  obtain ⟨w, hu⟩ := hu
  exact hinv.unique t u (by simp [ht, Pc.owner]) (by simp [hu, Pc.owner])

instance (s : State ι) (t : ι) : Decidable (Holds s t) :=
  inferInstanceAs (Decidable (∃ woken, s.tasks t = .holding woken))

instance (s : State ι) (a : Act ι) : Decidable (Defined s a) :=
  match a with
  | .suspender i => inferInstanceAs (Decidable (s.suspenders[i]? = some .pop →
      s.suspended.pop.1 ≠ none))
  | .task _ | .resume _ | .callTryLock _ | .callLock _ | .callUnlock _ => isTrue trivial

variable [Fintype ι]

instance (s : State ι) : Decidable (NoWokenOwner s) :=
  inferInstanceAs (Decidable (∀ t, (s.tasks t).owner ≠ some true))

instance (s : State ι) (a : Act ι) : Decidable (StepOk s a) :=
  match a with
  | .task t => inferInstanceAs (Decidable (s.tasks t = .tryLock ∨ s.tasks t = .awaitReady →
      s.locked = false → NoWokenOwner s))
  | .resume _ => inferInstanceAs (Decidable (s.locked = false ∧ NoWokenOwner s))
  | .suspender i => inferInstanceAs (Decidable (s.suspenders[i]? = some .pop →
      s.suspended.pop.1 ≠ none))
  | .callTryLock _ | .callLock _ | .callUnlock _ => isTrue trivial

/-- Task `t` takes the mutex, task `u` suspends in `lock`, and `t` hands the mutex over. -/
def handOver {κ : Type} (t u : κ) : List (Act κ) :=
  [.callTryLock t, .task t, .callLock u, .task u, .task u, .suspender 0, .callUnlock t,
    .task t, .task t, .task t, .resume 0]

/-- A hand-over to a waiting task leaves that task as the only holder. -/
theorem mutual_exclusion_handOver :
    ∃ s, (system (Fin 3)).ReachableBy StepOk s ∧ Holds s 1 ∧ ∀ t, Holds s t → t = 1 := by
  have hrun : ∃ s, (system (Fin 3)).ReachableBy StepOk s ∧ Holds s 1 :=
    System.exists_reachableBy (handOver 0 1) (by decide)
  obtain ⟨s, hr, h1⟩ := hrun
  exact ⟨s, hr, h1, fun t ht ↦ mutual_exclusion hr ht h1⟩

/-- A third task's `try_lock` succeeds after the hand-over: the resumed waiter holds the
mutex, but the flag is clear. -/
theorem two_holders :
    ¬∀ s, (system (Fin 3)).Reachable s → ∀ t u, Holds s t → Holds s u → t = u := by
  intro h
  have hrun : ∃ s, (system (Fin 3)).Reachable s ∧ Holds s 1 ∧ Holds s 2 :=
    System.exists_reachable (handOver 0 1 ++ [.callTryLock 2, .task 2]) (by decide)
  obtain ⟨s, hr, h1, h2⟩ := hrun
  exact absurd (h s hr 1 2 h1 h2) (by decide)

end Crasy.Sync.Mutex
