import Crasy.Base.Circulation
import Crasy.Base.Events
import Crasy.Sync.Mutex

/-!
# The handles of the coroutine mutex

Library `Sync`. Follows the handle of each suspended coroutine of `Crasy.Sync.Mutex` from its
push through the waiter queue, of which each push and each pop is one step, to `schedule_task`.
Whatever the interleaving, and even where the exclusion of the mutex fails, no handle is lost or
handed out twice, and handles are taken from the queue in the order in which the coroutines
suspended. Only runs on which `await_suspend` has dereferenced an empty option are left out.
-/

namespace Crasy.Sync.Mutex

open Crasy.Base Crasy.LfQueue

variable {ι : Type}

/-- The coroutine is suspended in `lock`. -/
def Pc.Suspended (pc : Pc ι) : Prop := pc = .suspended

/-- The handle that `unlock` has popped and yet to schedule. -/
def Pc.handle : Pc ι → Option ι
  | .unlockSchedule h => some h
  | .idle | .tryLock | .awaitReady | .awaitSuspend | .suspended | .holding _ | .unlockStore _
  | .unlockPop => none

/-- The handle that `await_suspend` has popped and yet to schedule. -/
def SuspendPc.handle : SuspendPc ι → Option ι
  | .schedule h => some h
  | .load | .pop => none

/-- The coroutine whose handle a step pushes. -/
def suspensions (s : State ι) : Act ι → List ι
  | .task t =>
    match s.tasks t with
    | .awaitSuspend => [t]
    | _ => []
  | _ => []

/-- The handle that a step takes from the queue. -/
def wakeups (s : State ι) : Act ι → List ι
  | .task t =>
    match s.tasks t with
    | .unlockPop => s.suspended.pop.1.toList
    | _ => []
  | .suspender i =>
    match s.suspenders[i]? with
    | some .pop => s.suspended.pop.1.toList
    | _ => []
  | _ => []

/-- The handle of each suspended coroutine, and no other, is in the queue, in the hands of an
`unlock` or an `await_suspend`, or scheduled. -/
def State.HandlesOut (s : State ι) : Prop :=
  Circulating Pc.Suspended Pc.handle s.tasks s.suspended.values SuspendPc.handle s.suspenders
    s.runQueue

/-- A step keeps the handles, and passes them through the queue in order. -/
def Passes (s s' : State ι) (a : Act ι) : Prop :=
  s'.HandlesOut ∧ s.suspended.values ++ suspensions s a = wakeups s a ++ s'.suspended.values

section Steps

variable {s s' : State ι}

/-- A step of an `await_suspend` past its push. -/
theorem passes_suspenderStep {i : Nat} (h : s.HandlesOut) (hn : suspenderStep s i = some s') :
    Passes s s' (.suspender i) := by
  simp only [suspenderStep] at hn
  split at hn
  · next hi =>
    cases hn
    cases hl : s.locked with
    | true =>
      refine ⟨h.of_calls (filterMap_eraseIdx_perm hi), ?_⟩
      simp [suspensions, wakeups, hi]
    | false =>
      refine ⟨h.of_calls ?_, by simp [suspensions, wakeups, hi]⟩
      exact (filterMap_eraseIdx_perm hi).trans
        (filterMap_set_perm (f := SuspendPc.handle) hi .pop).symm
  · next hi =>
    cases hn
    cases hp : s.suspended.pop.1 with
    | none =>
      have hv := Content.pop_none hp
      refine ⟨?_, by simp [suspensions, wakeups, hi, hp, hv]⟩
      rw [State.HandlesOut]
      dsimp only
      rw [hv]
      exact h.of_calls (filterMap_eraseIdx_perm hi)
    | some u =>
      have hv := Content.pop_some hp
      rw [State.HandlesOut, hv] at h
      refine ⟨h.take_call ?_, by simp [suspensions, wakeups, hi, hp, hv]⟩
      exact (filterMap_set_perm hi _).trans
        ((filterMap_eraseIdx_perm (f := SuspendPc.handle) hi).symm.cons u)
  · next u hi =>
    cases hn
    exact ⟨h.schedule_call (filterMap_eraseIdx_perm hi), by simp [suspensions, wakeups, hi]⟩
  · cases hn

variable [DecidableEq ι]

private theorem Passes.of_keep {a : Act ι} {t : ι} {pc : Pc ι} (h : s.HandlesOut)
    (ht : s'.tasks = Function.update s.tasks t pc) (hw : pc.Suspended ↔ (s.tasks t).Suspended)
    (hh : pc.handle = (s.tasks t).handle) (hq : s'.suspended = s.suspended)
    (hs : s'.suspenders = s.suspenders) (hr : s'.runQueue = s.runQueue)
    (ha : suspensions s a = [] ∧ wakeups s a = []) : Passes s s' a := by
  refine ⟨?_, by rw [ha.1, ha.2, hq, List.append_nil, List.nil_append]⟩
  rw [State.HandlesOut, ht, hq, hs, hr]
  exact h.keep hw hh

/-- The exchange of `try_lock` or `await_ready`. -/
theorem passes_exchange {t : ι} {failed : Pc ι} (h : s.HandlesOut)
    (hpc : ¬(s.tasks t).Suspended ∧ (s.tasks t).handle = none)
    (hf : ¬failed.Suspended ∧ failed.handle = none)
    (ha : suspensions s (.task t) = [] ∧ wakeups s (.task t) = []) :
    Passes s (exchange s t failed) (.task t) := by
  have hto : ¬(if s.locked then failed else .holding false).Suspended ∧
      (if s.locked then failed else .holding false).handle = none := by
    split
    · exact hf
    · exact ⟨nofun, rfl⟩
  exact .of_keep h rfl (iff_of_false hto.1 hpc.1) (hto.2.trans hpc.2.symm) rfl rfl rfl ha

/-- A step of a task inside an operation. -/
theorem passes_taskStep {t : ι} (h : s.HandlesOut) (hn : taskStep s t = some s') :
    Passes s s' (.task t) := by
  simp only [taskStep] at hn
  split at hn
  · next hpc =>
    cases hn
    exact passes_exchange h (by simp [hpc, Pc.Suspended, Pc.handle]) ⟨nofun, rfl⟩
      (by simp [suspensions, wakeups, hpc])
  · next hpc =>
    cases hn
    exact passes_exchange h (by simp [hpc, Pc.Suspended, Pc.handle]) ⟨nofun, rfl⟩
      (by simp [suspensions, wakeups, hpc])
  · next hpc =>
    cases hn
    refine ⟨?_, by simp [suspensions, wakeups, hpc, State.setTask]⟩
    have hout : Circulating Pc.Suspended Pc.handle (Function.update s.tasks t .suspended)
        (s.suspended.values ++ [t]) SuspendPc.handle s.suspenders s.runQueue :=
      h.suspend (by simp [hpc, Pc.Suspended]) rfl (by rw [hpc]; rfl)
    refine hout.of_calls (.of_eq ?_)
    rw [State.setTask, List.filterMap_append]
    exact (List.append_nil _).symm
  · next hpc =>
    cases hn
    exact .of_keep h rfl (by simp [hpc, Pc.Suspended]) (by rw [hpc]; rfl) rfl rfl rfl
      (by simp [suspensions, wakeups, hpc])
  · next hpc =>
    cases hn
    cases hp : s.suspended.pop.1 with
    | none =>
      have hv := Content.pop_none hp
      refine ⟨?_, by simp [suspensions, wakeups, hpc, hp, hv, State.setTask]⟩
      rw [State.HandlesOut, State.setTask]
      dsimp only
      rw [hv]
      exact h.keep (by simp [hpc, Pc.Suspended]) (by rw [hpc]; rfl)
    | some u =>
      have hv := Content.pop_some hp
      rw [State.HandlesOut, hv] at h
      refine ⟨h.take (by rw [hpc]; rfl) rfl (by simp [hpc, Pc.Suspended]), ?_⟩
      simp [suspensions, wakeups, hpc, hp, hv, State.setTask]
  · next u hpc =>
    cases hn
    refine ⟨h.schedule (by rw [hpc]; rfl) rfl (by simp [hpc, Pc.Suspended]), ?_⟩
    simp [suspensions, wakeups, hpc, State.setTask]
  all_goals cases hn

/-- Every step keeps the handles and their order. -/
theorem passes_next {a : Act ι} (h : s.HandlesOut) (hn : next s a = some s') : Passes s s' a := by
  cases a with
  | callTryLock t | callLock t =>
    simp only [next] at hn
    split at hn
    · next hpc =>
      cases hn
      exact .of_keep h rfl (by simp [hpc, Pc.Suspended]) (by rw [hpc]; rfl) rfl rfl rfl ⟨rfl, rfl⟩
    · cases hn
  | callUnlock t =>
    simp only [next] at hn
    split at hn
    · next woken hpc =>
      cases hn
      exact .of_keep h rfl (by simp [hpc, Pc.Suspended]) (by rw [hpc]; rfl) rfl rfl rfl ⟨rfl, rfl⟩
    · cases hn
  | task t => exact passes_taskStep h hn
  | suspender i => exact passes_suspenderStep h hn
  | resume i =>
    simp only [next, resume] at hn
    split at hn
    · next t hi =>
      split at hn
      · next hpc =>
        cases hn
        refine ⟨h.resume hi (by simp [Pc.Suspended]) (by rw [hpc]; rfl), ?_⟩
        exact List.append_nil _
      · cases hn
    · cases hn

end Steps

variable [DecidableEq ι]

/-- What a run does with the handles. Each suspended coroutine has exactly one handle to it,
nobody else has any, so that every scheduled handle can be resumed; and handles are taken from
the queue in the order of the suspensions. -/
structure HandlesKept (acts : List (Act ι)) (s : State ι) : Prop where
  out : s.HandlesOut
  resumable : ∀ i t, s.runQueue[i]? = some t → ((system ι).next s (.resume i)).isSome
  in_order : (system ι).events suspensions acts =
    (system ι).events wakeups acts ++ s.suspended.values

/-- No interleaving loses, doubles or reorders the handles in the waiter queue, as long as no
`await_suspend` has dereferenced an empty option. -/
theorem waiters_in_turn {acts : List (Act ι)} {s : State ι} (hr : (system ι).RunBy Defined acts s) :
    HandlesKept acts s := by
  have h := hr.events_line (I := State.HandlesOut)
    ⟨Circulating.empty (fun _ ↦ nofun) fun _ ↦ rfl, rfl⟩ fun _ _ _ hi _ hn ↦ passes_next hi hn
  refine ⟨h.1, fun i t hi ↦ ?_, h.2⟩
  have hsuspended : s.tasks t = .suspended := h.1.waits_of_ready hi
  simp [system, next, resume, hi, hsuspended]

/-- Tasks `u` and `v` suspend in turn while `t` holds the mutex; `t` hands it over, and then the
one that has got it. -/
def handOverTwice {κ : Type} (t u v : κ) : List (Act κ) :=
  [.callTryLock t, .task t, .callLock u, .task u, .task u, .suspender 0, .callLock v, .task v,
    .task v, .suspender 0, .callUnlock t, .task t, .task t, .task t, .resume 0, .callUnlock u,
    .task u, .task u, .task u, .resume 0]

/-- The coroutine that suspended first is woken first. -/
theorem waiters_in_turn_handOverTwice : ∃ s,
    (system (Fin 3)).RunBy Defined (handOverTwice 0 2 1) s ∧ s.tasks 1 = .holding true ∧
      (system (Fin 3)).events wakeups (handOverTwice 0 2 1) = [2, 1] ∧
        HandlesKept (handOverTwice 0 2 1) s := by
  have hrun : ∃ s, (system (Fin 3)).RunBy Defined (handOverTwice 0 2 1) s ∧
      s.tasks 1 = .holding true := System.exists_runBy _ (by decide)
  obtain ⟨s, hr, h1⟩ := hrun
  exact ⟨s, hr, h1, by decide, waiters_in_turn hr⟩

end Crasy.Sync.Mutex
