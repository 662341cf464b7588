import Crasy.Base.Circulation
import Crasy.Base.Events
import Crasy.Sync.SharedMutex

/-!
# The handles of the coroutine reader-writer mutex

Library `Sync`. Follows the handle of each suspended coroutine of `Crasy.Sync.SharedMutex` from
its push through the waiter queue to `schedule_task`. The loops that drain the queue may run in
several calls at once, of readers and writers; between them no handle is lost or handed out
twice, and handles are taken from the queue in the order in which the coroutines suspended.
-/

namespace Crasy.Sync.SharedMutex

open Crasy.Base Crasy.LfQueue

variable {ι : Type}

/-- The coroutine is suspended in `lock` or `lock_shared`. -/
def Pc.Suspended : Pc ι → Prop
  | .lockSuspended _ | .lockSharedSuspended => True
  | _ => False

/-- The handle that an unlocking task has popped and yet to schedule. -/
def Pc.handle : Pc ι → Option ι
  | .drainSchedule h => some h
  | _ => none

/-- The handle that `await_suspend` has popped and yet to schedule. -/
def SuspendPc.handle : SuspendPc ι → Option ι
  | .schedule h => some h
  | .load _ | .pop => none

/-- The coroutine whose handle a step pushes. -/
def suspensions (s : State ι) : Act ι → List ι
  | .task t =>
    match s.tasks t with
    | .lockSuspend _ | .lockSharedSuspend => [t]
    | _ => []
  | _ => []

/-- The handle that a step takes from the queue. -/
def wakeups (s : State ι) : Act ι → List ι
  | .task t =>
    match s.tasks t with
    | .drainPop => s.suspended.pop.1.toList
    | _ => []
  | .suspender i =>
    match s.suspenders[i]? with
    | some .pop => s.suspended.pop.1.toList
    | _ => []
  | _ => []

/-- The handle of each suspended coroutine, and no other, is in the queue, in the hands of an
unlocking task or an `await_suspend`, or scheduled. -/
def State.HandlesOut (s : State ι) : Prop :=
  Circulating Pc.Suspended Pc.handle s.tasks s.suspended.values SuspendPc.handle s.suspenders
    s.runQueue

/-- A step keeps the handles, and passes them through the queue in order. -/
def Passes (s s' : State ι) (a : Act ι) : Prop :=
  s'.HandlesOut ∧ s.suspended.values ++ suspensions s a = wakeups s a ++ s'.suspended.values

/-- A task that is neither suspended nor has a handle. -/
def Pc.Plain (pc : Pc ι) : Prop := ¬pc.Suspended ∧ pc.handle = none

section Steps

variable {s s' : State ι}

/-- A step of an `await_suspend` past its push. -/
theorem passes_suspenderStep {i : Nat} (h : s.HandlesOut) (hn : suspenderStep s i = some s') :
    Passes s s' (.suspender i) := by
  simp only [suspenderStep] at hn
  split at hn
  · next shared hi =>
    have hpop : Passes s { s with suspenders := s.suspenders.set i .pop } (.suspender i) := by
      refine ⟨h.of_calls ?_, by simp [suspensions, wakeups, hi]⟩
      exact (filterMap_eraseIdx_perm hi).trans
        (filterMap_set_perm (f := SuspendPc.handle) hi .pop).symm
    have hleave : Passes s { s with suspenders := s.suspenders.eraseIdx i } (.suspender i) := by
      refine ⟨h.of_calls (filterMap_eraseIdx_perm hi), ?_⟩
      simp [suspensions, wakeups, hi]
    cases hn
    split_ifs
    exacts [hpop, hleave, hpop, hleave]
  · next hi =>
    cases hn
    cases hp : s.suspended.pop.1 with
    | none =>
      have hv := Content.pop_none hp
      refine ⟨?_, by simp [suspensions, wakeups, hi, hp, hv]⟩
      rw [State.HandlesOut]
      dsimp only
      rw [hv]
      exact h.of_calls (filterMap_eraseIdx_perm hi)
    | some u =>
      have hv := Content.pop_some hp
      rw [State.HandlesOut, hv] at h
      refine ⟨h.take_call ?_, by simp [suspensions, wakeups, hi, hp, hv]⟩
      exact (filterMap_set_perm hi _).trans
        ((filterMap_eraseIdx_perm (f := SuspendPc.handle) hi).symm.cons u)
  · next u hi =>
    cases hn
    refine ⟨h.schedule_call ?_, by simp [suspensions, wakeups, hi]⟩
    exact (filterMap_eraseIdx_perm hi).trans
      ((filterMap_set_perm (f := SuspendPc.handle) hi .pop).symm.cons u)
  · cases hn

variable [DecidableEq ι]

private theorem Passes.of_keep {a : Act ι} {t : ι} {pc : Pc ι} (h : s.HandlesOut)
    (ht : s'.tasks = Function.update s.tasks t pc) (hold : (s.tasks t).Plain) (hnew : pc.Plain)
    (hq : s'.suspended = s.suspended) (hs : s'.suspenders = s.suspenders)
    (hr : s'.runQueue = s.runQueue) (ha : suspensions s a = [] ∧ wakeups s a = []) :
    Passes s s' a := by
  refine ⟨?_, by rw [ha.1, ha.2, hq, List.append_nil, List.nil_append]⟩
  rw [State.HandlesOut, ht, hq, hs, hr]
  exact h.keep (iff_of_false hnew.1 hold.1) (hnew.2.trans hold.2.symm)

/-- The compare-exchange of `try_lock`. -/
theorem passes_tryLock {t : ι} {acquired failed : Pc ι} (h : s.HandlesOut)
    (hold : (s.tasks t).Plain) (hacq : acquired.Plain) (hfail : failed.Plain)
    (ha : suspensions s (.task t) = [] ∧ wakeups s (.task t) = []) :
    Passes s (tryLock s t acquired failed) (.task t) := by
  simp only [tryLock]
  split
  · exact .of_keep h rfl hold hacq rfl rfl rfl ha
  · exact .of_keep h rfl hold hfail rfl rfl rfl ha

/-- The compare-exchange of `lock`'s `await_ready`. -/
theorem passes_lockExchange {t : ι} {x : BitVec 64} (h : s.HandlesOut)
    (hpc : s.tasks t = .lockExchange x) : Passes s (lockExchange s t x) (.task t) := by
  have hold : (s.tasks t).Plain := hpc ▸ ⟨id, rfl⟩
  have ha : suspensions s (.task t) = [] ∧ wakeups s (.task t) = [] := by
    simp [suspensions, wakeups, hpc]
  simp only [lockExchange]
  split
  · split
    · refine .of_keep h rfl hold ?_ rfl rfl rfl ha
      split <;> exact ⟨id, rfl⟩
    · exact .of_keep h rfl hold ⟨id, rfl⟩ rfl rfl rfl ha
  · exact .of_keep h rfl hold ⟨id, rfl⟩ rfl rfl rfl ha

/-- A coroutine suspends. -/
theorem passes_suspend {t : ι} {shared : Bool} {pc : Pc ι} (h : s.HandlesOut)
    (hold : (s.tasks t).Plain) (hw : pc.Suspended) (hh : pc.handle = none)
    (ha : suspensions s (.task t) = [t] ∧ wakeups s (.task t) = []) :
    Passes s ((s.suspend t shared).setTask t pc) (.task t) := by
  refine ⟨?_, by rw [ha.1, ha.2]; rfl⟩
  have hout : Circulating Pc.Suspended Pc.handle (Function.update s.tasks t pc)
      (s.suspended.values ++ [t]) SuspendPc.handle s.suspenders s.runQueue :=
    h.suspend hold.1 hw (hh.trans hold.2.symm)
  refine hout.of_calls (.of_eq ?_)
  rw [State.setTask, State.suspend, List.filterMap_append]
  exact (List.append_nil _).symm

/-- A step of a task inside an operation. -/
theorem passes_taskStep {t : ι} (h : s.HandlesOut) (hn : taskStep s t = some s') :
    Passes s s' (.task t) := by
  simp only [taskStep] at hn
  split at hn
  · next hpc =>
    cases hn
    exact passes_tryLock h (hpc ▸ ⟨id, rfl⟩) ⟨id, rfl⟩ ⟨id, rfl⟩
      (by simp [suspensions, wakeups, hpc])
  · next hpc =>
    cases hn
    refine .of_keep h rfl (hpc ▸ ⟨id, rfl⟩) ?_ rfl rfl rfl (by simp [suspensions, wakeups, hpc])
    split <;> exact ⟨id, rfl⟩
  · next hpc =>
    cases hn
    exact .of_keep h rfl (hpc ▸ ⟨id, rfl⟩) ⟨id, rfl⟩ rfl rfl rfl
      (by simp [suspensions, wakeups, hpc])
  · next hpc =>
    cases hn
    exact passes_lockExchange h hpc
  · next hpc =>
    cases hn
    exact passes_suspend h (hpc ▸ ⟨id, rfl⟩) trivial rfl (by simp [suspensions, wakeups, hpc])
  · next hpc =>
    cases hn
    exact .of_keep h rfl (hpc ▸ ⟨id, rfl⟩) ⟨id, rfl⟩ rfl rfl rfl
      (by simp [suspensions, wakeups, hpc])
  · next hpc =>
    cases hn
    refine .of_keep h rfl (hpc ▸ ⟨id, rfl⟩) ?_ rfl rfl rfl (by simp [suspensions, wakeups, hpc])
    split <;> exact ⟨id, rfl⟩
  · next hpc =>
    cases hn
    exact .of_keep h rfl (hpc ▸ ⟨id, rfl⟩) ⟨id, rfl⟩ rfl rfl rfl
      (by simp [suspensions, wakeups, hpc])
  · next hpc =>
    cases hn
    exact passes_tryLock h (hpc ▸ ⟨id, rfl⟩) ⟨id, rfl⟩ ⟨id, rfl⟩
      (by simp [suspensions, wakeups, hpc])
  · next hpc =>
    cases hn
    exact passes_suspend h (hpc ▸ ⟨id, rfl⟩) trivial rfl (by simp [suspensions, wakeups, hpc])
  · next hpc =>
    cases hn
    refine .of_keep h rfl (hpc ▸ ⟨id, rfl⟩) ?_ rfl rfl rfl (by simp [suspensions, wakeups, hpc])
    split <;> exact ⟨id, rfl⟩
  · next hpc =>
    cases hn
    cases hp : s.suspended.pop.1 with
    | none =>
      have hv := Content.pop_none hp
      refine ⟨?_, by simp [suspensions, wakeups, hpc, hp, hv, State.setTask]⟩
      rw [State.HandlesOut, State.setTask]
      dsimp only
      rw [hv]
      exact h.keep (by simp [hpc, Pc.Suspended]) (by rw [hpc]; rfl)
    | some u =>
      have hv := Content.pop_some hp
      rw [State.HandlesOut, hv] at h
      refine ⟨h.take (by rw [hpc]; rfl) rfl (by simp [hpc, Pc.Suspended]), ?_⟩
      simp [suspensions, wakeups, hpc, hp, hv, State.setTask]
  · next u hpc =>
    cases hn
    refine ⟨h.schedule (by rw [hpc]; rfl) rfl (by simp [hpc, Pc.Suspended]), ?_⟩
    simp [suspensions, wakeups, hpc, State.setTask]
  all_goals cases hn

omit [DecidableEq ι] in
private theorem Op.plain_of_start {op : Op} {old new : Pc ι} (h : op.start old = some new) :
    old.Plain ∧ new.Plain := by
  cases op <;> cases old <;> cases h <;> exact ⟨⟨id, rfl⟩, ⟨id, rfl⟩⟩

omit [DecidableEq ι] in
private theorem Pc.suspended_of_resumed {old new : Pc ι} (h : old.resumed = some new) :
    old.Suspended ∧ old.handle = none ∧ new.Plain := by
  cases old <;> cases h <;> exact ⟨trivial, rfl, id, rfl⟩

/-- Every step keeps the handles and their order. -/
theorem passes_next {a : Act ι} (h : s.HandlesOut) (hn : next s a = some s') : Passes s s' a := by
  cases a with
  | call t op =>
    obtain ⟨pc, hstart, rfl⟩ := Option.map_eq_some_iff.mp hn
    obtain ⟨hold, hnew⟩ := Op.plain_of_start hstart
    exact .of_keep h rfl hold hnew rfl rfl rfl ⟨rfl, rfl⟩
  | task t => exact passes_taskStep h hn
  | suspender i => exact passes_suspenderStep h hn
  | resume i =>
    simp only [next, resume] at hn
    split at hn
    · next t hi =>
      obtain ⟨pc, hres, rfl⟩ := Option.map_eq_some_iff.mp hn
      obtain ⟨-, hhandle, hnew⟩ := Pc.suspended_of_resumed hres
      exact ⟨h.resume hi hnew.1 (hnew.2.trans hhandle.symm), List.append_nil _⟩
    · cases hn

end Steps

variable [DecidableEq ι]

/-- What a run does with the handles. Each suspended coroutine has exactly one handle to it,
nobody else has any, so that every scheduled handle can be resumed; and handles are taken from
the queue in the order of the suspensions. -/
structure HandlesKept (acts : List (Act ι)) (s : State ι) : Prop where
  out : s.HandlesOut
  resumable : ∀ i t, s.runQueue[i]? = some t → ((system ι).next s (.resume i)).isSome
  in_order : (system ι).events suspensions acts =
    (system ι).events wakeups acts ++ s.suspended.values

/-- No interleaving loses, doubles or reorders the handles in the waiter queue, however many
calls drain it at once. -/
theorem drained_in_turn {acts : List (Act ι)} {s : State ι} (hr : (system ι).Run acts s) :
    HandlesKept acts s := by
  have h := hr.events_line (I := State.HandlesOut)
    ⟨Circulating.empty (fun _ ↦ id) fun _ ↦ rfl, rfl⟩ fun _ _ _ hi _ hn ↦ passes_next hi hn
  refine ⟨h.1, fun i t hi ↦ ?_, h.2⟩
  have hsuspended : (s.tasks t).Suspended := h.1.waits_of_ready hi
  cases hpc : s.tasks t <;> simp [hpc, Pc.Suspended] at hsuspended <;>
    simp [system, next, resume, hi, hpc, Pc.resumed]

/-- A reader and a writer wait, and one `unlock` wakes both. -/
theorem drained_in_turn_wakeBoth : ∃ s, (system (Fin 3)).Run (wakeBoth 0 1 2) s ∧
    (system (Fin 3)).events wakeups (wakeBoth 0 1 2) = [1, 2] ∧ HandlesKept (wakeBoth 0 1 2) s := by
  have hrun : ∃ s, (system (Fin 3)).Run (wakeBoth 0 1 2) s ∧ s.runQueue = [] :=
    System.exists_runBy _ (by decide)
  obtain ⟨s, hr, -⟩ := hrun
  exact ⟨s, hr, by decide, drained_in_turn hr⟩

end Crasy.Sync.SharedMutex
