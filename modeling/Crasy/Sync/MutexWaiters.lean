import Crasy.Sync.Mutex

/-!
# The waiters of the coroutine mutex

Library `Sync`. Whether a coroutine can be left in `suspended_` of `Crasy.Sync.Mutex` once
nobody is there to wake it. While handles are queued, somebody has yet to pop: an owner of
the mutex, whose `unlock` pops, a call of `await_suspend` past its push, or a woken handle,
which is the next owner.
-/

namespace Crasy.Sync.Mutex

open Crasy.Base Crasy.LfQueue

variable {ι : Type}

/-- The task owns the mutex or is inside `unlock`: it has yet to pop, or has a handle to
schedule. -/
def Pc.Serving : Pc ι → Prop
  | .holding _ | .unlockStore _ | .unlockPop | .unlockSchedule _ => True
  | .idle | .tryLock | .awaitReady | .awaitSuspend | .suspended => False

/-- The task is not inside an operation, other than suspended in one. -/
def Pc.Resting : Pc ι → Prop
  | .idle | .suspended | .holding _ => True
  | .tryLock | .awaitReady | .awaitSuspend => False
  | .unlockStore _ | .unlockPop | .unlockSchedule _ => False

/-- No operation is in progress. -/
def Quiescent (s : State ι) : Prop := (∀ t, (s.tasks t).Resting) ∧ s.suspenders = []

/-- The steps that wake whom they should: `unlock` does not spend its pop on an emptied front
entry of the queue, and `await_suspend` does not dereference an empty option. -/
def WakeOk (s : State ι) : Act ι → Prop
  | .task t => s.tasks t = .unlockPop → ¬s.suspended.Refilled
  | .suspender i => s.suspenders[i]? = some .pop → s.suspended.pop.1 ≠ none
  | .callTryLock _ | .callLock _ | .callUnlock _ | .resume _ => True

/-- Somebody has yet to pop, or to resume a handle. -/
def Responsible (s : State ι) : Prop :=
  (∃ t, (s.tasks t).Serving) ∨ s.suspenders ≠ [] ∨ s.runQueue ≠ []

/-- Queued handles have somebody responsible for them, and a set flag has an owner. -/
structure Attended (s : State ι) : Prop where
  attended : s.suspended.values ≠ [] → Responsible s
  flagged : s.locked = true → ∃ t, (s.tasks t).owner ≠ none

private theorem Pc.serving_of_owner {pc : Pc ι} (h : pc.owner ≠ none) : pc.Serving := by
  cases pc <;> simp_all [Pc.owner, Pc.Serving]

namespace Attended

variable {s s' : State ι}

/-- A step of an `await_suspend` past its push. -/
theorem suspenderStep {i : Nat} (h : Attended s) (hok : WakeOk s (.suspender i))
    (hn : suspenderStep s i = some s') : Attended s' := by
  simp only [Mutex.suspenderStep] at hn
  split at hn
  · next hi =>
    cases hn
    cases hl : s.locked with
    | true =>
      -- the call leaves the handle to the owner, whose `unlock` is still to come
      obtain ⟨t, ht⟩ := h.flagged hl
      exact ⟨fun _ ↦ .inl ⟨t, Pc.serving_of_owner (by simpa using ht)⟩,
        fun _ ↦ ⟨t, by simpa using ht⟩⟩
    | false =>
      refine ⟨fun _ ↦ .inr (.inl ?_), fun he ↦ by simp at he⟩
      have hlt := (List.getElem?_eq_some_iff.mp hi).1
      simpa using List.length_pos_iff.mp (Nat.zero_lt_of_lt hlt)
  · next hi =>
    have hsome := hok hi
    cases hn
    cases hp : s.suspended.pop.1 with
    | none => exact absurd hp hsome
    | some u =>
      refine ⟨fun _ ↦ .inr (.inl ?_), h.flagged⟩
      have hlt := (List.getElem?_eq_some_iff.mp hi).1
      simpa using List.length_pos_iff.mp (Nat.zero_lt_of_lt hlt)
  · cases hn
    exact ⟨fun _ ↦ .inr (.inr (by simp)), h.flagged⟩
  · cases hn

variable [DecidableEq ι]

private theorem of_keep {t : ι} {pc : Pc ι} (h : Attended s)
    (ht : s'.tasks = Function.update s.tasks t pc) (hold : ¬(s.tasks t).Serving)
    (hq : s'.suspended = s.suspended) (hl : s'.locked = s.locked)
    (hs : s'.suspenders = s.suspenders) (hr : s'.runQueue = s.runQueue) : Attended s' := by
  have hne {u : ι} (hu : (s.tasks u).Serving) : u ≠ t := by
    rintro rfl
    exact hold hu
  constructor
  · rw [hq]
    intro hv
    rcases h.attended hv with ⟨u, hu⟩ | hsus | hrun
    · exact .inl ⟨u, by rwa [ht, Function.update_of_ne (hne hu)]⟩
    · exact .inr (.inl (hs ▸ hsus))
    · exact .inr (.inr (hr ▸ hrun))
  · rw [hl]
    intro hlocked
    obtain ⟨u, hu⟩ := h.flagged hlocked
    exact ⟨u, by rwa [ht, Function.update_of_ne (hne (Pc.serving_of_owner hu))]⟩

private theorem of_serving {t : ι} {pc : Pc ι} (ht : s'.tasks = Function.update s.tasks t pc)
    (hpc : pc.Serving) (hf : s'.locked = true → ∃ u, (s'.tasks u).owner ≠ none) :
    Attended s' :=
  ⟨fun _ ↦ .inl ⟨t, by rwa [ht, Function.update_self]⟩, hf⟩

/-- The exchange of `try_lock` or `await_ready`. -/
theorem exchange {t : ι} {failed : Pc ι} (h : Attended s) (hpc : ¬(s.tasks t).Serving) :
    Attended (Mutex.exchange s t failed) := by
  cases hl : s.locked with
  | true =>
    have ht : (Mutex.exchange s t failed).tasks = Function.update s.tasks t failed := by
      simp [Mutex.exchange, State.setTask, hl]
    exact h.of_keep ht hpc rfl hl.symm rfl rfl
  | false =>
    have ht : (Mutex.exchange s t failed).tasks =
        Function.update s.tasks t (.holding false) := by
      simp [Mutex.exchange, State.setTask, hl]
    refine of_serving ht trivial fun _ ↦ ⟨t, ?_⟩
    simp [ht, Pc.owner]

private theorem flagged_of_update {t : ι} {pc : Pc ι} (h : Attended s)
    (ht : s'.tasks = Function.update s.tasks t pc) (hl : s'.locked = s.locked)
    (ho : (s.tasks t).owner ≠ none → pc.owner ≠ none) :
    s'.locked = true → ∃ u, (s'.tasks u).owner ≠ none := by
  rw [hl]
  intro hlocked
  obtain ⟨u, hu⟩ := h.flagged hlocked
  refine ⟨u, ?_⟩
  rw [ht]
  by_cases he : u = t
  · subst he
    rw [Function.update_self]
    exact ho hu
  · rwa [Function.update_of_ne he]

/-- A step of a task inside an operation. -/
theorem taskStep {t : ι} (h : Attended s) (hok : WakeOk s (.task t))
    (hn : taskStep s t = some s') : Attended s' := by
  simp only [Mutex.taskStep] at hn
  split at hn
  · next hpc =>
    cases hn
    exact h.exchange (by simp [hpc, Pc.Serving])
  · next hpc =>
    cases hn
    exact h.exchange (by simp [hpc, Pc.Serving])
  · next hpc =>
    cases hn
    exact ⟨fun _ ↦ .inr (.inl (by simp [State.setTask])),
      h.flagged_of_update rfl rfl (by simp [hpc, Pc.owner])⟩
  · cases hn
    refine of_serving rfl trivial fun hl ↦ ?_
    cases hl
  · next hpc =>
    cases hn
    cases hp : s.suspended.pop.1 with
    | none =>
      refine ⟨fun hv ↦ ?_, h.flagged_of_update rfl rfl (by simp [hpc, Pc.owner])⟩
      have hempty := Content.values_of_pop_none (hok hpc) hp
      rw [Content.pop_nil hempty] at hv
      exact absurd hempty hv
    | some u =>
      exact of_serving rfl trivial (h.flagged_of_update rfl rfl (by simp [hpc, Pc.owner]))
  · next hpc =>
    cases hn
    exact ⟨fun _ ↦ .inr (.inr (by simp [State.setTask])),
      h.flagged_of_update rfl rfl (by simp [hpc, Pc.owner])⟩
  all_goals cases hn

/-- Every permitted step leaves somebody responsible for the queued handles. -/
theorem next {a : Act ι} (h : Attended s) (hok : WakeOk s a)
    (hn : Mutex.next s a = some s') : Attended s' := by
  cases a with
  | callTryLock t | callLock t =>
    simp only [Mutex.next] at hn
    split at hn
    · next hpc =>
      cases hn
      exact h.of_keep rfl (by simp [hpc, Pc.Serving]) rfl rfl rfl rfl
    · cases hn
  | callUnlock t =>
    simp only [Mutex.next] at hn
    split at hn
    · next woken hpc =>
      cases hn
      exact of_serving rfl trivial (h.flagged_of_update rfl rfl fun _ ↦ by simp [Pc.owner])
    · cases hn
  | task t => exact h.taskStep hok hn
  | suspender i => exact h.suspenderStep hok hn
  | resume i =>
    simp only [Mutex.next, resume] at hn
    split at hn
    · next t _ =>
      split at hn
      · next hpc =>
        cases hn
        exact of_serving rfl trivial (h.flagged_of_update rfl rfl (by simp [hpc, Pc.owner]))
      · cases hn
    · cases hn

end Attended

variable [DecidableEq ι]

/-- On runs whose every pop wakes whom it should, no coroutine is left in the queue once
nobody operates on the mutex, holds it or is about to be resumed. -/
theorem no_stranded_waiter {s : State ι} (hr : (system ι).ReachableBy WakeOk s)
    (hq : Quiescent s) (hfree : ∀ t, ¬Holds s t) (hrun : s.runQueue = []) :
    s.suspended.values = [] := by
  have h : Attended s := by
    refine hr.invariant ⟨fun hv ↦ absurd rfl hv, fun hl ↦ by cases hl⟩ fun _ _ _ hi hok hn ↦
      hi.next hok hn
  by_contra hv
  rcases h.attended hv with ⟨t, ht⟩ | hs | hs
  · have hrest := hq.1 t
    have hholds := hfree t
    simp only [Holds] at hholds
    cases hpc : s.tasks t <;> simp_all [Pc.Serving, Pc.Resting]
  · exact hs hq.2
  · exact hs hrun

instance (pc : Pc ι) : Decidable pc.Resting :=
  match pc with
  | .idle | .suspended | .holding _ => isTrue trivial
  | .tryLock | .awaitReady | .awaitSuspend | .unlockStore _ | .unlockPop | .unlockSchedule _ =>
    isFalse id

instance [Fintype ι] (s : State ι) : Decidable (Quiescent s) :=
  inferInstanceAs (Decidable (_ ∧ _))

instance (s : State ι) (a : Act ι) : Decidable (WakeOk s a) :=
  match a with
  | .task t => inferInstanceAs (Decidable (s.tasks t = .unlockPop → ¬s.suspended.Refilled))
  | .suspender i => inferInstanceAs (Decidable (s.suspenders[i]? = some .pop →
      s.suspended.pop.1 ≠ none))
  | .callTryLock _ | .callLock _ | .callUnlock _ | .resume _ => isTrue trivial

/-- The hand-over from `t` to `u`, and the `unlock` of `u`. -/
def handOverAndUnlock {κ : Type} (t u : κ) : List (Act κ) :=
  handOver t u ++ [.callUnlock u, .task u, .task u]

/-- After a hand-over and the `unlock` of the woken task nobody waits. -/
theorem no_stranded_waiter_handOver : ∃ s, (system (Fin 2)).ReachableBy WakeOk s ∧
    s.suspended.drained = true ∧ s.suspended.values = [] := by
  have hrun : ∃ s, (system (Fin 2)).ReachableBy WakeOk s ∧ s.suspended.drained = true ∧
      Quiescent s ∧ (∀ t, ¬Holds s t) ∧ s.runQueue = [] :=
    System.exists_reachableBy (handOverAndUnlock 0 1) (by decide)
  obtain ⟨s, hr, hd, hq, hfree, hrun⟩ := hrun
  exact ⟨s, hr, hd, no_stranded_waiter hr hq hfree hrun⟩

/-- The hand-over has left an emptied entry in the queue. When `u` waits once more, the
`unlock` of `t` spends its pop on that entry, and `u` stays suspended. -/
theorem stranded_waiter : ¬∀ s, (system (Fin 2)).Reachable s → Quiescent s →
    (∀ t, ¬Holds s t) → s.runQueue = [] → s.suspended.values = [] := by
  intro h
  have hrun : ∃ s, (system (Fin 2)).Reachable s ∧ Quiescent s ∧ (∀ t, ¬Holds s t) ∧
      s.runQueue = [] ∧ s.suspended.values = [1] :=
    System.exists_reachable (handOverAndUnlock 0 1 ++ [.callTryLock 0, .task 0, .callLock 1,
      .task 1, .task 1, .suspender 0, .callUnlock 0, .task 0, .task 0]) (by decide)
  obtain ⟨s, hr, hq, hfree, hrun, hv⟩ := hrun
  have hnil := h s hr hq hfree hrun
  rw [hv] at hnil
  cases hnil

end Crasy.Sync.Mutex
