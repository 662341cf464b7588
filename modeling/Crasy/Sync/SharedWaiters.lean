import Crasy.Sync.SharedMutex

/-!
# The waiters of the reader-writer mutex

Library `Sync`. Whether a coroutine can be left in `suspended_` of `Crasy.Sync.SharedMutex`
once nobody is there to wake it. While handles are queued, somebody has yet to drain the
queue: a holder in either mode, a loop that pops, a call of `await_suspend` past its push,
or a woken handle, which is the next holder. A holder's `unlock` always drains, but
`unlock_shared` and `await_suspend` decide by the value of `state_`.
-/

namespace Crasy.Sync.SharedMutex

open Crasy.Base Crasy.LfQueue

variable {ι : Type}

/-- The task holds the mutex in either mode, until the atomic operation that gives it up. -/
def Pc.Engaged : Pc ι → Prop
  | .holding | .unlock | .holdingShared | .unlockShared => True
  | .idle | .tryLock | .lockReady _ | .lockExchange _ | .lockSuspend _ | .lockSuspended _
  | .tryLockShared | .tryLockSharedUndo | .lockSharedReady | .lockSharedSuspend
  | .lockSharedSuspended | .drainPop | .drainSchedule _ => False

/-- The task is in the loop that wakes the waiters. -/
def Pc.Draining : Pc ι → Prop
  | .drainPop | .drainSchedule _ => True
  | .idle | .tryLock | .lockReady _ | .lockExchange _ | .lockSuspend _ | .lockSuspended _
  | .holding | .unlock | .tryLockShared | .tryLockSharedUndo | .lockSharedReady
  | .lockSharedSuspend | .lockSharedSuspended | .holdingShared | .unlockShared => False

/-- The test by which `await_suspend` decides to wake the waiters;
`src/shared_mutex.cpp:25,44`. -/
def State.wakes (s : State ι) (shared : Bool) : Prop :=
  (if shared then s.state &&& exBit else s.state) = 0

/-- The steps that wake whom they should. An `await_suspend` that finds nobody holding the
mutex reads a `state_` on which it wakes the waiters; an `unlock_shared` of the only holder
reads one reader; and no loop spends its pop on an emptied front entry of the queue. -/
def WakeOk (s : State ι) : Act ι → Prop
  | .task t =>
    (s.tasks t = .unlockShared → (∀ u, u ≠ t → ¬(s.tasks u).Engaged) →
      s.state &&& ~~~exBit = 1) ∧
    (s.tasks t = .drainPop → ¬s.suspended.Refilled)
  | .suspender i =>
    (∀ shared, s.suspenders[i]? = some (.load shared) → (∀ t, ¬(s.tasks t).Engaged) →
      s.wakes shared) ∧
    (s.suspenders[i]? = some .pop → ¬s.suspended.Refilled)
  | .call _ _ | .resume _ => True

/-- Somebody has yet to drain the queue, or to resume a handle. -/
def Responsible (s : State ι) : Prop :=
  (∃ t, (s.tasks t).Engaged ∨ (s.tasks t).Draining) ∨ s.suspenders ≠ [] ∨ s.runQueue ≠ []

private theorem Op.engaged_of_start {op : Op} {old new : Pc ι} (h : op.start old = some new) :
    new.Engaged ∨ ¬(old.Engaged ∨ old.Draining) := by
  cases op <;> simp only [Op.start] at h <;> split at h <;> cases h
  all_goals simp [Pc.Engaged, Pc.Draining]

/-- Queued handles have somebody responsible for them. -/
def Attended (s : State ι) : Prop := s.suspended.values ≠ [] → Responsible s

namespace Attended

variable {s s' : State ι}

/-- A step of an `await_suspend` past its push. -/
theorem suspenderStep {i : Nat} (hok : WakeOk s (.suspender i))
    (hn : suspenderStep s i = some s') : Attended s' := by
  simp only [SharedMutex.suspenderStep] at hn
  split at hn
  · next shared hi =>
    cases hn
    have hne : s.suspenders ≠ [] := by
      rintro he
      simp [he] at hi
    intro _
    by_cases hw : (if shared then s.state &&& exBit else s.state) = 0
    · rw [if_pos hw]
      exact .inr (.inl (by simpa using hne))
    · rw [if_neg hw]
      -- the test failed, so somebody holds the mutex
      by_cases hex : ∃ t, (s.tasks t).Engaged
      · obtain ⟨t, ht⟩ := hex
        exact .inl ⟨t, .inl ht⟩
      · push Not at hex
        exact absurd (hok.1 shared hi hex) hw
  · next hi =>
    cases hn
    have hne : s.suspenders ≠ [] := by
      rintro he
      simp [he] at hi
    intro hv
    cases hp : s.suspended.pop.1 with
    | none =>
      have hempty := Content.values_of_pop_none (hok.2 hi) hp
      rw [Content.pop_nil hempty] at hv
      exact absurd hempty hv
    | some u => exact .inr (.inl (by simpa using hne))
  · cases hn
    exact fun _ ↦ .inr (.inr (by simp))
  · cases hn

variable [DecidableEq ι]

private theorem of_keep {t : ι} {pc : Pc ι} (h : Attended s)
    (ht : s'.tasks = Function.update s.tasks t pc)
    (hold : ¬((s.tasks t).Engaged ∨ (s.tasks t).Draining))
    (hq : s'.suspended = s.suspended) (hs : s'.suspenders = s.suspenders)
    (hr : s'.runQueue = s.runQueue) : Attended s' := by
  intro hv
  rw [hq] at hv
  rcases h hv with ⟨u, hu⟩ | hsus | hrun
  · have hne : u ≠ t := by
      rintro rfl
      exact hold hu
    exact .inl ⟨u, by rwa [ht, Function.update_of_ne hne]⟩
  · exact .inr (.inl (hs ▸ hsus))
  · exact .inr (.inr (hr ▸ hrun))

omit [DecidableEq ι] in
private theorem of_task {t : ι} (ht : (s'.tasks t).Engaged ∨ (s'.tasks t).Draining) : Attended s' :=
  fun _ ↦ .inl ⟨t, ht⟩

/-- The compare-exchange of `try_lock`. -/
theorem tryLock {t : ι} {acquired failed : Pc ι} (h : Attended s)
    (hold : ¬((s.tasks t).Engaged ∨ (s.tasks t).Draining)) (hacq : acquired.Engaged) :
    Attended (SharedMutex.tryLock s t acquired failed) := by
  unfold SharedMutex.tryLock
  split
  · exact of_task (t := t) (.inl (by simpa [State.setTask] using hacq))
  · exact h.of_keep rfl hold rfl rfl rfl

/-- The compare-exchange of `lock`'s `await_ready`. -/
theorem lockExchange {t : ι} {x : BitVec 64} (h : Attended s)
    (hold : ¬((s.tasks t).Engaged ∨ (s.tasks t).Draining)) :
    Attended (SharedMutex.lockExchange s t x) := by
  unfold SharedMutex.lockExchange
  split
  · split <;> exact h.of_keep rfl hold rfl rfl rfl
  · exact h.of_keep rfl hold rfl rfl rfl

/-- A step of a task inside an operation. -/
theorem taskStep {t : ι} (h : Attended s) (hok : WakeOk s (.task t))
    (hn : taskStep s t = some s') : Attended s' := by
  obtain ⟨hlast, hpop⟩ := hok
  simp only [SharedMutex.taskStep] at hn
  split at hn
  · next hpc =>
    cases hn
    exact h.tryLock (by simp [hpc, Pc.Engaged, Pc.Draining]) trivial
  · next hpc =>
    cases hn
    exact h.of_keep rfl (by simp [hpc, Pc.Engaged, Pc.Draining]) rfl rfl rfl
  · next hpc =>
    cases hn
    exact h.of_keep rfl (by simp [hpc, Pc.Engaged, Pc.Draining]) rfl rfl rfl
  · next hpc =>
    cases hn
    exact h.lockExchange (by simp [hpc, Pc.Engaged, Pc.Draining])
  · cases hn
    exact fun _ ↦ .inr (.inl (by simp [State.setTask, State.suspend]))
  · cases hn
    exact of_task (t := t) (.inr (by simp [State.setTask, Pc.Draining]))
  · next hpc =>
    cases hn
    exact h.of_keep rfl (by simp [hpc, Pc.Engaged, Pc.Draining]) rfl rfl rfl
  · next hpc =>
    cases hn
    exact h.of_keep rfl (by simp [hpc, Pc.Engaged, Pc.Draining]) rfl rfl rfl
  · next hpc =>
    cases hn
    exact h.tryLock (by simp [hpc, Pc.Engaged, Pc.Draining]) trivial
  · cases hn
    exact fun _ ↦ .inr (.inl (by simp [State.setTask, State.suspend]))
  · next hpc =>
    cases hn
    split
    · exact of_task (t := t) (.inr (by simp [State.setTask, Pc.Draining]))
    · next hne =>
      -- another task holds the mutex
      by_cases hex : ∃ u, u ≠ t ∧ (s.tasks u).Engaged
      · obtain ⟨u, hu, heng⟩ := hex
        exact of_task (t := u) (.inl (by simpa [State.setTask, hu] using heng))
      · push Not at hex
        exact absurd (hlast hpc hex) hne
  · next hpc =>
    cases hn
    intro hv
    cases hp : s.suspended.pop.1 with
    | none =>
      have hempty := Content.values_of_pop_none (hpop hpc) hp
      simp only [State.setTask, Content.pop_nil hempty] at hv
      exact absurd hempty hv
    | some u => exact .inl ⟨t, .inr (by simp [State.setTask, Pc.Draining])⟩
  · cases hn
    exact fun _ ↦ .inr (.inr (by simp [State.setTask]))
  all_goals cases hn

/-- Every permitted step leaves somebody responsible for the queued handles. -/
theorem next {a : Act ι} (h : Attended s) (hok : WakeOk s a)
    (hn : SharedMutex.next s a = some s') : Attended s' := by
  cases a with
  | call t op =>
    obtain ⟨pc, hpc, rfl⟩ := Option.map_eq_some_iff.mp hn
    rcases op.engaged_of_start hpc with heng | hold
    · exact of_task (t := t) (.inl (by simpa [State.setTask] using heng))
    · exact h.of_keep rfl hold rfl rfl rfl
  | task t => exact h.taskStep hok hn
  | suspender i => exact suspenderStep hok hn
  | resume i =>
    simp only [SharedMutex.next, resume] at hn
    split at hn
    · next t _ =>
      obtain ⟨pc, hpc, rfl⟩ := Option.map_eq_some_iff.mp hn
      refine of_task (t := t) (.inl ?_)
      simp only [State.setTask, Function.update_self]
      cases hold : s.tasks t <;> simp_all [Pc.resumed]
      all_goals
        subst hpc
        trivial
    · cases hn

end Attended

variable [DecidableEq ι]

/-- On runs whose every step wakes whom it should, no coroutine is left in the queue once
nobody operates on the mutex, holds it in either mode or is about to be resumed. -/
theorem no_stranded_locker {s : State ι} (hr : (system ι).ReachableBy WakeOk s)
    (hq : Quiescent s) (hfree : ∀ t, ¬HoldsExclusive s t ∧ ¬HoldsShared s t)
    (hrun : s.runQueue = []) : s.suspended.values = [] := by
  have h : Attended s :=
    hr.invariant (fun hv ↦ absurd rfl hv) fun _ _ _ hi hok hn ↦ hi.next hok hn
  by_contra hv
  rcases h hv with ⟨t, ht⟩ | hs | hs
  · obtain ⟨hex, hsh⟩ := hfree t
    simp only [HoldsExclusive, HoldsShared] at hex hsh
    rcases hq.1 t with hp | hp | hp | hp | hp | hp <;>
      simp_all [Pc.Engaged, Pc.Draining]
  · exact hs hq.2
  · exact hs hrun

instance (pc : Pc ι) : Decidable pc.Engaged :=
  decidable_of_iff (pc = .holding ∨ pc = .unlock ∨ pc = .holdingShared ∨ pc = .unlockShared)
    (by cases pc <;> simp [Pc.Engaged])

instance (s : State ι) (shared : Bool) : Decidable (s.wakes shared) :=
  inferInstanceAs (Decidable (_ = _))

instance [Fintype ι] (s : State ι) (a : Act ι) : Decidable (WakeOk s a) :=
  match a with
  | .task _ | .suspender _ => inferInstanceAs (Decidable (_ ∧ _))
  | .call _ _ | .resume _ => isTrue trivial

/-- Task `t` reads; task `u` requests the mutex and suspends; `t` leaves, wakes `u`, which
holds the mutex and unlocks it. -/
def readThenUnlock (t u : ι) : List (Act ι) :=
  readThenWrite t u ++ [.call u .unlock, .task u, .task u]

/-- The writer that waited for a reader has come and gone, and nobody waits. -/
theorem no_stranded_locker_readThenUnlock : ∃ s, (system (Fin 2)).ReachableBy WakeOk s ∧
    s.suspended.drained = true ∧ s.suspended.values = [] := by
  have hrun : ∃ s, (system (Fin 2)).ReachableBy WakeOk s ∧ s.suspended.drained = true ∧
      Quiescent s ∧ (∀ t, ¬HoldsExclusive s t ∧ ¬HoldsShared s t) ∧ s.runQueue = [] :=
    System.exists_reachableBy (readThenUnlock 0 1) (by decide)
  obtain ⟨s, hr, hd, hq, hfree, hrun⟩ := hrun
  exact ⟨s, hr, hd, no_stranded_locker hr hq hfree hrun⟩

/-- A task that locks the free mutex: its request has set the exclusive bit, so that it does
not find `state_` zero after its push, and it stays suspended. -/
theorem stranded_locker : ¬∀ s, (system (Fin 1)).Reachable s → Quiescent s →
    (∀ t, ¬HoldsExclusive s t ∧ ¬HoldsShared s t) → s.runQueue = [] →
      s.suspended.values = [] := by
  intro h
  have hrun : ∃ s, (system (Fin 1)).Reachable s ∧ Quiescent s ∧
      (∀ t, ¬HoldsExclusive s t ∧ ¬HoldsShared s t) ∧ s.runQueue = [] ∧
        s.suspended.values = [0] :=
    System.exists_reachable [.call 0 .lock, .task 0, .task 0, .task 0, .suspender 0] (by decide)
  obtain ⟨s, hr, hq, hfree, hrun, hv⟩ := hrun
  have hnil := h s hr hq hfree hrun
  rw [hv] at hnil
  cases hnil

end Crasy.Sync.SharedMutex
