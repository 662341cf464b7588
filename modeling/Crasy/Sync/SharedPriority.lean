import Crasy.Base.Amortized
import Crasy.Sync.SharedMutex

/-!
# Writers are not overtaken

Library `Sync`. From when a `lock` of `Crasy.Sync.SharedMutex` has set `EX_BIT` until that task
unlocks, no other task comes to hold the mutex: the readers that are there may only leave. This
is the reason why `lock` records its request in `state_` before it suspends
(`src/shared_mutex.cpp:12–18`); it holds on the runs on which the encoding of the word does.
-/

namespace Crasy.Sync.SharedMutex

open Crasy.Base Crasy.LfQueue

variable {ι : Type}

/-- The task has entered its request in `state_`, or holds the mutex exclusively. -/
def Requested (s : State ι) (t : ι) : Prop := 0 < (s.tasks t).exclusive

/-- Permitted steps, none of which is the `fetch_sub` of the writer's `unlock`. -/
def Before [Fintype ι] (w : ι) (s : State ι) (a : Act ι) : Prop :=
  StepOk s a ∧ (a = .task w → s.tasks w ≠ .unlock)

section Steps

variable [Fintype ι] [DecidableEq ι] {s s' : State ι} {w t : ι} {pc : Pc ι}

/-- The writer keeps its request, and nobody comes to hold the mutex shared. -/
structure Excludes (s s' : State ι) (w : ι) : Prop where
  requested : Requested s' w
  shared : ∀ u, HoldsShared s' u → HoldsShared s u

omit [Fintype ι] in
private theorem Excludes.of_update (hw : Requested s w)
    (ht : s'.tasks = Function.update s.tasks t pc)
    (hreq : t = w → 0 < pc.exclusive) (hsh : pc ≠ .holdingShared) : Excludes s s' w := by
  constructor
  · rw [Requested, ht]
    by_cases he : w = t
    · subst he
      rw [Function.update_self]
      exact hreq rfl
    · rwa [Function.update_of_ne he]
  · intro u hu
    rw [HoldsShared, ht] at hu
    by_cases he : u = t
    · subst he
      rw [Function.update_self] at hu
      exact absurd hu hsh
    · rwa [Function.update_of_ne he] at hu

omit [Fintype ι] [DecidableEq ι] in
private theorem Excludes.of_eq (hw : Requested s w) (ht : s'.tasks = s.tasks) :
    Excludes s s' w := by
  refine ⟨?_, fun u hu ↦ ?_⟩
  · rwa [Requested, ht]
  · rwa [HoldsShared, ht] at hu

omit [DecidableEq ι] in
private theorem Requested.state (h : Invariant s) (hw : Requested s w) :
    2 ^ 63 ≤ s.state.toNat := by
  have hle := h.le_state w
  rw [Requested] at hw
  omega

/-- A step of a task inside an operation. -/
theorem excludes_taskStep (h : Invariant s) (hw : Requested s w) (hok : Before w s (.task t))
    (hn : taskStep s t = some s') : Excludes s s' w := by
  have hbit := hw.state h
  have hzero : s.state ≠ 0 := by
    intro hz
    rw [hz] at hbit
    simp at hbit
  -- most of these tasks are not the writer and do not come to share the mutex
  have hother {s' : State ι} {pc : Pc ι} (ht : s'.tasks = Function.update s.tasks t pc)
      (hpc : (s.tasks t).exclusive = 0) (hsh : pc ≠ .holdingShared) : Excludes s s' w := by
    refine .of_update hw ht (fun he ↦ ?_) hsh
    rw [Requested, ← he, hpc] at hw
    cases hw
  simp only [taskStep] at hn
  split at hn
  · next hpc =>
    cases hn
    rw [tryLock, if_neg hzero]
    exact hother rfl (by rw [hpc]; rfl) (by simp)
  · next hpc =>
    cases hn
    refine .of_update hw rfl (fun _ ↦ ?_) (by split <;> simp)
    split <;> exact Nat.one_pos
  · next hpc =>
    cases hn
    exact hother rfl (by rw [hpc]; rfl) (by simp)
  · next x hpc =>
    cases hn
    simp only [lockExchange]
    split
    · split
      · next hx hsx =>
        rw [← hsx, and_exBit_eq_zero] at hx
        omega
      · exact hother rfl (by rw [hpc]; rfl) (by simp)
    · exact hother rfl (by rw [hpc]; rfl) (by simp)
  · next requested hpc =>
    cases hn
    refine .of_update hw rfl (fun he ↦ ?_) (by simp)
    rw [Requested, ← he, hpc] at hw
    cases requested with
    | true => exact Nat.one_pos
    | false => cases hw
  · next hpc =>
    cases hn
    refine .of_update hw rfl (fun he ↦ ?_) (by simp)
    exact absurd (he ▸ hpc) (hok.2 (by rw [he]))
  · next hpc =>
    cases hn
    have hnz : s.state &&& exBit ≠ 0 := by
      rw [ne_eq, and_exBit_eq_zero]
      omega
    rw [if_neg hnz]
    exact hother rfl (by rw [hpc]; rfl) (by simp)
  · next hpc =>
    cases hn
    exact hother rfl (by rw [hpc]; rfl) (by simp)
  · next hpc =>
    cases hn
    rw [tryLock, if_neg hzero]
    exact hother rfl (by rw [hpc]; rfl) (by simp)
  · next hpc =>
    cases hn
    exact hother rfl (by rw [hpc]; rfl) (by simp)
  · next hpc =>
    cases hn
    exact hother rfl (by rw [hpc]; rfl) (by split <;> simp)
  · next hpc =>
    cases hn
    exact hother rfl (by rw [hpc]; rfl) (by split <;> simp)
  · next hpc =>
    cases hn
    exact hother rfl (by rw [hpc]; rfl) (by simp)
  all_goals cases hn

/-- Before the writer unlocks, every step keeps the others out. -/
theorem excludes_next {a : Act ι} (h : Invariant s) (hw : Requested s w) (hok : Before w s a)
    (hn : next s a = some s') : Excludes s s' w := by
  cases a with
  | call t op =>
    obtain ⟨pc, hstart, rfl⟩ := Option.map_eq_some_iff.mp hn
    refine .of_update hw rfl (fun he ↦ ?_) ?_
    · rw [Requested, ← he] at hw
      cases op <;> simp only [Op.start] at hstart <;> split at hstart <;> cases hstart
      all_goals next hpc => simp [hpc, Pc.exclusive] at hw ⊢
    · cases op <;> simp only [Op.start] at hstart <;> split at hstart <;> cases hstart <;> simp
  | task t => exact excludes_taskStep h hw hok hn
  | suspender i =>
    simp only [next, suspenderStep] at hn
    split at hn
    · cases hn
      refine .of_eq hw ?_
      split <;> split <;> rfl
    · cases hn
      exact .of_eq hw rfl
    · cases hn
      exact .of_eq hw rfl
    · cases hn
  | resume i =>
    simp only [next, resume] at hn
    split at hn
    · next t hi =>
      -- only a coroutine with its request entered is resumed
      obtain ⟨hpc, -⟩ := hok.1 t hi
      rw [hpc] at hn
      cases hn
      exact .of_update hw rfl (fun _ ↦ Nat.one_pos) (by simp)
    · cases hn

/-- No task overtakes a writer: from when it has entered its request until it unlocks, whoever
holds the mutex is the writer itself, or a reader that held it from the beginning on. -/
theorem not_overtaken (hr : (system ι).ReachableBy StepOk s) (hw : Requested s w)
    {rest : List (Act ι)} (hrest : ((system ι).beginningIn s).RunBy (Before w) rest s') :
    Requested s' w ∧ (∀ u, HoldsExclusive s' u → u = w) ∧
      ∀ u, HoldsShared s' u → HoldsShared s u := by
  have hinit : Invariant s := hr.invariant .initial fun _ _ _ hi hok hn ↦ hi.next hok hn
  have hrun : Invariant s' ∧ Excludes s s' w := by
    refine hrest.invariant (I := fun _ s' ↦ Invariant s' ∧ Excludes s s' w)
      ⟨hinit, hw, fun _ ↦ id⟩ fun _ t a t' hi hok hn ↦ ?_
    have hstep := excludes_next hi.1 hi.2.requested hok hn
    exact ⟨hi.1.next hok.1 hn, hstep.requested, fun u hu ↦ hi.2.shared u (hstep.shared u hu)⟩
  obtain ⟨hinv, hreq, hshared⟩ := hrun
  refine ⟨hreq, fun u hu ↦ eq_of_tally_le_one hinv.one ?_ hreq, hshared⟩
  rw [show s'.tasks u = .holding from hu]
  exact Nat.one_pos

instance (w : ι) (s : State ι) (a : Act ι) : Decidable (Before w s a) :=
  inferInstanceAs (Decidable (_ ∧ _))

instance (s : State ι) (t : ι) : Decidable (Requested s t) := inferInstanceAs (Decidable (_ < _))

end Steps

/-- Task `t` reads, and task `w` enters its request. -/
def requestDuringRead (t w : ι) : List (Act ι) :=
  [.call t .tryLockShared, .task t, .call w .lock, .task w, .task w]

/-- While the request is entered, another reader tries and fails, and the first one leaves. -/
theorem not_overtaken_requestDuringRead : ∃ s s' : State (Fin 3), Requested s 1 ∧
    ((system (Fin 3)).beginningIn s).RunBy (Before 1) [.call 2 .tryLockShared, .task 2, .task 2,
      .call 0 .unlockShared, .task 0] s' ∧ HoldsShared s 0 ∧ ¬HoldsShared s' 2 := by
  have hrun : ∃ s, (system (Fin 3)).ReachableBy StepOk s ∧ Requested s 1 ∧ HoldsShared s 0 ∧
      ¬HoldsShared s 2 ∧ ∃ s' ∈ ((system (Fin 3)).beginningIn s).execBy (Before 1) s
        [.call 2 .tryLockShared, .task 2, .task 2, .call 0 .unlockShared, .task 0], True :=
    System.exists_reachableBy (requestDuringRead 0 1) (by decide)
  obtain ⟨s, hr, hw, h0, h2, hrest⟩ := hrun
  obtain ⟨s', hrun', -⟩ := System.exists_runBy (M := (system (Fin 3)).beginningIn s) _ hrest
  exact ⟨s, s', hw, hrun', h0, fun hs ↦ h2 ((not_overtaken hr hw hrun').2.2 2 hs)⟩

end Crasy.Sync.SharedMutex
