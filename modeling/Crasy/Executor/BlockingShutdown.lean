import Crasy.Base.Amortized
import Crasy.Executor.BlockingDrain

/-!
# The destructor of the blocking pool comes to its end

Library `Executor`. In the orderly runs of `Crasy.Executor.BlockingDrain` the destructor
(`src/executor.cpp:71–77`) never gets stuck: whoever holds `blocking_mut_` can go on, and no
worker is blocked once the destructor waits for it. From when `blocking_done_` is set the
steps left are bounded, spurious wakeups included, so the workers are joined whatever the
scheduler does.
-/

namespace Crasy.Executor.Blocking

open Crasy.Base Crasy.LfQueue

variable {ω κ τ : Type}

/-! ### The mutex -/

/-- One for a worker that holds `blocking_mut_`. -/
def WorkerPc.locking : WorkerPc τ → Nat
  | .evaluate | .block | .checkDone => 1
  | .pop | .fetchSub _ | .invoke _ | .lock | .blocked | .relock | .exited => 0

/-- One for a caller that holds `blocking_mut_`. -/
def CallerPc.locking : CallerPc τ → Nat
  | .unlock => 1
  | .idle | .push _ | .fetchAdd | .tryLock | .notify => 0

/-- One for the destructor while it holds `blocking_mut_`. -/
def DestructorPc.locking : DestructorPc → Nat
  | .setDone | .unlock => 1
  | .idle | .lock | .notifyAll | .join | .joined => 0

section Mutex

variable [Fintype ω] [Fintype κ]

/-- The threads that hold `blocking_mut_`. -/
def State.holders (s : State ω κ τ) : Nat :=
  tally WorkerPc.locking s.workers + tally CallerPc.locking s.callers + s.destructor.locking

/-- The mutex has one holder while it is locked and none while it is not. -/
def Guarded (s : State ω κ τ) : Prop := s.holders = s.locked.toNat

variable {s s' : State ω κ τ}

private theorem Guarded.worker [DecidableEq ω] {w : ω} {pc : WorkerPc τ} (h : Guarded s)
    (hw : s'.workers = Function.update s.workers w pc) (hc : s'.callers = s.callers)
    (hd : s'.destructor = s.destructor)
    (hlock : s'.locked.toNat + (s.workers w).locking = s.locked.toNat + pc.locking) :
    Guarded s' := by
  have hu := tally_update WorkerPc.locking s.workers w pc
  rw [Guarded, State.holders] at h ⊢
  rw [hw, hc, hd]
  omega

private theorem Guarded.caller [DecidableEq κ] {c : κ} {pc : CallerPc τ} (h : Guarded s)
    (hc : s'.callers = Function.update s.callers c pc) (hw : s'.workers = s.workers)
    (hd : s'.destructor = s.destructor)
    (hlock : s'.locked.toNat + (s.callers c).locking = s.locked.toNat + pc.locking) :
    Guarded s' := by
  have hu := tally_update CallerPc.locking s.callers c pc
  rw [Guarded, State.holders] at h ⊢
  rw [hw, hc, hd]
  omega

private theorem Guarded.destructor (h : Guarded s)
    (hw : tally WorkerPc.locking s'.workers = tally WorkerPc.locking s.workers)
    (hc : s'.callers = s.callers) (hlock : s'.locked.toNat + s.destructor.locking =
      s.locked.toNat + s'.destructor.locking) : Guarded s' := by
  rw [Guarded, State.holders] at h ⊢
  rw [hw, hc]
  omega

/-- A thread that holds the mutex is the only one, and the mutex is locked. -/
theorem Guarded.locked (h : Guarded s) (hpos : 0 < s.holders) :
    s.locked = true ∧ s.holders = 1 := by
  rw [Guarded] at h
  cases hl : s.locked with
  | true =>
    rw [hl] at h
    exact ⟨rfl, h⟩
  | false =>
    rw [hl] at h
    rw [h] at hpos
    exact absurd hpos (Nat.lt_irrefl 0)

private theorem Guarded.locked_of_worker {w : ω} (h : Guarded s) (hw : (s.workers w).locking = 1) :
    s.locked = true := by
  have hle := le_tally WorkerPc.locking s.workers w
  refine (h.locked ?_).1
  rw [State.holders]
  omega

private theorem Guarded.locked_of_caller {c : κ} (h : Guarded s) (hc : (s.callers c).locking = 1) :
    s.locked = true := by
  have hle := le_tally CallerPc.locking s.callers c
  refine (h.locked ?_).1
  rw [State.holders]
  omega

private theorem Guarded.worker_of_destructor (h : Guarded s) (hd : s.destructor.locking = 1)
    (w : ω) :
    s.locked = true ∧ (s.workers w).locking = 0 := by
  have hle := le_tally WorkerPc.locking s.workers w
  obtain ⟨hlocked, hone⟩ := h.locked (by rw [State.holders]; omega)
  refine ⟨hlocked, ?_⟩
  rw [State.holders] at hone
  omega

private theorem Guarded.exists_holder (h : Guarded s) (hl : s.locked = true) :
    (∃ w, 0 < (s.workers w).locking) ∨ (∃ c, 0 < (s.callers c).locking) ∨
      0 < s.destructor.locking := by
  rw [Guarded, State.holders, hl] at h
  rw [← tally_pos, ← tally_pos]
  simp only [Bool.toNat_true] at h
  omega

variable [DecidableEq ω] [DecidableEq κ]

omit [DecidableEq κ] in
/-- A worker takes the mutex before it evaluates the predicate, and releases it to block, to
leave or to go back to the queue. -/
theorem Guarded.workerStep {w : ω} (h : Guarded s) (hn : workerStep s w = some s') :
    Guarded s' := by
  cases hpc : s.workers w with
  | pop =>
    simp only [Blocking.workerStep, hpc] at hn
    cases hn
    refine h.worker rfl rfl rfl ?_
    cases s.tasks.pop.1 <;> simp [hpc, WorkerPc.locking, State.setWorker]
  | fetchSub t | invoke t =>
    simp only [Blocking.workerStep, hpc] at hn
    cases hn
    exact h.worker rfl rfl rfl (by simp [hpc, WorkerPc.locking, State.setWorker])
  | lock | relock =>
    simp only [Blocking.workerStep, hpc] at hn
    split at hn
    · cases hn
    · next hl =>
      cases hn
      exact h.worker rfl rfl rfl (by simp [hpc, hl, WorkerPc.locking, State.setWorker])
  | evaluate =>
    simp only [Blocking.workerStep, hpc] at hn
    cases hn
    refine h.worker rfl rfl rfl ?_
    cases s.ready <;> simp [hpc, WorkerPc.locking, State.setWorker]
  | block =>
    simp only [Blocking.workerStep, hpc] at hn
    cases hn
    have hl := h.locked_of_worker (w := w) (by rw [hpc]; rfl)
    exact h.worker rfl rfl rfl (by simp [hpc, hl, WorkerPc.locking, State.setWorker])
  | checkDone =>
    simp only [Blocking.workerStep, hpc] at hn
    cases hn
    have hl := h.locked_of_worker (w := w) (by rw [hpc]; rfl)
    refine h.worker rfl rfl rfl ?_
    cases s.done <;> simp [hpc, hl, WorkerPc.locking, State.setWorker]
  | blocked | exited => simp only [Blocking.workerStep, hpc, reduceCtorEq] at hn

/-- A caller holds the mutex between a successful `try_lock` and its `unlock`. -/
theorem Guarded.callerStep [DecidableEq τ] {c : κ} {wakes : Option ω} (h : Guarded s)
    (hn : callerStep s c wakes = some s') : Guarded s' := by
  cases hpc : s.callers c with
  | tryLock =>
    simp only [Blocking.callerStep, hpc] at hn
    cases hn
    cases hl : s.locked with
    | true => exact h.caller rfl rfl rfl (by simp [hpc, hl, CallerPc.locking, State.setCaller])
    | false => exact h.caller rfl rfl rfl (by simp [hpc, hl, CallerPc.locking, State.setCaller])
  | unlock =>
    simp only [Blocking.callerStep, hpc] at hn
    cases hn
    have hl := h.locked_of_caller (c := c) (by rw [hpc]; rfl)
    exact h.caller rfl rfl rfl (by simp [hpc, hl, CallerPc.locking, State.setCaller])
  | idle | push | fetchAdd | notify =>
    cases callerStep_moves hn with
    | push | fetchAdd | notify =>
      exact h.caller rfl rfl rfl (by simp [hpc, CallerPc.locking, State.setCaller])
    | tryLock h' | unlock h' => simp [hpc] at h'
    | @wake w _ hb =>
      have hwoken : Guarded (s.setWorker w .relock) :=
        h.worker rfl rfl rfl (by simp [hb, WorkerPc.locking, State.setWorker])
      refine hwoken.caller rfl rfl rfl ?_
      simp [hpc, CallerPc.locking, State.setCaller, State.setWorker]

omit [DecidableEq ω] [DecidableEq κ] in
/-- The destructor holds the mutex while it sets `blocking_done_`. -/
theorem Guarded.destructorStep [DecidableEq τ] (h : Guarded s)
    (hn : destructorStep s = some s') : Guarded s' := by
  obtain ⟨-, -, hc, -, hw⟩ := destructorStep_cases hn
  refine h.destructor (tally_woken rfl hw) hc ?_
  simp only [Blocking.destructorStep] at hn
  split at hn
  · next hd =>
    cases hn
    simp [hd, DestructorPc.locking]
  · next hd =>
    split at hn
    · cases hn
    · next hl =>
      cases hn
      simp [hd, hl, DestructorPc.locking]
  · next hd =>
    cases hn
    simp [hd, DestructorPc.locking]
  · next hd =>
    cases hn
    have hl := (h.locked (by rw [State.holders, hd]; exact Nat.succ_pos _)).1
    simp [hd, hl, DestructorPc.locking]
  · next hd =>
    cases hn
    simp [hd, DestructorPc.locking]
  · next hd =>
    split at hn
    · cases hn
      simp [hd, DestructorPc.locking]
    · cases hn
  · cases hn

/-- Every step keeps the mutex. -/
theorem Guarded.next [DecidableEq τ] {a : Act ω κ τ} (h : Guarded s)
    (hn : next s a = some s') : Guarded s' := by
  cases a with
  | call c t =>
    simp only [Blocking.next] at hn
    split at hn
    · next hpc =>
      cases hn
      exact h.caller rfl rfl rfl (by simp [hpc, CallerPc.locking, State.setCaller])
    · cases hn
  | caller c wakes => exact h.callerStep hn
  | worker w => exact h.workerStep hn
  | spurious w =>
    simp only [Blocking.next] at hn
    split at hn
    · next hb =>
      cases hn
      exact h.worker rfl rfl rfl (by simp [hb, WorkerPc.locking, State.setWorker])
    · cases hn
  | destroy => exact h.destructorStep hn

end Mutex

/-! ### No worker sleeps through the shutdown -/

section Shutdown

variable [DecidableEq ω] [DecidableEq κ] [DecidableEq τ] [Fintype ω] [Fintype κ]
  {s s' : State ω κ τ}

/-- What holds of an orderly run: once `blocking_done_` is set no worker is about to block, and
once the destructor has notified none is blocked. -/
structure Closing (s : State ω κ τ) : Prop where
  staged : Staged s
  guarded : Guarded s
  no_block : s.done = true → ∀ w, s.workers w ≠ .block
  no_blocked : s.destructor = .join ∨ s.destructor = .joined → ∀ w, s.workers w ≠ .blocked

namespace Closing

omit [DecidableEq ω] [DecidableEq κ] [DecidableEq τ] in
private theorem of_not_done (hs : Staged s) (hg : Guarded s) (hd : s.done = false) : Closing s := by
  refine ⟨hs, hg, fun h ↦ absurd h (by simp [hd]), fun hj ↦ ?_⟩
  have hdone : s.done = true := hs.done_iff.mpr (by rcases hj with hj | hj <;> rw [hj] <;> trivial)
  simp [hd] at hdone

omit [DecidableEq ω] [DecidableEq κ] [DecidableEq τ] in
private theorem done_of_join (h : Closing s) (hj : s.destructor = .join ∨ s.destructor = .joined) :
    s.done = true :=
  h.staged.done_iff.mpr (by rcases hj with hj | hj <;> rw [hj] <;> trivial)

private theorem worker {w : ω} (h : Closing s) (hok : Orderly s (.worker w))
    (hn : workerStep s w = some s') : Closing s' := by
  obtain ⟨-, hdone, hdes⟩ := workerStep_frame hn
  have hstep {pc : WorkerPc τ} (hw : s'.workers = Function.update s.workers w pc)
      (hblock : pc = .block → s.ready = false)
      (hblocked : pc = .blocked → s.workers w = .block) : Closing s' := by
    refine ⟨h.staged.next hok hn, h.guarded.workerStep hn, fun hd v hv ↦ ?_, fun hj v hv ↦ ?_⟩
    · rw [hdone] at hd
      by_cases hvw : v = w
      · rw [hvw, hw, Function.update_self] at hv
        have := hblock hv
        simp [State.ready, hd] at this
      · rw [hw, Function.update_of_ne hvw] at hv
        exact h.no_block hd v hv
    · rw [hdes] at hj
      by_cases hvw : v = w
      · rw [hvw, hw, Function.update_self] at hv
        exact h.no_block (h.done_of_join hj) w (hblocked hv)
      · rw [hw, Function.update_of_ne hvw] at hv
        exact h.no_blocked hj v hv
  cases workerStep_moves hn with
  | pop_none | pop_some | fetchSub | invoke => exact hstep rfl (by simp) (by simp)
  | wait hpc hto hblock hblocked => exact hstep rfl (fun hb ↦ (hblock hb).2) hblocked

/-- The destructor sets the flag while no worker is about to block, and then wakes them. -/
theorem destroy (h : Closing s) (hok : Orderly s .destroy) (hn : destructorStep s = some s') :
    Closing s' := by
  have hs : Staged s' := h.staged.next hok hn
  have hg : Guarded s' := h.guarded.destructorStep hn
  obtain ⟨-, -, -, -, hw⟩ := destructorStep_cases hn
  have hnot {v : ω} (hb : s.workers v ≠ .block) : s'.workers v ≠ .block := by
    rcases hw v with hv | ⟨-, hv⟩ <;> rw [hv]
    · exact hb
    · exact nofun
  cases hd : s.destructor with
  | idle | lock =>
    have hdone : s'.done = s.done := by
      simp only [destructorStep, hd] at hn
      first
        | (cases hn; rfl)
        | (split at hn <;> cases hn; rfl)
    refine .of_not_done hs hg ?_
    rw [hdone, Bool.eq_false_iff]
    intro hdone
    have := h.staged.done_iff.mp hdone
    rw [hd] at this
    exact this
  | joined => simp [destructorStep, hd] at hn
  | setDone =>
    simp only [destructorStep, hd] at hn
    cases hn
    refine ⟨hs, hg, fun _ w hb ↦ ?_, fun hj ↦ by simp at hj⟩
    -- the destructor holds the mutex, and so would a worker about to block
    have hzero := (h.guarded.worker_of_destructor (by rw [hd]; rfl) w).2
    rw [show s.workers w = .block from hb] at hzero
    cases hzero
  | unlock =>
    simp only [destructorStep, hd] at hn
    cases hn
    exact ⟨hs, hg, h.no_block, fun hj ↦ by simp at hj⟩
  | notifyAll =>
    simp only [destructorStep, hd] at hn
    cases hn
    refine ⟨hs, hg, fun hdone w ↦ hnot (h.no_block hdone w), fun _ w hb ↦ ?_⟩
    simp only at hb
    split at hb
    · cases hb
    · next hne => exact hne hb
  | join =>
    simp only [destructorStep, hd] at hn
    split at hn
    · cases hn
      exact ⟨hs, hg, h.no_block, fun _ ↦ h.no_blocked (.inl hd)⟩
    · cases hn

/-- Orderly steps keep the workers awake. -/
theorem next {a : Act ω κ τ} (h : Closing s) (hok : Orderly s a) (hn : next s a = some s') :
    Closing s' := by
  have hs : Staged s' := h.staged.next hok hn
  have hg : Guarded s' := h.guarded.next hn
  -- before the destructor has started nothing is to be shown
  have hearly (hidle : s.destructor = .idle) (hdone : s'.done = s.done) : Closing s' := by
    refine .of_not_done hs hg ?_
    rw [hdone, Bool.eq_false_iff]
    exact fun hd ↦ h.staged.started hd hidle
  cases a with
  | call c t =>
    refine hearly hok ?_
    simp only [Blocking.next] at hn
    split at hn <;> cases hn
    rfl
  | caller c wakes =>
    refine hearly ?_ (callerStep_frame hn).1
    by_contra hd
    have hc := h.staged.callers hd c
    simp [Blocking.next, callerStep, hc] at hn
  | worker w => exact h.worker hok hn
  | spurious w =>
    simp only [Blocking.next] at hn
    split at hn
    · cases hn
      refine ⟨hs, hg, fun hd v hv ↦ ?_, fun hj v hv ↦ ?_⟩
      all_goals
        rw [setWorker_workers] at hv
        by_cases hvw : v = w
        · rw [hvw, Function.update_self] at hv
          cases hv
        · rw [Function.update_of_ne hvw] at hv
          first | exact h.no_block hd v hv | exact h.no_blocked hj v hv
    · cases hn
  | destroy => exact h.destroy hok hn

/-- Every orderly run keeps the workers awake. -/
theorem of_run {acts : List (Act ω κ τ)} (hr : (system ω κ τ).RunBy Orderly acts s) :
    Closing s := by
  refine hr.invariant (I := fun _ s ↦ Closing s) (.of_not_done ⟨?_, ?_, ?_⟩ ?_ rfl)
    fun _ _ _ _ hi hok hn ↦ hi.next hok hn
  · exact fun hd ↦ absurd rfl hd
  · exact ⟨nofun, False.elim⟩
  · exact nofun
  · simp [Guarded, State.holders, system, init, tally, WorkerPc.locking, CallerPc.locking,
      DestructorPc.locking]

omit [DecidableEq κ] [DecidableEq τ] [Fintype ω] [Fintype κ] in
private theorem workerStep_isSome {w : ω} (hexit : s.workers w ≠ .exited)
    (hblocked : s.workers w ≠ .blocked)
    (hlock : s.workers w = .lock ∨ s.workers w = .relock → s.locked = false) :
    ∃ s', workerStep s w = some s' := by
  cases hpc : s.workers w with
  | lock | relock =>
    have hl := hlock (by simp [hpc])
    simp [workerStep, hpc, hl]
  | exited => exact absurd hpc hexit
  | blocked => exact absurd hpc hblocked
  | pop | fetchSub | invoke | evaluate | block | checkDone => simp [workerStep, hpc]

omit [DecidableEq κ] [DecidableEq τ] in
private theorem exists_worker (h : Closing s) (hl : s.locked = true)
    (hc : ∀ c, s.callers c = .idle) (hd : s.destructor.locking = 0) :
    ∃ w s', workerStep s w = some s' := by
  rcases h.guarded.exists_holder hl with ⟨w, hw⟩ | ⟨c, hpos⟩ | hpos
  · refine ⟨w, workerStep_isSome ?_ ?_ ?_⟩
    · intro hpc
      simp [hpc, WorkerPc.locking] at hw
    · intro hpc
      simp [hpc, WorkerPc.locking] at hw
    · rintro (hpc | hpc) <;> simp [hpc, WorkerPc.locking] at hw
  · simp [hc c, CallerPc.locking] at hpos
  · omega

/-- Between its start and its end the destructor or a worker can make a step. -/
theorem not_stuck (h : Closing s) (hstarted : s.destructor ≠ .idle)
    (hj : s.destructor ≠ .joined) :
    (∃ s', (system ω κ τ).next s .destroy = some s') ∨
      ∃ w s', (system ω κ τ).next s (.worker w) = some s' := by
  have hc := h.staged.callers hstarted
  cases hd : s.destructor with
  | idle => exact absurd hd hstarted
  | joined => exact absurd hd hj
  | setDone | unlock | notifyAll =>
    exact .inl (by simp [system, Blocking.next, destructorStep, hd])
  | lock =>
    cases hl : s.locked with
    | false => exact .inl (by simp [system, Blocking.next, destructorStep, hd, hl])
    | true => exact .inr (h.exists_worker hl hc (by rw [hd]; rfl))
  | join =>
    by_cases hall : ∀ w, s.workers w = .exited
    · refine .inl ⟨{ s with destructor := .joined }, ?_⟩
      simp [system, Blocking.next, destructorStep, hd, hall]
    · obtain ⟨w, hw⟩ := not_forall.mp hall
      cases hl : s.locked with
      | true => exact .inr (h.exists_worker hl hc (by rw [hd]; rfl))
      | false =>
        refine .inr ⟨w, workerStep_isSome hw ?_ fun _ ↦ hl⟩
        exact h.no_blocked (.inl hd) w

end Closing

/-- The destructor never gets stuck: in an orderly run, from when it has started until it has
joined the workers, it or a worker can make a step that is no spurious wakeup. -/
theorem destructor_not_stuck {acts : List (Act ω κ τ)}
    (hr : (system ω κ τ).RunBy Orderly acts s) (hstarted : s.destructor ≠ .idle)
    (hj : s.destructor ≠ .joined) :
    (∃ s', (system ω κ τ).next s .destroy = some s') ∨
      ∃ w s', (system ω κ τ).next s (.worker w) = some s' :=
  (Closing.of_run hr).not_stuck hstarted hj

/-! ### The steps left -/

/-- The steps that a worker makes at most once `blocking_done_` is set, but for the tasks that
it still pops. -/
def WorkerPc.remaining : WorkerPc τ → Nat
  | .exited => 0
  | .checkDone => 1
  | .evaluate => 2
  | .lock | .relock => 3
  | .pop | .block | .blocked => 4
  | .invoke _ => 5
  | .fetchSub _ => 6

/-- The steps that the destructor makes once `blocking_done_` is set. -/
def DestructorPc.remaining : DestructorPc → Nat
  | .unlock => 3
  | .notifyAll => 2
  | .join => 1
  | .idle | .lock | .setDone | .joined => 0

/-- The steps left to the workers, to the tasks in the queue and to the destructor. -/
def State.remaining (s : State ω κ τ) : Nat :=
  tally WorkerPc.remaining s.workers + 3 * s.tasks.values.length + s.destructor.remaining

omit [DecidableEq κ] [DecidableEq τ] [Fintype κ] in
private theorem remaining_worker {w : ω} {pc : WorkerPc τ}
    (hw : s'.workers = Function.update s.workers w pc)
    (hd : s'.destructor = s.destructor)
    (hless : pc.remaining + 3 * s'.tasks.values.length <
      (s.workers w).remaining + 3 * s.tasks.values.length) : s'.remaining < s.remaining := by
  have hu := tally_update WorkerPc.remaining s.workers w pc
  rw [State.remaining, State.remaining, hw, hd]
  omega

omit [DecidableEq κ] [DecidableEq τ] [Fintype κ] in
/-- Once `blocking_done_` is set, each step of a worker is one of those left. -/
theorem remaining_workerStep {w : ω} (hdone : s.done = true) (hblock : s.workers w ≠ .block)
    (hn : workerStep s w = some s') : s'.remaining < s.remaining := by
  cases hpc : s.workers w with
  | pop =>
    simp only [workerStep, hpc] at hn
    cases hn
    refine remaining_worker rfl rfl ?_
    cases hp : s.tasks.pop.1 with
    | none => simp [hpc, WorkerPc.remaining, State.setWorker, Content.pop_none hp]
    | some t =>
      simp [hpc, WorkerPc.remaining, State.setWorker, Content.pop_some hp]
      omega
  | fetchSub t | invoke t =>
    simp only [workerStep, hpc] at hn
    cases hn
    exact remaining_worker rfl rfl (by simp [hpc, WorkerPc.remaining, State.setWorker])
  | lock | relock =>
    simp only [workerStep, hpc] at hn
    split at hn
    · cases hn
    · cases hn
      exact remaining_worker rfl rfl (by simp [hpc, WorkerPc.remaining, State.setWorker])
  | evaluate =>
    simp only [workerStep, hpc, State.ready, hdone] at hn
    cases hn
    exact remaining_worker rfl rfl (by simp [hpc, WorkerPc.remaining, State.setWorker])
  | checkDone =>
    simp only [workerStep, hpc, hdone] at hn
    cases hn
    exact remaining_worker rfl rfl (by simp [hpc, WorkerPc.remaining, State.setWorker])
  | block => exact absurd hpc hblock
  | blocked | exited => simp only [workerStep, hpc, reduceCtorEq] at hn

omit [DecidableEq ω] [DecidableEq κ] [Fintype κ] in
/-- Once `blocking_done_` is set, each step of the destructor is one of those left, and the flag
stays set. -/
theorem remaining_destructorStep (hdone : s.done = true) (hpast : s.destructor.PastSetDone)
    (hn : destructorStep s = some s') : s'.done = true ∧ s'.remaining < s.remaining := by
  cases hd : s.destructor with
  | idle | lock | setDone =>
    rw [hd] at hpast
    exact hpast.elim
  | unlock =>
    simp only [destructorStep, hd] at hn
    cases hn
    refine ⟨hdone, ?_⟩
    simp only [State.remaining, hd, DestructorPc.remaining]
    omega
  | notifyAll =>
    have hwoken : tally WorkerPc.remaining
        (fun w ↦ if s.workers w = .blocked then .relock else s.workers w) ≤
          tally WorkerPc.remaining s.workers := by
      refine Finset.sum_le_sum fun w _ ↦ ?_
      dsimp only
      split
      · next hb => rw [hb]; exact Nat.le_of_ble_eq_true rfl
      · exact Nat.le_refl _
    simp only [destructorStep, hd] at hn
    cases hn
    refine ⟨hdone, ?_⟩
    simp only [State.remaining, hd, DestructorPc.remaining]
    omega
  | join =>
    simp only [destructorStep, hd] at hn
    split at hn
    · cases hn
      refine ⟨hdone, ?_⟩
      simp only [State.remaining, hd, DestructorPc.remaining]
      omega
    · cases hn
  | joined => simp [destructorStep, hd] at hn

/-- Once `blocking_done_` is set, every orderly step is one of those left, and the flag stays
set. -/
theorem remaining_next {a : Act ω κ τ} (h : Closing s) (hdone : s.done = true)
    (hok : Orderly s a) (hn : next s a = some s') :
    s'.done = true ∧ s'.remaining < s.remaining := by
  have hstarted := h.staged.started hdone
  cases a with
  | call c t => exact absurd hok hstarted
  | caller c wakes => simp [next, callerStep, h.staged.callers hstarted c] at hn
  | worker w =>
    exact ⟨(workerStep_frame hn).2.1.trans hdone,
      remaining_workerStep hdone (h.no_block hdone w) hn⟩
  | spurious w =>
    simp only [next] at hn
    split at hn
    · next hb =>
      cases hn
      exact ⟨hdone,
        remaining_worker rfl rfl (by simp [hb, WorkerPc.remaining, State.setWorker])⟩
    · cases hn
  | destroy => exact remaining_destructorStep hdone (h.staged.done_iff.mp hdone) hn

omit [DecidableEq ω] [DecidableEq κ] [DecidableEq τ] [Fintype κ] in
/-- A worker has at most six steps left, and the destructor three. -/
theorem remaining_le (s : State ω κ τ) :
    s.remaining ≤ 6 * Fintype.card ω + 3 * s.tasks.values.length + 3 := by
  have hworkers : tally WorkerPc.remaining s.workers ≤
      6 * tally (fun _ ↦ 1) s.workers := by
    refine tally_le_mul (fun pc ↦ ?_) s.workers
    cases pc <;> exact Nat.le_of_ble_eq_true rfl
  have hcard : tally (fun _ ↦ 1) s.workers ≤ Fintype.card ω :=
    tally_le_card (fun _ ↦ Nat.le_refl 1) s.workers
  have hdestructor : s.destructor.remaining ≤ 3 := by
    cases s.destructor <;> exact Nat.le_of_ble_eq_true rfl
  rw [State.remaining]
  omega

/-- The destructor comes to its end. From when `blocking_done_` is set, the orderly steps left
are bounded by the numbers of workers and of queued tasks, and when there are no more the
workers are joined. -/
theorem destructor_terminates {acts : List (Act ω κ τ)}
    (hr : (system ω κ τ).RunBy Orderly acts s) (hdone : s.done = true)
    {rest : List (Act ω κ τ)} (hrest : ((system ω κ τ).beginningIn s).RunBy Orderly rest s') :
    rest.length ≤ 6 * Fintype.card ω + 3 * s.tasks.values.length + 3 ∧
      ((∀ a, Orderly s' a → (system ω κ τ).next s' a = none) → s'.destructor = .joined) := by
  obtain ⟨⟨hclosing, hdone'⟩, hlength⟩ := hrest.length_add_le
    (I := fun s ↦ Closing s ∧ s.done = true) State.remaining ⟨.of_run hr, hdone⟩
    fun s a s' hi hok hn ↦ by
      obtain ⟨hdone', hless⟩ := remaining_next hi.1 hi.2 hok hn
      exact ⟨⟨hi.1.next hok hn, hdone'⟩, hless⟩
  refine ⟨(Nat.le_add_right ..).trans (hlength.trans (remaining_le s)), fun hstop ↦ ?_⟩
  have hstarted := hclosing.staged.started hdone'
  by_contra hj
  rcases hclosing.not_stuck hstarted hj with ⟨t, ht⟩ | ⟨w, t, ht⟩
  · rw [hstop .destroy fun hidle ↦ absurd hidle hstarted] at ht
    cases ht
  · rw [hstop (.worker w) trivial] at ht
    cases ht

end Shutdown

/-- One worker has run a task and is blocked, and the destructor has started. -/
theorem destructor_not_stuck_submitted : ∃ s, (system (Fin 1) (Fin 1) Nat).RunBy Orderly
    (submitted 0 0 7 ++ [.destroy]) s ∧
      ((∃ s', (system (Fin 1) (Fin 1) Nat).next s .destroy = some s') ∨
        ∃ w s', (system (Fin 1) (Fin 1) Nat).next s (.worker w) = some s') := by
  have hrun : ∃ s, (system (Fin 1) (Fin 1) Nat).RunBy Orderly (submitted 0 0 7 ++ [.destroy]) s ∧
      s.destructor ≠ .idle ∧ s.destructor ≠ .joined := System.exists_runBy _ (by decide)
  obtain ⟨s, hr, hstarted, hj⟩ := hrun
  exact ⟨s, hr, destructor_not_stuck hr hstarted hj⟩

/-- The worker leaves and is joined in the six steps after `blocking_done_` is set. -/
theorem destructor_terminates_submitted : ∃ s s', s.done = true ∧
    ((system (Fin 1) (Fin 1) Nat).beginningIn s).RunBy Orderly ([.destroy, .destroy] ++
      List.replicate 3 (.worker 0) ++ [.destroy]) s' ∧
    6 ≤ 6 * Fintype.card (Fin 1) + 3 * s.tasks.values.length + 3 ∧ s'.destructor = .joined := by
  have hrun : ∃ s, (system (Fin 1) (Fin 1) Nat).RunBy Orderly
      (submitted 0 0 7 ++ List.replicate 3 .destroy) s ∧ s.done = true ∧
        ∃ s' ∈ ((system (Fin 1) (Fin 1) Nat).beginningIn s).execBy Orderly s
          ([.destroy, .destroy] ++ List.replicate 3 (.worker 0) ++ [.destroy]),
            s'.destructor = .joined :=
    System.exists_runBy _ (by decide)
  obtain ⟨s, hr, hdone, hrest⟩ := hrun
  obtain ⟨s', hrun', hj⟩ := System.exists_runBy (M := (system (Fin 1) (Fin 1) Nat).beginningIn s) _
    hrest
  exact ⟨s, s', hdone, hrun', (destructor_terminates hr hdone hrun').1, hj⟩

end Crasy.Executor.Blocking
