import Crasy.Base.Events
import Crasy.Base.Holder
import Crasy.Executor.Stopped

/-!
# The core half of the destructor

Library `Executor`. `~executor` sets `core_done_` with `core_mut_` locked, notifies all core
workers and joins them (`src/executor.cpp:79–84`). In the machine of `Crasy.Executor.Core` no
worker goes to sleep from then on, and none enters `run()` but one that has seen `core_done_`
unset before: the test is made with `core_mut_` locked, and the call comes after. Whether the
joins return is up to the context: a worker that is in `run()` stays there until the context has
stopped.
-/

namespace Crasy.Executor.Core

open Crasy.Base

variable {ω ι τ : Type} {A : IoContext (Handler ι τ)} {s s' : State A ω} {a : Act ω ι τ}

/-- The worker holds `core_mut_`. -/
def WorkerPc.Locking : WorkerPc ι τ → Prop
  | .evaluate | .block | .proceed => True
  | _ => False

/-- The caller holds `core_mut_`. -/
def CallerPc.Locking : CallerPc → Prop
  | .setPending | .unlock => True
  | _ => False

/-- The worker or the caller holds `core_mut_`. -/
def State.Holds (s : State A ω) : ω ⊕ ι → Prop
  | .inl w => (s.workers w).Locking
  | .inr c => (s.callers c).pc.Locking

/-- `core_mut_` is locked by one thread at most, and only while that thread holds it. -/
def Guarded (s : State A ω) : Prop := HeldAlone s.Holds s.locked

/-- How a worker moves on. -/
inductive Passes (s : State A ω) : WorkerPc ι τ → WorkerPc ι τ → Prop where
  | lock : Passes s .lock .evaluate
  | proceed : Passes s .evaluate .proceed
  | block : s.done = false → Passes s .evaluate .block
  | blocked : Passes s .block .blocked
  | exit : Passes s .proceed .exited
  | run : s.done = false → Passes s .proceed .runBegin
  | running : Passes s .runBegin .running
  | back : Passes s .running .lock
  | take (h : Handler ι τ) : A.stopped s.context = false → Passes s .running (.handler h)
  | finish (h : Handler ι τ) : Passes s (.handler h) .running
  | wake : Passes s .blocked .lock

/-- What a step does to the workers, to `core_mut_` and to `core_done_`. -/
structure Moves (s s' : State A ω) (a : Act ω ι τ) : Prop where
  workers : ∀ w, Passes s (s.workers w) (s'.workers w) ∨
    s'.workers w = s.workers w ∧ ∀ i, a ≠ .worker w i
  guarded : Guarded s → Guarded s'
  done : s'.done = s.done ∨ s.locked = false ∧ s'.done = true ∧ s'.workers = s.workers

section Steps

variable [DecidableEq ω] [DecidableEq ι]

omit [DecidableEq ι] in
private theorem Moves.of_worker {w : ω} {pc : WorkerPc ι τ}
    (hw : s'.workers = Function.update s.workers w pc) (hp : Passes s (s.workers w) pc)
    (hc : ∀ c, (s'.callers c).pc = (s.callers c).pc) (hd : s'.done = s.done)
    (hl : LockMove s.locked s'.locked (s.workers w).Locking pc.Locking)
    (ha : ∀ v i, a = .worker v i → v = w) : Moves s s' a := by
  refine ⟨fun v ↦ ?_, fun h ↦ ?_, .inl hd⟩
  · by_cases hv : v = w
    · subst hv
      rw [hw, Function.update_self]
      exact .inl hp
    · rw [hw, Function.update_of_ne hv]
      exact .inr ⟨rfl, fun i he ↦ hv (ha v i he)⟩
  · have hself : s'.Holds (.inl w) = pc.Locking := by rw [State.Holds, hw, Function.update_self]
    refine HeldAlone.move h (.inl w) (by rwa [hself]) fun p hp ↦ ?_
    cases p with
    | inl v =>
      have hv : v ≠ w := fun he ↦ hp (congrArg _ he)
      rw [State.Holds, State.Holds, hw, Function.update_of_ne hv]
    | inr c => rw [State.Holds, State.Holds, hc]

/-- Workers that a step wakes, if any. -/
def Woken (s s' : State A ω) : Prop :=
  ∀ w, s'.workers w = s.workers w ∨ s.workers w = .blocked ∧ s'.workers w = .lock

omit [DecidableEq ω] [DecidableEq ι] in
private theorem Woken.refl (hw : s'.workers = s.workers) : Woken s s' := fun _ ↦ .inl (by rw [hw])

omit [DecidableEq ω] [DecidableEq ι] in
private theorem Woken.passes {w : ω} (h : Woken s s') (ha : ∀ i, a ≠ .worker w i) :
    Passes s (s.workers w) (s'.workers w) ∨ s'.workers w = s.workers w ∧ ∀ i, a ≠ .worker w i := by
  rcases h w with he | ⟨hb, hl⟩
  · exact .inr ⟨he, ha⟩
  · rw [hb, hl]
    exact .inl .wake

omit [DecidableEq ω] [DecidableEq ι] in
private theorem Woken.locking (h : Woken s s') (w : ω) :
    (s'.workers w).Locking ↔ (s.workers w).Locking := by
  rcases h w with he | ⟨hb, hl⟩
  · rw [he]
  · rw [hb, hl]
    exact Iff.rfl

omit [DecidableEq ω] in
private theorem Moves.of_caller {c : ι} {caller : Caller}
    (hc : s'.callers = Function.update s.callers c caller) (hw : Woken s s') (hd : s'.done = s.done)
    (hl : LockMove s.locked s'.locked (s.callers c).pc.Locking caller.pc.Locking)
    (ha : ∀ w i, a ≠ .worker w i) : Moves s s' a := by
  refine ⟨fun w ↦ hw.passes (ha w), fun h ↦ ?_, .inl hd⟩
  have hself : s'.Holds (.inr c) = caller.pc.Locking := by
    rw [State.Holds, hc, Function.update_self]
  refine HeldAlone.move h (.inr c) (by rwa [hself]) fun p hp ↦ ?_
  cases p with
  | inl w => exact hw.locking w
  | inr d =>
    have hdc : d ≠ c := fun he ↦ hp (congrArg _ he)
    rw [State.Holds, State.Holds, hc, Function.update_of_ne hdc]

omit [DecidableEq ω] [DecidableEq ι] in
private theorem Moves.of_woken (hw : Woken s s') (hc : ∀ c, (s'.callers c).pc = (s.callers c).pc)
    (hl : s'.locked = s.locked) (hd : s'.done = s.done) (ha : ∀ w i, a ≠ .worker w i) :
    Moves s s' a := by
  refine ⟨fun w ↦ hw.passes (ha w), fun h ↦ ?_, .inl hd⟩
  rw [Guarded, hl]
  refine HeldAlone.congr h fun p ↦ ?_
  cases p with
  | inl w => exact hw.locking w
  | inr c => rw [State.Holds, State.Holds, hc]

omit [DecidableEq ω] in
private theorem callers_setCaller {c : ι} {caller : Caller} (hp : caller.pc = (s.callers c).pc)
    (d : ι) :
    ((s.setCaller c caller).callers d).pc = (s.callers d).pc := by
  change (Function.update s.callers c caller d).pc = (s.callers d).pc
  by_cases hd : d = c
  · subst hd
    rw [Function.update_self, hp]
  · rw [Function.update_of_ne hd]

omit [DecidableEq ω] in
private theorem Moves.of_effect {e : Effect ι τ} (hn : effect s e = some s')
    (ha : ∀ w i, a ≠ .worker w i) :
    Moves s s' a := by
  cases e with
  | scheduleTask t | spawnBlocking | startOperation =>
    cases hn
    exact .of_woken (.refl rfl) (fun _ ↦ rfl) rfl rfl ha
  | setDone c =>
    simp only [effect] at hn
    split at hn
    · cases hn
      exact .of_woken (.refl rfl) (callers_setCaller rfl) rfl rfl ha
    · cases hn
  | finish => cases hn

/-- A worker's step. -/
theorem moves_workerStep {w : ω} {i : Nat} (hn : workerStep s w i = some s') :
    Moves s s' (.worker w i : Act ω ι τ) := by
  have hself (v : ω) (j : Nat) (he : (.worker w i : Act ω ι τ) = .worker v j) : v = w := by
    cases he
    rfl
  simp only [workerStep] at hn
  split at hn
  · next hpc =>
    split at hn
    · cases hn
    · next hl =>
      cases hn
      refine .of_worker rfl (by rw [hpc]; exact .lock) (fun _ ↦ rfl) rfl ?_ hself
      rw [Bool.eq_false_iff.mpr hl]
      exact .acquire trivial
  · next hpc =>
    cases hn
    split
    · exact .of_worker rfl (by rw [hpc]; exact .proceed) (fun _ ↦ rfl) rfl
        (by rw [hpc]; exact .keep Iff.rfl) hself
    · next hno =>
      have hdone : s.done = false := by
        rw [Bool.or_eq_true, not_or, Bool.not_eq_true, Bool.not_eq_true] at hno
        exact hno.2
      exact .of_worker rfl (by rw [hpc]; exact .block hdone) (fun _ ↦ rfl) rfl
        (by rw [hpc]; exact .keep Iff.rfl) hself
  · next hpc =>
    cases hn
    exact .of_worker rfl (by rw [hpc]; exact .blocked) (fun _ ↦ rfl) rfl
      (by rw [hpc]; exact .release trivial id) hself
  · next hpc =>
    cases hn
    split
    · exact .of_worker rfl (by rw [hpc]; exact .exit) (fun _ ↦ rfl) rfl
        (by rw [hpc]; exact .release trivial id) hself
    · next hno =>
      exact .of_worker rfl (by rw [hpc]; exact .run (Bool.eq_false_iff.mpr hno)) (fun _ ↦ rfl) rfl
        (by rw [hpc]; exact .release trivial id) hself
  · next hpc =>
    cases hn
    exact .of_worker rfl (by rw [hpc]; exact .running) (fun _ ↦ rfl) rfl
      (by rw [hpc]; exact .keep Iff.rfl) hself
  · next hpc =>
    split at hn
    · cases hn
      exact .of_worker rfl (by rw [hpc]; exact .back) (fun _ ↦ rfl) rfl
        (by rw [hpc]; exact .keep Iff.rfl) hself
    · next hstop =>
      obtain ⟨⟨h, context⟩, -, rfl⟩ := Option.map_eq_some_iff.mp hn
      have hcallers (c : ι) : ((begin s w h context).callers c).pc = (s.callers c).pc := by
        cases h with
        | start d =>
          change (State.callers (State.setCaller s d _) c).pc = _
          refine callers_setCaller ?_ c
          rfl
        | resume | completion => rfl
      have hworkers : (begin s w h context).workers =
          Function.update s.workers w (.handler h) := by
        cases h <;> rfl
      refine .of_worker hworkers ?_ hcallers (by cases h <;> rfl) ?_ hself
      · rw [hpc]
        exact .take h (Bool.eq_false_iff.mpr hstop)
      · rw [hpc]
        cases h <;> exact .keep Iff.rfl
  all_goals cases hn

variable [Fintype ω] [DecidableEq τ]

/-- A caller's step. -/
theorem moves_callerStep {c : ι} {wakes : Option ω} (hn : callerStep s c wakes = some s') :
    Moves s s' (.caller c wakes : Act ω ι τ) := by
  simp only [callerStep] at hn
  split at hn
  · next hpc =>
    cases hn
    exact .of_caller rfl (.refl rfl) rfl (by rw [hpc]; exact .keep Iff.rfl) (by simp)
  · next hpc =>
    cases hn
    exact .of_caller rfl (.refl rfl) rfl (by rw [hpc]; exact .keep Iff.rfl) (by simp)
  · split at hn
    · cases hn
    · next hl =>
      cases hn
      refine .of_caller rfl (.refl rfl) rfl ?_ (by simp)
      rw [Bool.eq_false_iff.mpr hl]
      exact .acquire trivial
  · next hpc =>
    cases hn
    exact .of_caller rfl (.refl rfl) rfl (by rw [hpc]; exact .keep Iff.rfl) (by simp)
  · next hpc =>
    cases hn
    exact .of_caller rfl (.refl rfl) rfl (by rw [hpc]; exact .release trivial id) (by simp)
  · next hpc =>
    obtain ⟨t, ht, rfl⟩ := Option.map_eq_some_iff.mp hn
    rcases Served.notifyOne_cases ht with rfl | ⟨w, hb, rfl⟩
    · exact .of_caller rfl (.refl rfl) rfl (by rw [hpc]; exact .keep Iff.rfl) (by simp)
    · refine .of_caller rfl (fun v ↦ ?_) rfl (by rw [hpc]; exact .keep Iff.rfl) (by simp)
      by_cases hv : v = w
      · subst hv
        exact .inr ⟨hb, Function.update_self ..⟩
      · exact .inl (Function.update_of_ne hv ..)
  · next hpc =>
    split at hn
    · cases hn
      exact .of_caller rfl (.refl rfl) rfl (by rw [hpc]; exact .keep Iff.rfl) (by simp)
    · cases hn
  · next hpc =>
    cases hn
    exact .of_caller rfl (.refl rfl) rfl (by rw [hpc]; exact .keep Iff.rfl) (by simp)
  · cases hn

/-- Every step. -/
theorem moves_next (hn : next s a = some s') : Moves s s' a := by
  cases a with
  | call c =>
    simp only [next] at hn
    split at hn
    · next hpc =>
      cases hn
      exact .of_caller rfl (.refl rfl) rfl (by rw [hpc]; exact .keep Iff.rfl) (by simp)
    · cases hn
  | caller c wakes => exact moves_callerStep hn
  | worker w i => exact moves_workerStep hn
  | handler w e =>
    simp only [next, handlerStep] at hn
    split at hn
    · next h hpc =>
      cases hn
      exact .of_worker rfl (by rw [hpc]; exact .finish h) (fun _ ↦ rfl) rfl
        (by rw [hpc]; exact .keep Iff.rfl) (by simp)
    · exact .of_effect hn (by simp)
    · cases hn
  | blocking e =>
    simp only [next, blockingStep] at hn
    split at hn
    · cases hn
    · cases hn
      exact .of_woken (.refl rfl) (fun _ ↦ rfl) rfl rfl (by simp)
    · exact .of_effect hn (by simp)
  | complete t =>
    simp only [next] at hn
    split at hn
    · cases hn
    · cases hn
      exact .of_woken (.refl rfl) (fun _ ↦ rfl) rfl rfl (by simp)
  | spurious w =>
    simp only [next] at hn
    split at hn
    · next hb =>
      cases hn
      exact .of_worker rfl (by rw [hb]; exact .wake) (fun _ ↦ rfl) rfl
        (by rw [hb]; exact .keep Iff.rfl) (by simp)
    · cases hn
  | setDone =>
    simp only [next] at hn
    split at hn
    · cases hn
    · next hl =>
      cases hn
      exact ⟨fun _ ↦ .inr ⟨rfl, by simp⟩, fun h ↦ HeldAlone.congr h fun _ ↦ Iff.rfl,
        .inr ⟨Bool.eq_false_iff.mpr hl, rfl, rfl⟩⟩
  | notifyAll =>
    cases hn
    refine .of_woken (fun w ↦ ?_) (fun _ ↦ rfl) rfl rfl (by simp)
    by_cases hb : s.workers w = .blocked
    · exact .inr ⟨hb, if_pos hb⟩
    · exact .inl (if_neg hb)

end Steps

/-! ### From `core_done_` to the joins -/

/-- How many moves a worker has left once `core_done_` is set and the context has stopped. -/
def WorkerPc.movesLeft : WorkerPc ι τ → Nat
  | .runBegin | .handler _ | .block => 5
  | .running | .blocked => 4
  | .lock => 3
  | .evaluate => 2
  | .proceed => 1
  | .exited => 0

/-- Whether the worker makes the step. -/
def Act.isBy [DecidableEq ω] (w : ω) : Act ω ι τ → Bool
  | .worker v _ => v = w
  | _ => false

private theorem Act.isBy_eq_false [DecidableEq ω] {a : Act ω ι τ} {w : ω}
    (h : ∀ i, a ≠ .worker w i) : a.isBy w = false := by
  cases a with
  | worker v i => exact decide_eq_false fun hv ↦ h i (by rw [hv])
  | _ => rfl

/-- One for a worker that has seen `core_done_` unset and is about to call `context_.run()`. -/
def WorkerPc.entering : WorkerPc ι τ → Nat
  | .runBegin => 1
  | _ => 0

/-- One for a step in which the worker enters `context_.run()`. -/
def entersRun [DecidableEq ω] (w : ω) (s : State A ω) (a : Act ω ι τ) : Nat :=
  if a.isBy w then (s.workers w).entering else 0

/-- The destructor has set `core_done_`, and no worker is about to block. -/
structure Closing (s : State A ω) : Prop where
  guarded : Guarded s
  done : s.done = true
  no_block : ∀ w, s.workers w ≠ .block

private theorem movesLeft_passes {pc pc' : WorkerPc ι τ} (h : Passes s pc pc')
    (hdone : s.done = true) (hstop : A.stopped s.context = true) : pc'.movesLeft < pc.movesLeft := by
  cases h with
  | block hno | run hno =>
    rw [hdone] at hno
    cases hno
  | take h hno =>
    rw [hstop] at hno
    cases hno
  | _ => simp [WorkerPc.movesLeft]

private theorem Guarded.no_block (h : Guarded s) (hl : s.locked = false) (w : ω) :
    s.workers w ≠ .block := by
  intro hb
  rw [Guarded, hl] at h
  exact h.not_holds (.inl w) (by rw [State.Holds, hb]; trivial)

private theorem Moves.no_block (h : Moves s s' a) (hg : Guarded s)
    (hblock : s.done = true → ∀ w, s.workers w ≠ .block) (hdone : s'.done = true) (w : ω) :
    s'.workers w ≠ .block := by
  rcases h.done with hd | ⟨hl, -, hw⟩
  · rw [hd] at hdone
    intro hb
    rcases h.workers w with hp | ⟨he, -⟩
    · rw [hb] at hp
      generalize s.workers w = pc at hp
      cases hp with
      | block hno =>
        rw [hdone] at hno
        cases hno
    · exact hblock hdone w (he ▸ hb)
  · rw [hw]
    exact hg.no_block hl w

/-- The workers stay out of `core_cv_.wait`, and whoever is about to call `run()` was so before. -/
theorem Closing.moves (h : Closing s) (hm : Moves s s' a) : Closing s' ∧
    ∀ w, (s'.workers w = .blocked → s.workers w = .blocked) ∧
      (s'.workers w = .runBegin → s'.workers w = s.workers w ∧ ∀ i, a ≠ .worker w i) := by
  have hdone : s'.done = true := by
    rcases hm.done with hd | ⟨-, hd, -⟩
    · exact hd.trans h.done
    · exact hd
  refine ⟨⟨hm.guarded h.guarded, hdone, hm.no_block h.guarded (fun _ ↦ h.no_block) hdone⟩,
    fun w ↦ ?_⟩
  rcases hm.workers w with hp | ⟨he, hno⟩
  · generalize hpc : s.workers w = pc at hp
    generalize s'.workers w = pc' at hp
    cases hp with
    | block hno | run hno =>
      rw [h.done] at hno
      cases hno
    | blocked => exact absurd hpc (h.no_block w)
    | _ => simp
  · exact ⟨fun hb ↦ he ▸ hb, fun _ ↦ ⟨he, hno⟩⟩

section Runs

variable [DecidableEq ω] [DecidableEq ι] [DecidableEq τ] [Fintype ω]

/-- No worker is about to block once `core_done_` is set, for it is set under `core_mut_`. -/
theorem Closing.of_reachable (hr : (system A ω).Reachable s) (hdone : s.done = true) :
    Closing s := by
  have hinv : Guarded s ∧ (s.done = true → ∀ w, s.workers w ≠ .block) := by
    refine hr.invariant (I := fun s ↦ Guarded s ∧ (s.done = true → ∀ w, s.workers w ≠ .block))
      ⟨⟨?_, ?_⟩, by simp [system, init]⟩ fun s a s' hi hn ↦ ?_
    · rintro (w | c) _ hp <;> exact absurd hp id
    · constructor
      · simp [system, init]
      · rintro ⟨w | c, hp⟩ <;> exact absurd hp id
    · have hm := moves_next hn
      exact ⟨hm.guarded hi.1, hm.no_block hi.1 hi.2⟩
  exact ⟨hinv.1, hdone, hinv.2 hdone⟩

omit [Fintype ω] in
private theorem Closing.entersRun (h : Closing s) (hm : Moves s s' a) (w : ω) :
    entersRun w s a + (s'.workers w).entering ≤ (s.workers w).entering := by
  have hle : Core.entersRun w s a ≤ (s.workers w).entering := by
    rw [Core.entersRun]
    split
    · exact le_rfl
    · exact Nat.zero_le _
  by_cases hb : s'.workers w = .runBegin
  · obtain ⟨he, hno⟩ := ((h.moves hm).2 w).2 hb
    rw [Core.entersRun, Act.isBy_eq_false hno, he]
    exact (Nat.zero_add _).le
  · have hzero : (s'.workers w).entering = 0 := by
      cases hpc : s'.workers w <;> first | rfl | exact absurd hpc hb
    rwa [hzero]

/-- On a stopped context every move of a worker is one of those that it has left. -/
theorem movesLeft_next (hdone : s.done = true) (hstop : A.stopped s.context = true)
    (hn : next s a = some s') (w : ω) :
    (a.isBy w).toNat + (s'.workers w).movesLeft ≤ (s.workers w).movesLeft := by
  rcases (moves_next hn).workers w with hp | ⟨he, hno⟩
  · have hlt := movesLeft_passes hp hdone hstop
    have hone := Bool.toNat_le (a.isBy w)
    omega
  · rw [Act.isBy_eq_false hno, he]
    exact (Nat.zero_add _).le

/-- When the context has stopped, nobody is asleep and no thread can make a step, the workers
have left. -/
theorem Closing.exited (h : Closing s) (hstop : A.stopped s.context = true)
    (hawake : ∀ w, s.workers w ≠ .blocked) (hworkers : ∀ w i, next s (.worker w i) = none)
    (hhandlers : ∀ w e, next s (.handler w e) = none)
    (hcallers : ∀ c wakes, next s (.caller c wakes) = none) (w : ω) : s.workers w = .exited := by
  -- whoever holds `core_mut_` can go on
  have hfree : s.locked = false := by
    rw [Bool.eq_false_iff]
    intro hl
    obtain ⟨v | c, hp⟩ := h.guarded.locked_iff.mp hl
    · have hv := hworkers v 0
      cases hpc : s.workers v <;> simp [State.Holds, hpc, WorkerPc.Locking] at hp <;>
        simp [next, workerStep, hpc] at hv
    · have hc := hcallers c none
      cases hpc : (s.callers c).pc <;> simp [State.Holds, hpc, CallerPc.Locking] at hp <;>
        simp [next, callerStep, hpc] at hc
  have hw := hworkers w 0
  cases hpc : s.workers w with
  | exited => rfl
  | blocked => exact absurd hpc (hawake w)
  | handler x =>
    have hx := hhandlers w .finish
    simp [next, handlerStep, hpc] at hx
  | lock | evaluate | block | proceed | runBegin | running =>
    simp [next, workerStep, hpc, hfree, hstop] at hw

/-- The core half of the destructor. From when `core_done_` is set a worker enters `run()` at most
once, and only if it was about to; and from when all are notified none is asleep. Once the context
has stopped, each worker makes at most five more steps, and when no thread can make a step all of
them have left. -/
theorem workers_leave (hr : (system A ω).Reachable s) (hdone : s.done = true)
    {rest : List (Act ω ι τ)} (hrest : ((system A ω).beginningIn s).Run rest s') :
    (∀ w, ((system A ω).beginningIn s).total (entersRun w) rest ≤ (s.workers w).entering) ∧
      (.notifyAll ∈ rest → ∀ w, s'.workers w ≠ .blocked) ∧
      (A.stopped s.context = true → (∀ w, rest.countP (Act.isBy w) ≤ 5) ∧
        (.notifyAll ∈ rest → (∀ w i, next s' (.worker w i) = none) →
          (∀ w e, next s' (.handler w e) = none) → (∀ c wakes, next s' (.caller c wakes) = none) →
            ∀ w, s'.workers w = .exited)) := by
  have hinv := hrest.invariant_of_run (I := fun rest t ↦ Closing t ∧
      (∀ w, ((system A ω).beginningIn s).total (entersRun w) rest + (t.workers w).entering ≤
        (s.workers w).entering) ∧
      (.notifyAll ∈ rest → ∀ w, t.workers w ≠ .blocked) ∧
      (A.stopped s.context = true → A.stopped t.context = true ∧
        ∀ w, rest.countP (Act.isBy w) + (t.workers w).movesLeft ≤ (s.workers w).movesLeft))
    ⟨.of_reachable hr hdone, fun _ ↦ (Nat.zero_add _).le, by simp,
      fun hstop ↦ ⟨hstop, fun _ ↦ (Nat.zero_add _).le⟩⟩
    fun rest t a t' hrun ⟨hc, henter, hawake, hstopped⟩ _ hn ↦ by
      have hm := moves_next hn
      obtain ⟨hc', hstay⟩ := hc.moves hm
      refine ⟨hc', fun w ↦ ?_, fun hall w hw ↦ ?_, fun hstop ↦ ?_⟩
      · have hbefore := henter w
        have hstep := hc.entersRun hm w
        rw [hrun.total_concat hn]
        omega
      · rcases List.mem_append.mp hall with hall | hlast
        · exact hawake hall w ((hstay w).1 hw)
        · rw [← List.mem_singleton.mp hlast] at hn
          cases hn
          by_cases hb : t.workers w = .blocked <;> simp [hb] at hw
      · obtain ⟨ht, hmoves⟩ := hstopped hstop
        refine ⟨(next_stopped ht hn).1.stopped, fun w ↦ ?_⟩
        have hbefore := hmoves w
        have hstep := movesLeft_next hc.done ht hn w
        have hone : (if a.isBy w = true then 1 else 0) = (a.isBy w).toNat := by
          cases a.isBy w <;> rfl
        rw [List.countP_append, List.countP_singleton, hone]
        omega
  obtain ⟨hc, henter, hawake, hstopped⟩ := hinv
  refine ⟨fun w ↦ (Nat.le_add_right _ _).trans (henter w), hawake, fun hstop ↦ ?_⟩
  obtain ⟨hstop', hmoves⟩ := hstopped hstop
  refine ⟨fun w ↦ ?_, fun hall ↦ hc.exited hstop' (hawake hall)⟩
  have hfive : (s.workers w).movesLeft ≤ 5 := by
    cases s.workers w <;> simp [WorkerPc.movesLeft]
  exact (Nat.le_add_right _ _).trans ((hmoves w).trans hfive)

end Runs

/-- A second call of `block_on` has woken the worker, which has seen `core_done_` unset and is
about to call `run()` when the destructor sets it. The worker enters the stopped context once and
leaves. -/
theorem workers_leave_blockOn : ∃ s s' : State (countedContext (Handler (Fin 1) Unit)) (Fin 1),
    (system _ (Fin 1)).Reachable s ∧ s.workers 0 = .runBegin ∧
      ((system _ (Fin 1)).beginningIn s).Run (.notifyAll :: List.replicate 5 (.worker 0 0)) s' ∧
        s'.workers 0 = .exited ∧ ((system _ (Fin 1)).beginningIn s).total (entersRun 0)
          (.notifyAll :: List.replicate 5 (.worker 0 0)) ≤ 1 := by
  have hrun : ∃ s, (system (countedContext (Handler (Fin 1) Unit)) (Fin 1)).Reachable s ∧
      s.done = true ∧ s.workers 0 = .runBegin ∧
        ∃ s' ∈ ((system _ (Fin 1)).beginningIn s).execBy (fun _ _ ↦ True) s
          (.notifyAll :: List.replicate 5 (.worker 0 0)), s'.workers 0 = .exited :=
    System.exists_reachable
      (blockOn 0 0 ++ .call 0 :: List.replicate 6 (.caller 0 (some 0)) ++
        List.replicate 3 (.worker 0 0) ++ [.setDone]) (by decide)
  obtain ⟨s, hr, hdone, hbegin, hrest⟩ := hrun
  obtain ⟨s', hrun', hexited⟩ :=
    System.exists_runBy (M := (system _ (Fin 1)).beginningIn s) _ hrest
  have henters := (workers_leave hr hdone hrun').1 0
  rw [hbegin] at henters
  exact ⟨s, s', hr, hbegin, hrun', hexited, henters⟩

end Crasy.Executor.Core
