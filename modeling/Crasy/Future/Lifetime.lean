import Crasy.Base.Parking
import Crasy.Base.System
import Crasy.LfQueue.Fifo

/-!
# Dropped futures

Library `Future`. Coroutines that start others, await futures, sleep, lock mutexes and drop futures
that they own, on one core thread: `include/crasy/future.hpp:17–79,102–160`,
`include/crasy/sleep.hpp:37–48`, `src/mutex.cpp:5–22` and `src/executor.cpp:87–127`. What a
coroutine does next is open, and so is when a timer's wait ends. `~future` destroys the frame,
whatever the coroutine waits for, and the frames of the futures among its locals with it. The timer
of a destroyed `sleep_future` cancels its wait, and the callback runs as it would otherwise. A mutex
may be a local of a coroutine, too, and its queue is destroyed with it.

A frame keeps its number when it is gone, and a mutex as long as a coroutine waits for it. Only
frames that do not run are destroyed, as the language demands.
-/

namespace Crasy.Future.Lifetime

open Crasy.Base Crasy.LfQueue

variable {μ : Type}

/-- What a suspended coroutine waits for, which is where its handle is stored. -/
inductive Place (μ : Type) where
  | turn
  | sleep
  | lock (m : μ)
  | future (f : Nat)
  deriving DecidableEq, Repr

/-- A coroutine frame: the frame that owns its future, what the coroutine does, and `suspended_`
and `done_` of its promise; `include/crasy/future.hpp:45–48`. A root is owned by `block_on`. -/
structure Frame (μ : Type) where
  owner : Option Nat
  status : Status (Place μ)
  suspended_ : Option Nat
  done_ : Bool
  deriving DecidableEq, Repr

/-- `mutex`, with the behaviour that `Crasy.LfQueue.Sequential` proves of its queue;
`include/crasy/mutex.hpp:43–44`. -/
structure Mutex where
  locked_ : Bool
  suspended_ : Content Nat
  deriving DecidableEq, Repr

namespace Mutex

/-- An unlocked mutex that no coroutine has used. -/
def new : Mutex := { locked_ := false, suspended_ := .empty }

/-- `try_lock`; `src/mutex.cpp:16`. -/
def tryLock (m : Mutex) : Bool × Mutex := (!m.locked_, { m with locked_ := true })

/-- `await_suspend`, with the option that it dereferences if it pops; `src/mutex.cpp:7–12`. -/
def awaitSuspend (m : Mutex) (suspended : Nat) : Option (Option Nat) × Mutex :=
  let m := { m with suspended_ := m.suspended_.push suspended }
  if m.locked_ then (none, m)
  else (some m.suspended_.pop.1, { m with suspended_ := m.suspended_.pop.2 })

/-- `unlock`, with the handle to schedule; `src/mutex.cpp:18–22`. -/
def unlock (m : Mutex) : Option Nat × Mutex :=
  (m.suspended_.pop.1, { locked_ := false, suspended_ := m.suspended_.pop.2 })

end Mutex

/-- The frames and how many there have been, the coroutines that run, each called by the next, the
handles in the run queue and in the callbacks of timers, and the mutexes, with the frames that they
are locals of. `asserted` is whether every handle given to `schedule_task` and resumed so far was
that of a suspended coroutine. -/
structure State (μ : Type) where
  frames : Nat → Option (Frame μ)
  created : Nat
  stack : List Nat
  runQueue : List Nat
  timers : List Nat
  mutexes : μ → Option Mutex
  home : μ → Option Nat
  asserted : Bool

namespace State

/-- Nothing has run. -/
def init : State μ :=
  { frames := fun _ ↦ none, created := 0, stack := [], runQueue := [], timers := [],
    mutexes := fun _ ↦ none, home := fun _ ↦ none, asserted := true }

/-- What a coroutine does, if its frame is there. -/
def status (s : State μ) (f : Nat) : Option (Status (Place μ)) := (s.frames f).map Frame.status

/-- The handles stored in a place. -/
def held (s : State μ) : Place μ → List Nat
  | .turn => s.runQueue
  | .sleep => s.timers
  | .lock m => match s.mutexes m with
    | some x => x.suspended_.values
    | none => []
  | .future f => ((s.frames f).bind Frame.suspended_).toList

/-- The coroutine's frame is there, and suspended, and not at its end. -/
def isSuspended (s : State μ) (f : Nat) : Bool :=
  match s.status f with
  | some (.waiting _) => true
  | some .running | some .over | none => false

/-- Change a frame that is there. -/
def modify (s : State μ) (f : Nat) (g : Frame μ → Frame μ) : State μ :=
  { s with frames := Function.update s.frames f ((s.frames f).map g) }

/-- Change what a coroutine does. -/
def setStatus (s : State μ) (f : Nat) (x : Status (Place μ)) : State μ :=
  s.modify f fun fr ↦ { fr with status := x }

/-- Change the coroutines that run. -/
def setStack (s : State μ) (stack : List Nat) : State μ := { s with stack := stack }

/-- Change the run queue. -/
def setRunQueue (s : State μ) (queue : List Nat) : State μ := { s with runQueue := queue }

/-- Change the callbacks of timers. -/
def setTimers (s : State μ) (timers : List Nat) : State μ := { s with timers := timers }

/-- A call of a coroutine, which runs at once. -/
def alloc (s : State μ) (owner : Option Nat) : State μ :=
  { s with
    frames := Function.update s.frames s.created
      (some { owner := owner, status := .running, suspended_ := none, done_ := false })
    created := s.created + 1
    stack := s.created :: s.stack }

/-- `schedule_task`; `src/executor.cpp:117–127`. -/
def schedule (s : State μ) (task : Nat) : State μ :=
  if s.isSuspended task then
    (s.setStatus task (.waiting .turn)).setRunQueue (s.runQueue ++ [task])
  else { s.setRunQueue (s.runQueue ++ [task]) with asserted := false }

/-- `co_await` of the future of `f` by `t`; `include/crasy/future.hpp:75–79`. -/
def await (s : State μ) (t : Nat) (rest : List Nat) (f : Nat) (fr : Frame μ) : State μ :=
  if fr.done_ then s
  else
    let stored := s.modify f fun fr ↦ { fr with suspended_ := some t }
    (stored.setStatus t (.waiting (.future f))).setStack rest

/-- `co_await` of a `sleep_future`; `include/crasy/sleep.hpp:39–46`. -/
def sleep (s : State μ) (t : Nat) (rest : List Nat) : State μ :=
  ((s.setStatus t (.waiting .sleep)).setStack rest).setTimers (s.timers ++ [t])

/-- `final_suspend`; `include/crasy/future.hpp:32–40`. -/
def finish (s : State μ) (t : Nat) (rest : List Nat) : State μ :=
  let ended := (s.modify t fun fr ↦ { fr with status := .over, done_ := true }).setStack rest
  match (s.frames t).bind Frame.suspended_ with
  | none => ended
  | some suspended => (ended.modify t fun fr ↦ { fr with suspended_ := none }).schedule suspended

/-- The frame that `n` steps from owned to owner lead to. -/
def ownerAt (s : State μ) : Nat → Nat → Option Nat
  | 0, f => some f
  | n + 1, f => ((s.frames f).bind Frame.owner).bind (s.ownerAt n)

/-- The frames destroyed with `f`: those whose owners lead to it. -/
def destroyed (s : State μ) (f : Nat) : List Nat :=
  (List.range s.created).filter fun g ↦
    (List.range s.created).any fun n ↦ s.ownerAt n g = some f

/-- The mutex is a local of one of the frames. -/
def isLocal (s : State μ) (frames : List Nat) (m : μ) : Bool := (s.home m).any fun g ↦ g ∈ frames

/-- `~future`; `include/crasy/future.hpp:62–64`. -/
def destroy (s : State μ) (f : Nat) : State μ :=
  { s with
    frames := fun g ↦ if g ∈ s.destroyed f then none else s.frames g
    mutexes := fun m ↦ if s.isLocal (s.destroyed f) m then none else s.mutexes m }

section Mutexes

variable [DecidableEq μ]

/-- Change one mutex. -/
def setMutex (s : State μ) (m : μ) (x : Mutex) : State μ :=
  { s with mutexes := Function.update s.mutexes m (some x) }

/-- The construction of a mutex, as a local of `t` or not. -/
def construct (s : State μ) (t : Nat) (m : μ) (inFrame : Bool) : State μ :=
  { s.setMutex m .new with home := Function.update s.home m (if inFrame then some t else none) }

/-- The destruction of a mutex. -/
def destruct (s : State μ) (m : μ) : State μ :=
  { s with mutexes := Function.update s.mutexes m none }

/-- `co_await` of a `mutex_lock_future` by `t`: `await_ready`, which is `try_lock`, and
`await_suspend` if it fails; `src/mutex.cpp:5–12`. -/
def lock (s : State μ) (t : Nat) (rest : List Nat) (m : μ) (x : Mutex) : State μ :=
  match x.tryLock with
  | (true, x) => s.setMutex m x
  | (false, x) =>
    let suspended := (s.setStatus t (.waiting (.lock m))).setStack rest
    match x.awaitSuspend t with
    | (none, x) => suspended.setMutex m x
    | (some (some h), x) => (suspended.setMutex m x).schedule h
    | (some none, x) => { suspended.setMutex m x with asserted := false }

/-- `unlock`; `src/mutex.cpp:18–22`. -/
def unlock (s : State μ) (m : μ) (x : Mutex) : State μ :=
  match x.unlock with
  | (none, x) => s.setMutex m x
  | (some h, x) => (s.setMutex m x).schedule h

end Mutexes

end State

/-- What happens next. The coroutine on top of the stack calls another, awaits, makes or destroys a
mutex, moves the future of `f` to the frame `g`, drops the future of `f`, or ends. With an empty
stack `block_on` calls a root or drops it, the callback of a timer runs, or a posted handle is
resumed. -/
inductive Act (μ : Type) where
  | blockOn
  | call
  | await (f : Nat)
  | sleep
  | construct (m : μ) (inFrame : Bool)
  | destruct (m : μ)
  | tryLock (m : μ)
  | lock (m : μ)
  | unlock (m : μ)
  | give (f g : Nat)
  | drop (f : Nat)
  | finish
  | release (f : Nat)
  | timer (f : Nat)
  | resume
  deriving DecidableEq, Repr

section Steps

variable [DecidableEq μ]

/-- An action of the coroutine on top of the stack. -/
def coroutineStep (s : State μ) (t : Nat) (rest : List Nat) : Act μ → Option (State μ)
  | .call => some (s.alloc (some t))
  | .await f => (s.frames f).map (s.await t rest f)
  | .sleep => some (s.sleep t rest)
  | .construct m inFrame =>
    if s.mutexes m = none ∧ ∀ f < s.created, s.status f ≠ some (.waiting (.lock m)) then
      some (s.construct t m inFrame)
    else none
  | .destruct m => if s.mutexes m = none then none else some (s.destruct m)
  | .tryLock m => (s.mutexes m).map fun x ↦ s.setMutex m x.tryLock.2
  | .lock m => (s.mutexes m).map (s.lock t rest m)
  | .unlock m => (s.mutexes m).map (s.unlock m)
  | .give f g =>
    if ((s.frames f).bind Frame.owner).isSome ∧ (s.frames g).isSome then
      some (s.modify f fun fr ↦ { fr with owner := some g })
    else none
  | .drop f =>
    if (s.frames f).bind Frame.owner = some t ∧
        ∀ g ∈ s.destroyed f, s.status g ≠ some .running then some (s.destroy f)
    else none
  | .finish => some (s.finish t rest)
  | .blockOn | .release _ | .timer _ | .resume => none

/-- An action of the executor or of `block_on`, with an empty stack;
`src/executor.cpp:87–115,120–125`. -/
def executorStep (s : State μ) : Act μ → Option (State μ)
  | .blockOn => some (s.alloc none)
  | .release f =>
    if (s.frames f).any (fun fr ↦ fr.owner.isNone && fr.done_) = true ∧
        ∀ g ∈ s.destroyed f, s.status g ≠ some .running then some (s.destroy f)
    else none
  | .timer f =>
    if f ∈ s.timers then some ((s.setTimers (s.timers.erase f)).schedule f) else none
  | .resume =>
    match s.runQueue with
    | [] => none
    | f :: rest =>
      if s.isSuspended f then
        some (((s.setStatus f .running).setStack [f]).setRunQueue rest)
      else some { s.setRunQueue rest with asserted := false }
  | .call | .await _ | .sleep | .construct _ _ | .destruct _ | .tryLock _ | .lock _ | .unlock _
  | .give _ _ | .drop _ | .finish => none

/-- One step. -/
def next (s : State μ) (a : Act μ) : Option (State μ) :=
  match s.stack with
  | [] => executorStep s a
  | t :: rest => coroutineStep s t rest a

end Steps

/-- Any coroutines on one core thread. -/
def system (μ : Type) [DecidableEq μ] : System (State μ) (Act μ) := { init := .init, next := next }

/-- No handle of a coroutine that is gone, running or at its end is stored anywhere, and none has
been scheduled or resumed. -/
structure Safe (s : State μ) : Prop where
  stored : ∀ p f, f ∈ s.held p → s.isSuspended f = true
  asserted : s.asserted = true

/-! ### What the operations change -/

namespace State

variable {s : State μ} {f : Nat} {m : μ}

theorem isSuspended_iff : s.isSuspended f = true ↔ ∃ p, s.status f = some (.waiting p) := by
  rw [isSuspended]
  split <;> simp_all

private theorem status_modify {g : Frame μ → Frame μ} (hg : ∀ fr, (g fr).status = fr.status) :
    (s.modify f g).status = s.status := by
  funext h
  by_cases hf : h = f
  · subst hf
    simp [status, modify, Function.comp_def, hg]
  · simp [status, modify, Function.update_of_ne hf]

private theorem held_modify {g : Frame μ → Frame μ} (hg : ∀ fr, (g fr).suspended_ = fr.suspended_) :
    (s.modify f g).held = s.held := by
  funext p
  cases p with
  | future h =>
    by_cases hf : h = f
    · subst hf
      cases hfr : s.frames h <;> simp [held, modify, hfr, hg]
    · simp [held, modify, Function.update_of_ne hf]
  | turn | sleep | lock m => rfl

private theorem status_setStatus {x y : Status (Place μ)} (hf : s.status f = some y) :
    (s.setStatus f x).status = Function.update s.status f (some x) := by
  obtain ⟨fr, hfr, -⟩ := Option.map_eq_some_iff.mp hf
  funext h
  by_cases hh : h = f
  · subst hh
    simp [status, setStatus, modify, hfr]
  · simp [status, setStatus, modify, Function.update_of_ne hh]

@[simp] theorem held_setStatus (x : Status (Place μ)) : (s.setStatus f x).held = s.held :=
  held_modify fun _ ↦ rfl

private theorem modify_eq_none {g : Frame μ → Frame μ} {h : Nat} (hh : s.frames h = none) :
    (s.modify f g).frames h = none := by
  by_cases hf : h = f
  · subst hf
    simp [modify, hh]
  · simp [modify, Function.update_of_ne hf, hh]

variable [DecidableEq μ]

private theorem held_setSuspended {fr : Frame μ} (hf : s.frames f = some fr) (x : Option Nat) :
    (s.modify f fun fr ↦ { fr with suspended_ := x }).held =
      Function.update s.held (.future f) x.toList := by
  funext p
  by_cases hp : p = .future f
  · subst hp
    simp [held, modify, hf]
  · rw [Function.update_of_ne hp]
    cases p with
    | future h =>
      have hh : h ≠ f := fun he ↦ hp (he ▸ rfl)
      simp [held, modify, Function.update_of_ne hh]
    | turn | sleep | lock m => rfl

private theorem held_setMutex (x : Mutex) :
    (s.setMutex m x).held = Function.update s.held (.lock m) x.suspended_.values := by
  funext p
  by_cases hp : p = .lock m
  · subst hp
    simp [held, setMutex]
  · rw [Function.update_of_ne hp]
    cases p with
    | lock n =>
      have hn : n ≠ m := fun he ↦ hp (he ▸ rfl)
      simp [held, setMutex, Function.update_of_ne hn]
    | turn | sleep | future h => rfl

private theorem held_setTimers (l : List Nat) :
    (s.setTimers l).held = Function.update s.held .sleep l := by
  funext p
  cases p <;> simp [held, setTimers]

private theorem held_setRunQueue (l : List Nat) :
    (s.setRunQueue l).held = Function.update s.held .turn l := by
  funext p
  cases p <;> simp [held, setRunQueue]

omit [DecidableEq μ] in
@[simp] theorem held_setStack (l : List Nat) : (s.setStack l).held = s.held := by
  funext p
  cases p <;> rfl

end State

/-! ### Steps that destroy nothing -/

/-- The places that may have lost a handle: a future forgets the coroutine that awaits it when
another does, and a mutex may be destroyed while coroutines wait for it. -/
def State.Lossy (s : State μ) : Place μ → Prop
  | .future _ => True
  | .lock m => s.mutexes m = none
  | .turn | .sleep => False

/-- The invariant: every stored handle is that of a coroutine that waits for what stores it. -/
structure Tidy (s : State μ) : Prop where
  parking : Parking s.status s.stack s.held s.Lossy
  fresh : ∀ f, s.created ≤ f → s.frames f = none
  asserted : s.asserted = true

theorem tidy_init : Tidy (.init : State μ) := by
  refine ⟨⟨fun t ht ↦ ?_, List.nodup_nil, fun p f hm ↦ ?_, fun p ↦ ?_, fun f p hf ↦ ?_⟩,
    fun _ _ ↦ rfl, rfl⟩
  · cases ht
  · cases p <;> cases hm
  · cases p <;> exact List.nodup_nil
  · cases hf

namespace Tidy

variable {s s₁ : State μ} {t f : Nat} {rest l : List Nat} {m : μ}

private theorem safe (h : Tidy s) : Safe s :=
  ⟨fun p f hm ↦ State.isSuspended_iff.mpr ⟨p, h.parking.waits p f hm⟩, h.asserted⟩

/-- A coroutine is called. -/
theorem alloc (h : Tidy s) (owner : Option Nat) : Tidy (s.alloc owner) := by
  have hnone : s.frames s.created = none := h.fresh _ (Nat.le_refl _)
  have hstatus : (s.alloc owner).status = Function.update s.status s.created (some .running) := by
    funext g
    by_cases hg : g = s.created
    · subst hg
      simp [State.status, State.alloc]
    · simp [State.status, State.alloc, Function.update_of_ne hg]
  have hheld : (s.alloc owner).held = s.held := by
    funext p
    cases p with
    | future g =>
      by_cases hg : g = s.created
      · subst hg
        simp [State.held, State.alloc, hnone]
      · simp [State.held, State.alloc, Function.update_of_ne hg]
    | turn | sleep | lock m => rfl
  refine ⟨?_, fun g hg ↦ ?_, h.asserted⟩
  · rw [hstatus, hheld]
    exact h.parking.start (by simp [State.status, hnone])
  · have hlt : s.created < g := hg
    change Function.update s.frames s.created _ g = none
    rw [Function.update_of_ne (Nat.ne_of_gt hlt)]
    exact h.fresh g (Nat.le_of_lt hlt)

/-- A place gives up a handle, and others if it may, and the handle is scheduled. -/
theorem schedule (h : Tidy s) {p : Place μ} (hstatus : s₁.status = s.status)
    (hstack : s₁.stack = s.stack) (hfresh : ∀ g, s₁.created ≤ g → s₁.frames g = none)
    (hasserted : s₁.asserted = true) (hlossy : s₁.Lossy = s.Lossy) [DecidableEq μ]
    (hheld : s₁.held = Function.update s.held p l) (hf : f ∈ s.held p) (hp : .turn ≠ p)
    (hnodup : l.Nodup) (hl : ∀ u ∈ l, u ≠ f ∧ u ∈ s.held p)
    (hkept : ¬s.Lossy p → ∀ u ∈ s.held p, u = f ∨ u ∈ l) : Tidy (s₁.schedule f) := by
  have hwaits : s₁.status f = some (.waiting p) := by
    rw [hstatus]
    exact h.parking.waits p f hf
  have hqueue : s₁.runQueue = s.held .turn := by
    change s₁.held .turn = _
    rw [hheld, Function.update_of_ne hp]
  rw [State.schedule, if_pos (State.isSuspended_iff.mpr ⟨p, hwaits⟩)]
  refine ⟨?_, fun g hg ↦ State.modify_eq_none (hfresh g hg), hasserted⟩
  have hmove := h.parking.move hf hp hnodup hl hkept
  rw [← hheld, ← hstatus, ← hqueue, ← hlossy] at hmove
  rw [State.held_setRunQueue, State.held_setStatus]
  change Parking (s₁.setStatus f (.waiting .turn)).status s₁.stack _ _
  rw [State.status_setStatus hwaits, hstack]
  exact hmove

/-- The coroutine on top of the stack suspends in a place. -/
theorem suspend (h : Tidy s) {p : Place μ} [DecidableEq μ] (hstack : s.stack = t :: rest)
    (hstatus : s₁.status = Function.update s.status t (some (.waiting p)))
    (hrest : s₁.stack = rest) (hfresh : ∀ g, s₁.created ≤ g → s₁.frames g = none)
    (hasserted : s₁.asserted = true) (hlossy : s₁.Lossy = s.Lossy)
    (hheld : s₁.held = Function.update s.held p l) (hnodup : l.Nodup)
    (hl : ∀ u ∈ l, u = t ∨ u ∈ s.held p)
    (hkept : ¬s.Lossy p → t ∈ l ∧ ∀ u ∈ s.held p, u ∈ l) : Tidy s₁ := by
  refine ⟨?_, hfresh, hasserted⟩
  rw [hstatus, hrest, hheld, hlossy]
  exact (hstack ▸ h.parking).suspend hnodup hl hkept

private theorem append_running (h : Tidy s) (hstack : s.stack = t :: rest) (p : Place μ) :
    (s.held p ++ [t]).Nodup ∧ (∀ u ∈ s.held p ++ [t], u = t ∨ u ∈ s.held p) ∧
      t ∈ s.held p ++ [t] ∧ ∀ u ∈ s.held p, u ∈ s.held p ++ [t] := by
  have hrun := h.parking.running t (hstack ▸ List.mem_cons_self)
  have hnot := h.parking.not_mem (t := t) (by simp [hrun]) p
  refine ⟨?_, fun u hu ↦ ?_, by simp, fun u hu ↦ List.mem_append_left _ hu⟩
  · rw [List.nodup_append]
    refine ⟨h.parking.once p, List.nodup_singleton t, fun u hu v hv ↦ ?_⟩
    rw [List.mem_singleton.mp hv]
    exact fun he ↦ hnot (he ▸ hu)
  · rcases List.mem_append.mp hu with hu | hu
    · exact .inr hu
    · exact .inl (List.mem_singleton.mp hu)

private theorem status_top (h : Tidy s) (hstack : s.stack = t :: rest) :
    s.status t = some .running :=
  h.parking.running t (hstack ▸ List.mem_cons_self)

/-- `co_await` of a future. -/
theorem await [DecidableEq μ] (h : Tidy s) (hstack : s.stack = t :: rest) {fr : Frame μ}
    (hf : s.frames f = some fr) : Tidy (s.await t rest f fr) := by
  have hset : (s.modify f fun fr ↦ { fr with suspended_ := some t }).status = s.status :=
    State.status_modify fun _ ↦ rfl
  rw [State.await]
  split
  · exact h
  · refine h.suspend (p := .future f) (l := [t]) hstack ?_ rfl
      (fun g hg ↦ State.modify_eq_none (State.modify_eq_none (h.fresh g hg))) h.asserted rfl ?_
      (List.nodup_singleton t) (fun u hu ↦ .inl (List.mem_singleton.mp hu))
      fun hp ↦ absurd trivial hp
    · change (State.setStatus _ t _).status = _
      rw [State.status_setStatus (hset ▸ h.status_top hstack), hset]
    · rw [State.held_setStack, State.held_setStatus, State.held_setSuspended hf]
      rfl

/-- `co_await` of a `sleep_future`. -/
theorem sleep [DecidableEq μ] (h : Tidy s) (hstack : s.stack = t :: rest) :
    Tidy (s.sleep t rest) := by
  obtain ⟨hnodup, hl, hmem⟩ := h.append_running hstack .sleep
  refine h.suspend hstack ?_ rfl (fun g hg ↦ State.modify_eq_none (h.fresh g hg)) h.asserted rfl ?_
    hnodup hl fun _ ↦ hmem
  · change (s.setStatus t _).status = _
    exact State.status_setStatus (h.status_top hstack)
  · rw [State.sleep, State.held_setTimers, State.held_setStack, State.held_setStatus]
    rfl

end Tidy

namespace State

variable {s : State μ} {m : μ} {x y : Mutex}

private theorem held_lock (hm : s.mutexes m = some x) : s.held (.lock m) = x.suspended_.values := by
  simp [held, hm]

variable [DecidableEq μ]

private theorem lossy_setMutex (hm : s.mutexes m = some x) : (s.setMutex m y).Lossy = s.Lossy := by
  funext p
  cases p with
  | lock n =>
    by_cases hn : n = m
    · subst hn
      simp [Lossy, setMutex, hm]
    · simp [Lossy, setMutex, Function.update_of_ne hn]
  | turn | sleep | future f => rfl

private theorem held_setMutex_keep (hm : s.mutexes m = some x)
    (hy : y.suspended_.values = x.suspended_.values) : (s.setMutex m y).held = s.held := by
  rw [held_setMutex, hy, ← held_lock hm]
  exact Function.update_eq_self (.lock m) s.held

private theorem lock_free (h : x.locked_ = false) (t : Nat) (rest : List Nat) :
    s.lock t rest m x = s.setMutex m { x with locked_ := true } := by
  simp only [lock, Mutex.tryLock, h, Bool.not_false]

private theorem lock_busy (h : x.locked_ = true) (t : Nat) (rest : List Nat) :
    s.lock t rest m x = ((s.setStatus t (.waiting (.lock m))).setStack rest).setMutex m
      { locked_ := true, suspended_ := x.suspended_.push t } := by
  simp only [lock, Mutex.tryLock, h, Bool.not_true, Mutex.awaitSuspend, ↓reduceIte]

end State

namespace Tidy

variable {s : State μ} {t f : Nat} {rest : List Nat} {m : μ} {x y : Mutex} [DecidableEq μ]

private theorem setMutex (h : Tidy s) (hm : s.mutexes m = some x)
    (hy : y.suspended_.values = x.suspended_.values) : Tidy (s.setMutex m y) := by
  refine ⟨?_, h.fresh, h.asserted⟩
  rw [State.held_setMutex_keep hm hy, State.lossy_setMutex hm]
  exact h.parking

/-- A mutex is constructed for which no coroutine waits yet. -/
theorem construct (h : Tidy s) (hm : s.mutexes m = none)
    (hnot : ∀ f < s.created, s.status f ≠ some (.waiting (.lock m))) (t : Nat) (inFrame : Bool) :
    Tidy (s.construct t m inFrame) := by
  have hheld : (s.construct t m inFrame).held = s.held := by
    change (s.setMutex m .new).held = s.held
    rw [State.held_setMutex]
    refine Function.update_eq_self_iff.mpr ?_
    simp [State.held, hm, Mutex.new, Content.empty]
  refine ⟨?_, h.fresh, h.asserted⟩
  rw [hheld]
  refine h.parking.keep fun p hp ↦ ?_
  by_cases hpm : p = .lock m
  · subst hpm
    refine .inr fun f ↦ ?_
    by_cases hf : f < s.created
    · exact hnot f hf
    · simp [State.status, h.fresh f (Nat.le_of_not_lt hf)]
  · left
    cases p with
    | lock n =>
      have hn : n ≠ m := fun he ↦ hpm (he ▸ rfl)
      simpa [State.Lossy, State.construct, State.setMutex, Function.update_of_ne hn] using hp
    | turn | sleep | future f => exact hp

/-- A mutex is destroyed with the handles that it stores. -/
theorem destruct (h : Tidy s) (m : μ) : Tidy (s.destruct m) := by
  refine ⟨?_, h.fresh, h.asserted⟩
  refine (h.parking.destroy_iff (D := fun _ ↦ False) (fun _ hD ↦ hD.elim) (fun _ hD ↦ hD.elim)
    (fun _ _ ↦ rfl) fun p ↦ ?_).mpr fun _ _ hD ↦ hD.elim
  by_cases hpm : p = .lock m
  · subst hpm
    exact .inr ⟨by simp [State.Lossy, State.destruct], by simp [State.held, State.destruct]⟩
  · left
    cases p with
    | lock n =>
      have hn : n ≠ m := fun he ↦ hpm (he ▸ rfl)
      simp [State.held, State.Lossy, State.destruct, Function.update_of_ne hn]
    | turn | sleep | future f => exact ⟨rfl, id⟩

/-- `co_await` of a `mutex_lock_future`. -/
theorem lock (h : Tidy s) (hstack : s.stack = t :: rest) (hm : s.mutexes m = some x) :
    Tidy (s.lock t rest m x) := by
  cases hlocked : x.locked_ with
  | false =>
    rw [State.lock_free hlocked]
    exact h.setMutex hm rfl
  | true =>
    obtain ⟨hnodup, hl, hmem⟩ := h.append_running hstack (.lock m)
    rw [State.lock_busy hlocked]
    refine h.suspend hstack ?_ rfl (fun g hg ↦ State.modify_eq_none (h.fresh g hg)) h.asserted
      (State.lossy_setMutex hm) ?_ hnodup hl fun _ ↦ hmem
    · change (s.setStatus t _).status = _
      exact State.status_setStatus (h.status_top hstack)
    · rw [State.held_setMutex, State.held_setStack, State.held_setStatus, State.held_lock hm]
      rfl

omit [DecidableEq μ] in
private theorem of_cons {p : Place μ} {l : List Nat} (h : Tidy s) (hl : s.held p = f :: l) :
    f ∈ s.held p ∧ l.Nodup ∧ (∀ u ∈ l, u ≠ f ∧ u ∈ s.held p) ∧ ∀ u ∈ s.held p, u = f ∨ u ∈ l := by
  have honce := h.parking.once p
  rw [hl] at honce ⊢
  obtain ⟨hnot, hnodup⟩ := List.nodup_cons.mp honce
  exact ⟨List.mem_cons_self, hnodup,
    fun u hu ↦ ⟨fun he ↦ hnot (he ▸ hu), List.mem_cons_of_mem _ hu⟩, fun u hu ↦ List.mem_cons.mp hu⟩

/-- `unlock`. -/
theorem unlock (h : Tidy s) (hm : s.mutexes m = some x) : Tidy (s.unlock m x) := by
  rw [State.unlock, Mutex.unlock]
  cases hpop : x.suspended_.pop.1 with
  | none => exact h.setMutex hm (Content.pop_none hpop)
  | some f =>
    obtain ⟨hf, hnodup, hl, hkept⟩ :=
      h.of_cons ((State.held_lock hm).trans (Content.pop_some hpop))
    exact h.schedule rfl rfl h.fresh h.asserted (State.lossy_setMutex hm) (State.held_setMutex _) hf
      (fun he ↦ by cases he) hnodup hl fun _ ↦ hkept

/-- The callback of a timer. -/
theorem timer (h : Tidy s) (hf : f ∈ s.timers) :
    Tidy ((s.setTimers (s.timers.erase f)).schedule f) := by
  have honce : s.timers.Nodup := h.parking.once .sleep
  refine h.schedule rfl rfl h.fresh h.asserted rfl (State.held_setTimers _) hf
    (fun he ↦ by cases he) (honce.erase f) (fun u hu ↦ honce.mem_erase_iff.mp hu) fun _ u hu ↦ ?_
  by_cases huf : u = f
  · exact .inl huf
  · exact .inr (honce.mem_erase_iff.mpr ⟨huf, hu⟩)

/-- A posted handle is resumed. -/
theorem resume {l : List Nat} (h : Tidy s) (hstack : s.stack = []) (hl : s.runQueue = f :: l) :
    Tidy (((s.setStatus f .running).setStack [f]).setRunQueue l) := by
  have hf : f ∈ s.runQueue := hl ▸ List.mem_cons_self
  have hwaits := h.parking.waits .turn f hf
  refine ⟨?_, fun g hg ↦ State.modify_eq_none (h.fresh g hg), h.asserted⟩
  rw [State.held_setRunQueue, State.held_setStack, State.held_setStatus]
  change Parking (s.setStatus f .running).status [f] _ _
  rw [State.status_setStatus hwaits]
  exact (hstack ▸ h.parking).resume hl

/-- `final_suspend`. -/
theorem finish (h : Tidy s) (hstack : s.stack = t :: rest) : Tidy (s.finish t rest) := by
  obtain ⟨fr, hfr, -⟩ := Option.map_eq_some_iff.mp (h.status_top hstack)
  let ended := (s.modify t fun fr ↦ { fr with status := .over, done_ := true }).setStack rest
  have hheld : ended.held = s.held := by
    rw [State.held_setStack]
    exact State.held_modify fun _ ↦ rfl
  have hended : Tidy ended := by
    refine ⟨?_, fun g hg ↦ State.modify_eq_none (h.fresh g hg), h.asserted⟩
    have hstatus : ended.status = Function.update s.status t (some .over) := by
      funext g
      by_cases hg : g = t
      · subst hg
        simp [ended, State.setStack, State.status, State.modify, hfr]
      · simp [ended, State.setStack, State.status, State.modify, Function.update_of_ne hg]
    rw [hstatus, hheld]
    exact (hstack ▸ h.parking).finish
  rw [State.finish]
  cases hs : (s.frames t).bind Frame.suspended_ with
  | none => exact hended
  | some f =>
    have hfr' : ended.frames t = some { fr with status := .over, done_ := true } := by
      simp [ended, State.setStack, State.modify, hfr]
    have hf : f ∈ ended.held (.future t) := by
      rw [hheld]
      simp [State.held, hs]
    exact hended.schedule (State.status_modify fun _ ↦ rfl) rfl
      (fun g hg ↦ State.modify_eq_none (hended.fresh g hg)) hended.asserted rfl
      (State.held_setSuspended hfr' none) hf (fun he ↦ by cases he) List.nodup_nil
      (fun u hu ↦ by cases hu) fun hp ↦ absurd trivial hp

end Tidy

/-! ### Dropped futures -/

namespace State

/-- What stores the handle of a coroutine that waits in a place is still there without the frames
`gone`, and has not stored another since. -/
def Outlives (s : State μ) (gone : List Nat) (f : Nat) : Place μ → Prop
  | .turn | .sleep => True
  | .lock m => s.isLocal gone m = false ∧ s.mutexes m ≠ none
  | .future g => g ∉ gone ∧ (s.frames g).bind Frame.suspended_ = some f

/-- The coroutine does not wait in a place that outlives its frame. -/
def Detached (s : State μ) (gone : List Nat) (f : Nat) : Prop :=
  ∀ p, s.status f = some (.waiting p) → ¬s.Outlives gone f p

end State

/-- A future may be dropped if each frame destroyed with it is at its end, or awaits a future that
is destroyed with it or before, or that another coroutine has awaited since, or a mutex that is
destroyed with it or before. -/
def DropOk (s : State μ) : Act μ → Prop
  | .drop f | .release f => ∀ g ∈ s.destroyed f, s.Detached (s.destroyed f) g
  | .blockOn | .call | .await _ | .sleep | .construct _ _ | .destruct _ | .tryLock _ | .lock _
  | .unlock _ | .give _ _ | .finish | .timer _ | .resume => True

namespace Tidy

variable {s s' : State μ} {t f g : Nat} {rest : List Nat}

private theorem mem_held_destroy (h : Tidy s) {p : Place μ} : g ∈ (s.destroy f).held p ↔
    s.status g = some (.waiting p) ∧ s.Outlives (s.destroyed f) g p := by
  have hiff (hp : ¬s.Lossy p) : g ∈ s.held p ↔ s.status g = some (.waiting p) :=
    ⟨h.parking.waits p g, fun hs ↦ h.parking.kept g p hs hp⟩
  cases p with
  | turn | sleep => exact (hiff id).trans (and_iff_left trivial).symm
  | lock m =>
    rw [State.Outlives]
    cases hm : s.mutexes m with
    | none => simp [State.held, State.destroy, hm]
    | some x =>
      have hheld : g ∈ (s.destroy f).held (.lock m) ↔
          g ∈ s.held (.lock m) ∧ s.isLocal (s.destroyed f) m = false := by
        cases hlocal : s.isLocal (s.destroyed f) m <;> simp [State.held, State.destroy, hlocal]
      rw [hheld, hiff (by simp [State.Lossy, hm])]
      simp
  | future k =>
    have hheld : g ∈ (s.destroy f).held (.future k) ↔
        k ∉ s.destroyed f ∧ (s.frames k).bind Frame.suspended_ = some g := by
      by_cases hk : k ∈ s.destroyed f <;> simp [State.held, State.destroy, hk]
    rw [hheld]
    refine ⟨fun hm ↦ ⟨h.parking.waits _ g ?_, hm⟩, fun hm ↦ hm.2⟩
    simp [State.held, hm.2]

/-- The frames of a dropped future leave no handle exactly when none of them waits in a place that
outlives it. -/
theorem destroy_iff (h : Tidy s) (hrun : ∀ g ∈ s.destroyed f, s.status g ≠ some .running) :
    Tidy (s.destroy f) ↔ ∀ g ∈ s.destroyed f, s.Detached (s.destroyed f) g := by
  have hparking : Parking (s.destroy f).status (s.destroy f).stack (s.destroy f).held
      (s.destroy f).Lossy ↔ ∀ g p, g ∈ s.destroyed f → g ∉ (s.destroy f).held p := by
    refine h.parking.destroy_iff hrun (fun g hg ↦ ?_) (fun g hg ↦ ?_) fun p ↦ ?_
    · simp [State.status, State.destroy, hg]
    · simp [State.status, State.destroy, hg]
    · cases p with
      | future k =>
        by_cases hk : k ∈ s.destroyed f
        · exact .inr ⟨trivial, by simp [State.held, State.destroy, hk]⟩
        · exact .inl ⟨by simp [State.held, State.destroy, hk], id⟩
      | lock m =>
        cases hlocal : s.isLocal (s.destroyed f) m with
        | true => exact .inr (by simp [State.held, State.Lossy, State.destroy, hlocal])
        | false => exact .inl (by simp [State.held, State.Lossy, State.destroy, hlocal])
      | turn | sleep => exact .inl ⟨rfl, id⟩
  have htidy : Tidy (s.destroy f) ↔ Parking (s.destroy f).status (s.destroy f).stack
      (s.destroy f).held (s.destroy f).Lossy := by
    refine ⟨fun h' ↦ h'.parking, fun hp ↦ ⟨hp, fun g hg ↦ ?_, h.asserted⟩⟩
    simp [State.destroy, h.fresh g hg]
  rw [htidy, hparking]
  simp only [h.mem_held_destroy, State.Detached, not_and]
  exact ⟨fun hall g hg p ↦ hall g p hg, fun hall g p hg ↦ hall g hg p⟩

private theorem not_safe_destroy (h : Tidy s)
    (hbad : ¬∀ g ∈ s.destroyed f, s.Detached (s.destroyed f) g) : ¬Safe (s.destroy f) := by
  intro hsafe
  refine hbad fun g hg p hp hout ↦ ?_
  have hsuspended := hsafe.stored p g (h.mem_held_destroy.mpr ⟨hp, hout⟩)
  have hnone : (s.destroy f).status g = none := by simp [State.status, State.destroy, hg]
  rw [State.isSuspended, hnone] at hsuspended
  cases hsuspended

/-- The future of a frame is moved. -/
theorem give (h : Tidy s) (f g : Nat) : Tidy (s.modify f fun fr ↦ { fr with owner := some g }) := by
  have hstatus : (s.modify f fun fr ↦ { fr with owner := some g }).status = s.status :=
    State.status_modify fun _ ↦ rfl
  have hheld : (s.modify f fun fr ↦ { fr with owner := some g }).held = s.held :=
    State.held_modify fun _ ↦ rfl
  refine ⟨?_, fun k hk ↦ State.modify_eq_none (h.fresh k hk), h.asserted⟩
  rw [hstatus, hheld]
  exact h.parking

end Tidy

section Runs

variable [DecidableEq μ] {s s' : State μ} {t : Nat} {rest : List Nat} {a : Act μ}

/-- A step of a coroutine. -/
theorem Tidy.coroutineStep (h : Tidy s) (hstack : s.stack = t :: rest)
    (hn : coroutineStep s t rest a = some s') :
    (DropOk s a → Tidy s') ∧ (¬DropOk s a → ¬Safe s') := by
  have hgood (ht : Tidy s') (hok : DropOk s a) :
      (DropOk s a → Tidy s') ∧ (¬DropOk s a → ¬Safe s') := ⟨fun _ ↦ ht, fun hnot ↦ absurd hok hnot⟩
  cases a with
  | call =>
    cases hn
    exact hgood (h.alloc _) trivial
  | await f =>
    obtain ⟨fr, hf, rfl⟩ := Option.map_eq_some_iff.mp hn
    exact hgood (h.await hstack hf) trivial
  | sleep =>
    cases hn
    exact hgood (h.sleep hstack) trivial
  | construct m inFrame =>
    simp only [Lifetime.coroutineStep] at hn
    split at hn
    · next hm =>
      cases hn
      exact hgood (h.construct hm.1 hm.2 t inFrame) trivial
    · cases hn
  | destruct m =>
    simp only [Lifetime.coroutineStep] at hn
    split at hn <;> cases hn
    exact hgood (h.destruct m) trivial
  | tryLock m =>
    obtain ⟨x, hm, rfl⟩ := Option.map_eq_some_iff.mp hn
    exact hgood (h.setMutex hm rfl) trivial
  | lock m =>
    obtain ⟨x, hm, rfl⟩ := Option.map_eq_some_iff.mp hn
    exact hgood (h.lock hstack hm) trivial
  | unlock m =>
    obtain ⟨x, hm, rfl⟩ := Option.map_eq_some_iff.mp hn
    exact hgood (h.unlock hm) trivial
  | give f g =>
    simp only [Lifetime.coroutineStep] at hn
    split at hn <;> cases hn
    exact hgood (h.give f g) trivial
  | drop f =>
    simp only [Lifetime.coroutineStep] at hn
    split at hn
    · next hdrop =>
      cases hn
      exact ⟨(h.destroy_iff hdrop.2).mpr, h.not_safe_destroy⟩
    · cases hn
  | finish =>
    cases hn
    exact hgood (h.finish hstack) trivial
  | blockOn | release f | timer f | resume => cases hn

/-- A step of the executor or of `block_on`. -/
theorem Tidy.executorStep (h : Tidy s) (hstack : s.stack = [])
    (hn : executorStep s a = some s') :
    (DropOk s a → Tidy s') ∧ (¬DropOk s a → ¬Safe s') := by
  have hgood (ht : Tidy s') (hok : DropOk s a) :
      (DropOk s a → Tidy s') ∧ (¬DropOk s a → ¬Safe s') := ⟨fun _ ↦ ht, fun hnot ↦ absurd hok hnot⟩
  cases a with
  | blockOn =>
    cases hn
    exact hgood (h.alloc _) trivial
  | release f =>
    simp only [Lifetime.executorStep] at hn
    split at hn
    · next hrelease =>
      cases hn
      exact ⟨(h.destroy_iff hrelease.2).mpr, h.not_safe_destroy⟩
    · cases hn
  | timer f =>
    simp only [Lifetime.executorStep] at hn
    split at hn
    · next hf =>
      cases hn
      exact hgood (h.timer hf) trivial
    · cases hn
  | resume =>
    simp only [Lifetime.executorStep] at hn
    split at hn
    · cases hn
    · next f queue hl =>
      have hf : f ∈ s.held .turn := by
        change f ∈ s.runQueue
        rw [hl]
        exact List.mem_cons_self
      rw [if_pos (h.safe.stored .turn f hf)] at hn
      cases hn
      exact hgood (h.resume hstack hl) trivial
  | call | await f | sleep | construct m inFrame | destruct m | tryLock m | lock m | unlock m
  | give f g | drop f | finish => cases hn

/-- A step keeps the handles tidy exactly when it does not drop what it may not. -/
theorem Tidy.next (h : Tidy s) (hn : next s a = some s') :
    (DropOk s a → Tidy s') ∧ (¬DropOk s a → ¬Safe s') := by
  unfold Lifetime.next at hn
  split at hn
  · next hstack => exact h.executorStep hstack hn
  · next t rest hstack => exact h.coroutineStep hstack hn

/-- No handle of a destroyed coroutine is left, scheduled or resumed exactly when every dropped
future could be dropped: the coroutines destroyed with it were at their end, or awaited a future or
a mutex that was destroyed with them or before, or a future that another one has awaited since. -/
theorem never_resumed_iff {acts : List (Act μ)} (hr : (system μ).Run acts s) :
    (∀ before t, before <+: acts → (system μ).Run before t → Safe t) ↔
      (system μ).RunBy DropOk acts s :=
  hr.passes_iff (I := fun _ ↦ True) ⟨trivial, tidy_init⟩ (fun _ _ _ _ _ ↦ trivial)
    (fun _ _ _ _ h hok hn ↦ (h.next hn).1 hok) (fun _ _ h ↦ h.safe)
    fun _ _ _ _ h hbad hn ↦ (h.next hn).2 hbad

end Runs

instance (s : State μ) (gone : List Nat) (f : Nat) : (p : Place μ) → Decidable (s.Outlives gone f p)
  | .turn | .sleep => isTrue trivial
  | .lock _ | .future _ => inferInstanceAs (Decidable (_ ∧ _))

instance (s : State μ) (gone : List Nat) (f : Nat) : Decidable (s.Detached gone f) :=
  match h : s.status f with
  | some (.waiting p) =>
    decidable_of_iff (¬s.Outlives gone f p) (by
      simp only [State.Detached, h, Option.some.injEq, Status.waiting.injEq, forall_eq'])
  | some .running | some .over | none => isTrue fun p hp ↦ by simp [h] at hp

instance (s : State μ) (a : Act μ) : Decidable (DropOk s a) :=
  match a with
  | .drop f | .release f =>
    inferInstanceAs (Decidable (∀ g ∈ s.destroyed f, s.Detached (s.destroyed f) g))
  | .blockOn | .call | .await _ | .sleep | .construct _ _ | .destruct _ | .tryLock _ | .lock _
  | .unlock _ | .give _ _ | .finish | .timer _ | .resume => isTrue trivial

/-- A future is dropped when its coroutine has slept and ended; and one with the coroutine that it
awaits, and with the mutex that the two lock. -/
def detached : List (Act Unit) :=
  [.blockOn, .call, .sleep, .await 1, .timer 1, .resume, .finish, .resume, .drop 1,
    .call, .construct () true, .lock (), .call, .lock (), .await 3, .drop 2, .finish, .release 0]

/-- All frames are destroyed, two of them before their end, and no handle is left. -/
theorem never_resumed_detached : ∃ s, (system Unit).Run detached s ∧ s.created = 4 ∧
    (∀ f < 4, s.frames f = none) ∧
      ∀ before t, before <+: detached → (system Unit).Run before t → Safe t := by
  have hrun : ∃ s, (system Unit).RunBy DropOk detached s ∧ s.created = 4 ∧
      ∀ f < 4, s.frames f = none :=
    System.exists_runBy detached (by decide)
  obtain ⟨s, hr, hcreated, hgone⟩ := hrun
  have hall : (system Unit).Run detached s := hr.mono fun _ _ _ ↦ trivial
  exact ⟨s, hall, hcreated, hgone, (never_resumed_iff hall).mpr hr⟩

/-- A coroutine that sleeps, or that waits for a mutex, is destroyed. The callback of its timer, or
the next `unlock`, schedules it. -/
theorem destroyed_resumed :
    (∃ s, (system Unit).Reachable s ∧ s.frames 1 = none ∧ s.timers = [1]) ∧
    (∃ s, (system Unit).Reachable s ∧ s.frames 1 = none ∧ s.timers = [] ∧ s.runQueue = [1] ∧
      s.asserted = false) ∧
    (∃ s, (system Unit).Reachable s ∧ s.frames 1 = none ∧ s.runQueue = [1] ∧
      s.asserted = false) ∧
    ¬∀ s, (system Unit).Reachable s → Safe s := by
  have hleft : ∃ s, (system Unit).Reachable s ∧ s.frames 1 = none ∧ s.timers = [1] :=
    System.exists_reachable [.blockOn, .call, .sleep, .drop 1] (by decide)
  have hslept : ∃ s, (system Unit).Reachable s ∧ s.frames 1 = none ∧ s.timers = [] ∧
      s.runQueue = [1] ∧ s.asserted = false :=
    System.exists_reachable [.blockOn, .call, .sleep, .drop 1, .finish, .timer 1] (by decide)
  have hlocked : ∃ s, (system Unit).Reachable s ∧ s.frames 1 = none ∧ s.runQueue = [1] ∧
      s.asserted = false :=
    System.exists_reachable [.blockOn, .construct () false, .lock (), .call, .lock (), .drop 1,
      .unlock ()] (by decide)
  refine ⟨hleft, hslept, hlocked, fun h ↦ ?_⟩
  obtain ⟨s, hr, -, -, -, hasserted⟩ := hslept
  have hsafe := (h s hr).asserted
  rw [hasserted] at hsafe
  cases hsafe

end Crasy.Future.Lifetime
