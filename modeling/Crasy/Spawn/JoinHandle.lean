import Crasy.Base.Handles
import Crasy.Base.System
import Mathlib.Data.Fintype.Basic

/-!
# The frame of a spawned task and its join handles

Library `Spawn`. Models `include/crasy/spawn.hpp:13–249`: the promise and the handle of
`join_handle_impl<T>`, of which `join_handle_impl<void>` is the instance at unit values
with the same sections. Every section under `mtx_` is one step, and so is every
`destroy()`, which the code calls after it has released `mtx_`.
-/

namespace Crasy.Spawn

open Crasy.Base

/-- `state_`; `include/crasy/spawn.hpp:58–60`. -/
inductive Status where
  | waiting
  | done
  | detached
  deriving DecidableEq, Repr

/-- The promise of a spawned task; `include/crasy/spawn.hpp:57–68`. -/
structure Promise (α ε κ : Type) where
  value : Option α
  ex : Option ε
  suspended : Option κ
  state : Status
  deriving DecidableEq, Repr

namespace Promise

variable {α ε κ : Type}

/-- A promise as its member initialisers leave it. -/
def new : Promise α ε κ :=
  { value := none, ex := none, suspended := none, state := .waiting }

/-- `return_value` and `unhandled_exception`; `include/crasy/spawn.hpp:27–30,52–55`. -/
def finish (p : Promise α ε κ) : Except ε α → Promise α ε κ
  | .ok v => { p with value := some v }
  | .error e => { p with ex := some e }

/-- The section of `final_suspend`, with the handle it schedules; `none` when it is left to
destroy the coroutine. `include/crasy/spawn.hpp:34–50`. -/
def finalSuspend (p : Promise α ε κ) : Option (Promise α ε κ × Option κ) :=
  match p.state with
  | .detached => none
  | .waiting | .done => some ({ p with state := .done, suspended := none }, p.suspended)

/-- The section of `detach`, and whether it is left to destroy the coroutine;
`include/crasy/spawn.hpp:119–129`. -/
def detach (p : Promise α ε κ) : Promise α ε κ × Bool :=
  match p.state with
  | .done => (p, true)
  | .waiting | .detached => ({ p with state := .detached }, false)

/-- The section of `await_suspend`, with the handle it schedules;
`include/crasy/spawn.hpp:98–106`. -/
def awaitSuspend (p : Promise α ε κ) (k : κ) : Promise α ε κ × Option κ :=
  match p.state with
  | .waiting => ({ p with suspended := some k }, none)
  | .done | .detached => (p, some k)

/-- The section of `await_resume` rethrows a stored exception once;
`include/crasy/spawn.hpp:108–117`. -/
def awaitResume (p : Promise α ε κ) : Promise α ε κ := { p with ex := none }

/-- What `await_resume` rethrows or returns; `none` when it dereferences an empty `value_`. -/
def result (p : Promise α ε κ) : Option (Except ε α) :=
  match p.ex with
  | some e => some (.error e)
  | none => p.value.map .ok

/-- The section of `await_ready`; `include/crasy/spawn.hpp:92–96`. -/
def awaitReady (p : Promise α ε κ) : Bool := p.state == .done

@[simp] theorem finish_state (p : Promise α ε κ) (o : Except ε α) :
    (p.finish o).state = p.state := by
  cases o <;> rfl

@[simp] theorem awaitSuspend_state (p : Promise α ε κ) (k : κ) :
    (p.awaitSuspend k).1.state = p.state := by
  unfold awaitSuspend
  split <;> simp [*]

/-- `detach` leaves the frame of a finished task to its caller, and that of any other task
to the coroutine. -/
theorem detach_cases (p : Promise α ε κ) :
    p.detach = (p, true) ∧ p.state = .done ∨
      p.detach = ({ p with state := .detached }, false) ∧ p.state ≠ .done := by
  unfold detach
  split <;> simp [*]

/-- `final_suspend` leaves a detached frame to the coroutine, and marks any other. -/
theorem finalSuspend_cases (p : Promise α ε κ) :
    p.finalSuspend = none ∧ p.state = .detached ∨
      ∃ q, p.finalSuspend = some (q, p.suspended) ∧ q.state = .done ∧ p.state ≠ .detached := by
  unfold finalSuspend
  split <;> simp [*]

end Promise

/-- Where the coroutine stands. `leaving` is past the section of `final_suspend`, which has
released `mtx_`, and `destroying` is in front of the `destroy()` it calls on itself. -/
inductive Phase where
  | absent
  | body
  | suspended
  | final
  | destroying
  | leaving
  | atFinal
  | gone
  deriving DecidableEq, Repr

/-- A coroutine frame. `returned` says that its eager start has come back to `spawn`,
`detach` is the `state_` that the explicit `detach()` found, and the last three record the
calls of `destroy()`, one before the final suspend point, and an access by a handle after
one. -/
structure Frame (α ε κ : Type) where
  phase : Phase
  promise : Promise α ε κ
  returned : Bool
  detach : Option Status
  destroyed : Nat
  early : Bool
  usedAfter : Bool
  deriving DecidableEq, Repr

/-- Where an operation of a handle stands: in front of the `destroy()` of `detach()`, or of
the one of the destructor. -/
inductive HandleOp where
  | idle
  | detaching
  | destructing
  deriving DecidableEq, Repr

/-- A handle object: its `handle_`, and the operation that runs on it. -/
structure Handle (φ : Type) where
  handle : Option φ
  op : HandleOp
  deriving DecidableEq, Repr

/-- The frames, the handle objects that exist, and the handles given to `schedule_task`. -/
structure State (φ η α ε κ : Type) where
  frames : φ → Frame α ε κ
  handles : η → Option (Handle φ)
  scheduled : List κ

/-- The sections of a `co_await` on a handle. -/
inductive Await (κ : Type) where
  | ready
  | suspend (k : κ)
  | resume
  deriving DecidableEq, Repr

/-- The steps of the coroutines and the operations on the handles. -/
inductive Act (φ η α ε κ : Type) where
  | spawn (f : φ) (h : η)
  | suspend (f : φ)
  | resume (f : φ)
  | finish (f : φ) (outcome : Except ε α)
  | finalSuspend (f : φ)
  | destroySelf (f : φ)
  | arrive (f : φ)
  | construct (h : η)
  | moveConstruct (dst src : η)
  | moveAssign (lhs rhs : η)
  | await (h : η) (part : Await κ)
  | detach (h : η)
  | destruct (h : η)
  | destroy (h : η)

variable {φ η α ε κ : Type}

/-- A frame no task has been given. -/
def Frame.new : Frame α ε κ :=
  { phase := .absent, promise := .new, returned := false, detach := none, destroyed := 0,
    early := false, usedAfter := false }

/-- A handle locks `mtx_` of the promise. -/
def Frame.access (fr : Frame α ε κ) : Frame α ε κ :=
  { fr with usedAfter := fr.usedAfter || fr.destroyed != 0 }

private theorem Frame.access_of_live {fr : Frame α ε κ} (h : fr.destroyed = 0) :
    fr.access = fr := by
  have hused : (fr.usedAfter || fr.destroyed != 0) = fr.usedAfter := by simp [h]
  rw [Frame.access, hused]

/-- `destroy()` on the coroutine. -/
def Frame.destroy (fr : Frame α ε κ) : Frame α ε κ :=
  { fr with destroyed := fr.destroyed + 1, early := fr.early || fr.phase != .atFinal }

/-- No task and no handle. -/
def init : State φ η α ε κ :=
  { frames := fun _ ↦ .new, handles := fun _ ↦ none, scheduled := [] }

/-- The `handle_` of a handle object that an operation may start on: none is running, and
`spawn` has returned it. -/
def State.ready (s : State φ η α ε κ) (h : η) : Option (Option φ) :=
  match s.handles h with
  | some ⟨none, .idle⟩ => some none
  | some ⟨some f, .idle⟩ => if (s.frames f).returned then some (some f) else none
  | some ⟨_, .detaching⟩ | some ⟨_, .destructing⟩ | none => none

section Steps

variable [DecidableEq φ] [DecidableEq η]

/-- Change one frame. -/
def State.setFrame (s : State φ η α ε κ) (f : φ) (fr : Frame α ε κ) : State φ η α ε κ :=
  { s with frames := Function.update s.frames f fr }

/-- Change one handle object. -/
def State.setHandle (s : State φ η α ε κ) (h : η) (x : Option (Handle φ)) :
    State φ η α ε κ :=
  { s with handles := Function.update s.handles h x }

/-- A step of a coroutine; `none` when it stands elsewhere. -/
def coroutineStep (s : State φ η α ε κ) (f : φ) (phase : Phase) (fr : Frame α ε κ) :
    Option (State φ η α ε κ) :=
  if (s.frames f).phase = phase then some (s.setFrame f fr) else none

/-- The section of `final_suspend`. -/
def finalSuspend (s : State φ η α ε κ) (f : φ) : Option (State φ η α ε κ) :=
  let fr := s.frames f
  match fr.promise.finalSuspend with
  | none => coroutineStep s f .final { fr with phase := .destroying }
  | some (p, k) =>
    coroutineStep { s with scheduled := s.scheduled ++ k.toList } f .final
      { fr with phase := .leaving, promise := p }

/-- A section of a `co_await` on a handle. -/
def await (s : State φ η α ε κ) (f : φ) : Await κ → State φ η α ε κ
  | .ready => s.setFrame f (s.frames f).access
  | .suspend k =>
    let (p, scheduled) := (s.frames f).promise.awaitSuspend k
    { s with scheduled := s.scheduled ++ scheduled.toList }.setFrame f
      { (s.frames f).access with promise := p }
  | .resume =>
    s.setFrame f { (s.frames f).access with promise := (s.frames f).promise.awaitResume }

/-- The section of an explicit `detach()`, which leaves `handle_` as it is. -/
def detach (s : State φ η α ε κ) (h : η) (f : φ) : State φ η α ε κ :=
  let (p, destroys) := (s.frames f).promise.detach
  (s.setFrame f { (s.frames f).access with
      promise := p, detach := some (s.frames f).promise.state }).setHandle h
    (some ⟨some f, if destroys then .detaching else .idle⟩)

/-- The section of the `detach()` that the destructor calls. -/
def destruct (s : State φ η α ε κ) (h : η) (f : φ) : State φ η α ε κ :=
  let (p, destroys) := (s.frames f).promise.detach
  (s.setFrame f { (s.frames f).access with promise := p }).setHandle h
    (if destroys then some ⟨some f, .destructing⟩ else none)

/-- One step of the coroutines or of the handles. The explicit `detach()` is called at most
once for each task. -/
def next (s : State φ η α ε κ) : Act φ η α ε κ → Option (State φ η α ε κ)
  | .spawn f h =>
    if s.handles h = none then
      (coroutineStep s f .absent { s.frames f with phase := .body }).map
        (State.setHandle · h (some ⟨some f, .idle⟩))
    else none
  | .suspend f =>
    coroutineStep s f .body { s.frames f with phase := .suspended, returned := true }
  | .resume f => coroutineStep s f .suspended { s.frames f with phase := .body }
  | .finish f outcome =>
    coroutineStep s f .body { s.frames f with
      phase := .final, promise := (s.frames f).promise.finish outcome }
  | .finalSuspend f => finalSuspend s f
  | .destroySelf f => coroutineStep s f .destroying { (s.frames f).destroy with phase := .gone }
  | .arrive f =>
    coroutineStep s f .leaving { s.frames f with phase := .atFinal, returned := true }
  | .construct h =>
    if s.handles h = none then some (s.setHandle h (some ⟨none, .idle⟩)) else none
  | .moveConstruct dst src =>
    match s.handles dst, s.ready src with
    | none, some x =>
      some ((s.setHandle src (some ⟨none, .idle⟩)).setHandle dst (some ⟨x, .idle⟩))
    | _, _ => none
  | .moveAssign lhs rhs =>
    match s.ready lhs, s.ready rhs with
    | some x, some y =>
      some ((s.setHandle lhs (some ⟨y, .idle⟩)).setHandle rhs (some ⟨x, .idle⟩))
    | _, _ => none
  | .await h part =>
    match s.ready h with
    | some (some f) => some (await s f part)
    | _ => none
  | .detach h =>
    match s.ready h with
    | some (some f) => if (s.frames f).detach = none then some (detach s h f) else none
    | _ => none
  | .destruct h =>
    match s.ready h with
    | some (some f) => some (destruct s h f)
    | some none => some (s.setHandle h none)
    | none => none
  | .destroy h =>
    match s.handles h with
    | some ⟨some f, .detaching⟩ =>
      some ((s.setFrame f (s.frames f).destroy).setHandle h (some ⟨some f, .idle⟩))
    | some ⟨some f, .destructing⟩ =>
      some ((s.setFrame f (s.frames f).destroy).setHandle h none)
    | _ => none

/-- Spawned tasks and their join handles. -/
def system (φ η α ε κ : Type) [DecidableEq φ] [DecidableEq η] :
    System (State φ η α ε κ) (Act φ η α ε κ) :=
  { init := init, next := next }

end Steps

/-! ### Released exactly once -/

/-- The `handle_` of a handle object. -/
def State.held (s : State φ η α ε κ) (h : η) : Option φ := (s.handles h).bind Handle.handle

/-- The frame is destroyed at most once, only at the final suspend point, and no handle
accesses it afterwards; once its task has finished and no handle has it, it has been
destroyed. -/
structure ReleasedOnce (s : State φ η α ε κ) (f : φ) : Prop where
  atMostOnce : (s.frames f).destroyed ≤ 1
  notEarly : (s.frames f).early = false
  notUsedAfter : (s.frames f).usedAfter = false
  released : (s.frames f).phase = .atFinal ∨ (s.frames f).phase = .gone →
    (∀ h, s.held h ≠ some f) → (s.frames f).destroyed = 1

/-- The steps that release a frame as they should: `final_suspend` does not find `state_`
detached, no destructor and no `co_await` runs on a handle whose explicit `detach()` found
the task done, and a handle calls `destroy()` only when the coroutine has got from the
section of `final_suspend` to its final suspend point. -/
def StepOk (s : State φ η α ε κ) : Act φ η α ε κ → Prop
  | .finalSuspend f => (s.frames f).promise.state ≠ .detached
  | .await h _ | .destruct h => ∀ f, s.held h = some f → (s.frames f).detach ≠ some .done
  | .destroy h => ∀ f, s.held h = some f → (s.frames f).phase ≠ .leaving
  | _ => True

/-- What holds of a frame that does or does not have a handle: it is the handle that is
responsible for it, or the coroutine once the task is detached. -/
structure FrameOk (fr : Frame α ε κ) (owned : Prop) : Prop where
  absent : fr.phase = .absent → fr = .new ∧ ¬owned
  noSelf : fr.phase ≠ .destroying ∧ fr.phase ≠ .gone
  done_iff : fr.promise.state = .done ↔ fr.phase = .leaving ∨ fr.phase = .atFinal
  clean : fr.early = false ∧ fr.usedAfter = false
  live : fr.destroyed = 0 → fr.phase ≠ .absent → owned ∨ fr.promise.state = .detached
  dead : fr.destroyed ≠ 0 → fr.destroyed = 1 ∧ fr.phase = .atFinal ∧
    (owned → fr.detach = some .done)

/-- What holds of a frame with an operation on its handle. -/
def OpOk (fr : Frame α ε κ) : HandleOp → Prop
  | .idle => True
  | .detaching => fr.promise.state = .done ∧ fr.destroyed = 0 ∧ fr.detach = some .done
  | .destructing => fr.promise.state = .done ∧ fr.destroyed = 0

namespace FrameOk

variable {fr : Frame α ε κ} {owned : Prop}

private theorem destroyed_eq_zero (h : FrameOk fr owned) (hp : fr.phase ≠ .atFinal) :
    fr.destroyed = 0 := by
  by_contra hd
  exact hp (h.dead hd).2.1

private theorem destroyed_eq_zero_of_owned (h : FrameOk fr True) (hd : fr.detach ≠ some .done) :
    fr.destroyed = 0 := by
  by_contra hz
  exact hd ((h.dead hz).2.2 trivial)

/-- A task is spawned into a frame that has no handle yet. -/
theorem spawn (h : FrameOk fr False) (hp : fr.phase = .absent) :
    FrameOk { fr with phase := .body } True := by
  rw [(h.absent hp).1]
  constructor <;> simp [Frame.new, Promise.new]

private theorem of_phase {phase : Phase} {p : Promise α ε κ} {returned : Bool}
    (h : FrameOk fr owned)
    (hst : p.state = fr.promise.state) (hold : fr.phase ≠ .absent) (hnew : phase ≠ .absent)
    (hself : phase ≠ .destroying ∧ phase ≠ .gone)
    (hdone : fr.phase = .leaving ∨ fr.phase = .atFinal ↔ phase = .leaving ∨ phase = .atFinal)
    (hfin : fr.phase = .atFinal → phase = .atFinal) :
    FrameOk { fr with phase := phase, promise := p, returned := returned } owned := by
  constructor
  · exact fun ha ↦ absurd ha hnew
  · exact hself
  · simp only [hst, h.done_iff, hdone]
  · exact h.clean
  · simp only [hst]
    exact fun hd _ ↦ h.live hd hold
  · exact fun hd ↦ ⟨(h.dead hd).1, hfin (h.dead hd).2.1, (h.dead hd).2.2⟩

/-- The section of a `final_suspend` that does not find the task detached. -/
theorem finalSuspend {p : Promise α ε κ} (h : FrameOk fr owned) (hp : fr.phase = .final)
    (hdet : fr.promise.state ≠ .detached) (hst : p.state = .done) :
    FrameOk { fr with phase := .leaving, promise := p } owned := by
  have hz : fr.destroyed = 0 := h.destroyed_eq_zero (by simp [hp])
  constructor
  · intro ha
    cases ha
  · simp
  · simp [hst]
  · exact h.clean
  · exact fun _ _ ↦ .inl ((h.live hz (by simp [hp])).resolve_right hdet)
  · exact fun hd ↦ absurd hz hd

private theorem detach_done {found : Option Status} (h : FrameOk fr True) (hz : fr.destroyed = 0) :
    FrameOk { fr.access with promise := fr.promise, detach := found } True := by
  rw [Frame.access_of_live hz]
  exact { h with
    absent := fun ha ↦ absurd trivial (h.absent ha).2
    dead := fun hd ↦ absurd hz hd }

/-- The section of `detach()` or of the destructor on any other task leaves the frame to the
coroutine. -/
theorem detach {found : Option Status} (h : FrameOk fr True) (hz : fr.destroyed = 0)
    (hd : fr.promise.state ≠ .done) : FrameOk { fr.access with
      promise := { fr.promise with state := .detached }, detach := found } owned := by
  rw [Frame.access_of_live hz]
  exact { h with
    absent := fun ha ↦ absurd trivial (h.absent ha).2
    done_iff := by simp [← h.done_iff, hd]
    live := fun _ _ ↦ .inr rfl
    dead := fun hd ↦ absurd hz hd }

/-- The `destroy()` of a handle, with the coroutine at its final suspend point. -/
theorem destroy (h : FrameOk fr True) (hdone : fr.promise.state = .done) (hz : fr.destroyed = 0)
    (hphase : fr.phase ≠ .leaving) (hfound : owned → fr.detach = some .done) :
    FrameOk fr.destroy owned := by
  have hfinal : fr.phase = .atFinal := (h.done_iff.mp hdone).resolve_left hphase
  exact { h with
    absent := fun ha ↦ absurd trivial (h.absent ha).2
    clean := ⟨by simp [Frame.destroy, h.clean.1, hfinal], h.clean.2⟩
    live := fun hd ↦ absurd hd (Nat.succ_ne_zero _)
    dead := fun _ ↦ ⟨congrArg (· + 1) hz, hfinal, hfound⟩ }

end FrameOk

private theorem OpOk.congr {fr fr' : Frame α ε κ} {op : HandleOp} (h : OpOk fr op)
    (hst : fr'.promise.state = fr.promise.state) (hd : fr'.destroyed = fr.destroyed)
    (hf : fr'.detach = fr.detach) : OpOk fr' op := by
  cases op with
  | idle => trivial
  | detaching => exact ⟨hst.trans h.1, hd.trans h.2.1, hf.trans h.2.2⟩
  | destructing => exact ⟨hst.trans h.1, hd.trans h.2⟩

/-! ### All frames and handles -/

/-- A handle object with the operation that runs on it. -/
def Handle.slot (x : Handle φ) : Slot φ HandleOp := ⟨x.handle, x.op⟩

/-- The handle objects with the operations that run on them. -/
def State.slots (s : State φ η α ε κ) (h : η) : Option (Slot φ HandleOp) :=
  (s.handles h).map Handle.slot

/-- Every frame and every handle are as they should be. -/
def Sound (s : State φ η α ε κ) : Prop := Custody FrameOk OpOk s.frames s.slots

section Steps

variable {s s' : State φ η α ε κ}

private theorem State.slots_eq {h : η} {x : Option φ} {op : HandleOp}
    (hh : s.handles h = some ⟨x, op⟩) :
    s.slots h = some ⟨x, op⟩ := by
  rw [State.slots, hh]
  rfl

private theorem State.held_slots (s : State φ η α ε κ) (h : η) :
    Base.held s.slots h = s.held h := by
  cases hh : s.handles h <;> simp [Base.held, State.slots, State.held, Handle.slot, hh]

private theorem State.handles_of_ready {h : η} {x : Option φ} (hr : s.ready h = some x) :
    s.handles h = some ⟨x, .idle⟩ := by
  unfold State.ready at hr
  split at hr <;> simp_all

namespace Sound

variable [DecidableEq φ] {f : φ} {fr : Frame α ε κ}

private theorem setFrame (h : Sound s) (hJ : ∀ owned, FrameOk (s.frames f) owned → FrameOk fr owned)
    (hO : ∀ op, OpOk (s.frames f) op → OpOk fr op) : Sound (s.setFrame f fr) :=
  Custody.step h hJ hO

/-- A step of the coroutine before the section of `final_suspend`. -/
theorem body {old new : Phase} {p : Promise α ε κ} {returned : Bool} (h : Sound s)
    (hn : coroutineStep s f old
      { s.frames f with phase := new, promise := p, returned := returned } = some s')
    (hst : p.state = (s.frames f).promise.state) (hold : old = .body ∨ old = .suspended)
    (hnew : new = .body ∨ new = .suspended ∨ new = .final) : Sound s' := by
  unfold coroutineStep at hn
  split at hn
  · next hp =>
    cases hn
    rw [← hp] at hold
    refine h.setFrame (fun _ hf ↦ hf.of_phase hst ?_ ?_ ?_ ?_ ?_) fun _ ho ↦ ho.congr hst rfl rfl
    all_goals
      rcases hold with hold | hold <;> rcases hnew with hnew | hnew | hnew <;> simp [hold, hnew]
  · cases hn

/-- `final_suspend` leaves the frame to the handle. -/
theorem finalSuspend (h : Sound s) (hdet : (s.frames f).promise.state ≠ .detached)
    (hn : finalSuspend s f = some s') : Sound s' := by
  unfold Spawn.finalSuspend at hn
  rcases (s.frames f).promise.finalSuspend_cases with ⟨-, hdet'⟩ | ⟨p, he, hst, -⟩
  · exact absurd hdet' hdet
  · simp only [he, coroutineStep] at hn
    split at hn
    · next hp =>
      cases hn
      have hwaiting : (s.frames f).promise.state ≠ .done := by
        intro hd
        have := (h.object f).done_iff.mp hd
        simp [hp] at this
      refine Custody.step h (fun _ hf ↦ hf.finalSuspend hp hdet hst) fun op ho ↦ ?_
      cases op with
      | idle => trivial
      | detaching | destructing => exact absurd ho.1 hwaiting
    · cases hn

/-- The coroutine gets to its final suspend point. -/
theorem arrive {returned : Bool} (h : Sound s) (hn : coroutineStep s f .leaving
    { s.frames f with phase := .atFinal, returned := returned } = some s') : Sound s' := by
  unfold coroutineStep at hn
  split at hn
  · next hp =>
    cases hn
    exact h.setFrame (fun _ hf ↦ hf.of_phase rfl (by simp [hp]) (by simp) (by simp) (by simp [hp])
      (by simp)) fun _ ho ↦ ho.congr rfl rfl rfl
  · cases hn

variable [DecidableEq η] {k : η}

omit [DecidableEq φ] in
private theorem slots_setHandle (s : State φ η α ε κ) (k : η) (x : Option (Handle φ)) :
    (s.setHandle k x).slots = Function.update s.slots k (x.map Handle.slot) :=
  funext fun h ↦ Function.apply_update (fun _ ↦ Option.map Handle.slot) s.handles k x h

/-- A handle works on the frame it has. -/
theorem keep {op op' : HandleOp} (h : Sound s) (hk : s.handles k = some ⟨some f, op⟩)
    (hJ : FrameOk (s.frames f) True → FrameOk fr True) (hO : OpOk fr op') :
    Sound ((s.setFrame f fr).setHandle k (some ⟨some f, op'⟩)) := by
  rw [Sound, slots_setHandle]
  exact Custody.keep h (held_of_slot (State.slots_eq hk)) hJ hO

private theorem drop {op : HandleOp} (h : Sound s) (hk : s.handles k = some ⟨some f, op⟩)
    (hJ : FrameOk (s.frames f) True → FrameOk fr False) :
    Sound ((s.setFrame f fr).setHandle k none) := by
  rw [Sound, slots_setHandle]
  exact Custody.drop h (held_of_slot (State.slots_eq hk)) rfl hJ

omit [DecidableEq φ] in
/-- A handle object without a frame appears or goes. -/
theorem void {x : Option (Handle φ)} (h : Sound s) (hk : s.held k = none)
    (hx : x.bind Handle.handle = none) : Sound (s.setHandle k x) := by
  rw [Sound, slots_setHandle]
  refine Custody.void h ((s.held_slots k).trans hk) ?_
  cases x with
  | none => rfl
  | some y => exact hx

/-- `spawn` makes its handle responsible for the new frame. -/
theorem spawn (h : Sound s) (hn : next s (.spawn f k) = some s') : Sound s' := by
  simp only [next] at hn
  split at hn
  · next hk =>
    obtain ⟨t, ht, rfl⟩ := Option.map_eq_some_iff.mp hn
    simp only [coroutineStep] at ht
    split at ht
    · next hp =>
      cases ht
      have hnone (l : η) : Base.held s.slots l ≠ some f := fun hl ↦
        ((h.object f).absent hp).2 ⟨l, hl⟩
      have hslot : s.slots k = none := by rw [State.slots, hk]; rfl
      rw [Sound, slots_setHandle]
      exact Custody.attach h hslot hnone (fun hf ↦ hf.spawn hp) trivial
    · cases ht
  · cases hn

omit [DecidableEq φ] in
/-- A move construction hands the frame over. -/
theorem moveConstruct {dst src : η} {x : Option φ} (h : Sound s) (hdst : s.handles dst = none)
    (hsrc : s.handles src = some ⟨x, .idle⟩) :
    Sound ((s.setHandle src (some ⟨none, .idle⟩)).setHandle dst (some ⟨x, .idle⟩)) := by
  rw [Sound, slots_setHandle, slots_setHandle]
  exact Custody.move h (by rw [State.slots, hdst]; rfl) (State.slots_eq hsrc) fun _ _ ↦ trivial

omit [DecidableEq φ] in
/-- A move assignment swaps two handles. -/
theorem moveAssign {lhs rhs : η} {x y : Option φ} (h : Sound s)
    (hlhs : s.handles lhs = some ⟨x, .idle⟩) (hrhs : s.handles rhs = some ⟨y, .idle⟩) :
    Sound ((s.setHandle lhs (some ⟨y, .idle⟩)).setHandle rhs (some ⟨x, .idle⟩)) := by
  rw [Sound, slots_setHandle, slots_setHandle]
  exact Custody.swap h (State.slots_eq hlhs) (State.slots_eq hrhs) (fun _ _ ↦ trivial)
    fun _ _ ↦ trivial

omit [DecidableEq η] in
/-- A `co_await` changes nothing but the promise. -/
theorem await {part : Await κ} (h : Sound s) (hk : s.held k = some f)
    (hok : (s.frames f).detach ≠ some .done) : Sound (await s f part) := by
  have hf := h.of_held ((s.held_slots k).trans hk)
  have hz := hf.destroyed_eq_zero_of_owned hok
  have hpresent : (s.frames f).phase ≠ .absent := fun ha ↦ (hf.absent ha).2 trivial
  have hkeep (p : Promise α ε κ) (hst : p.state = (s.frames f).promise.state) :
      Sound (s.setFrame f { (s.frames f).access with promise := p }) := by
    rw [Frame.access_of_live hz]
    exact h.setFrame (fun _ hf ↦ hf.of_phase hst hpresent hpresent hf.noSelf Iff.rfl id)
      fun _ ho ↦ ho.congr hst rfl rfl
  cases part with
  | ready => exact hkeep (s.frames f).promise rfl
  | suspend c => exact hkeep _ ((s.frames f).promise.awaitSuspend_state c)
  | resume => exact hkeep _ rfl

/-- An explicit `detach()` leaves the frame to the coroutine or takes on its `destroy()`. -/
theorem detach (h : Sound s) (hk : s.handles k = some ⟨some f, .idle⟩)
    (hdet : (s.frames f).detach = none) : Sound (detach s k f) := by
  have hz := (h.of_held (held_of_slot (State.slots_eq hk))).destroyed_eq_zero_of_owned
    (by simp [hdet])
  unfold Spawn.detach
  rcases (s.frames f).promise.detach_cases with ⟨he, hdone⟩ | ⟨he, hnot⟩
  · rw [he]
    exact h.keep hk (fun hf ↦ hf.detach_done hz) ⟨hdone, hz, congrArg some hdone⟩
  · rw [he]
    exact h.keep hk (fun hf ↦ hf.detach hz hnot) trivial

/-- The destructor leaves the frame to the coroutine or takes on its `destroy()`. -/
theorem destruct (h : Sound s) (hk : s.handles k = some ⟨some f, .idle⟩)
    (hdet : (s.frames f).detach ≠ some .done) : Sound (destruct s k f) := by
  have hz := (h.of_held (held_of_slot (State.slots_eq hk))).destroyed_eq_zero_of_owned hdet
  unfold Spawn.destruct
  rcases (s.frames f).promise.detach_cases with ⟨he, hdone⟩ | ⟨he, hnot⟩
  · rw [he]
    exact h.keep hk (fun hf ↦ hf.detach_done hz) ⟨hdone, hz⟩
  · rw [he]
    exact h.drop hk fun hf ↦ hf.detach hz hnot

/-- `destroy()` of a handle releases the frame. -/
theorem destroy (h : Sound s) (hok : StepOk s (.destroy k))
    (hn : next s (.destroy k) = some s') : Sound s' := by
  simp only [next] at hn
  split at hn
  · next f hk =>
    cases hn
    obtain ⟨hdone, hz, hfound⟩ := h.op k f _ (State.slots_eq hk)
    have hphase := hok f (by rw [State.held, hk]; rfl)
    exact h.keep hk (fun hf ↦ hf.destroy hdone hz hphase fun _ ↦ hfound) trivial
  · next f hk =>
    cases hn
    obtain ⟨hdone, hz⟩ := h.op k f _ (State.slots_eq hk)
    have hphase := hok f (by rw [State.held, hk]; rfl)
    exact h.drop hk fun hf ↦ hf.destroy hdone hz hphase False.elim
  · cases hn

/-- Every permitted step keeps all frames and handles as they should be. -/
theorem next {a : Act φ η α ε κ} (h : Sound s) (hok : StepOk s a)
    (hn : next s a = some s') : Sound s' := by
  cases a with
  | spawn f k => exact h.spawn hn
  | suspend f => exact h.body hn rfl (.inl rfl) (.inr (.inl rfl))
  | resume f => exact h.body hn rfl (.inr rfl) (.inl rfl)
  | finish f outcome => exact h.body hn (by simp) (.inl rfl) (.inr (.inr rfl))
  | finalSuspend f => exact h.finalSuspend hok hn
  | destroySelf f =>
    simp only [Spawn.next, coroutineStep] at hn
    split at hn
    · next hp => exact absurd hp (h.object f).noSelf.1
    · cases hn
  | arrive f => exact h.arrive hn
  | construct k =>
    simp only [Spawn.next] at hn
    split at hn
    · next hk =>
      cases hn
      exact h.void (by rw [State.held, hk]; rfl) rfl
    · cases hn
  | moveConstruct dst src =>
    simp only [Spawn.next] at hn
    split at hn
    · next x hdst hsrc =>
      cases hn
      exact h.moveConstruct hdst (State.handles_of_ready hsrc)
    · cases hn
  | moveAssign lhs rhs =>
    simp only [Spawn.next] at hn
    split at hn
    · next x y hlhs hrhs =>
      cases hn
      exact h.moveAssign (State.handles_of_ready hlhs) (State.handles_of_ready hrhs)
    · cases hn
  | await k part =>
    simp only [Spawn.next] at hn
    split at hn
    · next f hr =>
      cases hn
      have hk : s.held k = some f := by rw [State.held, State.handles_of_ready hr]; rfl
      exact h.await hk (hok f hk)
    · cases hn
  | detach k =>
    simp only [Spawn.next] at hn
    split at hn
    · next f hr =>
      split at hn
      · next hdet =>
        cases hn
        exact h.detach (State.handles_of_ready hr) hdet
      · cases hn
    · cases hn
  | destruct k =>
    simp only [Spawn.next] at hn
    split at hn
    · next f hr =>
      cases hn
      have hk := State.handles_of_ready hr
      exact h.destruct hk (hok f (by rw [State.held, hk]; rfl))
    · next hr =>
      cases hn
      exact h.void (by rw [State.held, State.handles_of_ready hr]; rfl) rfl
    · cases hn
  | destroy k => exact h.destroy hok hn

end Sound

variable [DecidableEq φ] [DecidableEq η]

/-- On runs whose every step is harmless, each frame is released exactly once. -/
theorem released_once (hr : (system φ η α ε κ).ReachableBy StepOk s) (f : φ) :
    ReleasedOnce s f := by
  have hinit : Sound (system φ η α ε κ).init := by
    refine ⟨fun f h k hh ↦ ?_, fun f ↦ ?_, fun h f x hh ↦ ?_⟩
    · cases hh
    · constructor <;> simp [system, init, Base.held, State.slots, Frame.new, Promise.new]
    · cases hh
  have hs : Sound s := hr.invariant hinit fun _ _ _ hi hok hn ↦ hi.next hok hn
  have h := hs.object f
  refine ⟨?_, h.clean.1, h.clean.2, fun hfin hnone ↦ ?_⟩
  · by_contra hd
    have := (h.dead (by omega)).1
    omega
  · have hfinal := hfin.resolve_right h.noSelf.2
    by_contra hd
    have hz : (s.frames f).destroyed = 0 := by
      by_contra hz
      exact hd (h.dead hz).1
    rcases h.live hz (by simp [hfinal]) with ⟨k, hk⟩ | hdet
    · exact hnone k ((s.held_slots k).symm.trans hk)
    · have := h.done_iff.mpr (.inr hfinal)
      simp [hdet] at this

end Steps

/-! ### Runs -/

section Runs

variable [DecidableEq φ] [DecidableEq η] [Fintype η]

instance (s : State φ η α ε κ) (f : φ) : Decidable (ReleasedOnce s f) :=
  decidable_of_iff ((s.frames f).destroyed ≤ 1 ∧ (s.frames f).early = false ∧
      (s.frames f).usedAfter = false ∧ ((s.frames f).phase = .atFinal ∨
      (s.frames f).phase = .gone → (∀ h, s.held h ≠ some f) → (s.frames f).destroyed = 1))
    ⟨fun ⟨ha, he, hu, hr⟩ ↦ ⟨ha, he, hu, hr⟩, fun ⟨ha, he, hu, hr⟩ ↦ ⟨ha, he, hu, hr⟩⟩

instance [Fintype φ] (s : State φ η α ε κ) (a : Act φ η α ε κ) : Decidable (StepOk s a) :=
  match a with
  | .finalSuspend f => inferInstanceAs (Decidable ((s.frames f).promise.state ≠ .detached))
  | .await h _ | .destruct h =>
    inferInstanceAs (Decidable (∀ f, s.held h = some f → (s.frames f).detach ≠ some .done))
  | .destroy h =>
    inferInstanceAs (Decidable (∀ f, s.held h = some f → (s.frames f).phase ≠ .leaving))
  | .spawn _ _ | .suspend _ | .resume _ | .finish _ _ | .destroySelf _ | .arrive _
  | .construct _ | .moveConstruct _ _ | .moveAssign _ _ | .detach _ => isTrue trivial

end Runs

/-- A task that finishes while `spawn` runs it, with its handle. -/
def finishes (f : φ) (h : η) : List (Act φ η Unit Unit Unit) :=
  [.spawn f h, .finish f (.ok ()), .finalSuspend f, .arrive f]

/-- The handle of a finished task is moved and destructed, which releases the frame. -/
theorem released_once_moved :
    ∃ s, (system (Fin 1) (Fin 2) Unit Unit Unit).ReachableBy StepOk s ∧
      (s.frames 0).destroyed = 1 ∧ ReleasedOnce s 0 := by
  have hrun : ∃ s, (system (Fin 1) (Fin 2) Unit Unit Unit).ReachableBy StepOk s ∧
      (s.frames 0).destroyed = 1 :=
    System.exists_reachableBy (finishes 0 0 ++ [.moveConstruct 1 0, .destruct 0, .destruct 1,
      .destroy 1]) (by decide)
  obtain ⟨s, hr, hd⟩ := hrun
  exact ⟨s, hr, hd, released_once hr 0⟩

/-- `spawn(...).detach()` on a task that has finished: the destructor of the temporary
accesses the destroyed promise, and destroys the frame again. -/
theorem not_released_once_detach :
    ¬∀ s, (system (Fin 1) (Fin 2) Unit Unit Unit).Reachable s → ∀ f, ReleasedOnce s f := by
  intro h
  have hrun : ∃ s, (system (Fin 1) (Fin 2) Unit Unit Unit).Reachable s ∧ ¬ReleasedOnce s 0 :=
    System.exists_reachable (finishes 0 0 ++ [.detach 0, .destroy 0, .destruct 0, .destroy 0])
      (by decide)
  obtain ⟨s, hr, hbad⟩ := hrun
  exact hbad (h s hr 0)

end Crasy.Spawn
