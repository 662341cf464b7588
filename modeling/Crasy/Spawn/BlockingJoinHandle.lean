import Crasy.Base.Handles
import Crasy.Base.System
import Crasy.Spawn.JoinHandle

/-!
# The shared state of a blocking task and its handles

Library `Spawn`. Models `include/crasy/spawn_blocking.hpp:17–253`: `state_base` with the
`call()` of `state_t`, and `blocking_join_handle<T>`, of which `blocking_join_handle<void>` is
the instance at unit values with the same sections, except that its `await_resume` reads
nothing. Every section under `mtx` is one step, and so is every `delete`, which the code does
after it has released `mtx`. `state` is the char 0, 1 or -1 for waiting, done and detached.
-/

namespace Crasy.Spawn.Blocking

open Crasy.Base

/-- `state_base`; `include/crasy/spawn_blocking.hpp:77–92`. -/
structure StateBase (α ε κ : Type) where
  ret : Option α
  ex : Option ε
  suspended : Option κ
  state : Status
  deriving DecidableEq, Repr

namespace StateBase

variable {α ε κ : Type}

/-- A state as its member initialisers leave it. -/
def new : StateBase α ε κ := { ret := none, ex := none, suspended := none, state := .waiting }

/-- The section of `call` after `func` has returned or thrown, with the handle it takes to
schedule and the `state` it found; `include/crasy/spawn_blocking.hpp:110–123`. -/
def settle (b : StateBase α ε κ) : Except ε α → StateBase α ε κ × Option κ × Status
  | .ok v => ({ b with ret := some v, suspended := none, state := .done }, b.suspended, b.state)
  | .error e => ({ b with ex := some e, suspended := none, state := .done }, b.suspended, b.state)

/-- The section of `await_ready`; `include/crasy/spawn_blocking.hpp:43–46`. -/
def awaitReady (b : StateBase α ε κ) : Bool := b.state == .done

/-- The section of `await_suspend`, with the handle it schedules;
`include/crasy/spawn_blocking.hpp:48–55`. -/
def awaitSuspend (b : StateBase α ε κ) (k : κ) : StateBase α ε κ × Option κ :=
  match b.state with
  | .done => (b, some k)
  | .waiting | .detached => ({ b with suspended := some k }, none)

/-- What the section of `await_resume` reads; `include/crasy/spawn_blocking.hpp:57–60`. -/
def awaitResume (b : StateBase α ε κ) : Option α := b.ret

/-- The section of `detach`, and whether it is left to delete the state;
`include/crasy/spawn_blocking.hpp:62–72`. -/
def detach (b : StateBase α ε κ) : StateBase α ε κ × Bool :=
  match b.state with
  | .done => (b, true)
  | .waiting | .detached => ({ b with state := .detached }, false)

/-- The section of `call` marks the state and hands on what it found there. -/
theorem settle_cases (b : StateBase α ε κ) (o : Except ε α) :
    ∃ c, b.settle o = (c, b.suspended, b.state) ∧ c.state = .done ∧ c.suspended = none := by
  cases o <;> exact ⟨_, rfl, rfl, rfl⟩

/-- `await_suspend` schedules the handle it is given once the state is marked, and stores it
before. -/
theorem awaitSuspend_cases (b : StateBase α ε κ) (k : κ) :
    b.awaitSuspend k = (b, some k) ∧ b.state = .done ∨
      b.awaitSuspend k = ({ b with suspended := some k }, none) ∧ b.state ≠ .done := by
  unfold awaitSuspend
  split <;> simp [*]

/-- `detach` leaves a marked state to its caller, and any other to `call`. -/
theorem detach_cases (b : StateBase α ε κ) :
    b.detach = (b, true) ∧ b.state = .done ∨
      b.detach = ({ b with state := .detached }, false) ∧ b.state ≠ .done := by
  unfold detach
  split <;> simp [*]

end StateBase

/-- Where `call()` stands: `settling` is in front of the section of the path it took,
`scheduling` in front of `if (susp)`, `deciding` in front of `if (st == -1)`. -/
inductive CallPc (α ε κ : Type) where
  | absent
  | queued
  | running
  | settling (outcome : Except ε α)
  | scheduling (susp : Option κ) (st : Status)
  | deciding (st : Status)
  | finished
  deriving DecidableEq

/-- The handle that `call()` has taken and has yet to schedule. -/
def CallPc.susp {α ε κ : Type} : CallPc α ε κ → Option κ
  | .scheduling susp _ => susp
  | .absent | .queued | .running | .settling _ | .deciding _ | .finished => none

/-- `call()` is past its section. -/
def CallPc.settled {α ε κ : Type} : CallPc α ε κ → Bool
  | .scheduling _ _ | .deciding _ | .finished => true
  | .absent | .queued | .running | .settling _ => false

/-- A blocking task: its state, its `call()`, whether it was awaited and by which coroutine it
was suspended on, what was scheduled for it and what `await_resume` read, how often the state
was deleted, and whether it was accessed afterwards. -/
structure Task (α ε κ : Type) where
  base : StateBase α ε κ
  call : CallPc α ε κ
  awaited : Bool
  awaiter : Option κ
  scheduled : List κ
  read : List (Option α)
  deleted : Nat
  usedAfter : Bool
  deriving DecidableEq

/-- The operation that runs on a handle: `detach()` or the destructor in front of its
`delete`, or a `co_await` in front of `await_suspend`, suspended, or in front of
`await_resume`. -/
inductive HandleOp (κ : Type) where
  | idle
  | detaching
  | destructing
  | suspending
  | suspended (k : κ)
  | resuming
  deriving DecidableEq, Repr

/-- The blocking tasks, and the handle objects that exist with their `state_`. -/
structure State (φ η α ε κ : Type) where
  tasks : φ → Task α ε κ
  handles : η → Option (Slot φ (HandleOp κ))

/-- The choices that a run of `call()` leaves open: what `func` does, and whether storing its
return value throws. -/
inductive CallAct (α ε : Type) where
  | run
  | returns (outcome : Except ε α)
  | emplaceThrows (e : ε)
  | step
  deriving DecidableEq

/-- The steps of the blocking workers and the operations on the handles. -/
inductive Act (φ η α ε κ : Type) where
  | spawn (f : φ) (h : η)
  | call (f : φ) (a : CallAct α ε)
  | construct (h : η)
  | moveConstruct (dst src : η)
  | moveAssign (lhs rhs : η)
  | awaitReady (h : η)
  | awaitSuspend (h : η) (k : κ)
  | resume (h : η)
  | awaitResume (h : η)
  | detach (h : η)
  | destruct (h : η)
  | delete (h : η)
  deriving DecidableEq

variable {φ η α ε κ : Type}

namespace Task

/-- A task nobody has submitted. -/
def new : Task α ε κ :=
  { base := .new, call := .absent, awaited := false, awaiter := none, scheduled := [],
    read := [], deleted := 0, usedAfter := false }

/-- `mtx` of the state is locked. -/
def access (t : Task α ε κ) : Task α ε κ :=
  { t with usedAfter := t.usedAfter || t.deleted != 0 }

/-- `delete` on the state. -/
def delete (t : Task α ε κ) : Task α ε κ := { t with deleted := t.deleted + 1 }

/-- A step of `call()`, which a blocking worker runs once;
`include/crasy/spawn_blocking.hpp:105–127`. -/
def callStep (t : Task α ε κ) (a : CallAct α ε) : Option (Task α ε κ) :=
  match t.call, a with
  | .queued, .run => some { t with call := .running }
  | .running, .returns o => some { t with call := .settling o }
  | .settling (.ok _), .emplaceThrows e => some { t.access with call := .settling (.error e) }
  | .settling o, .step =>
    let (b, susp, st) := t.base.settle o
    some { t.access with base := b, call := .scheduling susp st }
  | .scheduling susp st, .step =>
    some { t with scheduled := t.scheduled ++ susp.toList, call := .deciding st }
  | .deciding st, .step =>
    some { (if st = .detached then t.delete else t) with call := .finished }
  | _, _ => none

/-- The section of `await_suspend`. -/
def awaitSuspend (t : Task α ε κ) (k : κ) : Task α ε κ :=
  let (b, scheduled) := t.base.awaitSuspend k
  { t.access with
    base := b, awaiter := some k, scheduled := t.scheduled ++ scheduled.toList }

end Task

/-- No task and no handle. -/
def init : State φ η α ε κ := { tasks := fun _ ↦ .new, handles := fun _ ↦ none }

section Steps

variable [DecidableEq φ] [DecidableEq η] [DecidableEq κ]

/-- Change one task and one handle object. -/
def State.set (s : State φ η α ε κ) (f : φ) (t : Task α ε κ) (h : η)
    (x : Option (Slot φ (HandleOp κ))) : State φ η α ε κ :=
  { tasks := Function.update s.tasks f t, handles := Function.update s.handles h x }

/-- Change one handle object. -/
def State.setHandle (s : State φ η α ε κ) (h : η) (x : Option (Slot φ (HandleOp κ))) :
    State φ η α ε κ := { s with handles := Function.update s.handles h x }

/-- `detach()` on a state, explicit or by the destructor, which in the end leaves the handle
object as `rest`. -/
def detach (s : State φ η α ε κ) (h : η) (f : φ) (op : HandleOp κ)
    (rest : Option (Slot φ (HandleOp κ))) : State φ η α ε κ :=
  let (b, deletes) := (s.tasks f).base.detach
  s.set f { (s.tasks f).access with base := b } h
    (if deletes then some ⟨some f, op⟩ else rest)

/-- One step of the workers or of the handles. Each task is awaited at most once, and no other
operation starts on the handle meanwhile. -/
def next (s : State φ η α ε κ) : Act φ η α ε κ → Option (State φ η α ε κ)
  | .spawn f h =>
    match (s.tasks f).call, s.handles h with
    | .absent, none => some (s.set f { s.tasks f with call := .queued } h (some ⟨some f, .idle⟩))
    | _, _ => none
  | .call f a =>
    ((s.tasks f).callStep a).map fun t ↦ { s with tasks := Function.update s.tasks f t }
  | .construct h =>
    if s.handles h = none then some (s.setHandle h (some ⟨none, .idle⟩)) else none
  | .moveConstruct dst src =>
    match s.handles dst, s.handles src with
    | none, some ⟨x, .idle⟩ =>
      some ((s.setHandle src (some ⟨none, .idle⟩)).setHandle dst (some ⟨x, .idle⟩))
    | _, _ => none
  | .moveAssign lhs rhs =>
    match s.handles lhs, s.handles rhs with
    | some ⟨x, .idle⟩, some ⟨y, .idle⟩ =>
      some ((s.setHandle lhs (some ⟨y, .idle⟩)).setHandle rhs (some ⟨x, .idle⟩))
    | _, _ => none
  | .awaitReady h =>
    match s.handles h with
    | some ⟨some f, .idle⟩ =>
      if (s.tasks f).awaited then none
      else some (s.set f { (s.tasks f).access with awaited := true } h
        (some ⟨some f, if (s.tasks f).base.awaitReady then .resuming else .suspending⟩))
    | _ => none
  | .awaitSuspend h k =>
    match s.handles h with
    | some ⟨some f, .suspending⟩ =>
      some (s.set f ((s.tasks f).awaitSuspend k) h (some ⟨some f, .suspended k⟩))
    | _ => none
  | .resume h =>
    match s.handles h with
    | some ⟨some f, .suspended k⟩ =>
      if k ∈ (s.tasks f).scheduled then some (s.set f (s.tasks f) h (some ⟨some f, .resuming⟩))
      else none
    | _ => none
  | .awaitResume h =>
    match s.handles h with
    | some ⟨some f, .resuming⟩ =>
      some (s.set f { (s.tasks f).access with
        read := (s.tasks f).read ++ [(s.tasks f).base.awaitResume] } h (some ⟨some f, .idle⟩))
    | _ => none
  | .detach h =>
    match s.handles h with
    | some ⟨some f, .idle⟩ => some (detach s h f .detaching (some ⟨none, .idle⟩))
    | _ => none
  | .destruct h =>
    match s.handles h with
    | some ⟨some f, .idle⟩ => some (detach s h f .destructing none)
    | some ⟨none, .idle⟩ => some (s.setHandle h none)
    | _ => none
  | .delete h =>
    match s.handles h with
    | some ⟨some f, .detaching⟩ => some (s.set f (s.tasks f).delete h (some ⟨none, .idle⟩))
    | some ⟨some f, .destructing⟩ => some (s.set f (s.tasks f).delete h none)
    | _ => none

/-- Blocking tasks and their handles. -/
def system (φ η α ε κ : Type) [DecidableEq φ] [DecidableEq η] [DecidableEq κ] :
    System (State φ η α ε κ) (Act φ η α ε κ) := { init := init, next := next }

end Steps

/-! ### One deletion and one resumption -/

/-- `call()` is left to delete the state. -/
def Task.deletes (t : Task α ε κ) : Bool :=
  match t.call with
  | .scheduling _ st | .deciding st => st == .detached
  | .queued | .running | .settling _ => t.base.state == .detached
  | .absent | .finished => false

/-- What holds of a task that does or does not have a handle. Its state belongs to the handle,
or to `call()`, or has been deleted; and the coroutine that was suspended on it is stored in
`suspended`, or taken by `call()`, or scheduled. -/
structure TaskOk (t : Task α ε κ) (owned : Prop) : Prop where
  absent : t.call = .absent → t = .new ∧ ¬owned
  done_iff : t.base.state = .done ↔ t.call.settled = true
  live : owned → t.deleted = 0 ∧ t.deletes = false
  orphan : ¬owned → t.call ≠ .absent → t.deleted = 0 ∧ t.deletes = true ∨
    t.deleted = 1 ∧ t.deletes = false ∧ t.base.state = .done
  clean : t.usedAfter = false
  unawaited : t.awaited = false → t.awaiter = none
  once : t.scheduled ++ t.call.susp.toList ++ t.base.suspended.toList = t.awaiter.toList
  early : t.base.suspended ≠ none → t.base.state ≠ .done
  late : t.scheduled ≠ [] → t.base.state = .done

/-- What holds of a task with an operation on its handle. -/
def OpOk (t : Task α ε κ) : HandleOp κ → Prop
  | .detaching | .destructing => t.base.state = .done
  | .suspending => t.awaited = true ∧ t.awaiter = none
  | .idle | .suspended _ | .resuming => True

private theorem Task.access_of_live {t : Task α ε κ} (h : t.deleted = 0) : t.access = t := by
  have hused : (t.usedAfter || t.deleted != 0) = t.usedAfter := by simp [h]
  rw [access, hused]

namespace TaskOk

variable {t t' : Task α ε κ} {owned : Prop}

private theorem deleted_eq_zero (h : TaskOk t owned) (hs : t.call.settled = false) :
    t.deleted = 0 := by
  by_cases ho : owned
  · exact (h.live ho).1
  · by_cases ha : t.call = .absent
    · rw [(h.absent ha).1]
      rfl
    · rcases h.orphan ho ha with ⟨hz, -⟩ | ⟨-, -, hd⟩
      · exact hz
      · rw [h.done_iff.mp hd] at hs
        cases hs

/-- A submitted task belongs to its handle. -/
theorem spawn (h : TaskOk t False) (ht : t.call = .absent) :
    TaskOk { t with call := .queued } True := by
  rw [(h.absent ht).1]
  constructor <;> simp [Task.new, StateBase.new, CallPc.settled, CallPc.susp, Task.deletes]

/-- `call()` moves in front of its section. -/
theorem of_front {pc : CallPc α ε κ} (h : TaskOk t owned) (ha : t.call ≠ .absent)
    (hold : t.call.settled = false) (hpc : pc = .running ∨ ∃ o, pc = .settling o) :
    TaskOk { t with call := pc } owned := by
  have hdel : ({ t with call := pc } : Task α ε κ).deletes = t.deletes := by
    cases hc : t.call with
    | absent => exact absurd hc ha
    | queued | running | settling =>
      rcases hpc with rfl | ⟨o, rfl⟩ <;> simp [Task.deletes, hc]
    | scheduling | deciding | finished => simp [hc, CallPc.settled] at hold
  have hsettled : pc.settled = false := by
    rcases hpc with rfl | ⟨o, rfl⟩ <;> rfl
  have hsusp : pc.susp = t.call.susp := by
    have hnone : t.call.susp = none := by
      cases hc : t.call <;> simp [hc, CallPc.settled, CallPc.susp] at hold ⊢
    rw [hnone]
    rcases hpc with rfl | ⟨o, rfl⟩ <;> rfl
  constructor
  · intro hpc'
    rcases hpc with rfl | ⟨o, rfl⟩ <;> cases hpc'
  · simp only [hsettled]
    rw [← hold]
    exact h.done_iff
  · rw [hdel]
    exact h.live
  · rw [hdel]
    exact fun ho _ ↦ h.orphan ho ha
  · exact h.clean
  · exact h.unawaited
  · simp only [hsusp]
    exact h.once
  · exact h.early
  · exact h.late

/-- The section of `call()`: it takes the suspended coroutine, and the state if it is
detached. -/
theorem settle {o : Except ε α} (h : TaskOk t owned) (ht : t.call = .settling o) :
    TaskOk { t.access with
      base := (t.base.settle o).1
      call := .scheduling (t.base.settle o).2.1 (t.base.settle o).2.2 } owned := by
  obtain ⟨b, hb, hdone, hnone⟩ := t.base.settle_cases o
  have hz := h.deleted_eq_zero (by rw [ht]; rfl)
  rw [Task.access_of_live hz, hb]
  have hdel : t.deletes = (t.base.state == .detached) := by simp [Task.deletes, ht]
  constructor
  · intro ha
    cases ha
  · simp [hdone, CallPc.settled]
  · exact fun ho ↦ ⟨hz, hdel.symm.trans (h.live ho).2⟩
  · intro ho _
    rcases h.orphan ho (by simp [ht]) with ⟨-, hd⟩ | ⟨hone, -⟩
    · exact .inl ⟨hz, hdel.symm.trans hd⟩
    · omega
  · exact h.clean
  · exact h.unawaited
  · have honce := h.once
    simpa [ht, CallPc.susp, hnone] using honce
  · exact fun hs ↦ absurd hnone hs
  · exact fun _ ↦ hdone

/-- `call()` schedules the coroutine it has taken. -/
theorem schedule {susp : Option κ} {st : Status} (h : TaskOk t owned)
    (ht : t.call = .scheduling susp st) :
    TaskOk { t with scheduled := t.scheduled ++ susp.toList, call := .deciding st } owned := by
  have hdone : t.base.state = .done := h.done_iff.mpr (by rw [ht]; rfl)
  have hdel : t.deletes = (st == .detached) := by simp [Task.deletes, ht]
  constructor
  · intro ha
    cases ha
  · simp [hdone, CallPc.settled]
  · exact fun ho ↦ ⟨(h.live ho).1, hdel.symm.trans (h.live ho).2⟩
  · intro ho _
    have := h.orphan ho (by simp [ht])
    rwa [hdel] at this
  · exact h.clean
  · exact h.unawaited
  · have honce := h.once
    simpa [ht, CallPc.susp] using honce
  · exact h.early
  · exact fun _ ↦ hdone

/-- `call()` deletes the state it has found detached, which no handle has. -/
theorem finish {st : Status} (h : TaskOk t owned) (ht : t.call = .deciding st) :
    TaskOk { (if st = .detached then t.delete else t) with call := .finished } owned := by
  have hdone : t.base.state = .done := h.done_iff.mpr (by rw [ht]; rfl)
  have hdel : t.deletes = (st == .detached) := by simp [Task.deletes, ht]
  have honce := h.once
  simp only [ht, CallPc.susp, Option.toList_none, List.append_nil] at honce
  by_cases hst : st = .detached
  · have hown : ¬owned := by
      intro ho
      have := (h.live ho).2
      simp [hdel, hst] at this
    have hz : t.deleted = 0 := by
      rcases h.orphan hown (by simp [ht]) with ⟨hz, -⟩ | ⟨-, hd, -⟩
      · exact hz
      · simp [hdel, hst] at hd
    rw [if_pos hst]
    constructor <;> simp [Task.delete, Task.deletes, hdone, hown, hz, CallPc.settled, CallPc.susp,
      h.clean, honce]
    · exact h.unawaited
    · simpa [hdone] using h.early
  · rw [if_neg hst]
    have hd : t.deletes = false := by simp [hdel, hst]
    constructor
    · intro ha
      cases ha
    · simp [hdone, CallPc.settled]
    · exact fun ho ↦ ⟨(h.live ho).1, rfl⟩
    · intro ho _
      rcases h.orphan ho (by simp [ht]) with ⟨-, hd'⟩ | ⟨hone, -⟩
      · rw [hd] at hd'
        cases hd'
      · exact .inr ⟨hone, rfl, hdone⟩
    · exact h.clean
    · exact h.unawaited
    · simpa [CallPc.susp] using honce
    · exact h.early
    · exact h.late

/-- Every step of `call()`. -/
theorem callStep {a : CallAct α ε} (h : TaskOk t owned) (hn : t.callStep a = some t') :
    TaskOk t' owned := by
  unfold Task.callStep at hn
  split at hn
  · next hc =>
    cases hn
    exact h.of_front (by simp [hc]) (by simp [hc, CallPc.settled]) (.inl rfl)
  · next o hc =>
    cases hn
    exact h.of_front (by simp [hc]) (by simp [hc, CallPc.settled]) (.inr ⟨o, rfl⟩)
  · next v e hc =>
    cases hn
    rw [Task.access_of_live (h.deleted_eq_zero (by rw [hc]; rfl))]
    exact h.of_front (by simp [hc]) (by simp [hc, CallPc.settled]) (.inr ⟨.error e, rfl⟩)
  · next o hc =>
    cases hn
    exact h.settle hc
  · next susp st hc =>
    cases hn
    exact h.schedule hc
  · next st hc =>
    cases hn
    exact h.finish hc
  · cases hn

/-- A step of `call()` leaves the operation on the handle its ground. -/
theorem op_callStep {a : CallAct α ε} {op : HandleOp κ} (ho : OpOk t op)
    (hn : t.callStep a = some t') : OpOk t' op := by
  have hkeep : (t.base.state = .done → t'.base.state = .done) ∧ t'.awaited = t.awaited ∧
      t'.awaiter = t.awaiter := by
    unfold Task.callStep at hn
    split at hn
    case h_4 o hc =>
      obtain ⟨b, hb, hdone, -⟩ := t.base.settle_cases o
      simp only [hb] at hn
      cases hn
      exact ⟨fun _ ↦ hdone, rfl, rfl⟩
    case h_6 st hc =>
      cases hn
      split <;> exact ⟨id, rfl, rfl⟩
    all_goals
      cases hn
      try exact ⟨id, rfl, rfl⟩
  cases op with
  | detaching | destructing => exact hkeep.1 ho
  | suspending => exact ⟨hkeep.2.1.trans ho.1, hkeep.2.2.trans ho.2⟩
  | idle | suspended | resuming => trivial

/-- `await_ready` only looks. -/
theorem awaitReady (h : TaskOk t True) : TaskOk { t.access with awaited := true } True := by
  rw [Task.access_of_live (h.live trivial).1]
  exact { h with absent := fun ha ↦ absurd trivial (h.absent ha).2, unawaited := by simp }

/-- `await_resume` only reads. -/
theorem awaitResume {read : List (Option α)} (h : TaskOk t True) :
    TaskOk { t.access with read := read } True := by
  rw [Task.access_of_live (h.live trivial).1]
  exact { h with absent := fun ha ↦ absurd trivial (h.absent ha).2 }

/-- `await_suspend` stores the coroutine, or schedules it at once. -/
theorem awaitSuspend {k : κ} (h : TaskOk t True)
    (ho : OpOk t (.suspending : HandleOp κ)) : TaskOk (t.awaitSuspend k) True := by
  have hempty := h.once
  rw [ho.2] at hempty
  simp only [Option.toList_none, List.append_eq_nil_iff, Option.toList_eq_nil_iff] at hempty
  obtain ⟨⟨hsched, hsusp⟩, hnone⟩ := hempty
  have habsent (ha : t.call = .absent) : False := (h.absent ha).2 trivial
  have hlive := h.live trivial
  unfold Task.awaitSuspend
  rw [Task.access_of_live hlive.1]
  rcases t.base.awaitSuspend_cases k with ⟨hb, hdone⟩ | ⟨hb, hnot⟩
  · rw [hb]
    exact { h with
      absent := fun ha ↦ (habsent ha).elim
      unawaited := fun hfalse ↦ by rw [ho.1] at hfalse; cases hfalse
      once := by simp [hsched, hsusp, hnone]
      late := fun _ ↦ hdone }
  · rw [hb]
    exact { h with
      absent := fun ha ↦ (habsent ha).elim
      unawaited := fun hfalse ↦ by rw [ho.1] at hfalse; cases hfalse
      once := by simp [hsched, hsusp]
      early := fun _ ↦ hnot
      late := fun hs ↦ by simp [hsched] at hs }

private theorem detach_done (h : TaskOk t True) : TaskOk { t.access with base := t.base } True := by
  rw [Task.access_of_live (h.live trivial).1]
  exact h

/-- `detach()` on any other state leaves it to `call()`. -/
theorem detach (h : TaskOk t True) (hd : t.base.state ≠ .done) :
    TaskOk { t.access with base := { t.base with state := .detached } } False := by
  have hlive := h.live trivial
  have hfront : t.call.settled = false := by
    rw [← Bool.not_eq_true, ← h.done_iff]
    exact hd
  have hdel : ({ t with base := { t.base with state := .detached } } : Task α ε κ).deletes =
      true := by
    cases hc : t.call with
    | absent => exact absurd trivial (h.absent hc).2
    | queued | running | settling => simp [Task.deletes]
    | scheduling | deciding | finished => simp [hc, CallPc.settled] at hfront
  rw [Task.access_of_live hlive.1]
  exact { h with
    absent := fun ha ↦ absurd trivial (h.absent ha).2
    done_iff := by simp [hfront]
    live := False.elim
    orphan := fun _ _ ↦ .inl ⟨hlive.1, hdel⟩
    early := by simp
    late := fun hs ↦ absurd (h.late hs) hd }

/-- The handle deletes the state that it found marked. -/
theorem delete (h : TaskOk t True) (hd : t.base.state = .done) : TaskOk t.delete False := by
  have hlive := h.live trivial
  exact { h with
    absent := fun ha ↦ absurd trivial (h.absent ha).2
    live := False.elim
    orphan := fun _ _ ↦ .inr ⟨congrArg (· + 1) hlive.1, hlive.2, hd⟩ }

end TaskOk

/-! ### All tasks and handles -/

section Steps

variable [DecidableEq φ] [DecidableEq η] [DecidableEq κ] {s s' : State φ η α ε κ}

/-- Every task and every handle are as they should be. -/
def Sound (s : State φ η α ε κ) : Prop := Custody TaskOk OpOk s.tasks s.handles

omit [DecidableEq κ] in
/-- A handle works on the state it has. -/
theorem Sound.keep {h : η} {f : φ} {op op' : HandleOp κ} {t : Task α ε κ} (hs : Sound s)
    (hh : s.handles h = some ⟨some f, op⟩) (hJ : TaskOk (s.tasks f) True → TaskOk t True)
    (hO : OpOk t op') : Sound (s.set f t h (some ⟨some f, op'⟩)) :=
  Custody.keep hs (held_of_slot hh) hJ hO

omit [DecidableEq κ] in
/-- `detach()` leaves the state to `call()` or takes on its deletion. -/
theorem Sound.detach {h : η} {f : φ} {op : HandleOp κ} {rest : Option (Slot φ (HandleOp κ))}
    (hs : Sound s) (hh : s.handles h = some ⟨some f, .idle⟩)
    (hop : op = .detaching ∨ op = .destructing) (hrest : rest.bind Slot.target = none) :
    Sound (detach s h f op rest) := by
  unfold Blocking.detach
  rcases (s.tasks f).base.detach_cases with ⟨hb, hdone⟩ | ⟨hb, hnot⟩
  · rw [hb]
    refine hs.keep hh (fun h ↦ h.detach_done) ?_
    rcases hop with rfl | rfl <;> exact hdone
  · rw [hb]
    exact Custody.drop hs (held_of_slot hh) hrest fun h ↦ h.detach hnot

omit [DecidableEq κ] in
/-- A submitted task gets its handle. -/
theorem Sound.spawn {f : φ} {h : η} (hs : Sound s) (hc : (s.tasks f).call = .absent)
    (hh : s.handles h = none) :
    Sound (s.set f { s.tasks f with call := .queued } h (some ⟨some f, .idle⟩)) := by
  have hnone (l : η) : held s.handles l ≠ some f := fun hl ↦ ((hs.object f).absent hc).2 ⟨l, hl⟩
  exact Custody.attach hs hh hnone (fun h ↦ h.spawn hc) trivial

/-- A step of `call()`. -/
theorem Sound.call {f : φ} {a : CallAct α ε} (hs : Sound s)
    (hn : next s (.call f a) = some s') : Sound s' := by
  obtain ⟨t, ht, rfl⟩ := Option.map_eq_some_iff.mp hn
  exact Custody.step hs (fun _ h ↦ h.callStep ht) fun _ h ↦ TaskOk.op_callStep h ht

/-- A `co_await` begins. -/
theorem Sound.awaitReady {h : η} (hs : Sound s) (hn : next s (.awaitReady h) = some s') :
    Sound s' := by
  simp only [Blocking.next] at hn
  split at hn
  · next f hh =>
    split at hn
    · cases hn
    · next haw =>
      cases hn
      refine hs.keep hh (fun h ↦ h.awaitReady) ?_
      split
      · trivial
      · exact ⟨rfl, (hs.object f).unawaited (by simpa using haw)⟩
  · cases hn

/-- A coroutine suspends on the handle. -/
theorem Sound.awaitSuspend {h : η} {k : κ} (hs : Sound s)
    (hn : next s (.awaitSuspend h k) = some s') : Sound s' := by
  simp only [Blocking.next] at hn
  split at hn
  · next f hh =>
    cases hn
    exact hs.keep hh (fun ht ↦ ht.awaitSuspend (hs.op h f _ hh)) trivial
  · cases hn

/-- A coroutine that was suspended on the handle is resumed. -/
theorem Sound.resume {h : η} (hs : Sound s) (hn : next s (.resume h) = some s') : Sound s' := by
  simp only [Blocking.next] at hn
  split at hn
  · next f k hh =>
    split at hn
    · cases hn
      exact hs.keep hh id trivial
    · cases hn
  · cases hn

/-- A handle deletes the state. -/
theorem Sound.delete {h : η} (hs : Sound s) (hn : next s (.delete h) = some s') : Sound s' := by
  simp only [Blocking.next] at hn
  split at hn
  · next f hh =>
    cases hn
    exact Custody.drop hs (held_of_slot hh) rfl fun ht ↦ ht.delete (hs.op h f _ hh)
  · next f hh =>
    cases hn
    exact Custody.drop hs (held_of_slot hh) rfl fun ht ↦ ht.delete (hs.op h f _ hh)
  · cases hn

/-- Every step keeps all tasks and handles as they should be. -/
theorem Sound.next {a : Act φ η α ε κ} (hs : Sound s) (hn : next s a = some s') : Sound s' := by
  cases a with
  | spawn f h =>
    simp only [Blocking.next] at hn
    split at hn
    · next hc hh =>
      cases hn
      exact hs.spawn hc hh
    · cases hn
  | call f a => exact hs.call hn
  | construct h =>
    simp only [Blocking.next] at hn
    split at hn
    · next hh =>
      cases hn
      exact Custody.void hs (by simp [held, hh]) rfl
    · cases hn
  | moveConstruct dst src =>
    simp only [Blocking.next] at hn
    split at hn
    · next x hdst hsrc =>
      cases hn
      exact Custody.move hs hdst hsrc fun _ _ ↦ trivial
    · cases hn
  | moveAssign lhs rhs =>
    simp only [Blocking.next] at hn
    split at hn
    · next x y hlhs hrhs =>
      cases hn
      exact Custody.swap hs hlhs hrhs (fun _ _ ↦ trivial) fun _ _ ↦ trivial
    · cases hn
  | awaitReady h => exact hs.awaitReady hn
  | awaitSuspend h k => exact hs.awaitSuspend hn
  | resume h => exact hs.resume hn
  | awaitResume h =>
    simp only [Blocking.next] at hn
    split at hn
    · next f hh =>
      cases hn
      exact hs.keep hh (fun h ↦ h.awaitResume) trivial
    · cases hn
  | detach h =>
    simp only [Blocking.next] at hn
    split at hn
    · next f hh =>
      cases hn
      exact hs.detach hh (.inl rfl) rfl
    · cases hn
  | destruct h =>
    simp only [Blocking.next] at hn
    split at hn
    · next f hh =>
      cases hn
      exact hs.detach hh (.inr rfl) rfl
    · next hh =>
      cases hn
      exact Custody.void hs (held_of_slot hh) rfl
    · cases hn
  | delete h => exact hs.delete hn

end Steps

/-- What is owed to a blocking task: its state is deleted at most once and not accessed
afterwards, and has been deleted once its `call()` is over and no handle has it; nothing but
the coroutine that was suspended on it is scheduled, at most once and after the state was
marked, and it has been scheduled once `call()` is over. -/
structure SettledOnce (s : State φ η α ε κ) (f : φ) : Prop where
  atMostOnce : (s.tasks f).deleted ≤ 1
  notUsedAfter : (s.tasks f).usedAfter = false
  released : (s.tasks f).call = .finished → (∀ h, held s.handles h ≠ some f) →
    (s.tasks f).deleted = 1
  scheduled : (s.tasks f).scheduled = [] ∨
    (s.tasks f).scheduled = (s.tasks f).awaiter.toList ∧ (s.tasks f).base.state = .done
  resumed : (s.tasks f).call = .finished → (s.tasks f).scheduled = (s.tasks f).awaiter.toList

/-- What was scheduled is all that was ever suspended, once something was. -/
theorem TaskOk.scheduled_cases {t : Task α ε κ} {owned : Prop} (h : TaskOk t owned) :
    t.scheduled = [] ∨ t.scheduled = t.awaiter.toList ∧ t.base.state = .done := by
  cases hs : t.scheduled with
  | nil => exact .inl rfl
  | cons k rest =>
    right
    have honce := h.once
    rw [hs] at honce
    refine ⟨?_, h.late (by simp [hs])⟩
    cases ha : t.awaiter with
    | none => simp [ha] at honce
    | some j =>
      rw [ha] at honce
      simp only [Option.toList_some, List.append_assoc, List.cons_append, List.cons.injEq,
        List.append_eq_nil_iff] at honce
      rw [honce.1, honce.2.1]
      rfl

/-- At first there is no task and no handle. -/
theorem sound_init : Sound (init : State φ η α ε κ) := by
  refine ⟨fun f h k hh ↦ ?_, fun f ↦ ?_, fun h f x hh ↦ ?_⟩
  · cases hh
  · constructor <;> simp [init, held, Task.new, StateBase.new, CallPc.settled, CallPc.susp]
  · cases hh

/-- In every run each state is deleted and each awaiting coroutine resumed exactly once. -/
theorem settled_once [DecidableEq φ] [DecidableEq η] [DecidableEq κ] {s : State φ η α ε κ}
    (hr : (system φ η α ε κ).Reachable s) (f : φ) : SettledOnce s f := by
  have hs : Sound s := hr.invariant sound_init fun _ _ _ hi hn ↦ hi.next hn
  have h := hs.object f
  refine ⟨?_, h.clean, fun hfin hnone ↦ ?_, h.scheduled_cases, fun hfin ↦ ?_⟩
  · by_cases ho : ∃ k, held s.handles k = some f
    · have := (h.live ho).1
      omega
    · by_cases ha : (s.tasks f).call = .absent
      · rw [(h.absent ha).1]
        simp [Task.new]
      · rcases h.orphan ho ha with ⟨hz, -⟩ | ⟨hone, -⟩ <;> omega
  · rcases h.orphan (not_exists.mpr hnone) (by simp [hfin]) with ⟨-, hdel⟩ | ⟨hone, -⟩
    · simp [Task.deletes, hfin] at hdel
    · exact hone
  · have hdone : (s.tasks f).base.state = .done := h.done_iff.mpr (by rw [hfin]; rfl)
    have hnone : (s.tasks f).base.suspended = none := by
      by_contra hne
      exact h.early hne hdone
    have honce := h.once
    simpa [hfin, CallPc.susp, hnone] using honce

/-- A blocking task that is awaited before it is run, and the `call()` of it. -/
def awaitedThenRun (f : φ) (h : η) (k : κ) (v : α) : List (Act φ η α ε κ) :=
  [.spawn f h, .awaitReady h, .awaitSuspend h k, .call f .run, .call f (.returns (.ok v)),
    .call f .step, .call f .step, .call f .step]

/-- The coroutine that awaited the task is resumed, and the destructor of the handle deletes
the state. -/
theorem settled_once_awaitedThenRun : ∃ s, (system (Fin 1) (Fin 1) Nat Nat Nat).Reachable s ∧
    ((s.tasks 0).scheduled = [3] ∧ (s.tasks 0).read = [some 7] ∧ (s.tasks 0).deleted = 1) ∧
    SettledOnce s 0 := by
  have hrun : ∃ s, (system (Fin 1) (Fin 1) Nat Nat Nat).Reachable s ∧
      (s.tasks 0).scheduled = [3] ∧ (s.tasks 0).read = [some 7] ∧ (s.tasks 0).deleted = 1 :=
    System.exists_reachable (awaitedThenRun 0 0 3 7 ++ [.resume 0, .awaitResume 0, .destruct 0,
      .delete 0]) (by decide)
  obtain ⟨s, hr, hs⟩ := hrun
  exact ⟨s, hr, hs, settled_once hr 0⟩

end Crasy.Spawn.Blocking
