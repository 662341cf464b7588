import Crasy.Base.System
import Crasy.Base.Tally
import Crasy.LfQueue.Fifo

/-!
# The coroutine reader-writer mutex

Library `Sync`. Models `src/shared_mutex.cpp:5–96` with the classes of
`include/crasy/shared_mutex.hpp:16–65`, one action for each atomic step. As in
`Crasy.Sync.Mutex` the waiter queue takes each push and pop as one step, and what
`await_suspend` does after its push runs beside the suspended coroutine.
-/

namespace Crasy.Sync.SharedMutex

open Crasy.Base Crasy.LfQueue

variable {ι : Type}

/-- `EX_BIT`; `src/shared_mutex.cpp:5`. -/
def exBit : BitVec 64 := ~~~((~~~0 : BitVec 64) >>> 1)

/-- Where a task stands. `requested` is `requested_` of its `shared_mutex_lock_future`. -/
inductive Pc (ι : Type) where
  | idle
  | tryLock
  | lockReady (requested : Bool)
  | lockExchange (state : BitVec 64)
  | lockSuspend (requested : Bool)
  | lockSuspended (requested : Bool)
  | holding
  | unlock
  | tryLockShared
  | tryLockSharedUndo
  | lockSharedReady
  | lockSharedSuspend
  | lockSharedSuspended
  | holdingShared
  | unlockShared
  | drainPop
  | drainSchedule (handle : ι)
  deriving DecidableEq, Repr

/-- Where a call of `await_suspend` stands after its push. -/
inductive SuspendPc (ι : Type) where
  | load (shared : Bool)
  | pop
  | schedule (handle : ι)
  deriving DecidableEq, Repr

/-- The mutex (`state_`, `suspended_`), its tasks, the calls of `await_suspend` past their
push, and the handles given to `schedule_task` and not yet resumed. -/
structure State (ι : Type) where
  state : BitVec 64
  suspended : Content ι
  tasks : ι → Pc ι
  suspenders : List (SuspendPc ι)
  runQueue : List ι

/-- The operations of the interface. -/
inductive Op where
  | tryLock
  | lock
  | unlock
  | tryLockShared
  | lockShared
  | unlockShared
  deriving DecidableEq, Repr

/-- The choices of the scheduler and of the program. -/
inductive Act (ι : Type) where
  | call (t : ι) (op : Op)
  | task (t : ι)
  | suspender (i : Nat)
  | resume (i : Nat)
  deriving DecidableEq, Repr

/-- A free mutex that no task has used. -/
def init : State ι :=
  { state := 0, suspended := .empty, tasks := fun _ ↦ .idle, suspenders := [], runQueue := [] }

/-- Where an operation starts; a task unlocks only what it holds. -/
def Op.start : Op → Pc ι → Option (Pc ι)
  | .tryLock, .idle => some .tryLock
  | .lock, .idle => some (.lockReady false)
  | .unlock, .holding => some .unlock
  | .tryLockShared, .idle => some .tryLockShared
  | .lockShared, .idle => some .lockSharedReady
  | .unlockShared, .holdingShared => some .unlockShared
  | _, _ => none

/-- Where a resumed coroutine goes on. -/
def Pc.resumed : Pc ι → Option (Pc ι)
  | .lockSuspended _ => some .holding
  | .lockSharedSuspended => some .holdingShared
  | _ => none

section Steps

variable [DecidableEq ι]

/-- Move one task. -/
def State.setTask (s : State ι) (t : ι) (pc : Pc ι) : State ι :=
  { s with tasks := Function.update s.tasks t pc }

/-- `await_suspend` pushes the handle; its rest is left beside the suspended task. -/
def State.suspend (s : State ι) (t : ι) (shared : Bool) : State ι :=
  { s with suspended := s.suspended.push t, suspenders := s.suspenders ++ [.load shared] }

/-- `shared_mutex::try_lock`; `src/shared_mutex.cpp:58–61`. -/
def tryLock (s : State ι) (t : ι) (acquired failed : Pc ι) : State ι :=
  if s.state = 0 then { s with state := exBit }.setTask t acquired else s.setTask t failed

/-- The compare-exchange of `lock`'s `await_ready` with the value it has read, and the next
round of its loop; `src/shared_mutex.cpp:12–18`. -/
def lockExchange (s : State ι) (t : ι) (state : BitVec 64) : State ι :=
  if state &&& exBit = 0 then
    if s.state = state then
      { s with state := state ||| exBit }.setTask t
        (if state = exBit then .holding else .lockSuspend true)
    else s.setTask t (.lockExchange s.state)
  else s.setTask t (.lockSuspend false)

/-- The next step of a task inside an operation; `src/shared_mutex.cpp:7–96`. -/
def taskStep (s : State ι) (t : ι) : Option (State ι) :=
  match s.tasks t with
  | .tryLock => some (tryLock s t .holding .idle)
  | .lockReady true =>
    some (s.setTask t (if s.state = exBit then .holding else .lockSuspend true))
  | .lockReady false => some (s.setTask t (.lockExchange s.state))
  | .lockExchange state => some (lockExchange s t state)
  | .lockSuspend requested => some ((s.suspend t false).setTask t (.lockSuspended requested))
  | .unlock => some ({ s with state := s.state - exBit }.setTask t .drainPop)
  | .tryLockShared =>
    some ({ s with state := s.state + 1 }.setTask t
      (if s.state &&& exBit = 0 then .holdingShared else .tryLockSharedUndo))
  | .tryLockSharedUndo => some ({ s with state := s.state - 1 }.setTask t .idle)
  | .lockSharedReady => some (tryLock s t .holdingShared .lockSharedSuspend)
  | .lockSharedSuspend => some ((s.suspend t true).setTask t .lockSharedSuspended)
  | .unlockShared =>
    some ({ s with state := s.state - 1 }.setTask t
      (if s.state &&& ~~~exBit = 1 then .drainPop else .idle))
  | .drainPop =>
    let (handle, queue) := s.suspended.pop
    some ({ s with suspended := queue }.setTask t
      (match handle with | some h => .drainSchedule h | none => .idle))
  | .drainSchedule h => some ({ s with runQueue := s.runQueue ++ [h] }.setTask t .drainPop)
  | .idle | .lockSuspended _ | .lockSharedSuspended | .holding | .holdingShared => none

/-- The next step of an `await_suspend` past its push;
`src/shared_mutex.cpp:26–34,44–52`. -/
def suspenderStep (s : State ι) (i : Nat) : Option (State ι) :=
  match s.suspenders[i]? with
  | some (.load shared) =>
    some (if (if shared then s.state &&& exBit else s.state) = 0
      then { s with suspenders := s.suspenders.set i .pop }
      else { s with suspenders := s.suspenders.eraseIdx i })
  | some .pop =>
    let (handle, queue) := s.suspended.pop
    some { s with
      suspended := queue
      suspenders := match handle with
        | some h => s.suspenders.set i (.schedule h)
        | none => s.suspenders.eraseIdx i }
  | some (.schedule h) =>
    some { s with runQueue := s.runQueue ++ [h], suspenders := s.suspenders.set i .pop }
  | none => none

/-- Resume a scheduled handle: `await_resume` does nothing, and the task holds the mutex. -/
def resume (s : State ι) (i : Nat) : Option (State ι) :=
  match s.runQueue[i]? with
  | some t => (s.tasks t).resumed.map fun pc ↦
      { s with runQueue := s.runQueue.eraseIdx i }.setTask t pc
  | none => none

/-- One step of the tasks on the mutex. -/
def next (s : State ι) : Act ι → Option (State ι)
  | .call t op => (op.start (s.tasks t)).map (s.setTask t)
  | .task t => taskStep s t
  | .suspender i => suspenderStep s i
  | .resume i => resume s i

/-- Tasks on one reader-writer mutex. -/
def system (ι : Type) [DecidableEq ι] : System (State ι) (Act ι) :=
  { init := init, next := next }

end Steps

/-! ### The word `state_` -/

/-- One for a task that owns the exclusive bit: it holds the mutex, or its request is
pending. -/
def Pc.exclusive : Pc ι → Nat
  | .lockReady true | .lockSuspend true | .lockSuspended true | .holding | .unlock => 1
  | _ => 0

/-- One for a task that holds the mutex shared and has not subtracted itself. -/
def Pc.sharing : Pc ι → Nat
  | .holdingShared | .unlockShared => 1
  | _ => 0

/-- One for a failing `try_lock_shared` that has not undone its addition. -/
def Pc.undoing : Pc ι → Nat
  | .tryLockSharedUndo => 1
  | _ => 0

/-- What a task adds to the reader count. -/
def Pc.reading (pc : Pc ι) : Nat := pc.sharing + pc.undoing

/-- The task holds the mutex exclusively, until the `fetch_sub` of its `unlock`. -/
def Pc.Owning (pc : Pc ι) : Prop := pc = .holding ∨ pc = .unlock

private theorem exBit_toNat : exBit.toNat = 2 ^ 63 := rfl

/-- The test of the exclusive bit. -/
theorem and_exBit_eq_zero {x : BitVec 64} : x &&& exBit = 0 ↔ x.toNat < 2 ^ 63 := by
  have hbit : exBit = BitVec.twoPow 64 63 := rfl
  have hmsb : x.getLsbD 63 = x.msb := rfl
  have hlt := x.msb_eq_false_iff_two_mul_lt
  rw [hbit, BitVec.and_twoPow, hmsb]
  cases hx : x.msb with
  | true =>
    rw [hx] at hlt
    simp only [if_true]
    apply iff_of_false (by decide)
    simp only [Bool.true_eq_false, false_iff] at hlt
    omega
  | false =>
    simp only [Bool.false_eq_true, if_false]
    apply iff_of_true rfl
    have := hlt.mp hx
    omega

private theorem or_exBit_toNat {x : BitVec 64} (h : x.toNat < 2 ^ 63) :
    (x ||| exBit).toNat = x.toNat + 2 ^ 63 := by
  rw [BitVec.toNat_or, exBit_toNat, Nat.or_two_pow_eq_add_of_lt h]

theorem sub_exBit_toNat {x : BitVec 64} (h : 2 ^ 63 ≤ x.toNat) :
    (x - exBit).toNat = x.toNat - 2 ^ 63 := by
  have := x.isLt
  rw [BitVec.toNat_sub_of_le (by rwa [BitVec.le_def]), exBit_toNat]

theorem add_one_toNat {x : BitVec 64} (h : x.toNat % 2 ^ 63 + 1 < 2 ^ 63) :
    (x + 1).toNat = x.toNat + 1 := by
  have := x.isLt
  rw [BitVec.toNat_add]
  change (x.toNat + 1) % 2 ^ 64 = x.toNat + 1
  omega

theorem sub_one_toNat {x : BitVec 64} (h : 0 < x.toNat) : (x - 1).toNat = x.toNat - 1 := by
  rw [BitVec.toNat_sub_of_le (by rw [BitVec.le_def]; exact h)]
  rfl

section Word

variable [Fintype ι]

/-- The steps that keep the encoding. `lock_shared` tries the mutex only while `state_` is
not 0; a coroutine is resumed only with a pending exclusive request and with `state_` equal
to `EX_BIT` but for failing `try_lock_shared` calls, as the recheck in `await_ready`
demands; and a reader is added only below the exclusive bit. -/
def StepOk (s : State ι) : Act ι → Prop
  | .task t => (s.tasks t = .lockSharedReady → s.state ≠ 0) ∧
      (s.tasks t = .tryLockShared → s.state.toNat % 2 ^ 63 + 1 < 2 ^ 63)
  | .resume i => ∀ t, s.runQueue[i]? = some t → s.tasks t = .lockSuspended true ∧
      s.state.toNat = 2 ^ 63 + tally Pc.undoing s.tasks
  | .call _ _ | .suspender _ => True

/-- `state_` counts its one exclusive owner and its readers, and no reader shares the mutex
with an owner that holds it. -/
structure Invariant (s : State ι) : Prop where
  word : s.state.toNat = 2 ^ 63 * tally Pc.exclusive s.tasks + tally Pc.reading s.tasks
  one : tally Pc.exclusive s.tasks ≤ 1
  few : tally Pc.reading s.tasks < 2 ^ 63
  apart : ∀ t, (s.tasks t).Owning → tally Pc.sharing s.tasks = 0

namespace Invariant

variable {s s' : State ι}

private theorem of_eq (h : Invariant s) (ht : s'.tasks = s.tasks) (hs : s'.state = s.state) :
    Invariant s' := by
  constructor
  · rw [hs, ht, h.word]
  · rw [ht]
    exact h.one
  · rw [ht]
    exact h.few
  · rw [ht]
    exact h.apart

private theorem exclusive_eq_zero (h : Invariant s) (hs : s.state.toNat < 2 ^ 63) :
    tally Pc.exclusive s.tasks = 0 := by
  have := h.word
  omega

/-- The word is at least the part of one task. -/
theorem le_state (h : Invariant s) (t : ι) :
    2 ^ 63 * (s.tasks t).exclusive + (s.tasks t).reading ≤ s.state.toNat := by
  have hw := h.word
  have he := le_tally Pc.exclusive s.tasks t
  have hr := le_tally Pc.reading s.tasks t
  omega

private theorem not_owning (hz : tally Pc.exclusive s.tasks = 0) (t : ι) : ¬(s.tasks t).Owning := by
  have := tally_eq_zero.mp hz t
  rintro (ho | ho) <;> simp [ho, Pc.exclusive] at this

/-- The readers are the tasks that share the mutex and the failing calls. -/
theorem tally_reading : tally Pc.reading s.tasks =
    tally Pc.sharing s.tasks + tally Pc.undoing s.tasks := tally_add Pc.sharing Pc.undoing s.tasks

variable [DecidableEq ι]

private theorem of_update {t : ι} {pc : Pc ι} (h : Invariant s)
    (ht : s'.tasks = Function.update s.tasks t pc)
    (hs : s'.state.toNat + (2 ^ 63 * (s.tasks t).exclusive + (s.tasks t).reading) =
      s.state.toNat + (2 ^ 63 * pc.exclusive + pc.reading))
    (hone : tally Pc.exclusive s.tasks + pc.exclusive ≤ 1 + (s.tasks t).exclusive)
    (hfew : tally Pc.reading s.tasks + pc.reading < 2 ^ 63 + (s.tasks t).reading)
    (hown : pc.Owning → (s.tasks t).Owning ∨ tally Pc.sharing s.tasks = 0)
    (hshare : pc.sharing ≤ (s.tasks t).sharing ∨ ∀ u, ¬(s.tasks u).Owning) :
    Invariant s' := by
  have he := tally_update Pc.exclusive s.tasks t pc
  have hr := tally_update Pc.reading s.tasks t pc
  have hsh := tally_update Pc.sharing s.tasks t pc
  have hw := h.word
  rw [← ht] at he hr hsh
  refine ⟨by omega, by omega, by omega, fun u hu ↦ ?_⟩
  rw [ht] at hu
  by_cases hut : u = t
  · subst hut
    rw [Function.update_self] at hu
    have hz : tally Pc.sharing s.tasks = 0 := (hown hu).elim (h.apart u) id
    have hp : pc.sharing = 0 := by
      rcases hu with hu | hu <;> rw [hu] <;> rfl
    omega
  · rw [Function.update_of_ne hut] at hu
    have hz := h.apart u hu
    rcases hshare with hle | hnone
    · omega
    · exact absurd hu (hnone u)

private theorem of_keep {t : ι} {pc : Pc ι} (h : Invariant s)
    (ht : s'.tasks = Function.update s.tasks t pc) (hs : s'.state = s.state)
    (he : pc.exclusive = (s.tasks t).exclusive) (hsh : pc.sharing = (s.tasks t).sharing)
    (hu : pc.undoing = (s.tasks t).undoing)
    (hown : pc.Owning → (s.tasks t).Owning ∨ tally Pc.sharing s.tasks = 0) : Invariant s' := by
  have hr : pc.reading = (s.tasks t).reading := by rw [Pc.reading, hsh, hu, Pc.reading]
  have hone := h.one
  have hfew := h.few
  exact h.of_update ht (by rw [hs, he, hr]) (by omega) (by omega) hown (.inl hsh.le)

/-- The compare-exchange of `try_lock`. -/
theorem tryLock {t : ι} (h : Invariant s) (hpc : s.tasks t = .tryLock) :
    Invariant (SharedMutex.tryLock s t .holding .idle) := by
  unfold SharedMutex.tryLock
  split
  · next hs =>
    have hw := h.word
    have hz : s.state.toNat = 0 := by rw [hs]; rfl
    have hr := tally_reading (s := s)
    refine h.of_update rfl ?_ ?_ ?_ (fun _ ↦ .inr (by omega)) (.inl (by simp [hpc, Pc.sharing]))
    · simp [State.setTask, hpc, hz, exBit_toNat, Pc.reading, Pc.exclusive, Pc.sharing, Pc.undoing]
    · simp only [hpc, Pc.exclusive]
      omega
    · simpa [hpc, Pc.reading, Pc.sharing, Pc.undoing] using h.few
  · exact h.of_keep rfl rfl (by simp [hpc, Pc.exclusive]) (by simp [hpc, Pc.sharing])
      (by simp [hpc, Pc.undoing]) (by simp [Pc.Owning])

/-- The compare-exchange of `lock`'s `await_ready`. -/
theorem lockExchange {t : ι} {x : BitVec 64} (h : Invariant s)
    (hpc : s.tasks t = .lockExchange x) : Invariant (SharedMutex.lockExchange s t x) := by
  unfold SharedMutex.lockExchange
  split
  · next hbit =>
    rw [and_exBit_eq_zero] at hbit
    have hne : x ≠ exBit := by
      rintro rfl
      exact absurd hbit (by decide)
    split
    · next hs =>
      have hz := h.exclusive_eq_zero (by rwa [hs])
      have hor := or_exBit_toNat hbit
      refine h.of_update rfl ?_ ?_ ?_ (by simp [Pc.Owning]) (.inl (by simp [hpc, Pc.sharing]))
      · simp [State.setTask, hpc, hor, hs, Pc.reading, Pc.exclusive, Pc.sharing, Pc.undoing]
      · simp [hpc, hz, Pc.exclusive]
      · simpa [hpc, Pc.reading, Pc.sharing, Pc.undoing] using h.few
    · exact h.of_keep rfl rfl (by simp [hpc, Pc.exclusive]) (by simp [hpc, Pc.sharing])
        (by simp [hpc, Pc.undoing]) (by simp [Pc.Owning])
  · exact h.of_keep rfl rfl (by simp [hpc, Pc.exclusive]) (by simp [hpc, Pc.sharing])
      (by simp [hpc, Pc.undoing]) (by simp [Pc.Owning])

/-- The `fetch_sub` of `unlock`. -/
theorem unlock {t : ι} (h : Invariant s) (hpc : s.tasks t = .unlock) :
    Invariant ({ s with state := s.state - exBit }.setTask t .drainPop) := by
  have hle := h.le_state t
  have hone := h.one
  simp only [hpc, Pc.exclusive, Pc.reading, Pc.sharing, Pc.undoing] at hle
  have hsub := sub_exBit_toNat (x := s.state) (by omega)
  refine h.of_update rfl ?_ ?_ ?_ (by simp [Pc.Owning]) (.inl (by simp [Pc.sharing]))
  · simp only [State.setTask, hsub, hpc, Pc.reading, Pc.exclusive, Pc.sharing, Pc.undoing]
    omega
  · simp only [hpc, Pc.exclusive]
    omega
  · simpa [hpc, Pc.reading, Pc.sharing, Pc.undoing] using h.few

/-- The `fetch_add` of `try_lock_shared`. -/
theorem tryLockShared {t : ι} (h : Invariant s) (hpc : s.tasks t = .tryLockShared)
    (hlt : s.state.toNat % 2 ^ 63 + 1 < 2 ^ 63) :
    Invariant ({ s with state := s.state + 1 }.setTask t
      (if s.state &&& exBit = 0 then .holdingShared else .tryLockSharedUndo)) := by
  have hadd := add_one_toNat hlt
  have hw := h.word
  have hone := h.one
  have hfew := h.few
  have hread : tally Pc.reading s.tasks + 1 < 2 ^ 63 := by omega
  split
  · next hbit =>
    have hz := h.exclusive_eq_zero (and_exBit_eq_zero.mp hbit)
    refine h.of_update rfl ?_ ?_ ?_ (by simp [Pc.Owning]) (.inr (not_owning hz))
    · simp only [State.setTask, hpc, hadd, Pc.reading, Pc.exclusive, Pc.sharing, Pc.undoing]
      omega
    · simp [hpc, hz, Pc.exclusive]
    · simpa [hpc, Pc.reading, Pc.sharing, Pc.undoing] using hread
  · refine h.of_update rfl ?_ ?_ ?_ (by simp [Pc.Owning]) (.inl (by simp [hpc, Pc.sharing]))
    · simp only [State.setTask, hpc, hadd, Pc.reading, Pc.exclusive, Pc.sharing, Pc.undoing]
      omega
    · simpa [hpc, Pc.exclusive] using hone
    · simpa [hpc, Pc.reading, Pc.sharing, Pc.undoing] using hread

/-- The `fetch_sub` of a failing `try_lock_shared` or of `unlock_shared`. -/
theorem removeReader {t : ι} {pc : Pc ι} (h : Invariant s)
    (hpc : (s.tasks t).reading = 1 ∧ (s.tasks t).exclusive = 0)
    (hnew : pc = .idle ∨ pc = .drainPop) :
    Invariant ({ s with state := s.state - 1 }.setTask t pc) := by
  have hle := h.le_state t
  have hone := h.one
  have hfew := h.few
  have hsub := sub_one_toNat (x := s.state) (by omega)
  have hp : pc.exclusive = 0 ∧ pc.reading = 0 ∧ pc.sharing = 0 := by
    rcases hnew with rfl | rfl <;> simp [Pc.exclusive, Pc.reading, Pc.sharing, Pc.undoing]
  refine h.of_update rfl ?_ (by omega) (by omega) ?_ (.inl (by omega))
  · simp only [State.setTask, hsub, hp]
    omega
  · rcases hnew with rfl | rfl <;> simp [Pc.Owning]

/-- A permitted step of a task inside an operation. -/
theorem taskStep {t : ι} (h : Invariant s) (hok : StepOk s (.task t))
    (hn : taskStep s t = some s') : Invariant s' := by
  obtain ⟨hshared, hlt⟩ := hok
  -- most steps leave the word and the task's part of it as they are
  have hkeep {s' : State ι} {pc : Pc ι} (ht : s'.tasks = Function.update s.tasks t pc)
      (hs : s'.state = s.state)
      (he : pc.exclusive = (s.tasks t).exclusive) (hsh : pc.sharing = (s.tasks t).sharing)
      (hu : pc.undoing = (s.tasks t).undoing) (hown : ¬pc.Owning) : Invariant s' :=
    h.of_keep ht hs he hsh hu fun ho ↦ absurd ho hown
  simp only [SharedMutex.taskStep] at hn
  split at hn
  · next hpc =>
    cases hn
    exact h.tryLock hpc
  · next hpc =>
    cases hn
    have hle := h.le_state t
    have hw := h.word
    have hr := tally_reading (s := s)
    simp only [hpc, Pc.exclusive, Pc.reading, Pc.sharing, Pc.undoing] at hle
    split
    · next hs =>
      have hone := h.one
      have hx : s.state.toNat = 2 ^ 63 := by rw [hs]; rfl
      refine h.of_keep rfl rfl (by simp [hpc, Pc.exclusive]) (by simp [hpc, Pc.sharing])
        (by simp [hpc, Pc.undoing]) fun _ ↦ .inr ?_
      have he := le_tally Pc.exclusive s.tasks t
      simp only [hpc, Pc.exclusive] at he
      omega
    · exact hkeep rfl rfl (by simp [hpc, Pc.exclusive]) (by simp [hpc, Pc.sharing])
        (by simp [hpc, Pc.undoing]) (by simp [Pc.Owning])
  · next hpc =>
    cases hn
    exact hkeep rfl rfl (by simp [hpc, Pc.exclusive]) (by simp [hpc, Pc.sharing])
      (by simp [hpc, Pc.undoing]) (by simp [Pc.Owning])
  · next hpc =>
    cases hn
    exact h.lockExchange hpc
  · next requested hpc =>
    cases hn
    refine hkeep rfl rfl ?_ (by simp [hpc, Pc.sharing]) (by simp [hpc, Pc.undoing])
      (by simp [Pc.Owning])
    cases requested <;> simp [hpc, Pc.exclusive]
  · next hpc =>
    cases hn
    exact h.unlock hpc
  · next hpc =>
    cases hn
    exact h.tryLockShared hpc (hlt hpc)
  · next hpc =>
    cases hn
    exact h.removeReader (by simp [hpc, Pc.reading, Pc.exclusive, Pc.sharing, Pc.undoing])
      (.inl rfl)
  · next hpc =>
    cases hn
    have hs := hshared hpc
    simp only [SharedMutex.tryLock, if_neg hs]
    exact hkeep rfl rfl (by simp [hpc, Pc.exclusive]) (by simp [hpc, Pc.sharing])
      (by simp [hpc, Pc.undoing]) (by simp [Pc.Owning])
  · next hpc =>
    cases hn
    exact hkeep rfl rfl (by simp [hpc, Pc.exclusive]) (by simp [hpc, Pc.sharing])
      (by simp [hpc, Pc.undoing]) (by simp [Pc.Owning])
  · next hpc =>
    cases hn
    apply h.removeReader (by simp [hpc, Pc.reading, Pc.exclusive, Pc.sharing, Pc.undoing])
    split
    · exact .inr rfl
    · exact .inl rfl
  · next hpc =>
    cases hn
    cases s.suspended.pop.1 <;>
      exact hkeep rfl rfl (by simp [hpc, Pc.exclusive]) (by simp [hpc, Pc.sharing])
        (by simp [hpc, Pc.undoing]) (by simp [Pc.Owning])
  · next hpc =>
    cases hn
    exact hkeep rfl rfl (by simp [hpc, Pc.exclusive]) (by simp [hpc, Pc.sharing])
      (by simp [hpc, Pc.undoing]) (by simp [Pc.Owning])
  all_goals cases hn

omit [DecidableEq ι] in
/-- A step of an `await_suspend` past its push. -/
theorem suspenderStep {i : Nat} (h : Invariant s) (hn : suspenderStep s i = some s') :
    Invariant s' := by
  simp only [SharedMutex.suspenderStep] at hn
  split at hn
  · cases hn
    refine h.of_eq ?_ ?_ <;> split <;> split <;> rfl
  · cases hn
    exact h.of_eq rfl rfl
  · cases hn
    exact h.of_eq rfl rfl
  · cases hn

/-- The resumption of a pending request once no reader is left. -/
theorem resume {i : Nat} (h : Invariant s) (hok : StepOk s (.resume i))
    (hn : resume s i = some s') : Invariant s' := by
  simp only [SharedMutex.resume] at hn
  split at hn
  · next t ht =>
    obtain ⟨hpc, hs⟩ := hok t ht
    simp only [hpc, Pc.resumed, Option.map_some] at hn
    cases hn
    refine h.of_keep rfl rfl (by simp [hpc, Pc.exclusive]) (by simp [hpc, Pc.sharing])
      (by simp [hpc, Pc.undoing]) fun _ ↦ .inr ?_
    have hw := h.word
    have hone := h.one
    have hr := tally_reading (s := s)
    have he := le_tally Pc.exclusive s.tasks t
    simp only [hpc, Pc.exclusive] at he
    omega
  · cases hn

/-- The start of an operation. -/
theorem call {t : ι} {op : Op} {pc : Pc ι} (h : Invariant s)
    (hstart : op.start (s.tasks t) = some pc) : Invariant (s.setTask t pc) := by
  cases op <;> simp only [Op.start] at hstart <;> split at hstart <;> cases hstart
  all_goals
    next hpc =>
    exact h.of_keep rfl rfl (by simp [hpc, Pc.exclusive]) (by simp [hpc, Pc.sharing])
      (by simp [hpc, Pc.undoing]) (by simp [hpc, Pc.Owning])

/-- Every permitted step keeps the encoding. -/
theorem next {a : Act ι} (h : Invariant s) (hok : StepOk s a)
    (hn : SharedMutex.next s a = some s') : Invariant s' := by
  cases a with
  | call t op =>
    obtain ⟨pc, hpc, rfl⟩ := Option.map_eq_some_iff.mp hn
    exact h.call hpc
  | task t => exact h.taskStep hok hn
  | suspender i => exact h.suspenderStep hn
  | resume i => exact h.resume hok hn

/-- Nobody has used the mutex. -/
theorem initial : Invariant (system ι).init := by
  constructor <;>
    simp [system, init, tally, Pc.exclusive, Pc.reading, Pc.sharing, Pc.undoing, Pc.Owning]

end Invariant

end Word

/-! ### Exclusion and accounting -/

/-- The task holds the mutex exclusively: until it calls `unlock`. -/
def HoldsExclusive (s : State ι) (t : ι) : Prop := s.tasks t = .holding

/-- The task holds the mutex shared: until it calls `unlock_shared`. -/
def HoldsShared (s : State ι) (t : ι) : Prop := s.tasks t = .holdingShared

/-- The task is suspended with an exclusive request that is entered in `state_`. -/
def PendingExclusive (s : State ι) (t : ι) : Prop := s.tasks t = .lockSuspended true

/-- The task is not inside an operation, other than suspended in one. -/
def Pc.Resting (pc : Pc ι) : Prop :=
  pc = .idle ∨ pc = .holding ∨ pc = .holdingShared ∨ pc = .lockSharedSuspended ∨
    pc = .lockSuspended true ∨ pc = .lockSuspended false

/-- No operation is in progress. -/
def Quiescent (s : State ι) : Prop := (∀ t, (s.tasks t).Resting) ∧ s.suspenders = []

instance [DecidableEq ι] (s : State ι) (t : ι) : Decidable (HoldsExclusive s t) :=
  inferInstanceAs (Decidable (_ = _))

instance [DecidableEq ι] (s : State ι) (t : ι) : Decidable (HoldsShared s t) :=
  inferInstanceAs (Decidable (_ = _))

instance [DecidableEq ι] (s : State ι) (t : ι) : Decidable (PendingExclusive s t) :=
  inferInstanceAs (Decidable (_ = _))

instance [DecidableEq ι] (pc : Pc ι) : Decidable pc.Resting :=
  inferInstanceAs (Decidable (_ ∨ _))

instance [DecidableEq ι] [Fintype ι] (s : State ι) : Decidable (Quiescent s) :=
  inferInstanceAs (Decidable (_ ∧ _))

section Exact

variable [DecidableEq ι] [Fintype ι]

/-- Reader-writer exclusion, and at rest the exact value of `state_`. -/
structure Exact (s : State ι) : Prop where
  exclusive : ∀ t u, HoldsExclusive s t → HoldsExclusive s u → t = u
  apart : ∀ t u, HoldsExclusive s t → ¬HoldsShared s u
  state : Quiescent s → s.state.toNat =
    (if ∃ t, HoldsExclusive s t ∨ PendingExclusive s t then exBit.toNat else 0) +
      (Finset.univ.filter (HoldsShared s)).card

private theorem tally_reading_of_quiescent {s : State ι} (h : Quiescent s) :
    tally Pc.reading s.tasks = (Finset.univ.filter (HoldsShared s)).card := by
  rw [tally, Finset.card_filter]
  apply Finset.sum_congr rfl
  intro t _
  rcases h.1 t with hp | hp | hp | hp | hp | hp <;>
    simp [HoldsShared, hp, Pc.reading, Pc.sharing, Pc.undoing]

omit [DecidableEq ι] [Fintype ι] in
private theorem exclusive_pos_of_quiescent {s : State ι} (h : Quiescent s) (t : ι) :
    0 < (s.tasks t).exclusive ↔ HoldsExclusive s t ∨ PendingExclusive s t := by
  rcases h.1 t with hp | hp | hp | hp | hp | hp <;>
    simp [HoldsExclusive, PendingExclusive, hp, Pc.exclusive]

/-- On runs whose every step keeps the encoding, the mutex excludes as it should and its
word is exact. -/
theorem exclusion_and_accounting {s : State ι} (hr : (system ι).ReachableBy StepOk s) :
    Exact s := by
  have h : Invariant s := by
    refine hr.invariant ?_ fun _ _ _ hi hok hn ↦ hi.next hok hn
    constructor <;>
      simp [system, init, tally, Pc.exclusive, Pc.reading, Pc.sharing, Pc.undoing, Pc.Owning]
  refine ⟨fun t u ht hu ↦ ?_, fun t u ht hu ↦ ?_, fun hq ↦ ?_⟩
  · apply eq_of_tally_le_one (w := Pc.exclusive) h.one
    · simp [show s.tasks t = .holding from ht, Pc.exclusive]
    · simp [show s.tasks u = .holding from hu, Pc.exclusive]
  · have hz := tally_eq_zero.mp (h.apart t (.inl ht)) u
    simp [show s.tasks u = .holdingShared from hu, Pc.sharing] at hz
  · rw [h.word, tally_reading_of_quiescent hq, exBit_toNat]
    have hpos : (∃ t, HoldsExclusive s t ∨ PendingExclusive s t) ↔
        0 < tally Pc.exclusive s.tasks := by
      simp only [tally_pos, exclusive_pos_of_quiescent hq]
    have hone := h.one
    split
    · next hex =>
      have := hpos.mp hex
      congr 1
      omega
    · next hex =>
      have := hpos.not.mp hex
      congr 1
      omega

instance (s : State ι) : Decidable (Exact s) :=
  decidable_of_iff ((∀ t u, HoldsExclusive s t → HoldsExclusive s u → t = u) ∧
      (∀ t u, HoldsExclusive s t → ¬HoldsShared s u) ∧ (Quiescent s → s.state.toNat =
      (if ∃ t, HoldsExclusive s t ∨ PendingExclusive s t then exBit.toNat else 0) +
        (Finset.univ.filter (HoldsShared s)).card))
    ⟨fun ⟨he, ha, hs⟩ ↦ ⟨he, ha, hs⟩, fun ⟨he, ha, hs⟩ ↦ ⟨he, ha, hs⟩⟩

instance (s : State ι) (a : Act ι) : Decidable (StepOk s a) :=
  match a with
  | .task _ => inferInstanceAs (Decidable (_ ∧ _))
  | .resume i => inferInstanceAs (Decidable (∀ t, s.runQueue[i]? = some t →
      s.tasks t = .lockSuspended true ∧ s.state.toNat = 2 ^ 63 + tally Pc.undoing s.tasks))
  | .call _ _ | .suspender _ => isTrue trivial

end Exact

/-- Task `t` reads; task `u` requests the mutex and suspends; `t` leaves and wakes `u`. -/
def readThenWrite (t u : ι) : List (Act ι) :=
  [.call t .tryLockShared, .task t, .call u .lock, .task u, .task u, .task u, .suspender 0,
    .call t .unlockShared, .task t, .task t, .task t, .task t, .resume 0]

/-- The waiting writer holds the mutex after the reader has left. -/
theorem exclusion_and_accounting_readThenWrite :
    ∃ s, (system (Fin 2)).ReachableBy StepOk s ∧ HoldsExclusive s 1 ∧ Quiescent s ∧
      Exact s := by
  have hrun : ∃ s, (system (Fin 2)).ReachableBy StepOk s ∧ HoldsExclusive s 1 ∧ Quiescent s :=
    System.exists_reachableBy (readThenWrite 0 1) (by decide)
  obtain ⟨s, hr, h1, hq⟩ := hrun
  exact ⟨s, hr, h1, hq, exclusion_and_accounting hr⟩

/-- While task `t` reads, tasks `u` and `v` suspend in `lock` and in `lock_shared`; the last
reader wakes both. -/
def wakeBoth (t u v : ι) : List (Act ι) :=
  [.call t .tryLockShared, .task t, .call u .lock, .task u, .task u, .task u, .suspender 0,
    .call v .lockShared, .task v, .task v, .suspender 0, .call t .unlockShared, .task t,
    .task t, .task t, .task t, .task t, .task t, .resume 0, .resume 0]

/-- The two woken tasks hold the mutex together, one of them exclusively. -/
theorem exclusive_with_shared : ¬∀ s, (system (Fin 3)).Reachable s → Exact s := by
  intro h
  have hrun : ∃ s, (system (Fin 3)).Reachable s ∧ HoldsExclusive s 1 ∧ HoldsShared s 2 :=
    System.exists_reachable (wakeBoth 0 1 2) (by decide)
  obtain ⟨s, hr, h1, h2⟩ := hrun
  exact (h s hr).apart 1 2 h1 h2

end Crasy.Sync.SharedMutex
