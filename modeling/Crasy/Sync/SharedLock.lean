import Crasy.Base.Component
import Crasy.Sync.SharedMutex

/-!
# The shared mutex as a reader-writer lock

Library `Sync`. What the mutex of `Crasy.Sync.SharedMutex` is for: a lock that records of each
task what it has of it. One writer may have entered a request; readers come in only while none
has, and the writer gets the lock once they have left. The operations of the mutex take effect
with their accesses to `state_` and with the resumption of a waiter. On the runs on which the
encoding of the word holds the mutex refines this lock: the answer of each access is that of the
lock.
-/

namespace Crasy.Sync.SharedMutex

open Crasy.Base

variable {ι : Type}

/-- What a task has of the lock. An attempt to share it that was refused stands in the way of
writers until it is withdrawn. -/
inductive Mode where
  | none
  | requested
  | writing
  | reading
  | refused
  deriving DecidableEq, Repr

/-- The task has entered its request, or has the lock for itself. -/
def Mode.Claims (m : Mode) : Prop := m = .requested ∨ m = .writing

instance (m : Mode) : Decidable m.Claims := inferInstanceAs (Decidable (_ ∨ _))

/-- What happens to a reader-writer lock. -/
inductive LockAct (ι : Type) where
  | taken (t : ι)
  | notTaken (t : ι)
  | requested (t : ι)
  | notRequested (t : ι)
  | granted (t : ι)
  | released (t : ι)
  | shared (t : ι)
  | notShared (t : ι)
  | withdrawn (t : ι)
  | unshared (t : ι)
  deriving DecidableEq, Repr

section Steps

variable [Fintype ι] [DecidableEq ι]

/-- A reader-writer lock with what each task has of it. An attempt to take it is refused only
because some task has something of it, and one to request or to share it only because a writer
claims it. -/
def lockNext (modes : ι → Mode) : LockAct ι → Option (ι → Mode)
  | .taken t => if ∀ u, modes u = .none then some (Function.update modes t .writing) else none
  | .notTaken t => if modes t = .none ∧ ∃ u, modes u ≠ .none then some modes else none
  | .requested t =>
    if modes t = .none ∧ ∀ u, ¬(modes u).Claims then some (Function.update modes t .requested)
    else none
  | .notRequested t => if modes t = .none ∧ ∃ u, (modes u).Claims then some modes else none
  | .granted t =>
    if modes t = .requested ∧ ∀ u, modes u ≠ .reading then
      some (Function.update modes t .writing)
    else none
  | .released t => if modes t = .writing then some (Function.update modes t .none) else none
  | .shared t =>
    if modes t = .none ∧ ∀ u, ¬(modes u).Claims then some (Function.update modes t .reading)
    else none
  | .notShared t =>
    if modes t = .none ∧ ∃ u, (modes u).Claims then some (Function.update modes t .refused)
    else none
  | .withdrawn t => if modes t = .refused then some (Function.update modes t .none) else none
  | .unshared t => if modes t = .reading then some (Function.update modes t .none) else none

variable (ι) in
/-- A lock of which nobody has anything. -/
def lock : System (ι → Mode) (LockAct ι) := { init := fun _ ↦ .none, next := lockNext }

end Steps

/-! ### The lock of a mutex -/

/-- What a task has of the lock. -/
def Pc.mode : Pc ι → Mode
  | .lockReady true | .lockSuspend true | .lockSuspended true => .requested
  | .holding | .unlock => .writing
  | .holdingShared | .unlockShared => .reading
  | .tryLockSharedUndo => .refused
  | _ => .none

/-- What each task has of the lock. -/
def State.modes (s : State ι) (t : ι) : Mode := (s.tasks t).mode

/-- A read of `state_` by `lock`, which enters no request if the exclusive bit is set. -/
def requesting (s : State ι) (t : ι) : Option (LockAct ι) :=
  if s.state &&& exBit = 0 then none else some (.notRequested t)

/-- What a step of the mutex is for the lock. `lock_shared` calls `try_lock`
(`src/shared_mutex.cpp:39`). -/
def locking (s : State ι) : Act ι → Option (LockAct ι)
  | .task t =>
    match s.tasks t with
    | .tryLock | .lockSharedReady => some (if s.state = 0 then .taken t else .notTaken t)
    | .lockReady true => if s.state = exBit then some (.granted t) else none
    | .lockReady false => requesting s t
    | .lockExchange state =>
      if state &&& exBit = 0 then
        if s.state = state then some (.requested t) else requesting s t
      else none
    | .unlock => some (.released t)
    | .tryLockShared => some (if s.state &&& exBit = 0 then .shared t else .notShared t)
    | .tryLockSharedUndo => some (.withdrawn t)
    | .unlockShared => some (.unshared t)
    | _ => none
  | .resume i => s.runQueue[i]?.map .granted
  | .call _ _ | .suspender _ => none

section Parts

variable {pc : Pc ι}

private theorem claims_mode : pc.mode.Claims ↔ pc.exclusive ≠ 0 := by
  cases pc with
  | lockReady r | lockSuspend r | lockSuspended r =>
    cases r <;> simp [Pc.mode, Mode.Claims, Pc.exclusive]
  | _ => simp [Pc.mode, Mode.Claims, Pc.exclusive]

private theorem mode_eq_reading : pc.mode = .reading ↔ pc.sharing ≠ 0 := by
  cases pc with
  | lockReady r | lockSuspend r | lockSuspended r => cases r <;> simp [Pc.mode, Pc.sharing]
  | _ => simp [Pc.mode, Pc.sharing]

private theorem mode_eq_none : pc.mode = .none ↔ pc.exclusive = 0 ∧ pc.reading = 0 := by
  cases pc with
  | lockReady r | lockSuspend r | lockSuspended r =>
    cases r <;> simp [Pc.mode, Pc.exclusive, Pc.reading, Pc.sharing, Pc.undoing]
  | _ => simp [Pc.mode, Pc.exclusive, Pc.reading, Pc.sharing, Pc.undoing]

end Parts

namespace Invariant

variable [Fintype ι] {s s' : State ι}

/-- The word is zero exactly if nobody has anything of the lock. -/
theorem state_eq_zero_iff (h : Invariant s) : s.state = 0 ↔ ∀ u, s.modes u = .none := by
  have hw := h.word
  have hzero : s.state = 0 ↔ s.state.toNat = 0 := by
    rw [← BitVec.toNat_inj]
    rfl
  simp only [State.modes, mode_eq_none, forall_and, ← tally_eq_zero]
  rw [hzero, hw]
  omega

/-- The exclusive bit is clear exactly if no writer claims the lock. -/
theorem bit_eq_zero_iff (h : Invariant s) :
    s.state &&& exBit = 0 ↔ ∀ u, ¬(s.modes u).Claims := by
  have hw := h.word
  have hfew := h.few
  simp only [State.modes, claims_mode, not_not, ← tally_eq_zero]
  rw [and_exBit_eq_zero]
  omega

private theorem no_reader {t : ι} (h : Invariant s) (ht : (s.tasks t).exclusive = 1)
    (hs : s.state.toNat ≤ 2 ^ 63 + tally Pc.undoing s.tasks) (u : ι) : s.modes u ≠ .reading := by
  have hw := h.word
  have hr := tally_reading (s := s)
  have hle := le_tally Pc.exclusive s.tasks t
  have hu := le_tally Pc.sharing s.tasks u
  rw [State.modes, ne_eq, mode_eq_reading, not_not]
  omega

end Invariant

section Refinement

variable [DecidableEq ι] {s s' : State ι}

private theorem modes_of_update {t : ι} {pc : Pc ι} (ht : s'.tasks = Function.update s.tasks t pc) :
    s'.modes = Function.update s.modes t pc.mode := by
  change Pc.mode ∘ s'.tasks = Function.update (Pc.mode ∘ s.tasks) t pc.mode
  rw [ht, Function.comp_update]

private theorem modes_of_keep {t : ι} {pc : Pc ι} (ht : s'.tasks = Function.update s.tasks t pc)
    (hm : pc.mode = (s.tasks t).mode) : s'.modes = s.modes := by
  rw [modes_of_update ht, hm]
  exact Function.update_eq_self t s.modes

variable [Fintype ι]

private theorem advance_of_update {t : ι} {pc : Pc ι} {a : LockAct ι}
    (ht : s'.tasks = Function.update s.tasks t pc)
    (ha : lockNext s.modes a = some (Function.update s.modes t pc.mode)) :
    (lock ι).advance s.modes (some a) = some s'.modes := by
  rw [modes_of_update ht]
  exact ha

private theorem advance_of_keep {t : ι} {pc : Pc ι} {event : Option (LockAct ι)}
    (ht : s'.tasks = Function.update s.tasks t pc) (hm : pc.mode = (s.tasks t).mode)
    (ha : (lock ι).advance s.modes event = some s.modes) :
    (lock ι).advance s.modes event = some s'.modes := by
  rw [modes_of_keep ht hm]
  exact ha

/-- The compare-exchange of `try_lock` is answered as an attempt to take the lock. -/
theorem advance_tryLock {t : ι} {acquired failed : Pc ι} (h : Invariant s)
    (hpc : (s.tasks t).mode = .none) (ha : s.state = 0 → acquired.mode = .writing)
    (hf : failed.mode = .none) :
    (lock ι).advance s.modes (some (if s.state = 0 then .taken t else .notTaken t)) =
      some (tryLock s t acquired failed).modes := by
  have hfree := h.state_eq_zero_iff
  by_cases hs : s.state = 0
  · rw [if_pos hs, tryLock, if_pos hs]
    refine advance_of_update rfl ?_
    rw [ha hs]
    exact if_pos (hfree.mp hs)
  · rw [if_neg hs, tryLock, if_neg hs]
    rw [hfree, not_forall] at hs
    exact advance_of_keep rfl (hf.trans hpc.symm) (if_pos ⟨hpc, hs⟩)

/-- A read by `lock`, which goes on to its exchange or to suspend without a request. -/
theorem advance_requesting {t : ι} {pc : Pc ι} (h : Invariant s)
    (hpc : (s.tasks t).mode = .none) (hnew : pc.mode = .none) :
    (lock ι).advance s.modes (requesting s t) = some (s.setTask t pc).modes := by
  refine advance_of_keep rfl (hnew.trans hpc.symm) ?_
  rw [requesting]
  split
  · rfl
  · next hbit =>
    rw [h.bit_eq_zero_iff] at hbit
    simp only [not_forall, not_not] at hbit
    exact if_pos ⟨hpc, hbit⟩

/-- The compare-exchange of `lock` enters the request, or reads the word again. -/
theorem advance_lockExchange {t : ι} {x : BitVec 64} (h : Invariant s)
    (hpc : s.tasks t = .lockExchange x) :
    (lock ι).advance s.modes (locking s (.task t)) = some (lockExchange s t x).modes := by
  have hmode : (s.tasks t).mode = .none := by rw [hpc]; rfl
  simp only [locking, hpc]
  rw [lockExchange]
  split
  · next hbit =>
    have hne : x ≠ exBit := by
      rintro rfl
      exact absurd hbit (by decide)
    rw [if_neg hne]
    split
    · next hs =>
      rw [← hs, h.bit_eq_zero_iff] at hbit
      exact advance_of_update rfl (if_pos ⟨hmode, hbit⟩)
    · exact advance_requesting h hmode rfl
  · exact advance_of_keep rfl hmode.symm rfl

/-- The `fetch_add` of `try_lock_shared` is answered as an attempt to share the lock. -/
theorem advance_tryLockShared {t : ι} (h : Invariant s) (hpc : (s.tasks t).mode = .none) :
    (lock ι).advance s.modes (some (if s.state &&& exBit = 0 then .shared t else .notShared t)) =
      some ({ s with state := s.state + 1 }.setTask t
        (if s.state &&& exBit = 0 then .holdingShared else .tryLockSharedUndo)).modes := by
  have hclaims := h.bit_eq_zero_iff
  by_cases hbit : s.state &&& exBit = 0
  · rw [if_pos hbit, if_pos hbit]
    exact advance_of_update rfl (if_pos ⟨hpc, hclaims.mp hbit⟩)
  · rw [if_neg hbit, if_neg hbit]
    rw [hclaims] at hbit
    simp only [not_forall, not_not] at hbit
    exact advance_of_update rfl (if_pos ⟨hpc, hbit⟩)

/-- A permitted step of a task inside an operation. -/
theorem advance_taskStep {t : ι} (h : Invariant s) (hok : StepOk s (.task t))
    (hn : taskStep s t = some s') :
    (lock ι).advance s.modes (locking s (.task t)) = some s'.modes := by
  have hmode {pc : Pc ι} (hpc : s.tasks t = pc) : s.modes t = pc.mode := congrArg Pc.mode hpc
  simp only [taskStep] at hn
  split at hn
  · next hpc =>
    cases hn
    simp only [locking, hpc]
    exact advance_tryLock h (hmode hpc) (fun _ ↦ rfl) rfl
  · next hpc =>
    cases hn
    simp only [locking, hpc]
    split
    · next hs =>
      have hword : s.state.toNat = 2 ^ 63 := by rw [hs]; rfl
      refine advance_of_update rfl (if_pos ⟨hmode hpc, ?_⟩)
      exact h.no_reader (by rw [hpc]; rfl) (by omega)
    · exact advance_of_keep rfl (hmode hpc).symm rfl
  · next hpc =>
    cases hn
    simp only [locking, hpc]
    exact advance_requesting h (hmode hpc) rfl
  · next x hpc =>
    cases hn
    exact advance_lockExchange h hpc
  · next requested hpc =>
    cases hn
    simp only [locking, hpc]
    refine advance_of_keep rfl ?_ rfl
    rw [hpc]
    cases requested <;> rfl
  · next hpc =>
    cases hn
    simp only [locking, hpc]
    exact advance_of_update rfl (if_pos (hmode hpc))
  · next hpc =>
    cases hn
    simp only [locking, hpc]
    exact advance_tryLockShared h (hmode hpc)
  · next hpc =>
    cases hn
    simp only [locking, hpc]
    exact advance_of_update rfl (if_pos (hmode hpc))
  · next hpc =>
    cases hn
    simp only [locking, hpc]
    exact advance_tryLock h (hmode hpc) (fun hs ↦ absurd hs (hok.1 hpc)) rfl
  · next hpc =>
    cases hn
    simp only [locking, hpc]
    exact advance_of_keep rfl (hmode hpc).symm rfl
  · next hpc =>
    cases hn
    simp only [locking, hpc]
    refine advance_of_update rfl ?_
    split <;> exact if_pos (hmode hpc)
  · next hpc =>
    cases hn
    simp only [locking, hpc]
    refine advance_of_keep rfl ?_ rfl
    rw [hpc]
    cases s.suspended.pop.1 <;> rfl
  · next u hpc =>
    cases hn
    simp only [locking, hpc]
    exact advance_of_keep rfl (hmode hpc).symm rfl
  all_goals cases hn

omit [DecidableEq ι] [Fintype ι] in
private theorem mode_start {op : Op} {pc pc' : Pc ι} (h : op.start pc = some pc') :
    pc'.mode = pc.mode := by
  cases op <;> simp only [Op.start] at h <;> split at h <;> cases h <;> rfl

/-- A permitted step of the mutex is one of the lock, or none. -/
theorem advance_next {a : Act ι} (h : Invariant s) (hok : StepOk s a) (hn : next s a = some s') :
    (lock ι).advance s.modes (locking s a) = some s'.modes := by
  cases a with
  | call t op =>
    obtain ⟨pc, hpc, rfl⟩ := Option.map_eq_some_iff.mp hn
    exact advance_of_keep rfl (mode_start hpc) rfl
  | task t => exact advance_taskStep h hok hn
  | suspender i =>
    simp only [next, suspenderStep] at hn
    split at hn
    · cases hn
      split <;> split <;> rfl
    · cases hn
      rfl
    · cases hn
      rfl
    · cases hn
  | resume i =>
    simp only [next, resume] at hn
    split at hn
    · next t ht =>
      obtain ⟨hpc, hs⟩ := hok t ht
      simp only [hpc, Pc.resumed, Option.map_some] at hn
      cases hn
      simp only [locking, ht, Option.map_some]
      refine advance_of_update rfl (if_pos ⟨congrArg Pc.mode hpc, ?_⟩)
      exact h.no_reader (by rw [hpc]; rfl) hs.le
    · cases hn

/-- What a run of the mutex is for the lock. -/
def lockEvents (acts : List (Act ι)) : List (LockAct ι) :=
  (system ι).events (fun s a ↦ (locking s a).toList) acts

/-- Where the encoding of the word holds, the mutex refines the reader-writer lock: what its
accesses to `state_` answer is what the lock answers, and every task has of the lock what the
lock says that it has. -/
theorem refines_lock {acts : List (Act ι)} {s : State ι} (hr : (system ι).RunBy StepOk acts s) :
    (lock ι).Run (lockEvents acts) s.modes := by
  have hrun : ∃ modes, (lock ι).Run (lockEvents acts) modes ∧ Invariant s ∧ s.modes = modes := by
    refine hr.simulates (R := fun s modes ↦ Invariant s ∧ s.modes = modes) ⟨.initial, rfl⟩ ?_
    rintro s _ a s' ⟨h, rfl⟩ hok hn
    exact ⟨s'.modes, advance_next h hok hn, h.next hok hn, rfl⟩
  obtain ⟨_, hlock, -, rfl⟩ := hrun
  exact hlock

end Refinement

/-- A writer's request waits for the reader to leave. -/
theorem refines_lock_readThenWrite :
    lockEvents (readThenWrite (0 : Fin 2) 1) =
      [.shared 0, .requested 1, .unshared 0, .granted 1] ∧
    ∃ s, HoldsExclusive s 1 ∧ (lock (Fin 2)).Run (lockEvents (readThenWrite 0 1)) s.modes := by
  have hrun : ∃ s, (system (Fin 2)).RunBy StepOk (readThenWrite 0 1) s ∧ HoldsExclusive s 1 :=
    System.exists_runBy _ (by decide)
  obtain ⟨s, hr, h1⟩ := hrun
  exact ⟨by decide, s, h1, refines_lock hr⟩

end Crasy.Sync.SharedMutex
