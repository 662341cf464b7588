import Crasy.Base.Component
import Crasy.Sync.Mutex

/-!
# The mutex as a lock

Library `Sync`. What the mutex of `Crasy.Sync.Mutex` is for: a lock has an owner or none; an
attempt to take it succeeds exactly if it has none, a waiting task is given it only then, and only
the owner releases it. On the runs on which waiters that were resumed do no harm the mutex
refines this lock, with the exchange on `locked_`, the resumption of a waiter and the store of
`unlock` as the points at which its operations take effect.
-/

namespace Crasy.Sync.Mutex

open Crasy.Base

variable {ι : Type}

/-- What happens to a lock: an attempt takes it or is refused, a task that waited is given it, or
its owner releases it. -/
inductive LockAct (ι : Type) where
  | taken (t : ι)
  | refused (t : ι)
  | granted (t : ι)
  | released (t : ι)
  deriving DecidableEq, Repr

section Steps

variable [DecidableEq ι]

/-- A lock with its owner. An attempt is refused only because another task is the owner. -/
def lockNext (owner : Option ι) : LockAct ι → Option (Option ι)
  | .taken t | .granted t => if owner = none then some (some t) else none
  | .refused t => if owner = none ∨ owner = some t then none else some owner
  | .released t => if owner = some t then some none else none

variable (ι) in
/-- A lock that nobody owns. -/
def lock : System (Option ι) (LockAct ι) := { init := none, next := lockNext }

end Steps

/-- What a step of the mutex is for the lock: the exchange of `try_lock` or `await_ready` with
its answer, the resumption of a waiter, and the store of `unlock`. -/
def locking (s : State ι) : Act ι → Option (LockAct ι)
  | .task t =>
    match s.tasks t with
    | .tryLock | .awaitReady => some (if s.locked then .refused t else .taken t)
    | .unlockStore _ => some (.released t)
    | _ => none
  | .resume i => s.runQueue[i]?.map .granted
  | .callTryLock _ | .callLock _ | .callUnlock _ | .suspender _ => none

/-- What a run of the mutex is for the lock. -/
def lockEvents [DecidableEq ι] (acts : List (Act ι)) : List (LockAct ι) :=
  (system ι).events (fun s a ↦ (locking s a).toList) acts

/-- The steps on which the mutex is taken by, or given to, a task only while nobody owns it. A
resumed waiter owns it while the flag is clear. -/
def LockOk (s : State ι) : Act ι → Prop
  | .task t => s.tasks t = .tryLock ∨ s.tasks t = .awaitReady → s.locked = false → NoWokenOwner s
  | .resume _ => s.locked = false ∧ NoWokenOwner s
  | _ => True

/-- The lock has the owner of the mutex; the flag is set exactly if that one has set it. -/
structure Reflects (s : State ι) (owner : Option ι) : Prop where
  owner : ∀ t, (s.tasks t).owner ≠ none ↔ owner = some t
  flag : s.locked = true ↔ ∃ t, (s.tasks t).owner = some false

namespace Reflects

variable {s s' : State ι} {owner : Option ι}

private theorem eq_none (h : Reflects s owner) (hl : s.locked = false) (hw : NoWokenOwner s) :
    owner = none := by
  refine Option.eq_none_iff_forall_not_mem.mpr fun t ht ↦ ?_
  have hne := (h.owner t).mpr ht
  cases ho : (s.tasks t).owner with
  | none => exact hne ho
  | some woken =>
    cases woken with
    | true => exact hw t ho
    | false =>
      have hset := h.flag.mpr ⟨t, ho⟩
      rw [hl] at hset
      cases hset

private theorem ne_none (h : Reflects s owner) (ho : s.locked = true ∨ ¬NoWokenOwner s) :
    owner ≠ none := by
  have howned : ∃ t woken, (s.tasks t).owner = some woken := by
    rcases ho with hl | hw
    · obtain ⟨t, ht⟩ := h.flag.mp hl
      exact ⟨t, false, ht⟩
    · simp only [NoWokenOwner, not_forall, not_not] at hw
      obtain ⟨t, ht⟩ := hw
      exact ⟨t, true, ht⟩
  obtain ⟨t, woken, ht⟩ := howned
  rw [(h.owner t).mp (by simp [ht])]
  exact Option.some_ne_none t

private theorem of_eq (h : Reflects s owner) (ht : s'.tasks = s.tasks) (hl : s'.locked = s.locked) :
    Reflects s' owner := by
  constructor
  · rw [ht]
    exact h.owner
  · rw [ht, hl]
    exact h.flag

variable [DecidableEq ι]

private theorem of_keep {t : ι} {pc : Pc ι} (h : Reflects s owner)
    (ht : s'.tasks = Function.update s.tasks t pc) (ho : pc.owner = (s.tasks t).owner)
    (hl : s'.locked = s.locked) : Reflects s' owner := by
  have hsame (u : ι) : (s'.tasks u).owner = (s.tasks u).owner := by
    rw [ht]
    by_cases he : u = t
    · subst he
      rwa [Function.update_self]
    · rw [Function.update_of_ne he]
  constructor
  · intro u
    rw [hsame u]
    exact h.owner u
  · simp only [hl, hsame]
    exact h.flag

private theorem of_acquire {t : ι} {woken : Bool} (h : Reflects s none)
    (ht : s'.tasks = Function.update s.tasks t (.holding woken)) (hl : s'.locked = !woken) :
    Reflects s' (some t) := by
  have hself : (s'.tasks t).owner = some woken := by
    rw [ht, Function.update_self]
    rfl
  have hother {u : ι} (hu : u ≠ t) : (s'.tasks u).owner = none := by
    rw [ht, Function.update_of_ne hu]
    by_contra hne
    cases (h.owner u).mp hne
  refine ⟨fun u ↦ ⟨fun hu ↦ ?_, fun hu ↦ ?_⟩, ?_⟩
  · by_contra hne
    exact hu (hother fun he ↦ hne (by rw [he]))
  · cases hu
    simp [hself]
  · rw [hl]
    constructor
    · intro hw
      exact ⟨t, by rw [hself]; simpa using hw⟩
    · rintro ⟨u, hu⟩
      by_cases he : u = t
      · rw [he, hself] at hu
        simpa using hu
      · rw [hother he] at hu
        cases hu

private theorem of_release {t : ι} {pc : Pc ι} (h : Reflects s (some t))
    (ht : s'.tasks = Function.update s.tasks t pc) (ho : pc.owner = none)
    (hl : s'.locked = false) : Reflects s' none := by
  have hnone (u : ι) : (s'.tasks u).owner = none := by
    rw [ht]
    by_cases he : u = t
    · subst he
      rwa [Function.update_self]
    · rw [Function.update_of_ne he]
      by_contra hne
      exact he (Option.some.inj ((h.owner u).mp hne)).symm
  constructor
  · intro u
    simp [hnone u]
  · simp [hl, hnone]

/-- The exchange of `try_lock` or `await_ready` takes the mutex from nobody, or is refused for
another task that owns it. -/
theorem exchange {t : ι} {failed : Pc ι} (h : Reflects s owner) (hpc : (s.tasks t).owner = none)
    (hf : failed.owner = none) (hok : s.locked = false → NoWokenOwner s) :
    ∃ owner', lockNext owner (if s.locked then .refused t else .taken t) = some owner' ∧
      Reflects (Mutex.exchange s t failed) owner' := by
  cases hl : s.locked with
  | true =>
    obtain ⟨u, hu⟩ := h.flag.mp hl
    have howner : owner = some u := (h.owner u).mp (by simp [hu])
    have hne : u ≠ t := by
      rintro rfl
      rw [hpc] at hu
      cases hu
    have ht : (Mutex.exchange s t failed).tasks = Function.update s.tasks t failed := by
      simp [Mutex.exchange, State.setTask, hl]
    exact ⟨owner, by simp [lockNext, howner, hne], h.of_keep ht (hf.trans hpc.symm) hl.symm⟩
  | false =>
    have hnone := h.eq_none hl (hok hl)
    subst hnone
    have ht : (Mutex.exchange s t failed).tasks =
        Function.update s.tasks t (.holding false) := by
      simp [Mutex.exchange, State.setTask, hl]
    exact ⟨some t, by simp [lockNext], h.of_acquire ht rfl⟩

/-- A permitted step of a task inside an operation. -/
theorem taskStep {t : ι} (h : Reflects s owner) (hok : LockOk s (.task t))
    (hn : taskStep s t = some s') :
    ∃ owner', (lock ι).advance owner (locking s (.task t)) = some owner' ∧ Reflects s' owner' := by
  simp only [Mutex.taskStep] at hn
  split at hn
  · next hpc =>
    cases hn
    simp only [locking, hpc]
    exact h.exchange (by simp [hpc, Pc.owner]) rfl (hok (.inl hpc))
  · next hpc =>
    cases hn
    simp only [locking, hpc]
    exact h.exchange (by simp [hpc, Pc.owner]) rfl (hok (.inr hpc))
  · next hpc =>
    cases hn
    simp only [locking, hpc]
    exact ⟨owner, rfl, h.of_keep rfl (by simp [hpc, Pc.owner]) rfl⟩
  · next woken hpc =>
    cases hn
    have howner : owner = some t := (h.owner t).mp (by simp [hpc, Pc.owner])
    subst howner
    simp only [locking, hpc]
    exact ⟨none, if_pos rfl, h.of_release rfl rfl rfl⟩
  · next hpc =>
    cases hn
    simp only [locking, hpc]
    refine ⟨owner, rfl, h.of_keep rfl ?_ rfl⟩
    rw [hpc]
    cases s.suspended.pop.1 <;> rfl
  · next u hpc =>
    cases hn
    simp only [locking, hpc]
    exact ⟨owner, rfl, h.of_keep rfl (by simp [hpc, Pc.owner]) rfl⟩
  all_goals cases hn

/-- A permitted step of the mutex is one of the lock, or none. -/
theorem step {a : Act ι} (h : Reflects s owner) (hok : LockOk s a) (hn : next s a = some s') :
    ∃ owner', (lock ι).advance owner (locking s a) = some owner' ∧ Reflects s' owner' := by
  cases a with
  | callTryLock t | callLock t =>
    simp only [next] at hn
    split at hn
    · next hpc =>
      cases hn
      exact ⟨owner, rfl, h.of_keep rfl (by simp [hpc, Pc.owner]) rfl⟩
    · cases hn
  | callUnlock t =>
    simp only [next] at hn
    split at hn
    · next woken hpc =>
      cases hn
      exact ⟨owner, rfl, h.of_keep rfl (by rw [hpc]; rfl) rfl⟩
    · cases hn
  | task t => exact h.taskStep hok hn
  | suspender i =>
    simp only [next, suspenderStep] at hn
    split at hn
    · cases hn
      refine ⟨owner, rfl, ?_⟩
      cases hl : s.locked <;> exact h.of_eq (by simp) (by simp [hl])
    · cases hn
      refine ⟨owner, rfl, ?_⟩
      cases s.suspended.pop.1 <;> exact h.of_eq rfl rfl
    · cases hn
      exact ⟨owner, rfl, h.of_eq rfl rfl⟩
    · cases hn
  | resume i =>
    simp only [next, resume] at hn
    split at hn
    · next t hi =>
      split at hn
      · cases hn
        have hnone := h.eq_none hok.1 hok.2
        subst hnone
        refine ⟨some t, ?_, h.of_acquire rfl (by simp [State.setTask, hok.1])⟩
        simp [locking, hi, System.advance, lock, lockNext]
      · cases hn
    · cases hn

private theorem refuses {a : Act ι} (h : Reflects s owner) (hbad : ¬LockOk s a)
    (hn : next s a = some s') : (lock ι).advance owner (locking s a) = none := by
  cases a with
  | callTryLock t | callLock t | callUnlock t | suspender i => exact absurd trivial hbad
  | task t =>
    simp only [LockOk, Classical.not_imp] at hbad
    obtain ⟨hpc, hl, hw⟩ := hbad
    have howned := h.ne_none (.inr hw)
    rcases hpc with hpc | hpc <;>
      simp [locking, hpc, hl, System.advance, lock, lockNext, howned]
  | resume i =>
    simp only [next, resume] at hn
    split at hn
    · next t hi =>
      have howned : owner ≠ none := by
        refine h.ne_none ?_
        by_cases hl : s.locked = false
        · exact .inr fun hw ↦ hbad ⟨hl, hw⟩
        · exact .inl (by simpa using hl)
      simp [locking, hi, System.advance, lock, lockNext, howned]
    · cases hn

end Reflects

variable [DecidableEq ι]

/-- The mutex refines the lock on exactly the runs on which no task is given it and no exchange
takes it while it has an owner; the lock then has the owner of the mutex. Runs on which
`await_suspend` has dereferenced an empty option are left out. -/
theorem refines_lock_iff {acts : List (Act ι)} {s : State ι}
    (hr : (system ι).RunBy Defined acts s) :
    ((∃ owner, (lock ι).Run (lockEvents acts) owner) ↔ (system ι).RunBy LockOk acts s) ∧
    ∀ owner, (lock ι).Run (lockEvents acts) owner →
      ∀ t, (s.tasks t).owner ≠ none ↔ owner = some t := by
  have h0 : Reflects (system ι).init (lock ι).init := by
    constructor <;> simp [system, lock, init, Pc.owner]
  have hs : ∀ s owner a s', Reflects s owner → LockOk s a → (system ι).next s a = some s' →
      ∃ owner', (lock ι).advance owner (locking s a) = some owner' ∧ Reflects s' owner' :=
    fun _ _ _ _ h hok hn ↦ h.step hok hn
  have hall : (system ι).Run acts s := hr.mono fun _ _ _ ↦ trivial
  have hiff := hall.simulates_iff h0 hs fun _ _ _ _ h hbad hn ↦ h.refuses hbad hn
  refine ⟨hiff, fun owner ho ↦ ?_⟩
  obtain ⟨owner', ho', hrel⟩ := (hiff.mp ⟨owner, ho⟩).simulates h0 hs
  rw [ho.unique ho']
  exact hrel.owner

variable [Fintype ι]

instance (s : State ι) (a : Act ι) : Decidable (LockOk s a) :=
  match a with
  | .task t => inferInstanceAs (Decidable (s.tasks t = .tryLock ∨ s.tasks t = .awaitReady →
      s.locked = false → NoWokenOwner s))
  | .resume _ => inferInstanceAs (Decidable (s.locked = false ∧ NoWokenOwner s))
  | .suspender _ | .callTryLock _ | .callLock _ | .callUnlock _ => isTrue trivial

/-- A hand-over: the mutex is taken, an attempt is refused, the owner releases it, and the task
that waited is given it. -/
theorem refines_lock_iff_handOver : ∃ s, (system (Fin 2)).RunBy Defined (handOver 0 1) s ∧
    lockEvents (handOver (0 : Fin 2) 1) =
      [.taken 0, .refused 1, .released 0, .granted 1] ∧
    ∃ owner, (lock (Fin 2)).Run (lockEvents (handOver 0 1)) owner := by
  have hrun : ∃ s, (system (Fin 2)).RunBy (fun s a ↦ Defined s a ∧ LockOk s a) (handOver 0 1) s ∧
      s.runQueue = [] := System.exists_runBy _ (by decide)
  obtain ⟨s, hr, -⟩ := hrun
  have hdefined := hr.mono fun _ _ ↦ And.left
  exact ⟨s, hdefined, by decide, (refines_lock_iff hdefined).1.mpr (hr.mono fun _ _ ↦ And.right)⟩

end Crasy.Sync.Mutex
