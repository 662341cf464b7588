import Crasy.Base.LockProgram
import Crasy.Base.System
import Mathlib.Data.List.Rotate
import Mathlib.Order.BooleanAlgebra.Set

/-!
# Locking several mutexes at once

Library `Sync`. Models `include/crasy/lock_guard.hpp:53–103`: `lock(m1, …, mN)` with
`lock_impl`, `try_lock_impl` and `lock_rotate_and_call`, as lock programs over any mutexes.
The mutexes are correct ones: each has at most one owner, and `lock` and `try_lock` take
only a free one.
-/

namespace Crasy.Sync.LockGuard

open Crasy.Base

variable {ι μ γ : Type}

/-- `lock_rotate_and_call`; `include/crasy/lock_guard.hpp:55–60`. -/
def lockRotateAndCall (func : List μ → γ) : Nat → List μ → γ
  | 0, ms => func ms
  | count + 1, m :: ms => lockRotateAndCall func count (ms ++ [m])
  | _ + 1, [] => func []

/-- `try_lock_impl`; `include/crasy/lock_guard.hpp:62–73`. -/
def tryLockImpl : List μ → LockProgram μ Nat
  | [] => .done 0
  | m :: ms => .tryLock m fun
    | true => (tryLockImpl ms).bind fun cnt ↦
        if cnt = ms.length then .done (1 + cnt) else .unlock m (.done (1 + cnt))
    | false => .done 0

/-- The read of `start` in the coroutine of `lock_impl`. It is a capture of a lambda that is
gone once the first `co_await` has suspended, so that it then has any value. -/
def readStart (start : Nat) (suspended : Bool) : LockProgram μ Nat :=
  if suspended then .choose .done else .done start

/-- `lock_impl`; `include/crasy/lock_guard.hpp:75–89`. -/
def lockImpl (start : Nat) (ms : List μ) : LockProgram μ Nat :=
  lockRotateAndCall (fun
    | [] => .done 0
    | m1 :: mn => .lock m1 false fun suspended ↦ (tryLockImpl mn).bind fun ret ↦
        if ret = mn.length then .done (ret + 1)
        else .unlock m1 ((readStart start suspended).bind fun start ↦
          .done ((start + ret + 1) % ms.length))) start ms

/-- Where a task stands: outside, inside `lock` of its arguments, at its return, or with
some of the guards it obtained. -/
inductive Pc (μ : Type) where
  | idle
  | locking (args : List μ) (program : LockProgram μ Nat)
  | returned (args : List μ)
  | releasing (guards : List μ)

/-- The owner of each mutex, and the tasks. -/
structure State (ι μ : Type) where
  owner : μ → Option ι
  tasks : ι → Pc μ

/-- The choices of the scheduler, of the mutexes and of the tasks. -/
inductive Act (ι μ : Type) where
  | call (t : ι) (args : List μ)
  | task (t : ι) (acquires : Bool) (value : Nat)
  | release (t : ι) (m : μ)
  deriving DecidableEq, Repr

/-- All mutexes are free. -/
def init : State ι μ := { owner := fun _ ↦ none, tasks := fun _ ↦ .idle }

section Steps

variable [DecidableEq ι] [DecidableEq μ]

/-- Move one task. -/
def State.setTask (s : State ι μ) (t : ι) (pc : Pc μ) : State ι μ :=
  { s with tasks := Function.update s.tasks t pc }

/-- The next step of a task inside `lock`. The loop goes on until `lock_impl` has returned
the number of mutexes; `include/crasy/lock_guard.hpp:95–103`. -/
def taskStep (s : State ι μ) (t : ι) (acquires : Bool) (value : Nat) : Option (State ι μ) :=
  match s.tasks t with
  | .locking args (.done i) =>
    some (s.setTask t (if i = args.length then .returned args else .locking args (lockImpl i args)))
  | .locking args program =>
    (program.step s.owner t acquires value).map fun (owner, program) ↦
      { s with owner := owner }.setTask t (.locking args program)
  | .idle | .returned _ | .releasing _ => none

/-- The guards that a task still has. -/
def Pc.guards : Pc μ → Option (List μ)
  | .returned args => some args
  | .releasing guards => some guards
  | .idle | .locking _ _ => none

/-- The destructor of one guard, in any order; `include/crasy/lock_guard.hpp:26–28`. -/
def release (s : State ι μ) (t : ι) (m : μ) : Option (State ι μ) :=
  match (s.tasks t).guards with
  | some guards =>
    if m ∈ guards then
      some ({ s with owner := Function.update s.owner m none }.setTask t
        (if guards.erase m = [] then .idle else .releasing (guards.erase m)))
    else none
  | none => none

/-- One step of the tasks. A task calls `lock` on at least two mutexes, all different, and
while it holds none. -/
def next (s : State ι μ) : Act ι μ → Option (State ι μ)
  | .call t args =>
    match s.tasks t with
    | .idle =>
      if 2 ≤ args.length ∧ args.Nodup then some (s.setTask t (.locking args (lockImpl 0 args)))
      else none
    | .locking _ _ | .returned _ | .releasing _ => none
  | .task t acquires value => taskStep s t acquires value
  | .release t m => release s t m

/-- Tasks that lock several of the mutexes `μ` at once. -/
def system (ι μ : Type) [DecidableEq ι] [DecidableEq μ] : System (State ι μ) (Act ι μ) :=
  { init := init, next := next }

end Steps

/-! ### What the programs hold -/

/-- The mutexes of a list. -/
def setOf (ms : List μ) : Set μ := {m | m ∈ ms}

/-- Rotating the arguments is what the library calls a rotation. -/
theorem lockRotateAndCall_eq (func : List μ → γ) (count : Nat) (ms : List μ) :
    lockRotateAndCall func count ms = func (ms.rotate count) := by
  induction count generalizing ms with
  | zero => rw [lockRotateAndCall, List.rotate_zero]
  | succ count ih =>
    cases ms with
    | nil => rw [lockRotateAndCall, List.rotate_nil]
    | cons m ms => rw [lockRotateAndCall, ih, List.rotate_cons_succ]

/-- `try_lock_impl` takes all mutexes and returns their number, or none of them and returns
a smaller one. -/
theorem wp_tryLockImpl {ms : List μ} {H : Set μ} (hnd : ms.Nodup) (hH : ∀ m ∈ ms, m ∉ H) :
    (tryLockImpl ms).Wp H fun cnt G ↦
      cnt = ms.length ∧ G = H ∪ setOf ms ∨ cnt < ms.length ∧ G = H := by
  induction ms generalizing H with
  | nil => exact .inl ⟨rfl, by simp [setOf]⟩
  | cons m ms ih =>
    obtain ⟨hm, hnd⟩ := List.nodup_cons.mp hnd
    have hmH : m ∉ H := hH m List.mem_cons_self
    refine ⟨hmH, ?_, .inr ⟨Nat.succ_pos _, rfl⟩⟩
    have hfresh (n : μ) (hn : n ∈ ms) : n ∉ insert m H := by
      rintro (rfl | hn')
      · exact hm hn
      · exact hH n (List.mem_cons_of_mem _ hn) hn'
    apply LockProgram.Wp.bind
    refine (ih hnd hfresh).mono fun cnt G hG ↦ ?_
    rcases hG with ⟨rfl, rfl⟩ | ⟨hlt, rfl⟩
    · rw [if_pos rfl]
      refine .inl ⟨by rw [List.length_cons, Nat.add_comm], ?_⟩
      ext n
      simp only [setOf, Set.mem_union, Set.mem_insert_iff, Set.mem_ofPred_eq, List.mem_cons]
      tauto
    · rw [if_neg hlt.ne]
      -- the caller gives back the one mutex it has taken itself
      refine ⟨Set.mem_insert m H, .inr ⟨?_, Set.insert_sdiff_self_of_notMem hmH⟩⟩
      rw [List.length_cons]
      omega

/-- What `lock_impl` returns, and what the task then holds. -/
def Locked (args : List μ) (i : Nat) (G : Set μ) : Prop :=
  i = args.length ∧ G = setOf args ∨ i < args.length ∧ G = ∅

/-- `lock_impl` waits for a mutex only while the task holds none, and leaves it with all of
them or with none. -/
theorem wp_lockImpl {args : List μ} (start : Nat) (hne : args ≠ []) (hnd : args.Nodup) :
    (lockImpl start args).Wp ∅ (Locked args) := by
  rw [lockImpl, lockRotateAndCall_eq]
  have hlen := args.length_rotate start
  have hset : setOf (args.rotate start) = setOf args := by
    ext m
    simp [setOf, List.mem_rotate]
  have hpos := List.length_pos_iff.mpr hne
  have hrot : (args.rotate start).Nodup := List.nodup_rotate.mpr hnd
  cases hr : args.rotate start with
  | nil =>
    rw [hr] at hlen
    simp only [List.length_nil] at hlen
    omega
  | cons m1 mn =>
    rw [hr] at hlen hset hrot
    obtain ⟨hm1, hnd'⟩ := List.nodup_cons.mp hrot
    refine ⟨rfl, fun suspended ↦ LockProgram.Wp.bind ?_⟩
    have hfresh (m : μ) (hm : m ∈ mn) : m ∉ ({m1} : Set μ) := by
      rintro rfl
      exact hm1 hm
    refine (wp_tryLockImpl hnd' hfresh).mono fun ret G hG ↦ ?_
    rcases hG with ⟨rfl, rfl⟩ | ⟨hlt, rfl⟩
    · rw [if_pos rfl]
      refine .inl ⟨hlen, ?_⟩
      rw [← hset]
      ext m
      simp [setOf]
    · rw [if_neg hlt.ne]
      refine ⟨rfl, ?_⟩
      have hafter (n : Nat) : Locked args ((n + ret + 1) % args.length)
          (({m1} : Set μ) \ {m1}) :=
        .inr ⟨Nat.mod_lt _ hpos, Set.sdiff_self⟩
      cases suspended with
      | false => exact hafter start
      | true => exact hafter

/-! ### Every interleaving -/

/-- What each task holds follows from where it stands. -/
def Pc.Holds : Pc μ → Set μ → Prop
  | .idle, H => H = ∅
  | .locking args program, H => args ≠ [] ∧ args.Nodup ∧ program.Wp H (Locked args)
  | .returned args, H => args.Nodup ∧ H = setOf args
  | .releasing guards, H => guards.Nodup ∧ H = setOf guards

/-- Each task holds what it should. -/
def Accounted (s : State ι μ) : Prop := ∀ t, (s.tasks t).Holds (heldBy s.owner t)

private theorem Pc.Holds.of_guards {pc : Pc μ} {guards : List μ} {H : Set μ} (h : pc.Holds H)
    (hg : pc.guards = some guards) : guards.Nodup ∧ H = setOf guards := by
  cases pc with
  | idle => cases hg
  | locking args program => cases hg
  | returned args =>
    cases hg
    exact h
  | releasing guards =>
    cases hg
    exact h

namespace Accounted

variable [DecidableEq ι] {s s' : State ι μ} {t : ι} {pc : Pc μ}

private theorem of_update (h : Accounted s) (ht : s'.tasks = Function.update s.tasks t pc)
    (hpc : pc.Holds (heldBy s'.owner t))
    (ho : ∀ u, u ≠ t → heldBy s'.owner u = heldBy s.owner u) : Accounted s' := by
  intro u
  rw [ht]
  by_cases hu : u = t
  · subst hu
    rwa [Function.update_self]
  · rw [Function.update_of_ne hu, ho u hu]
    exact h u

variable [DecidableEq μ]

/-- A step inside `lock`. -/
theorem taskStep {acquires : Bool} {value : Nat} (h : Accounted s)
    (hn : taskStep s t acquires value = some s') : Accounted s' := by
  have ht := h t
  simp only [LockGuard.taskStep] at hn
  split at hn
  · next args i hpc =>
    cases hn
    rw [hpc] at ht
    obtain ⟨hne, hnd, hpost⟩ := ht
    refine h.of_update rfl ?_ fun _ _ ↦ rfl
    rcases hpost with ⟨rfl, hH⟩ | ⟨hlt, hH⟩
    · rw [if_pos rfl]
      exact ⟨hnd, hH⟩
    · rw [if_neg hlt.ne]
      refine ⟨hne, hnd, ?_⟩
      change (lockImpl i args).Wp (heldBy s.owner t) (Locked args)
      rw [hH]
      exact wp_lockImpl i hne hnd
  · next args program hpc =>
    rw [hpc] at ht
    obtain ⟨hne, hnd, hwp⟩ := ht
    obtain ⟨⟨owner, program'⟩, hs, rfl⟩ := Option.map_eq_some_iff.mp hn
    obtain ⟨hwp', hothers⟩ := hwp.step hs
    exact h.of_update rfl ⟨hne, hnd, hwp'⟩ hothers
  all_goals cases hn

/-- The release of one guard. -/
theorem release {m : μ} (h : Accounted s) (hn : release s t m = some s') : Accounted s' := by
  simp only [LockGuard.release] at hn
  split at hn
  · next guards hg =>
    obtain ⟨hnd, hH⟩ := (h t).of_guards hg
    split at hn
    · next hm =>
      cases hn
      have hown : s.owner m = some t := by
        rw [← mem_heldBy, hH]
        exact hm
      have hleft : heldBy (Function.update s.owner m none) t = setOf (guards.erase m) := by
        rw [heldBy_release, hH]
        ext n
        simp [setOf, hnd.mem_erase_iff, and_comm]
      refine h.of_update rfl ?_ fun u hu ↦ heldBy_release_of_ne hown hu
      change Pc.Holds _ (heldBy (Function.update s.owner m none) t)
      rw [hleft]
      split
      · next he =>
        rw [he]
        exact Set.eq_empty_iff_forall_notMem.mpr fun _ ↦ List.not_mem_nil
      · exact ⟨hnd.erase m, rfl⟩
    · cases hn
  · cases hn

/-- Every step keeps the account. -/
theorem next {a : Act ι μ} (h : Accounted s) (hn : next s a = some s') : Accounted s' := by
  cases a with
  | call t args =>
    simp only [LockGuard.next] at hn
    split at hn
    · next hpc =>
      split at hn
      · next hargs =>
        cases hn
        have ht := h t
        rw [hpc] at ht
        have hne : args ≠ [] := by
          rintro rfl
          simp at hargs
        refine h.of_update rfl ⟨hne, hargs.2, ?_⟩ fun _ _ ↦ rfl
        change (lockImpl 0 args).Wp (heldBy s.owner t) (Locked args)
        rw [show heldBy s.owner t = ∅ from ht]
        exact wp_lockImpl 0 hne hargs.2
      · cases hn
    all_goals cases hn
  | task t acquires value => exact h.taskStep hn
  | release t m => exact h.release hn

end Accounted

/-- The mutex that a task inside `lock` is suspended on. -/
def State.waiting (s : State ι μ) (t : ι) : Option μ :=
  match s.tasks t with
  | .locking _ program => program.waiting
  | .idle | .returned _ | .releasing _ => none

/-- Task `t` is suspended on a mutex that task `u` holds. -/
def WaitsFor (s : State ι μ) (t u : ι) : Prop := ∃ m, s.waiting t = some m ∧ s.owner m = some u

/-- A task that is suspended inside `lock` holds nothing, no tasks wait for each other in a
cycle, and a task that returns from `lock` holds exactly its arguments. -/
structure DeadlockFree (s : State ι μ) : Prop where
  nothingHeld : ∀ t m, s.waiting t = some m → ∀ n, s.owner n ≠ some t
  acyclic : ∀ t, ¬Relation.TransGen (WaitsFor s) t t
  returned : ∀ t args, s.tasks t = .returned args → ∀ m, s.owner m = some t ↔ m ∈ args

/-- Where every task holds what it should, there is no deadlock. -/
theorem Accounted.deadlockFree {s : State ι μ} (h : Accounted s) : DeadlockFree s := by
  have hnothing (t : ι) (m : μ) (hw : s.waiting t = some m) (n : μ) : s.owner n ≠ some t := by
    have ht := h t
    simp only [State.waiting] at hw
    split at hw
    · next args program hpc =>
      rw [hpc] at ht
      have hempty := ht.2.2.eq_empty_of_waiting hw
      intro hn
      have hmem : n ∈ heldBy s.owner t := hn
      rw [hempty] at hmem
      exact hmem
    all_goals cases hw
  refine ⟨hnothing, not_transGen_self ?_, fun t args hpc m ↦ ?_⟩
  · rintro a b c ⟨m, -, hm⟩ ⟨n, hn, -⟩
    exact hnothing b n hn m hm
  · have ht := h t
    rw [hpc] at ht
    rw [← mem_heldBy, ht.2]
    exact Iff.rfl

/-- Tasks that lock several mutexes at once never deadlock. -/
theorem deadlock_free [DecidableEq ι] [DecidableEq μ] {s : State ι μ}
    (hr : (system ι μ).Reachable s) : DeadlockFree s := by
  have h : Accounted s := by
    refine hr.invariant ?_ fun _ _ _ hi hn ↦ hi.next hn
    intro t
    simp [system, init, Pc.Holds, heldBy]
  exact h.deadlockFree

/-- Tasks `t` and `u` lock the same two mutexes in opposite orders. Each gets its first one;
`t` fails to get the other, gives its own back and is suspended on the other, and `u`
returns. -/
def opposed (t u : ι) (m n : μ) : List (Act ι μ) :=
  [.call t [m, n], .call u [n, m], .task t true 0, .task u true 0, .task t false 0,
    .task t true 0, .task t true 0, .task t false 0, .task u true 0, .task u true 0]

/-- The task that is suspended holds nothing, and the one it waits for holds both. -/
theorem deadlock_free_opposed : ∃ s, (system (Fin 2) (Fin 2)).Reachable s ∧
    s.waiting 0 = some 1 ∧ s.owner 1 = some 1 ∧ DeadlockFree s := by
  have hrun : ∃ s, (system (Fin 2) (Fin 2)).Reachable s ∧ s.waiting 0 = some 1 ∧
      s.owner 1 = some 1 :=
    System.exists_reachable (opposed 0 1 0 1) (by decide)
  obtain ⟨s, hr, hw, ho⟩ := hrun
  exact ⟨s, hr, hw, ho, deadlock_free hr⟩

end Crasy.Sync.LockGuard
