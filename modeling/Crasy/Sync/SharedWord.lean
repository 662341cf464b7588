import Crasy.Sync.SharedMutex

/-!
# The word of the reader-writer mutex under its non-blocking interface

Library `Sync`. The runs of `Crasy.Sync.SharedMutex` that use only `try_lock`, `unlock`,
`try_lock_shared` and `unlock_shared` (`src/shared_mutex.cpp:58–96`). On them `state_` is
exact after every atomic step, and the exclusive bit and the reader count below it never
run into each other.
-/

namespace Crasy.Sync.SharedMutex

open Crasy.Base Crasy.LfQueue

variable {ι : Type}

/-- The operations that return without suspending the caller. -/
def Op.NonBlocking (op : Op) : Prop := op ≠ .lock ∧ op ≠ .lockShared

/-- The task stands in no operation that may suspend it, and has no handle to schedule. -/
def Pc.NonBlocking : Pc ι → Prop
  | .idle | .tryLock | .holding | .unlock | .tryLockShared | .tryLockSharedUndo
  | .holdingShared | .unlockShared | .drainPop => True
  | .lockReady _ | .lockExchange _ | .lockSuspend _ | .lockSuspended _ | .lockSharedReady
  | .lockSharedSuspend | .lockSharedSuspended | .drainSchedule _ => False

/-- One for an exclusive holder, until the `fetch_sub` of its `unlock`. -/
def Pc.owning : Pc ι → Nat
  | .holding | .unlock => 1
  | _ => 0

/-- One for a call of `try_lock_shared` in flight. -/
def Pc.trying : Pc ι → Nat
  | .tryLockShared | .tryLockSharedUndo => 1
  | _ => 0

/-- The change a step makes to the word: none, or one of the atomic operations within its
own field, without a carry into `EX_BIT`, a borrow from it or a wrap past it. -/
inductive Rmw : BitVec 64 → BitVec 64 → Prop where
  | keep {x : BitVec 64} : Rmw x x
  | setExclusive : Rmw 0 exBit
  | clearExclusive {x y : BitVec 64} : 2 ^ 63 ≤ x.toNat → y.toNat + 2 ^ 63 = x.toNat → Rmw x y
  | addReader {x y : BitVec 64} : x.toNat % 2 ^ 63 + 1 < 2 ^ 63 → y.toNat = x.toNat + 1 → Rmw x y
  | removeReader {x y : BitVec 64} : 0 < x.toNat % 2 ^ 63 → y.toNat + 1 = x.toNat → Rmw x y

section Word

variable [Fintype ι]

/-- The shared holders and the calls of `try_lock_shared` in flight fit below `EX_BIT`. -/
def InRange (s : State ι) : Prop :=
  tally Pc.sharing s.tasks + tally Pc.trying s.tasks < 2 ^ 63

/-- The steps of tasks that use the non-blocking interface within its range. -/
def NonBlocking (s : State ι) (a : Act ι) : Prop :=
  InRange s ∧ ∀ t op, a = .call t op → op.NonBlocking

/-- Nobody has suspended, and the word satisfies the invariant of the full interface. -/
structure Unsuspended (s : State ι) : Prop where
  tasks : ∀ t, (s.tasks t).NonBlocking
  suspended : s.suspended.values = []
  suspenders : s.suspenders = []
  runQueue : s.runQueue = []
  word : Invariant s

/-- The word is the sum of its parts, and the holders exclude each other. -/
structure ExactWord (s : State ι) : Prop where
  word : s.state.toNat = 2 ^ 63 * tally Pc.owning s.tasks +
    (tally Pc.sharing s.tasks + tally Pc.undoing s.tasks)
  one : tally Pc.owning s.tasks ≤ 1
  apart : 0 < tally Pc.owning s.tasks → tally Pc.sharing s.tasks = 0

namespace Unsuspended

variable {s s' : State ι}

private theorem undoing_lt_trying {t : ι} (hpc : s.tasks t = .tryLockShared) :
    tally Pc.undoing s.tasks < tally Pc.trying s.tasks := by
  apply Finset.sum_lt_sum
  · intro u _
    cases s.tasks u <;> simp [Pc.undoing, Pc.trying]
  · exact ⟨t, Finset.mem_univ t, by simp [hpc, Pc.undoing, Pc.trying]⟩

private theorem exclusive_eq_owning (h : Unsuspended s) :
    tally Pc.exclusive s.tasks = tally Pc.owning s.tasks := by
  apply Finset.sum_congr rfl
  intro t _
  have ht := h.tasks t
  revert ht
  cases s.tasks t <;> simp [Pc.NonBlocking, Pc.exclusive, Pc.owning]

/-- The word and its holders, read off the invariant of the full interface. -/
theorem exactWord (h : Unsuspended s) : ExactWord s := by
  have hw := h.word.word
  have hone := h.word.one
  rw [h.exclusive_eq_owning] at hw hone
  refine ⟨by rw [hw, Invariant.tally_reading], hone, fun hpos ↦ ?_⟩
  obtain ⟨t, ht⟩ := tally_pos.mp hpos
  refine h.word.apart t ?_
  revert ht
  cases hpc : s.tasks t <;> simp [Pc.owning, Pc.Owning]

private theorem low_eq (h : Unsuspended s) : s.state.toNat % 2 ^ 63 = tally Pc.reading s.tasks := by
  have hw := h.word.word
  have hone := h.word.one
  have hfew := h.word.few
  omega

/-- Within the range every non-blocking step keeps the encoding. -/
theorem stepOk {a : Act ι} (h : Unsuspended s) (hok : NonBlocking s a) : StepOk s a := by
  cases a with
  | call t op => trivial
  | suspender i => trivial
  | task t =>
    constructor
    · intro hpc
      have := h.tasks t
      simp [hpc, Pc.NonBlocking] at this
    · intro hpc
      have hlt := undoing_lt_trying hpc
      have hrange : tally Pc.sharing s.tasks + tally Pc.trying s.tasks < 2 ^ 63 := hok.1
      rw [h.low_eq, Invariant.tally_reading]
      omega
  | resume i =>
    intro t ht
    simp [h.runQueue] at ht

variable [DecidableEq ι]

private theorem of_update {t : ι} {pc : Pc ι} (h : Unsuspended s) (hw : Invariant s')
    (ht : s'.tasks = Function.update s.tasks t pc) (hpc : pc.NonBlocking)
    (hq : s'.suspended = s.suspended) (hs : s'.suspenders = s.suspenders)
    (hr : s'.runQueue = s.runQueue) : Unsuspended s' := by
  refine ⟨fun u ↦ ?_, hq ▸ h.suspended, hs ▸ h.suspenders, hr ▸ h.runQueue, hw⟩
  rw [ht]
  by_cases hu : u = t
  · subst hu
    rwa [Function.update_self]
  · rw [Function.update_of_ne hu]
    exact h.tasks u

/-- A task inside a non-blocking operation stays in it, and changes the word within the
field it means to change. -/
theorem taskStep {t : ι} (h : Unsuspended s) (hok : NonBlocking s (.task t))
    (hn : taskStep s t = some s') : Unsuspended s' ∧ Rmw s.state s'.state := by
  have hw : Invariant s' := h.word.taskStep (h.stepOk hok) hn
  have hlow := h.low_eq
  have hle := h.word.le_state t
  have hread := le_tally Pc.reading s.tasks t
  have hlt := (h.stepOk hok).2
  have hno {pc : Pc ι} (he : s.tasks t = pc) : pc.NonBlocking := he ▸ h.tasks t
  simp only [SharedMutex.taskStep] at hn
  split at hn
  · next hpc =>
    cases hn
    unfold tryLock at hw ⊢
    split
    · next hz =>
      rw [if_pos hz] at hw
      refine ⟨h.of_update hw rfl trivial rfl rfl rfl, ?_⟩
      change Rmw s.state exBit
      rw [hz]
      exact .setExclusive
    · next hz =>
      rw [if_neg hz] at hw
      exact ⟨h.of_update hw rfl trivial rfl rfl rfl, .keep⟩
  · next hpc => exact (hno hpc).elim
  · next hpc => exact (hno hpc).elim
  · next hpc => exact (hno hpc).elim
  · next hpc => exact (hno hpc).elim
  · next hpc =>
    cases hn
    simp only [hpc, Pc.exclusive] at hle
    have hsub := sub_exBit_toNat (x := s.state) (by omega)
    refine ⟨h.of_update hw rfl trivial rfl rfl rfl, .clearExclusive (by omega) ?_⟩
    change (s.state - exBit).toNat + 2 ^ 63 = s.state.toNat
    omega
  · next hpc =>
    cases hn
    refine ⟨h.of_update hw rfl ?_ rfl rfl rfl, .addReader (hlt hpc) (add_one_toNat (hlt hpc))⟩
    split <;> trivial
  · next hpc =>
    cases hn
    simp only [hpc, Pc.reading, Pc.sharing, Pc.undoing] at hle hread
    have hsub := sub_one_toNat (x := s.state) (by omega)
    refine ⟨h.of_update hw rfl trivial rfl rfl rfl, .removeReader (by omega) ?_⟩
    change (s.state - 1).toNat + 1 = s.state.toNat
    omega
  · next hpc => exact (hno hpc).elim
  · next hpc => exact (hno hpc).elim
  · next hpc =>
    cases hn
    simp only [hpc, Pc.reading, Pc.sharing, Pc.undoing] at hle hread
    have hsub := sub_one_toNat (x := s.state) (by omega)
    refine ⟨h.of_update hw rfl ?_ rfl rfl rfl, .removeReader (by omega) ?_⟩
    · split <;> trivial
    · change (s.state - 1).toNat + 1 = s.state.toNat
      omega
  · next hpc =>
    cases hn
    rw [Content.pop_nil h.suspended] at hw ⊢
    exact ⟨h.of_update hw rfl trivial rfl rfl rfl, .keep⟩
  · next hpc => exact (hno hpc).elim
  all_goals cases hn

/-- Every non-blocking step keeps the tasks out of the waiter queue, and changes the word
within the field it means to change. -/
theorem next {a : Act ι} (h : Unsuspended s) (hok : NonBlocking s a)
    (hn : SharedMutex.next s a = some s') : Unsuspended s' ∧ Rmw s.state s'.state := by
  have hw : Invariant s' := h.word.next (h.stepOk hok) hn
  cases a with
  | call t op =>
    obtain ⟨pc, hpc, rfl⟩ := Option.map_eq_some_iff.mp hn
    refine ⟨h.of_update hw rfl ?_ rfl rfl rfl, .keep⟩
    have hop := hok.2 t op rfl
    cases op <;> simp only [Op.start] at hpc <;> split at hpc <;> cases hpc
    all_goals first | trivial | exact absurd rfl hop.1 | exact absurd rfl hop.2
  | task t => exact h.taskStep hok hn
  | suspender i => simp [SharedMutex.next, suspenderStep, h.suspenders] at hn
  | resume i => simp [SharedMutex.next, resume, h.runQueue] at hn

end Unsuspended

variable [DecidableEq ι]

/-- While tasks use only the non-blocking interface, within its range, the word is exact in
every state reached and no step leaves its field. -/
theorem nonBlocking_word_exact {s : State ι} (hr : (system ι).ReachableBy NonBlocking s) :
    ExactWord s ∧ ∀ a s', NonBlocking s a → next s a = some s' → Rmw s.state s'.state := by
  have h : Unsuspended s := by
    refine hr.invariant ⟨fun _ ↦ trivial, rfl, rfl, rfl, ?_⟩ fun _ _ _ hi hok hn ↦
      (hi.next hok hn).1
    constructor <;>
      simp [system, init, tally, Pc.exclusive, Pc.reading, Pc.sharing, Pc.undoing, Pc.Owning]
  exact ⟨h.exactWord, fun _ _ hok hn ↦ (h.next hok hn).2⟩

end Word

instance (op : Op) : Decidable op.NonBlocking := inferInstanceAs (Decidable (_ ∧ _))

instance [Fintype ι] (s : State ι) : Decidable (InRange s) := inferInstanceAs (Decidable (_ < _))

instance [Fintype ι] (s : State ι) (a : Act ι) : Decidable (NonBlocking s a) :=
  match a with
  | .call t op => decidable_of_iff (InRange s ∧ op.NonBlocking)
      ⟨fun ⟨hr, ho⟩ ↦ ⟨hr, fun _ _ he ↦ by cases he; exact ho⟩, fun ⟨hr, ho⟩ ↦ ⟨hr, ho t op rfl⟩⟩
  | .task _ | .suspender _ | .resume _ => decidable_of_iff (InRange s)
      ⟨fun hr ↦ ⟨hr, fun _ _ he ↦ by cases he⟩, And.left⟩

/-- Task `u` fails to share the mutex that task `t` holds; `t` unlocks before `u` has taken
its addition back. -/
def outlived (t u : ι) : List (Act ι) :=
  [.call t .tryLock, .task t, .call u .tryLockShared, .task u, .call t .unlock, .task t]

/-- The addition of a failing call outlives the writer that made it fail. -/
theorem nonBlocking_word_exact_outlived :
    ∃ s, (system (Fin 2)).ReachableBy NonBlocking s ∧ s.state = 1 ∧ ExactWord s ∧
      ∃ s', next s (.task 1) = some s' ∧ Rmw s.state s'.state := by
  have hrun : ∃ s, (system (Fin 2)).ReachableBy NonBlocking s ∧ s.state = 1 ∧
      NonBlocking s (.task 1) ∧ (next s (.task 1)).isSome :=
    System.exists_reachableBy (outlived 0 1) (by decide)
  obtain ⟨s, hr, h1, hok, hsome⟩ := hrun
  obtain ⟨hword, hstep⟩ := nonBlocking_word_exact hr
  obtain ⟨s', hn⟩ := Option.isSome_iff_exists.mp hsome
  exact ⟨s, hr, h1, hword, s', hn, hstep _ _ hok hn⟩

end Crasy.Sync.SharedMutex
