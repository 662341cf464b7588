import Crasy.Sync.LockGuard
import Mathlib.Data.List.Count
import Mathlib.Data.Nat.ModEq

/-!
# One attempt to lock several mutexes

Library `Sync`. What one run of `lock_impl`, `include/crasy/lock_guard.hpp:75–89`, does to its
mutexes and which index it returns, in the model of `Crasy.Sync.LockGuard`. The mutexes are taken
in order from `start` on. The first refusal gives back, last first, what has been taken, and is
reported by its position in the arguments, which needs `start` once more.
-/

namespace Crasy.Sync.LockGuard

open Crasy.Base Crasy.Base.LockProgram

variable {μ : Type} {env : Answers μ}

/-- What a failed attempt does to its mutexes: it takes some, is refused one, and gives back
those it has taken. -/
def failedTrace (taken : List μ) (m : μ) : List (LockEvent μ) :=
  taken.map .acquired ++ .refused m :: taken.reverse.map .released

/-! ### The traces -/

/-- `try_lock_impl` takes all mutexes when none refuses. -/
theorem run_tryLockImpl {ms : List μ} (h : ∀ m ∈ ms, env.acquires m = true) :
    (tryLockImpl ms).run env = (ms.map .acquired, ms.length) := by
  induction ms with
  | nil => rfl
  | cons m ms ih =>
    have hrest := ih fun n hn ↦ h n (List.mem_cons_of_mem _ hn)
    simp only [tryLockImpl, LockProgram.run, h m List.mem_cons_self, run_bind, hrest, ↓reduceIte,
      List.append_nil, List.map_cons, List.length_cons, Nat.add_comm]

/-- `try_lock_impl` stops at the first mutex that refuses, and returns how many are before it. -/
theorem run_tryLockImpl_refused {taken rest : List μ} {m : μ}
    (h : ∀ n ∈ taken, env.acquires n = true) (hm : env.acquires m = false) :
    (tryLockImpl (taken ++ m :: rest)).run env = (failedTrace taken m, taken.length) := by
  induction taken with
  | nil => simp only [tryLockImpl, List.nil_append, LockProgram.run, hm]; rfl
  | cons n taken ih =>
    have hrest := ih fun r hr ↦ h r (List.mem_cons_of_mem _ hr)
    have hlt : taken.length ≠ (taken ++ m :: rest).length := by simp
    simp only [tryLockImpl, List.cons_append, LockProgram.run, h n List.mem_cons_self, run_bind,
      hrest, if_neg hlt, ↓reduceIte]
    simp [failedTrace, Nat.add_comm]

/-- Either no mutex of a list refuses, or there is a first one that does. -/
theorem acquires_or_refused (env : Answers μ) (ms : List μ) :
    (∀ m ∈ ms, env.acquires m = true) ∨ ∃ taken m rest, ms = taken ++ m :: rest ∧
      (∀ n ∈ taken, env.acquires n = true) ∧ env.acquires m = false := by
  induction ms with
  | nil => exact .inl fun _ hm ↦ absurd hm List.not_mem_nil
  | cons m ms ih =>
    cases hm : env.acquires m with
    | false => exact .inr ⟨[], m, ms, rfl, fun _ hn ↦ absurd hn List.not_mem_nil, hm⟩
    | true =>
      rcases ih with hall | ⟨taken, n, rest, rfl, htaken, hn⟩
      · exact .inl (List.forall_mem_cons.mpr ⟨hm, hall⟩)
      · exact .inr ⟨m :: taken, n, rest, rfl, List.forall_mem_cons.mpr ⟨hm, htaken⟩, hn⟩

/-- What `lock_impl` reads as `start` after its first `co_await`. -/
def startRead (start : Nat) (env : Answers μ) : Nat := if env.suspends then env.value else start

/-- An attempt without a refusal. -/
theorem run_lockImpl {ms mn : List μ} {start : Nat} {m1 : μ} (hrot : ms.rotate start = m1 :: mn)
    (h : ∀ m ∈ mn, env.acquires m = true) :
    (lockImpl start ms).run env = ((m1 :: mn).map .acquired, ms.length) := by
  have hlen := ms.length_rotate start
  rw [hrot, List.length_cons] at hlen
  rw [lockImpl, lockRotateAndCall_eq, hrot]
  simp only [LockProgram.run, run_bind, run_tryLockImpl h, ↓reduceIte, List.append_nil,
    List.map_cons, hlen]

/-- An attempt with a refusal. -/
theorem run_lockImpl_refused {ms taken rest : List μ} {start : Nat} {m1 m : μ}
    (hrot : ms.rotate start = m1 :: taken ++ m :: rest)
    (h : ∀ n ∈ taken, env.acquires n = true) (hm : env.acquires m = false) :
    (lockImpl start ms).run env = (failedTrace (m1 :: taken) m,
      (startRead start env + taken.length + 1) % ms.length) := by
  have hlt : taken.length ≠ (taken ++ m :: rest).length := by simp
  have hstart : (readStart (μ := μ) start env.suspends).run env = ([], startRead start env) := by
    cases hs : env.suspends with
    | true => simp [readStart, LockProgram.run, startRead, hs]
    | false => simp [readStart, LockProgram.run, startRead, hs]
  rw [lockImpl, lockRotateAndCall_eq, hrot]
  simp only [List.cons_append, LockProgram.run, run_bind, run_tryLockImpl_refused h hm, if_neg hlt,
    Bool.false_or, hstart]
  simp [failedTrace]

/-- Whatever is read as `start`, an attempt takes all mutexes or none, and does not return an
index that is out of range. -/
theorem locked_lockImpl {ms : List μ} (hne : ms ≠ []) (hnd : ms.Nodup) (start : Nat)
    (env : Answers μ) : Locked ms ((lockImpl start ms).run env).2
      (heldAfter ∅ ((lockImpl start ms).run env).1) :=
  (wp_lockImpl start hne hnd).run env

/-! ### All or nothing -/

private theorem getElem?_of_rotate {ms taken rest : List μ} {start : Nat} {m1 m : μ}
    (hrot : ms.rotate start = m1 :: taken ++ m :: rest) :
    ms[(start + taken.length + 1) % ms.length]? = some m := by
  have hlen := ms.length_rotate start
  have hlt : taken.length + 1 < ms.length := by
    rw [← hlen, hrot]
    simp
  have hget := List.getElem?_rotate (n := start) hlt
  rw [hrot, List.getElem?_append_right (by simp)] at hget
  rw [Nat.add_assoc, Nat.add_comm, ← hget]
  simp

private theorem mod_ne_succ_mod {N : Nat} (hN : 2 ≤ N) (a : Nat) : a % N ≠ (a + 1) % N := by
  intro he
  have hcancel : Nat.ModEq N 0 1 := Nat.ModEq.add_left_cancel' a he
  have hdvd : N ∣ 1 := (Nat.modEq_zero_iff_dvd).mp hcancel.symm
  exact absurd (Nat.le_of_dvd Nat.one_pos hdvd) (Nat.not_le_of_lt hN)

/-- The mutexes behind the first one to be tried. -/
theorem mem_tail_iff {ms mn : List μ} {start : Nat} {m1 m : μ} (hnd : ms.Nodup)
    (hstart : start < ms.length) (hrot : ms.rotate start = m1 :: mn) :
    m ∈ mn ↔ m ∈ ms ∧ ms[start]? ≠ some m := by
  have hhead : ms[start]? = some m1 := by
    rw [← List.head?_rotate hstart, hrot, List.head?_cons]
  have hnot : m1 ∉ mn := (List.nodup_cons.mp (hrot ▸ List.nodup_rotate.mpr hnd)).1
  rw [← List.mem_rotate (l := ms) (n := start), hrot, hhead, List.mem_cons]
  constructor
  · intro hm
    refine ⟨.inr hm, fun he ↦ ?_⟩
    cases he
    exact hnot hm
  · rintro ⟨rfl | hm, hne⟩
    · exact absurd rfl hne
    · exact hm

/-- A failed attempt leaves the task with nothing and returns the position of the mutex that
refused. It unlocks each mutex that it has taken once, and no other. -/
structure Failed [DecidableEq μ] (ms : List μ) (trace : List (LockEvent μ)) (i : Nat) : Prop where
  below : i < ms.length
  held : heldAfter ∅ trace = ∅
  culprit : ∀ m, .refused m ∈ trace ↔ ms[i]? = some m
  unlocked : ∀ m, .acquired m ∈ trace → trace.count (.released m) = 1
  noOther : ∀ m, .acquired m ∉ trace → .released m ∉ trace

/-- An attempt takes all mutexes and returns their number, or fails. -/
def AllOrNothing [DecidableEq μ] (ms : List μ) (attempt : List (LockEvent μ) × Nat) : Prop :=
  attempt.2 = ms.length ∧ heldAfter ∅ attempt.1 = setOf ms ∨ Failed ms attempt.1 attempt.2

@[simp] theorem refused_mem_failedTrace {taken : List μ} {m n : μ} :
    .refused n ∈ failedTrace taken m ↔ n = m := by
  simp [failedTrace]

@[simp] theorem acquired_mem_failedTrace {taken : List μ} {m n : μ} :
    .acquired n ∈ failedTrace taken m ↔ n ∈ taken := by
  simp [failedTrace]

@[simp] theorem released_mem_failedTrace {taken : List μ} {m n : μ} :
    .released n ∈ failedTrace taken m ↔ n ∈ taken := by
  simp [failedTrace]

variable [DecidableEq μ]

private theorem count_released_failedTrace {taken : List μ} {m n : μ} :
    (failedTrace taken m).count (.released n) = taken.count n := by
  have hinj : Function.Injective (LockEvent.released : μ → LockEvent μ) :=
    fun _ _ he ↦ LockEvent.released.inj he
  have hzero : (taken.map LockEvent.acquired).count (.released n) = 0 :=
    List.count_eq_zero.mpr (by simp)
  rw [failedTrace, List.count_append, hzero, Nat.zero_add, List.count_cons_of_ne (by simp),
    List.count_map_of_injective _ _ hinj, List.count_reverse]

private theorem failed_failedTrace {ms taken rest : List μ} {start i : Nat} {m1 m : μ}
    (hnd : ms.Nodup)
    (hrot : ms.rotate start = m1 :: taken ++ m :: rest) (hi : ms[i]? = some m)
    (hheld : heldAfter ∅ (failedTrace (m1 :: taken) m) = ∅) :
    Failed ms (failedTrace (m1 :: taken) m) i := by
  have htaken : (m1 :: taken).Nodup :=
    (List.nodup_append.mp (hrot ▸ List.nodup_rotate.mpr hnd)).1
  refine ⟨(List.getElem?_eq_some_iff.mp hi).1, hheld, fun n ↦ ?_, fun n hn ↦ ?_, fun n hn ↦ ?_⟩
  · rw [refused_mem_failedTrace, hi]
    exact ⟨fun he ↦ he ▸ rfl, fun he ↦ (Option.some.inj he).symm⟩
  · rw [count_released_failedTrace]
    exact List.count_eq_one_of_mem htaken (acquired_mem_failedTrace.mp hn)
  · rwa [released_mem_failedTrace, ← acquired_mem_failedTrace (m := m)]

/-- An attempt is all-or-nothing and reports the mutex that refused, whatever the read of `start`
finds in the lambda that is gone, exactly when the first mutex is locked without suspending or no
other mutex refuses. -/
theorem all_or_nothing_iff {ms : List μ} {start : Nat} (hnd : ms.Nodup) (hN : 2 ≤ ms.length)
    (hstart : start < ms.length) (suspends : Bool) (acquires : μ → Bool) :
    (∀ value, AllOrNothing ms ((lockImpl start ms).run ⟨suspends, acquires, value⟩)) ↔
      (suspends = true → ∀ m ∈ ms, ms[start]? ≠ some m → acquires m = true) := by
  have hne : ms ≠ [] := List.length_pos_iff.mp (Nat.zero_lt_of_lt hN)
  obtain ⟨m1, mn, hrot⟩ : ∃ m1 mn, ms.rotate start = m1 :: mn :=
    List.exists_cons_of_ne_nil fun hnil ↦ hne (List.rotate_eq_nil_iff.mp hnil)
  have hothers : (∀ m ∈ ms, ms[start]? ≠ some m → acquires m = true) ↔
      ∀ m ∈ mn, acquires m = true := by
    simp only [mem_tail_iff hnd hstart hrot, and_imp]
  rw [hothers]
  rcases acquires_or_refused ⟨suspends, acquires, 0⟩ mn with
    hall | ⟨taken, m, rest, rfl, htaken, hm⟩
  · refine ⟨fun _ _ ↦ hall, fun _ value ↦ .inl ?_⟩
    have hrun : (lockImpl start ms).run ⟨suspends, acquires, value⟩ = _ := run_lockImpl hrot hall
    have hlocked := locked_lockImpl hne hnd start ⟨suspends, acquires, value⟩
    rw [hrun] at hlocked ⊢
    exact hlocked.resolve_right fun hlt ↦ Nat.lt_irrefl _ hlt.1
  · have hrun (value : Nat) : (lockImpl start ms).run ⟨suspends, acquires, value⟩ = _ :=
      run_lockImpl_refused hrot htaken hm
    have hget := getElem?_of_rotate hrot
    have hbelow (value : Nat) := Nat.mod_lt value (Nat.zero_lt_of_lt hN)
    constructor
    · intro h hs
      subst hs
      -- a stale value makes the attempt report a neighbour of the mutex that refused
      have hfailed := (h (start + 1)).resolve_left fun hall ↦ by
        rw [hrun] at hall
        exact (hbelow _).ne hall.1
      rw [hrun] at hfailed
      have hnext := (hfailed.culprit m).mp (refused_mem_failedTrace.mpr rfl)
      have heq := (List.getElem?_inj (hbelow _) hnd).mp (hget.trans hnext.symm)
      have hstale : startRead start ⟨true, acquires, start + 1⟩ + taken.length + 1 =
          start + taken.length + 1 + 1 := by
        simp only [startRead, ↓reduceIte]
        omega
      rw [hstale] at heq
      exact absurd heq (mod_ne_succ_mod hN (start + taken.length + 1))
    · intro h value
      cases suspends with
      | true => simp [h rfl m (by simp)] at hm
      | false =>
        have hlocked := locked_lockImpl hne hnd start ⟨false, acquires, value⟩
        rw [hrun value] at hlocked ⊢
        have hheld := (hlocked.resolve_left fun hall ↦ (hbelow _).ne hall.1).2
        exact .inr (failed_failedTrace hnd hrot hget hheld)

/-- The first mutex is had at once, and the last one tried refuses: it is named, and the two taken
are given back. -/
theorem all_or_nothing_prompt :
    (lockImpl 1 [10, 11, 12]).run ⟨false, fun m ↦ m != 10, 5⟩ = (failedTrace [11, 12] 10, 0) ∧
      ∀ value, AllOrNothing [10, 11, 12]
        ((lockImpl 1 [10, 11, 12]).run ⟨false, fun m ↦ m != 10, value⟩) :=
  ⟨rfl, (all_or_nothing_iff (by decide) (by decide) (by decide) false fun m ↦ m != 10).mpr
    fun h ↦ by cases h⟩

/-- The first mutex is had after a suspension, and the other one refuses. With another value in the
place of `start`, the attempt names the mutex that it had. -/
theorem wrong_culprit : ¬∀ (ms : List Nat) (start : Nat) (env : Answers Nat), ms.Nodup →
    2 ≤ ms.length → start < ms.length → AllOrNothing ms ((lockImpl start ms).run env) := by
  intro h
  have hrun : (lockImpl 0 [10, 11]).run ⟨true, fun _ ↦ false, 1⟩ = (failedTrace [10] 11, 0) := rfl
  have hattempt := h [10, 11] 0 ⟨true, fun _ ↦ false, 1⟩ (by decide) (by decide) (by decide)
  rw [hrun] at hattempt
  have hfailed := hattempt.resolve_left fun hall ↦ by cases hall.1
  have hnamed := (hfailed.culprit 11).mp (refused_mem_failedTrace.mpr rfl)
  cases hnamed

end Crasy.Sync.LockGuard
