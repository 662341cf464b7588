import Crasy.LfQueue.Order

/-!
# What a `nullopt` from `pop` means

Library `LfQueue`. `pop` also returns `nullopt` while there are values in the queue
(`include/crasy/lfqueue.hpp:146–162`): its first access finds `tail_` null while another call
is still going to store it, and a first entry whose value has been taken hides those behind
it. On the runs of `Crasy.LfQueue.Threads` in which no compare-exchange installs a stale
successor there is no other reason for it.
-/

namespace Crasy.LfQueue.Concurrent

open Crasy.Base

variable {ι α : Type}

/-- The `pop` has found `tail_` null, or has taken an entry. -/
def Pc.Settled : Pc α → Prop
  | .exchangeValue .. | .moveData .. | .restoreTail .. | .delLoad .. | .delStore ..
  | .delCas .. | .finished _ => True
  | _ => False

/-- It is settled that the `pop` returns `nullopt`. -/
def Fails (q : Queue α) (pc : Pc α) : Prop := pc.Settled ∧ inHand q pc = none

/-- The access after which it is settled that the `pop` returns `nullopt`. -/
inductive Misses (q : Queue α) : Pc α → Prop where
  | null : q.tail = none → Misses q .loadTail
  | emptied (tail : Ptr) (next : Option Ptr) : q.tail = some tail →
      (q.entries tail).data = none → Misses q (.casTail tail next)

/-- A `pop` that fails has failed before or misses now. -/
theorem Sound.fails_advance {q : Queue α} {threads : ι → Pc α} {order free : List Ptr}
    {after : Ptr → Option Ptr} {i : ι} (h : Sound q threads order free after)
    (hf : Fails (advance q (threads i)).1 (advance q (threads i)).2) :
    Fails q (threads i) ∨ Misses q (threads i) := by
  obtain ⟨hsettled, hnone⟩ := hf
  have hhand := h.inHand_advance i
  rw [hnone, Option.toList_none, List.append_eq_nil_iff, Option.toList_eq_nil_iff,
    Option.toList_eq_nil_iff] at hhand
  obtain ⟨hbefore, htaken⟩ := hhand
  cases hi : threads i with
  | loadTail =>
    cases ht : q.tail with
    | none => exact .inr (.null ht)
    | some tail => simp [hi, advance, ht, Pc.Settled] at hsettled
  | casTail tail next =>
    rw [hi] at hsettled htaken
    by_cases ht : q.tail = some tail
    · rw [takenOut, if_pos ht] at htaken
      exact .inr (.emptied tail next ht htaken)
    · simp [advance, ht, Pc.Settled] at hsettled
  | exchangeValue | moveData | restoreTail | delLoad | delStore | delCas | finished =>
    rw [hi] at hbefore
    exact .inl ⟨trivial, hbefore⟩
  | loadFree v =>
    cases hq : q.free <;> simp [hi, advance, hq, newEntryRound, Pc.Settled] at hsettled
  | casFree v entry next =>
    rw [hi] at hsettled
    simp only [advance] at hsettled
    split at hsettled
    · exact absurd hsettled id
    · cases hq : q.free <;> simp [hq, newEntryRound, Pc.Settled] at hsettled
  | exchangeHead entry =>
    cases hq : q.head <;> simp [hi, advance, hq, Pc.Settled] at hsettled
  | _ => simp [hi, advance, Pc.Settled] at hsettled

section Runs

variable [DecidableEq ι] {capacity : Nat} {acts : List (Act ι α)} {s s' : State ι α} {i : ι}

/-- A reason for thread `i` to get `nullopt`: all values are taken, or another call is going
to store `tail_`, or the value of the first entry is taken. -/
inductive Excused (capacity : Nat) (i : ι) (acts : List (Act ι α)) (s : State ι α) : Prop where
  | empty : ((system ι α capacity).events puts acts).map Prod.snd =
      ((system ι α capacity).events takes acts).map Prod.snd → Excused capacity i acts s
  | pending (j : ι) (p : Ptr) : j ≠ i → (s.threads j).pending = some p → Excused capacity i acts s
  | emptied (p : Ptr) : s.queue.tail = some p → (s.queue.entries p).data = none →
      Excused capacity i acts s

/-- A `pop` misses for a reason. -/
theorem History.excused (h : History capacity acts s) (hm : Misses s.queue (s.threads i)) :
    Excused capacity i acts s := by
  generalize hi : s.threads i = pc at hm
  cases hm with
  | null ht =>
    obtain ⟨order, free, after, hs, -, hvalues⟩ := h.order
    by_cases hpending : ∃ j p, (s.threads j).pending = some p
    · obtain ⟨j, p, hj⟩ := hpending
      refine .pending j p ?_ hj
      rintro rfl
      rw [hi] at hj
      cases hj
    · -- nobody is going to store `tail_`, so there are no entries in order
      have hnone (j : ι) : (Pc.pending ∘ s.threads) j = none := by
        cases hj : (Pc.pending ∘ s.threads) j with
        | none => rfl
        | some p => exact absurd ⟨j, p, hj⟩ hpending
      have hfirst := hs.ends.tail_first hnone
      rw [ht] at hfirst
      rw [List.head?_eq_none_iff.mp hfirst.symm] at hvalues
      exact .empty (hvalues.trans (List.append_nil _))
  | emptied tail next ht hdata => exact .emptied tail ht hdata

/-- Every `pop` that fails has had a reason since it was called. -/
def FailsForReason (capacity : Nat) (acts : List (Act ι α)) (s : State ι α) : Prop :=
  ∀ i, Fails s.queue (s.threads i) →
    (system ι α capacity).Since StepOk (Excused capacity i) (· ≠ .pop i) acts

/-- Every step that installs no stale successor keeps the reasons. -/
theorem FailsForReason.step {a : Act ι α} (h : FailsForReason capacity acts s)
    (hr : (system ι α capacity).RunBy StepOk acts s) (hhist : History capacity acts s)
    (hn : (system ι α capacity).next s a = some s') : FailsForReason capacity (acts ++ [a]) s' := by
  obtain ⟨order, free, after, hs, -, -⟩ := hhist.order
  obtain ⟨j, pc', hmoves, hthreads⟩ := next_moves hn
  intro i hf
  rw [hthreads] at hf
  generalize hpc : s.threads j = pc at hmoves
  generalize hq : s'.queue = q' at hmoves hf
  by_cases hij : i = j
  · subst hij
    rw [Function.update_self] at hf
    cases hmoves with
    | push i v => exact absurd hf.1 id
    | pop i => exact absurd hf.1 id
    | access i =>
      subst hpc
      have hquiet : (.access i : Act ι α) ≠ .pop i := by simp
      rcases hs.fails_advance hf with hf | hm
      · exact (h i hf).concat hquiet
      · exact hr.since (hhist.excused hm) hquiet
    | ret i ret => exact absurd hf.1 id
  · rw [Function.update_of_ne hij] at hf
    cases hmoves with
    | push j v => exact (h i hf).concat (by simp)
    | pop j => exact (h i hf).concat (by simp [Ne.symm hij])
    | access j =>
      subst hpc
      rw [Fails, hs.inHand_other hij] at hf
      exact (h i hf).concat (by simp)
    | ret j ret => exact (h i hf).concat (by simp)

/-- On runs in which no compare-exchange installs a stale successor, a `pop` that is about to
return `nullopt` has seen, since it was called, a moment with a reason for it. -/
theorem nullopt_excused (hr : (system ι α capacity).RunBy StepOk acts s)
    (hi : s.threads i = .finished none) :
    (system ι α capacity).Since StepOk (Excused capacity i) (· ≠ .pop i) acts := by
  have hinv : History capacity acts s ∧ FailsForReason capacity acts s := by
    refine hr.invariant_of_run (I := fun acts s ↦ History capacity acts s ∧
      FailsForReason capacity acts s) ⟨.init, fun i hf ↦ absurd hf.1 id⟩
        fun acts s a s' hr hi hok hn ↦ ⟨hi.1.step hr hok hn, hi.2.step hr hi.1 hn⟩
  exact hinv.2 i (by rw [hi]; exact ⟨trivial, rfl⟩)

/-- A `push` is complete, but another one has yet to store `tail_`, and a `pop` gets nothing. -/
theorem nullopt_excused_overtaken :
    let acts : List (Act (Fin 3) Nat) := .push 0 10 :: List.replicate 8 (.access 0) ++
      pushAlone 1 11 ++ [.pop 2, .access 2]
    ∃ s, s.threads 1 = .idle ∧ (system (Fin 3) Nat 3).RunBy StepOk acts s ∧
      (system (Fin 3) Nat 3).Since StepOk (Excused 3 2) (· ≠ .pop 2) acts := by
  have hrun : ∃ s, (system (Fin 3) Nat 3).RunBy StepOk (.push 0 10 ::
      List.replicate 8 (.access 0) ++ pushAlone 1 11 ++ [.pop 2, .access 2]) s ∧
        s.threads 1 = .idle ∧ s.threads 2 = .finished none :=
    System.exists_runBy _ (by decide +kernel)
  obtain ⟨s, hr, hidle, hnone⟩ := hrun
  exact ⟨s, hidle, hr, nullopt_excused hr hnone⟩

end Runs

end Crasy.LfQueue.Concurrent
