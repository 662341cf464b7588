import Crasy.Base.Events
import Crasy.LfQueue.Destructor
import Crasy.LfQueue.Ownership
import Mathlib.Dynamics.FixedPoints.Basic

/-!
# Calls that do not overlap

Library `LfQueue`. The functions of `Crasy.LfQueue.Sequential` have no loops, because a
compare-exchange finds the value that was loaded before if nobody else runs in between. On
the runs of `Crasy.LfQueue.Threads` in which no two calls overlap the machine of atomic
accesses does what these functions say, whichever threads make the calls.
-/

namespace Crasy.LfQueue.Concurrent

open Crasy.Base

variable {ι α : Type}

/-! ### One call -/

/-- The next access of a thread that runs alone. -/
def access (x : Queue α × Pc α) : Queue α × Pc α := advance x.1 x.2

/-- Some accesses of a thread that runs alone lead from `x` to `y`. -/
def Leads (x y : Queue α × Pc α) : Prop := ∃ k, access^[k] x = y

private theorem Leads.trans {x y z : Queue α × Pc α} (h : Leads x y) (h' : Leads y z) :
    Leads x z := by
  obtain ⟨k, rfl⟩ := h
  obtain ⟨n, rfl⟩ := h'
  exact ⟨n + k, Function.iterate_add_apply ..⟩

private theorem Leads.unique {x y z : Queue α × Pc α} (h : Leads x y) (h' : Leads x z)
    (hy : Function.IsFixedPt access y) (hz : Function.IsFixedPt access z) : y = z := by
  obtain ⟨k, hk⟩ := h
  obtain ⟨n, hn⟩ := h'
  have hky : access^[n + k] x = y := by rw [Function.iterate_add_apply, hk, hy.iterate n]
  have hnz : access^[k + n] x = z := by rw [Function.iterate_add_apply, hn, hz.iterate k]
  rw [← hky, ← hnz, Nat.add_comm]

/-- Where a call begins. -/
def start : Op α → Pc α
  | .push v => .loadFree v
  | .pop => .loadTail

/-- Where a call ends, as the sequential functions have it. -/
def finish (q : Queue α) : Op α → Queue α × Pc α
  | .push v => (q.push v, .idle)
  | .pop => (q.pop.2, .finished q.pop.1)

private theorem finish_fixed (q : Queue α) (op : Op α) :
    Function.IsFixedPt access (finish q op) := by
  cases op <;> rfl

/-- `new_entry` alone. -/
theorem leads_newEntry (q : Queue α) (v : α) :
    Leads (q, .loadFree v) (q.newEntry.2, .loadValue v q.newEntry.1) := by
  cases hf : q.free with
  | none =>
    refine ⟨2, ?_⟩
    simp [access, advance, newEntryRound, Queue.newEntry, hf]
  | some entry =>
    refine ⟨4, ?_⟩
    simp [access, advance, newEntryRound, Queue.newEntry, hf]

/-- `put_data` and the second half of `push` alone. -/
theorem leads_publish (q : Queue α) (v : α) (entry : Ptr) : Leads (q, .loadValue v entry)
    ((q.set entry ((q.entries entry).putData v)).publish entry, .idle) := by
  refine ⟨5, ?_⟩
  cases hh : q.head with
  | none | some head => simp [access, advance, Queue.publish, Queue.set, Entry.putData, hh]

/-- `take_data` alone. -/
theorem leads_takeData (q : Queue α) (tail : Ptr) (next : Option Ptr) :
    Leads (q, .exchangeValue tail next) (q.set tail (q.entries tail).takeData.2,
      afterTake tail next (q.entries tail).takeData.1) := by
  cases hv : (q.entries tail).hasValue with
  | true =>
    refine ⟨2, ?_⟩
    simp [access, advance, Entry.takeData, Queue.set, hv]
  | false =>
    refine ⟨1, ?_⟩
    have hsame : { q.entries tail with hasValue := false } = q.entries tail := by
      rw [← hv]
    simp [access, advance, Entry.takeData, hv, hsame]

/-- `del_entry` alone. -/
theorem leads_delEntry (q : Queue α) (entry : Ptr) (ret : Option α) :
    Leads (q, .delLoad entry ret) (q.delEntry entry, .finished ret) := by
  refine ⟨3, ?_⟩
  simp [access, advance, Queue.delEntry, Queue.setNext, Queue.set]

/-- A call alone does what the sequential function says. -/
theorem leads_finish (q : Queue α) (op : Op α) : Leads (q, start op) (finish q op) := by
  cases op with
  | push v => exact (leads_newEntry q v).trans (leads_publish _ v _)
  | pop =>
    cases ht : q.tail with
    | none =>
      refine ⟨1, ?_⟩
      simp [access, advance, start, finish, Queue.pop, ht]
    | some tail =>
      have htake : Leads (q, start .pop)
          ({ q with tail := q.next tail }, .exchangeValue tail (q.next tail)) := by
        refine ⟨3, ?_⟩
        simp [access, advance, start, ht]
      refine (htake.trans (leads_takeData ..)).trans ?_
      cases hn : q.next tail with
      | none =>
        refine ⟨1, ?_⟩
        simp [access, advance, afterTake, finish, Queue.pop, ht, hn]
      | some n =>
        have hend : finish q .pop = (Queue.delEntry (Queue.set { q with tail := some n } tail
            (q.entries tail).takeData.2) tail, .finished (q.entries tail).takeData.1) := by
          simp [finish, Queue.pop, ht, hn]
        rw [hend]
        exact leads_delEntry ..

/-! ### Runs -/

/-- The thread that makes the step. -/
def Act.thread : Act ι α → ι
  | .push i _ | .pop i | .access i | .ret i => i

/-- No other thread is in a call. -/
def Alone (s : State ι α) (a : Act ι α) : Prop := ∀ j, j ≠ a.thread → s.threads j = .idle

instance [Fintype ι] [DecidableEq ι] [DecidableEq α] (s : State ι α) (a : Act ι α) :
    Decidable (Alone s a) := inferInstanceAs (Decidable (∀ _, _))

/-- The call that an action begins. -/
def Act.op : Act ι α → Option (Op α)
  | .push _ v => some (.push v)
  | .pop _ => some .pop
  | .access _ | .ret _ => none

/-- The answers of `pop`, `nullopt` included. -/
def answers (s : State ι α) : Act ι α → List (Option α)
  | .ret i =>
    match s.threads i with
    | .finished ret => [ret]
    | _ => []
  | .push .. | .pop _ | .access _ => []

private theorem results_append (q : Queue α) (ops ops' : List (Op α)) :
    q.results (ops ++ ops') = q.results ops ++ (q.run ops).results ops' := by
  induction ops generalizing q with
  | nil => rfl
  | cons op ops ih =>
    cases op with
    | push v => exact ih _
    | pop => exact congrArg _ (ih _)

section Runs

variable [DecidableEq ι] {capacity : Nat} {acts : List (Act ι α)} {s s' : State ι α} {a : Act ι α}

/-- Where a run without overlaps is, after calls `ops` that have got the answers `got`: between
two calls, or in a call. -/
inductive Solo (q : Queue α) (ops : List (Op α)) (got : List (Option α)) (s : State ι α) :
    Prop where
  | rest : (∀ j, s.threads j = .idle) → s.queue = q.run ops → got = q.results ops →
      Solo q ops got s
  | call (i : ι) (before : List (Op α)) (op : Op α) : s.threads i ≠ .idle →
      (∀ j, j ≠ i → s.threads j = .idle) → ops = before ++ [op] → got = q.results before →
      Leads (q.run before, start op) (s.queue, s.threads i) → Solo q ops got s

variable {q : Queue α} {ops : List (Op α)} {got : List (Option α)}

omit [DecidableEq ι] in
/-- While all threads are idle the run is between two calls. -/
theorem Solo.at_rest (h : Solo q ops got s) (hidle : ∀ j, s.threads j = .idle) :
    s.queue = q.run ops ∧ got = q.results ops := by
  cases h with
  | rest _ hq hgot => exact ⟨hq, hgot⟩
  | call i _ _ hi => exact absurd (hidle i) hi

private theorem Solo.begin {i : ι} {op : Op α} (h : Solo q ops got s)
    (hidle : ∀ j, s.threads j = .idle)
    (hq : s'.queue = s.queue) (ht : s'.threads = Function.update s.threads i (start op)) :
    Solo q (ops ++ [op]) got s' := by
  obtain ⟨hrun, hgot⟩ := h.at_rest hidle
  refine .call i ops op ?_ (fun j hji ↦ ?_) rfl hgot ?_
  · rw [ht, Function.update_self]
    cases op <;> simp [start]
  · rw [ht, Function.update_of_ne hji, hidle]
  · rw [hq, hrun, ht, Function.update_self]
    exact ⟨0, rfl⟩

/-- A thread makes an access of its call, or of none. -/
theorem Solo.access {i : ι} (h : Solo q ops got s) (halone : ∀ j, j ≠ i → s.threads j = .idle)
    (hq : s'.queue = (advance s.queue (s.threads i)).1)
    (ht : s'.threads = Function.update s.threads i (advance s.queue (s.threads i)).2) :
    Solo q ops got s' := by
  have hothers (j : ι) (hji : j ≠ i) : s'.threads j = .idle := by
    rw [ht, Function.update_of_ne hji, halone j hji]
  cases h with
  | rest hidle hrun hgot =>
    rw [hidle i] at hq ht
    refine .rest (fun j ↦ ?_) (hq.trans hrun) hgot
    by_cases hji : j = i
    · rw [hji, ht, Function.update_self]
      rfl
    · exact hothers j hji
  | call j before op hj hidle hops hgot hleads =>
    have hji : j = i := by
      by_contra hji
      exact hj (halone j hji)
    subst hji
    have hnext : Leads (q.run before, start op) (s'.queue, s'.threads j) := by
      refine hleads.trans ⟨1, ?_⟩
      rw [ht, Function.update_self, hq]
      rfl
    by_cases hend : s'.threads j = .idle
    · -- the call is over, and it was a `push`
      rw [hend] at hnext
      have hfinish := (leads_finish (q.run before) op).unique hnext (finish_fixed _ op) rfl
      cases op with
      | pop => cases congrArg Prod.snd hfinish
      | push v =>
        rw [finish, Prod.mk.injEq] at hfinish
        refine .rest (fun k ↦ ?_) ?_ ?_
        · by_cases hkj : k = j
          · rw [hkj, hend]
          · exact hothers k hkj
        · rw [hops, Queue.run_append, ← hfinish.1]
          rfl
        · rw [hops, results_append, hgot]
          exact (List.append_nil _).symm
    · exact .call j before op hend hothers hops hgot hnext

/-- A `pop` returns its answer. -/
theorem Solo.ret {i : ι} {ret : Option α} (h : Solo q ops got s) (hi : s.threads i = .finished ret)
    (halone : ∀ j, j ≠ i → s.threads j = .idle) (hq : s'.queue = s.queue)
    (ht : s'.threads = Function.update s.threads i .idle) : Solo q ops (got ++ [ret]) s' := by
  cases h with
  | rest hidle =>
    rw [hidle i] at hi
    cases hi
  | call j before op hj _ hops hgot hleads =>
    have hji : j = i := by
      by_contra hji
      exact hj (halone j hji)
    subst hji
    rw [hi] at hleads
    have hfinish := (leads_finish (q.run before) op).unique hleads (finish_fixed _ op) rfl
    cases op with
    | push v => cases congrArg Prod.snd hfinish
    | pop =>
      rw [finish, Prod.mk.injEq, Pc.finished.injEq] at hfinish
      refine .rest (fun k ↦ ?_) ?_ ?_
      · rw [ht]
        by_cases hkj : k = j
        · rw [hkj, Function.update_self]
        · rw [Function.update_of_ne hkj, halone k hkj]
      · rw [hops, Queue.run_append, hq, ← hfinish.1]
        rfl
      · rw [hops, results_append, hgot, ← hfinish.2]
        rfl

/-- Every step of a run without overlaps. -/
theorem Solo.step (h : Solo q ops got s) (halone : Alone s a) (hn : next s a = some s') :
    Solo q (ops ++ a.op.toList) (got ++ answers s a) s' := by
  obtain ⟨i, pc', hmoves, ht⟩ := next_moves hn
  generalize hpc : s.threads i = pc at hmoves
  generalize hq : s'.queue = q' at hmoves
  have hidle (hi : pc = .idle) (hothers : ∀ j, j ≠ i → s.threads j = .idle) (j : ι) :
      s.threads j = .idle := by
    by_cases hji : j = i
    · rw [hji, hpc, hi]
    · exact hothers j hji
  cases hmoves with
  | push i v =>
    rw [answers, List.append_nil]
    exact h.begin (hidle rfl halone) hq ht
  | pop i =>
    rw [answers, List.append_nil]
    exact h.begin (hidle rfl halone) hq ht
  | access i =>
    subst hpc
    rw [answers, Act.op, Option.toList_none, List.append_nil, List.append_nil]
    exact h.access halone hq ht
  | ret i ret =>
    have hanswers : answers s (.ret i) = [ret] := by rw [answers, hpc]
    rw [hanswers, Act.op, Option.toList_none, List.append_nil]
    exact h.ret hpc halone hq ht

/-- Calls that do not overlap behave as the sequential functions: between calls the queue and
the answers are those of the same calls made by one thread without loops. -/
theorem sequential_of_alone (capacity : Nat) {acts : List (Act ι α)} {s : State ι α}
    (hr : (system ι α capacity).RunBy Alone acts s) (hidle : ∀ i, s.threads i = .idle) :
    s.queue = (Queue.ofCapacity capacity).run (acts.filterMap Act.op) ∧
      (system ι α capacity).events answers acts =
        (Queue.ofCapacity capacity).results (acts.filterMap Act.op) := by
  have hsolo : Solo (.ofCapacity capacity) (acts.filterMap Act.op)
      ((system ι α capacity).events answers acts) s := by
    refine hr.invariant_of_run (I := fun acts s ↦ Solo (.ofCapacity capacity)
      (acts.filterMap Act.op) ((system ι α capacity).events answers acts) s)
        (.rest (fun _ ↦ rfl) rfl rfl) fun acts s a s' hr h halone hn ↦ ?_
    have hlast : [a].filterMap Act.op = a.op.toList := by
      cases h : a.op <;> simp [h]
    rw [hr.events_concat hn, List.filterMap_append, hlast]
    exact h.step halone hn
  exact hsolo.at_rest hidle

/-- Three threads take turns. -/
theorem sequential_of_alone_inTurn :
    let acts : List (Act (Fin 3) Nat) := pushAlone 0 10 ++ pushAlone 1 11 ++ popAlone 2
    ∃ s, (system (Fin 3) Nat 2).RunBy Alone acts s ∧
      s.queue = (Queue.ofCapacity 2).run [.push 10, .push 11, .pop] ∧
        (system (Fin 3) Nat 2).events answers acts = [some 10] := by
  have hrun : ∃ s, (system (Fin 3) Nat 2).RunBy Alone
      (pushAlone 0 10 ++ pushAlone 1 11 ++ popAlone 2) s ∧ ∀ i, s.threads i = .idle :=
    System.exists_runBy _ (by decide +kernel)
  obtain ⟨s, hr, hidle⟩ := hrun
  obtain ⟨hq, hanswers⟩ := sequential_of_alone 2 hr hidle
  exact ⟨s, hr, hq, hanswers.trans (by decide +kernel)⟩

end Runs

end Crasy.LfQueue.Concurrent
