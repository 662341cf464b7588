import Crasy.Executor.Blocking

/-!
# The pending counter of the blocking pool

Library `Executor`. The word `blocking_waiting_` of `Crasy.Executor.Blocking` against the
`fetch_add`s and `fetch_sub`s that a run has performed. `run_blocking` pushes its task before
it counts it (`src/executor.cpp:130–131`), and a worker discounts a task as soon as it has popped
it (`src/executor.cpp:153–155`), so nothing orders the two accesses for one task. Modulo `2 ^ 64`
the word is right all the same, in every run (`waiting_add_fetchSubs_mod`).
-/

namespace Crasy.Executor.Blocking

open Crasy.Base Crasy.LfQueue

variable {ω κ τ : Type}

/-- How many `fetch_sub`s a step applies to 0. -/
def Act.subsAtZero (s : State ω κ τ) (a : Act ω κ τ) : Nat :=
  if s.waiting = 0 then a.subs s else 0

/-- The steps at which the counter does not wrap. A worker discounts a task only while some of
the pending tasks is counted; and a caller counts one only while fewer than `2 ^ 64 - 1` of them
are. -/
def CountOk [Fintype ω] [Fintype κ] (s : State ω κ τ) (a : Act ω κ τ) : Prop :=
  (0 < a.subs s → tally CallerPc.adding s.callers < s.pending) ∧
    (0 < a.adds s → s.pending + 1 < tally CallerPc.adding s.callers + 2 ^ 64)

private theorem Act.adds_add_subs_le (s : State ω κ τ) (a : Act ω κ τ) :
    a.adds s + a.subs s ≤ 1 := by
  cases a with
  | caller c wakes =>
    simp only [Act.adds, Act.subs]
    cases s.callers c <;> simp [CallerPc.adding]
  | worker w =>
    simp only [Act.adds, Act.subs]
    cases s.workers w <;> simp [WorkerPc.discounting]
  | call c t | spurious w | destroy => simp [Act.adds, Act.subs]

section Histories

variable [DecidableEq ω] [DecidableEq κ] [DecidableEq τ] [Fintype ω] {s s' : State ω κ τ}
  {acts : List (Act ω κ τ)}

/-- The `fetch_add`s of a run. -/
def fetchAdds (acts : List (Act ω κ τ)) : Nat := (system ω κ τ).total Act.adds acts

/-- The `fetch_sub`s of a run. -/
def fetchSubs (acts : List (Act ω κ τ)) : Nat := (system ω κ τ).total Act.subs acts

/-- The `fetch_sub`s of a run that were applied to 0. -/
def fetchSubsAtZero (acts : List (Act ω κ τ)) : Nat := (system ω κ τ).total Act.subsAtZero acts

/-- The counter is the number of `fetch_add`s less that of `fetch_sub`s, of which none was
applied to 0; and while it is above 0 a task is queued, or popped and not yet discounted. -/
structure Exact (acts : List (Act ω κ τ)) (s : State ω κ τ) : Prop where
  waiting : (s.waiting.toNat : Int) = fetchAdds acts - fetchSubs acts
  above_zero : fetchSubsAtZero acts = 0
  task : 0 < s.waiting → s.tasks.values ≠ [] ∨ ∃ w t, s.workers w = .fetchSub t

variable [Fintype κ]

/-- In every run the tasks counted so far and those yet to be counted are the tasks discounted so
far and those pending. -/
theorem fetchAdds_add_adding {ok : State ω κ τ → Act ω κ τ → Prop}
    (hr : (system ω κ τ).RunBy ok acts s) :
    fetchAdds acts + tally CallerPc.adding s.callers = fetchSubs acts + s.pending := by
  induction hr with
  | init =>
    simp [fetchAdds, fetchSubs, State.pending, tally, system, init, Content.empty,
      CallerPc.adding, WorkerPc.discounting]
  | step hr _ hn ih =>
    have hbalance := (Counts.next hn).balance
    simp only [fetchAdds, fetchSubs] at ih ⊢
    rw [hr.total_concat hn, hr.total_concat hn]
    omega

/-- Modulo its width the counter is right in every run. -/
theorem waiting_add_fetchSubs_mod {ok : State ω κ τ → Act ω κ τ → Prop}
    (hr : (system ω κ τ).RunBy ok acts s) :
    (s.waiting.toNat + fetchSubs acts) % 2 ^ 64 = fetchAdds acts % 2 ^ 64 := by
  induction hr with
  | init => rfl
  | step hr _ hn ih =>
    have hmod := (Counts.next hn).waiting
    simp only [fetchAdds, fetchSubs] at ih ⊢
    rw [hr.total_concat hn, hr.total_concat hn]
    omega

/-- As long as the counter has not wrapped, it holds the pending tasks that are counted. -/
theorem waiting_add_adding {ok : State ω κ τ → Act ω κ τ → Prop}
    (hr : (system ω κ τ).RunBy ok acts s)
    (hw : s.waiting.toNat + fetchSubs acts = fetchAdds acts) :
    s.waiting.toNat + tally CallerPc.adding s.callers = s.pending := by
  have hsum := fetchAdds_add_adding hr
  omega

/-- From a counter that has not wrapped, a step reaches another one exactly under its condition. -/
theorem waiting_next_iff {a : Act ω κ τ}
    (hw : s.waiting.toNat + tally CallerPc.adding s.callers = s.pending)
    (hn : next s a = some s') :
    s'.waiting.toNat + a.subs s = s.waiting.toNat + a.adds s ↔ CountOk s a := by
  have hone := a.adds_add_subs_le s
  have hmod := (Counts.next hn).waiting
  have hlt := s.waiting.isLt
  have hlt' := s'.waiting.isLt
  simp only [CountOk]
  constructor
  · intro heq
    constructor <;> omega
  · rintro ⟨hsub, hadd⟩
    omega

omit [DecidableEq ω] [DecidableEq κ] [DecidableEq τ] in
private theorem subsAtZero_eq_zero {a : Act ω κ τ}
    (hw : s.waiting.toNat + tally CallerPc.adding s.callers = s.pending) (hok : CountOk s a) :
    a.subsAtZero s = 0 := by
  simp only [Act.subsAtZero]
  split
  · next hzero =>
    by_contra hpos
    have hlt := hok.1 (Nat.pos_of_ne_zero hpos)
    have : s.waiting.toNat = 0 := congrArg BitVec.toNat hzero
    omega
  · rfl

omit [DecidableEq ω] [DecidableEq κ] [DecidableEq τ] [Fintype κ] in
private theorem pending_pos (h : 0 < s.pending) :
    s.tasks.values ≠ [] ∨ ∃ w t, s.workers w = .fetchSub t := by
  by_cases hq : s.tasks.values = []
  · refine .inr ?_
    simp only [State.pending, hq, List.length_nil, Nat.zero_add] at h
    obtain ⟨w, hw⟩ := tally_pos.mp h
    cases hpc : s.workers w with
    | fetchSub t => exact ⟨w, t, hpc⟩
    | pop | invoke | lock | evaluate | block | blocked | relock | checkDone | exited =>
      simp [hpc, WorkerPc.discounting] at hw
  · exact .inl hq

/-- In every state of a run the counter is the number of `fetch_add`s less that of `fetch_sub`s,
none of which was applied to 0, and it announces only tasks that are there, exactly when each
`fetch_sub` comes while some pending task is counted and each `fetch_add` while fewer than
`2 ^ 64 - 1` are. -/
theorem waiting_exact_iff (hr : (system ω κ τ).Run acts s) :
    (∀ before t, before <+: acts → (system ω κ τ).Run before t → Exact before t) ↔
      (system ω κ τ).RunBy CountOk acts s := by
  refine hr.histories_iff (I := fun acts s ↦ (system ω κ τ).Run acts s)
    (J := fun acts s ↦ s.waiting.toNat + fetchSubs acts = fetchAdds acts ∧
      fetchSubsAtZero acts = 0) ⟨.init, rfl, rfl⟩ (fun _ _ _ _ h hn ↦ h.step trivial hn)
    (fun acts s a s' h hj hok hn ↦ ?_) (fun acts s h hj ↦ ?_) fun acts s a s' h hj hbad hn hex ↦ ?_
  · have hw := waiting_add_adding h hj.1
    have hnext := (waiting_next_iff hw hn).mpr hok
    have hzero := subsAtZero_eq_zero hw hok
    simp only [fetchAdds, fetchSubs, fetchSubsAtZero] at hj ⊢
    rw [h.total_concat hn, h.total_concat hn, h.total_concat hn]
    omega
  · have hw := waiting_add_adding h hj.1
    refine ⟨by omega, hj.2, fun hpos ↦ pending_pos ?_⟩
    have : 0 < s.waiting.toNat := hpos
    omega
  · refine hbad ((waiting_next_iff (waiting_add_adding h hj.1) hn).mp ?_)
    have hw := hex.waiting
    simp only [fetchAdds, fetchSubs] at hj hw
    rw [h.total_concat hn, h.total_concat hn] at hw
    omega

instance (s : State ω κ τ) (a : Act ω κ τ) : Decidable (CountOk s a) :=
  inferInstanceAs (Decidable (_ ∧ _))

/-- The counter is exact throughout a run that submits a task to a blocked worker. -/
theorem waiting_exact_submitted : ∃ s, (system (Fin 1) (Fin 1) Nat).Run (submitted 0 0 7) s ∧
    s.invoked = [7] ∧ ∀ before t, before <+: submitted 0 0 7 →
      (system (Fin 1) (Fin 1) Nat).Run before t → Exact before t := by
  have hrun : ∃ s, (system (Fin 1) (Fin 1) Nat).RunBy CountOk (submitted 0 0 7) s ∧
      s.invoked = [7] := System.exists_runBy (submitted 0 0 7) (by decide)
  obtain ⟨s, hr, hi⟩ := hrun
  have hall : (system (Fin 1) (Fin 1) Nat).Run (submitted 0 0 7) s := hr.mono fun _ _ _ ↦ trivial
  exact ⟨s, hall, hi, (waiting_exact_iff hall).mpr hr⟩

/-- Worker `v` is about to evaluate the predicate. A caller pushes its task, and worker `w` pops
and discounts it before the caller counts it. -/
def overtaken (v w : ω) (c : κ) (task : τ) : List (Act ω κ τ) :=
  [.worker v, .worker v, .call c task, .caller c none, .worker w, .worker w]

/-- The counter has wrapped to its greatest value, and announces a task although none is left. -/
theorem waiting_wraps : ∃ s, (system (Fin 2) (Fin 1) Nat).Run (overtaken 0 1 0 7) s ∧
    s.waiting = BitVec.allOnes 64 ∧ s.workers 0 = .evaluate ∧ s.ready = true ∧ s.pending = 0 ∧
      ¬Exact (overtaken 0 1 0 7) s := by
  have hrun : ∃ s, (system (Fin 2) (Fin 1) Nat).Run (overtaken 0 1 0 7) s ∧
      s.waiting = BitVec.allOnes 64 ∧ s.workers 0 = .evaluate ∧ s.ready = true ∧ s.pending = 0 :=
    System.exists_runBy (overtaken 0 1 0 7) (by decide)
  obtain ⟨s, hr, hw, hv, hready, hp⟩ := hrun
  refine ⟨s, hr, hw, hv, hready, hp, fun hex ↦ ?_⟩
  have hzero : fetchSubsAtZero (overtaken 0 1 0 7 : List (Act (Fin 2) (Fin 1) Nat)) = 1 := by decide
  rw [hex.above_zero] at hzero
  cases hzero

end Histories

end Crasy.Executor.Blocking
