import Crasy.Executor.Blocking

/-!
# What becomes of the tasks of the blocking pool

Library `Executor`. Each submitted task of `Crasy.Executor.Blocking` is with its caller, in
the queue, with one worker, or invoked, so that none is invoked twice. Whether the queue is
empty once the destructor has joined the workers is decided when it sets `blocking_done_`:
from then on a worker leaves as soon as a pop returns nothing, and a worker whose pop has
returned nothing before leaves without looking at the queue again.
-/

namespace Crasy.Executor.Blocking

open Crasy.Base Crasy.LfQueue

variable {ω κ τ : Type}

/-- The task that a step submits. -/
def Act.submits : Act ω κ τ → Option τ
  | .call _ t => some t
  | .caller _ _ | .worker _ | .spurious _ | .destroy => none

/-- The tasks submitted in a run, in order. -/
def submissions (acts : List (Act ω κ τ)) : List τ := acts.filterMap Act.submits

/-- Calls of `run_blocking` complete before the destructor starts. -/
def Orderly (s : State ω κ τ) : Act ω κ τ → Prop
  | .call _ _ => s.destructor = .idle
  | .destroy => s.destructor = .idle → ∀ c, s.callers c = .idle
  | .caller _ _ | .worker _ | .spurious _ => True

/-- The worker pops once more before it can leave. -/
def WorkerPc.popping : WorkerPc τ → Nat
  | .pop | .fetchSub _ | .invoke _ => 1
  | .lock | .evaluate | .block | .blocked | .relock | .checkDone | .exited => 0

private theorem WorkerPc.Waiting.popping {pc : WorkerPc τ} (h : pc.Waiting) : pc.popping = 0 := by
  cases pc <;> first | rfl | cases h

/-- No task is queued, or a worker that pops once more finds the queued tasks, even if
another one spends its pop on an emptied front entry. -/
def Drainable [Fintype ω] (s : State ω κ τ) : Prop :=
  s.tasks.values = [] ∨
    (if s.tasks.drained then 1 else 0) < tally WorkerPc.popping s.workers

/-- The steps of orderly runs in which `blocking_done_` is set only while the queue will be
drained, if `p` holds, or only while it will not. -/
def Decided [Fintype ω] (p : Prop) (s : State ω κ τ) (a : Act ω κ τ) : Prop :=
  Orderly s a ∧ (a = .destroy → s.destructor = .setDone → (Drainable s ↔ p))

/-- The steps of orderly runs in which `blocking_done_` is set only while the queue will be
drained. -/
def DrainOk [Fintype ω] (s : State ω κ τ) (a : Act ω κ τ) : Prop :=
  Orderly s a ∧ (a = .destroy → s.destructor = .setDone → Drainable s)

section Account

variable [DecidableEq τ]

/-- One for a caller that has yet to push the task. -/
def CallerPc.pushing (t : τ) : CallerPc τ → Nat
  | .push u => if u = t then 1 else 0
  | .idle | .fetchAdd | .tryLock | .unlock | .notify => 0

/-- One for a worker that has popped the task and has yet to invoke it. -/
def WorkerPc.carrying (t : τ) : WorkerPc τ → Nat
  | .fetchSub u | .invoke u => if u = t then 1 else 0
  | .pop | .lock | .evaluate | .block | .blocked | .relock | .checkDone | .exited => 0

private theorem WorkerPc.Waiting.carrying {pc : WorkerPc τ} {t : τ} (h : pc.Waiting) :
    pc.carrying t = 0 := by
  cases pc <;> first | rfl | cases h

variable [Fintype ω] [Fintype κ]

/-- How often a task is anywhere in the pool. -/
def State.account (s : State ω κ τ) (t : τ) : Nat :=
  tally (CallerPc.pushing t) s.callers + s.tasks.values.count t +
    tally (WorkerPc.carrying t) s.workers + s.invoked.count t

variable {s s' : State ω κ τ} {t : τ}

private theorem account_worker [DecidableEq ω] {w : ω} {pc : WorkerPc τ}
    (hw : s'.workers = Function.update s.workers w pc) (hc : s'.callers = s.callers)
    (hp : s'.tasks.values.count t + pc.carrying t + s'.invoked.count t =
      s.tasks.values.count t + (s.workers w).carrying t + s.invoked.count t) :
    s'.account t = s.account t := by
  have hu := tally_update (WorkerPc.carrying t) s.workers w pc
  simp only [State.account]
  rw [hw, hc]
  omega

private theorem account_caller [DecidableEq κ] {c : κ} {pc : CallerPc τ} {n : Nat}
    (hc : s'.callers = Function.update s.callers c pc) (hw : s'.workers = s.workers)
    (hi : s'.invoked = s.invoked) (hp : s'.tasks.values.count t + pc.pushing t =
      s.tasks.values.count t + (s.callers c).pushing t + n) :
    s'.account t = s.account t + n := by
  have hu := tally_update (CallerPc.pushing t) s.callers c pc
  simp only [State.account]
  rw [hc, hw, hi]
  omega

variable [DecidableEq ω] [DecidableEq κ]

omit [DecidableEq κ] in
/-- A worker's step moves its task on. -/
theorem account_workerStep {w : ω} (hn : workerStep s w = some s') :
    s'.account t = s.account t := by
  cases workerStep_moves hn with
  | pop_none hpc hp =>
    refine account_worker rfl rfl ?_
    simp [hpc, WorkerPc.carrying, State.setWorker, Content.pop_none hp]
  | pop_some hpc hp =>
    refine account_worker rfl rfl ?_
    simp [hpc, WorkerPc.carrying, State.setWorker, Content.pop_some hp, List.count_cons]
  | fetchSub hpc =>
    exact account_worker rfl rfl (by simp [hpc, WorkerPc.carrying, State.setWorker])
  | invoke hpc =>
    refine account_worker rfl rfl ?_
    simp [hpc, WorkerPc.carrying, State.setWorker, List.count_append, List.count_singleton]
    omega
  | wait hpc hto =>
    refine account_worker rfl rfl ?_
    rw [hpc.carrying]
    rcases hto with hto | ⟨rfl, -⟩
    · rw [hto.carrying]
      rfl
    · rfl

/-- A step of a call pushes its task or leaves the account alone. -/
theorem account_callerStep {c : κ} {wakes : Option ω} (hn : callerStep s c wakes = some s') :
    s'.account t = s.account t := by
  cases callerStep_moves hn with
  | push hpc =>
    refine account_caller (n := 0) rfl rfl rfl ?_
    simp [hpc, CallerPc.pushing, State.setCaller, List.count_append, List.count_singleton]
  | fetchAdd hpc | unlock hpc | notify hpc =>
    exact account_caller (n := 0) rfl rfl rfl (by simp [hpc, CallerPc.pushing, State.setCaller])
  | tryLock hpc hto =>
    rcases hto with rfl | rfl <;>
      exact account_caller (n := 0) rfl rfl rfl (by simp [hpc, CallerPc.pushing, State.setCaller])
  | @wake w hpc hb =>
    have hwoken : (s.setWorker w .relock).account t = s.account t :=
      account_worker rfl rfl (by simp [hb, WorkerPc.carrying, State.setWorker])
    rw [← hwoken]
    refine account_caller (n := 0) rfl rfl rfl ?_
    simp [hpc, CallerPc.pushing, State.setCaller, State.setWorker]

/-- A step adds to the account what it submits, and nothing else. -/
theorem account_next {a : Act ω κ τ} (hn : next s a = some s') :
    s'.account t = s.account t + a.submits.toList.count t := by
  cases a with
  | call c u =>
    simp only [next] at hn
    split at hn
    · next hpc =>
      cases hn
      refine account_caller rfl rfl rfl ?_
      simp [hpc, CallerPc.pushing, Act.submits, State.setCaller, List.count_singleton]
    · cases hn
  | caller c wakes => exact account_callerStep hn
  | worker w => exact account_workerStep hn
  | spurious w =>
    simp only [next] at hn
    split at hn
    · next hb =>
      cases hn
      exact account_worker rfl rfl (by simp [hb, WorkerPc.carrying, State.setWorker])
    · cases hn
  | destroy =>
    obtain ⟨ht, -, hc, hi, hw⟩ := destructorStep_cases hn
    have hcarry : tally (WorkerPc.carrying t) s'.workers =
        tally (WorkerPc.carrying t) s.workers := tally_woken rfl hw
    simp [State.account, ht, hc, hi, hcarry, Act.submits]

/-- In every run each task is in the pool as often as it was submitted. -/
theorem account_eq {ok : State ω κ τ → Act ω κ τ → Prop} {acts : List (Act ω κ τ)}
    (hr : (system ω κ τ).RunBy ok acts s) (t : τ) : s.account t = (submissions acts).count t := by
  refine hr.invariant (I := fun acts s ↦ s.account t = (submissions acts).count t) ?_
    fun acts s a s' hi _ hn ↦ ?_
  · simp [State.account, system, init, tally, submissions, Content.empty, CallerPc.pushing,
      WorkerPc.carrying]
  · rw [account_next hn, hi, submissions, submissions, List.filterMap_append, List.count_append]
    cases ha : a.submits <;> simp [ha]

end Account

/-! ### The queue at the end -/

section Drain

variable [DecidableEq ω] [DecidableEq κ] [DecidableEq τ] [Fintype ω] {s s' : State ω κ τ}

/-- The destructor has set `blocking_done_`. -/
def DestructorPc.PastSetDone : DestructorPc → Prop
  | .idle | .lock | .setDone => False
  | .unlock | .notifyAll | .join | .joined => True

/-- Where the destructor stands tells what the other threads may do. -/
structure Staged (s : State ω κ τ) : Prop where
  callers : s.destructor ≠ .idle → ∀ c, s.callers c = .idle
  done_iff : s.done = true ↔ s.destructor.PastSetDone
  joined : s.destructor = .joined → ∀ w, s.workers w = .exited

omit [DecidableEq ω] [DecidableEq κ] [DecidableEq τ] [Fintype ω] in
/-- `blocking_done_` is set only once the destructor has started. -/
theorem Staged.started (h : Staged s) (hd : s.done = true) : s.destructor ≠ .idle := by
  intro hidle
  have := h.done_iff.mp hd
  rw [hidle] at this
  exact this

omit [DecidableEq κ] [DecidableEq τ] in
private theorem drainable_of_keep {w : ω} {pc : WorkerPc τ}
    (hw : s'.workers = Function.update s.workers w pc) (ht : s'.tasks = s.tasks)
    (hpc : pc.popping = (s.workers w).popping) : Drainable s' ↔ Drainable s := by
  have hu := tally_update WorkerPc.popping s.workers w pc
  have hsame : tally WorkerPc.popping s'.workers = tally WorkerPc.popping s.workers := by
    rw [hw]
    omega
  rw [Drainable, Drainable, ht, hsame]

omit [DecidableEq κ] [DecidableEq τ] in
private theorem drainable_pop {w : ω} (hpc : s.workers w = .pop) :
    Drainable ({ s with tasks := s.tasks.pop.2 }.setWorker w
      (match s.tasks.pop.1 with | some t => .fetchSub t | none => .lock)) ↔ Drainable s := by
  have hpos := le_tally WorkerPc.popping s.workers w
  have hlock := tally_update WorkerPc.popping s.workers w .lock
  simp only [hpc, WorkerPc.popping] at hpos hlock
  cases hv : s.tasks.values with
  | nil => simp only [Drainable, State.setWorker, Content.pop_nil hv, hv, true_or]
  | cons t rest =>
    have hfetch := tally_update WorkerPc.popping s.workers w (.fetchSub t)
    simp only [hpc, WorkerPc.popping] at hfetch
    cases hd : s.tasks.drained with
    | true =>
      simp only [Drainable, State.setWorker, Content.pop_drained hd (by simp [hv]), hv, hd]
      simp
      omega
    | false =>
      simp only [Drainable, State.setWorker, Content.pop_cons hd hv, hv, hd]
      cases rest <;> simp <;> omega

omit [DecidableEq κ] [DecidableEq τ] in
/-- Once `blocking_done_` is set, a worker's step decides nothing about the queue. -/
theorem drainable_workerStep {w : ω} (hd : s.done = true) (hn : workerStep s w = some s') :
    Drainable s' ↔ Drainable s := by
  cases workerStep_moves hn with
  | pop_none hpc hp =>
    have hiff := drainable_pop (s := s) hpc
    rwa [hp] at hiff
  | pop_some hpc hp =>
    have hiff := drainable_pop (s := s) hpc
    rwa [hp] at hiff
  | fetchSub hpc | invoke hpc => exact drainable_of_keep rfl rfl (by simp [hpc, WorkerPc.popping])
  | wait hpc hto =>
    -- back to the queue it does not go any more
    have hto' := hto.resolve_right fun hpop ↦ by simp [hd] at hpop
    exact drainable_of_keep rfl rfl (hto'.popping.trans hpc.popping.symm)

/-- Once `blocking_done_` is set, an orderly step decides nothing about the queue. -/
theorem drainable_next {a : Act ω κ τ} (h : Staged s) (hd : s.done = true) (hok : Orderly s a)
    (hn : next s a = some s') : Drainable s' ↔ Drainable s := by
  have hstarted := h.started hd
  cases a with
  | call c t => exact absurd hok hstarted
  | caller c wakes =>
    have hc := h.callers hstarted c
    simp [next, callerStep, hc] at hn
  | worker w => exact drainable_workerStep hd hn
  | spurious w =>
    simp only [next] at hn
    split at hn
    · next hb =>
      cases hn
      exact drainable_of_keep rfl rfl (by simp [hb, WorkerPc.popping])
    · cases hn
  | destroy =>
    obtain ⟨ht, -, -, -, hw⟩ := destructorStep_cases hn
    rw [Drainable, Drainable, ht, tally_woken rfl hw]

omit [DecidableEq κ] [DecidableEq τ] [Fintype ω] in
/-- What a worker's step leaves alone. -/
theorem workerStep_frame {w : ω} (hn : workerStep s w = some s') :
    s'.callers = s.callers ∧ s'.done = s.done ∧ s'.destructor = s.destructor := by
  cases workerStep_moves hn with
  | pop_none | pop_some | fetchSub | invoke | wait => exact ⟨rfl, rfl, rfl⟩

/-- What a caller's step leaves alone. -/
theorem callerStep_frame {c : κ} {wakes : Option ω} (hn : callerStep s c wakes = some s') :
    s'.done = s.done ∧ s'.destructor = s.destructor := by
  cases callerStep_moves hn with
  | push | fetchAdd | tryLock | unlock | notify | wake => exact ⟨rfl, rfl⟩

omit [DecidableEq ω] [DecidableEq κ] in
/-- A step of the destructor takes it to its next stage. -/
theorem destructorStep_stage (hd : s.done = true ↔ s.destructor.PastSetDone)
    (hn : destructorStep s = some s') : (s'.done = true ↔ s'.destructor.PastSetDone) ∧
      (s'.destructor = .joined → ∀ w, s'.workers w = .exited) := by
  simp only [destructorStep] at hn
  split at hn
  · next hs =>
    cases hn
    simpa [hs, DestructorPc.PastSetDone] using hd
  · next hs =>
    split at hn
    · cases hn
    · cases hn
      simpa [hs, DestructorPc.PastSetDone] using hd
  · cases hn
    simp [DestructorPc.PastSetDone]
  · next hs =>
    cases hn
    simpa [hs, DestructorPc.PastSetDone] using hd
  · next hs =>
    cases hn
    simpa [hs, DestructorPc.PastSetDone] using hd
  · next hs =>
    split at hn
    · next hw =>
      cases hn
      rw [hs] at hd
      exact ⟨hd, fun _ ↦ hw⟩
    · cases hn
  · cases hn

/-- Orderly steps keep the stages. -/
theorem Staged.next {a : Act ω κ τ} (h : Staged s) (hok : Orderly s a)
    (hn : next s a = some s') : Staged s' := by
  cases a with
  | call c t =>
    simp only [Blocking.next] at hn
    split at hn
    · cases hn
      have hidle : s.destructor = .idle := hok
      refine ⟨fun hd ↦ absurd hidle hd, h.done_iff, fun hj ↦ ?_⟩
      have : s.destructor = .joined := hj
      simp [hidle] at this
    · cases hn
  | caller c wakes =>
    have hidle : s.destructor = .idle := by
      by_contra hd
      have hc := h.callers hd c
      simp [Blocking.next, callerStep, hc] at hn
    obtain ⟨hdone, hdes⟩ := callerStep_frame hn
    refine ⟨fun hd ↦ absurd (hdes.trans hidle) hd, ?_, fun hj ↦ ?_⟩
    · rw [hdone, hdes]
      exact h.done_iff
    · simp [hdes, hidle] at hj
  | worker w =>
    obtain ⟨hc, hdone, hdes⟩ := workerStep_frame hn
    refine ⟨?_, ?_, fun hj ↦ ?_⟩
    · rw [hc, hdes]
      exact h.callers
    · rw [hdone, hdes]
      exact h.done_iff
    · rw [hdes] at hj
      simp [Blocking.next, workerStep, h.joined hj w] at hn
  | spurious w =>
    simp only [Blocking.next] at hn
    split at hn
    · next hb =>
      cases hn
      refine ⟨h.callers, h.done_iff, fun hj ↦ ?_⟩
      have := h.joined hj w
      simp [hb] at this
    · cases hn
  | destroy =>
    have hcallers : ∀ c, s.callers c = .idle := by
      by_cases hd : s.destructor = .idle
      · exact hok hd
      · exact h.callers hd
    obtain ⟨-, -, hc, -⟩ := destructorStep_cases hn
    obtain ⟨hdone, hj⟩ := destructorStep_stage h.done_iff hn
    exact ⟨fun _ c ↦ by rw [hc]; exact hcallers c, hdone, hj⟩

/-- Whether the queue will be drained is decided, one way or the other, when
`blocking_done_` is set. -/
theorem drainable_iff {p : Prop} {acts : List (Act ω κ τ)}
    (hr : (system ω κ τ).RunBy (Decided p) acts s) :
    Staged s ∧ (s.done = true → (Drainable s ↔ p)) := by
  refine hr.invariant (I := fun _ s ↦ Staged s ∧ (s.done = true → (Drainable s ↔ p))) ⟨?_, ?_⟩
    fun _ s a s' hi hok hn ↦ ⟨hi.1.next hok.1 hn, fun hd' ↦ ?_⟩
  · refine ⟨fun hd ↦ absurd rfl hd, ⟨fun hd ↦ ?_, False.elim⟩, fun hj ↦ ?_⟩
    · cases hd
    · cases hj
  · intro hd
    cases hd
  · by_cases hd : s.done = true
    · exact (drainable_next hi.1 hd hok.1 hn).trans (hi.2 hd)
    -- only the destructor sets the flag, and nothing else in that step
    · cases a with
      | destroy =>
        simp only [system, Blocking.next, destructorStep] at hn
        split at hn
        case h_3 hs =>
          cases hn
          exact hok.2 rfl hs
        case h_2 | h_6 =>
          split at hn <;> cases hn
          exact absurd hd' hd
        all_goals cases hn <;> exact absurd hd' hd
      | call c t =>
        simp only [system, Blocking.next] at hn
        split at hn <;> cases hn
        exact absurd hd' hd
      | caller c wakes => exact absurd ((callerStep_frame hn).1 ▸ hd') hd
      | worker w => exact absurd ((workerStep_frame hn).2.1 ▸ hd') hd
      | spurious w =>
        simp only [system, Blocking.next] at hn
        split at hn <;> cases hn
        exact absurd hd' hd

/-- Once the workers are joined, the queue is empty exactly if it was to be drained when
`blocking_done_` was set. -/
theorem values_eq_nil_iff {p : Prop} {acts : List (Act ω κ τ)}
    (hr : (system ω κ τ).RunBy (Decided p) acts s) (hj : s.destructor = .joined) :
    s.tasks.values = [] ↔ p := by
  obtain ⟨hst, hp⟩ := drainable_iff hr
  have hdone : s.done = true := hst.done_iff.mpr (by rw [hj]; trivial)
  have hnone : tally WorkerPc.popping s.workers = 0 :=
    tally_eq_zero.mpr fun w ↦ by rw [hst.joined hj w]; rfl
  rw [← hp hdone, Drainable, hnone]
  simp

variable [Fintype κ]

/-- In an orderly run in which `blocking_done_` is set only while the queue will be drained, no
task is invoked more often than it was submitted, and each has been invoked as often once the
workers are joined. -/
theorem invoked_once {acts : List (Act ω κ τ)} (hr : (system ω κ τ).RunBy DrainOk acts s) :
    s.invoked.Subperm (submissions acts) ∧ (s.destructor = .joined →
      s.tasks.values = [] ∧ s.invoked.Perm (submissions acts)) := by
  have hcount := account_eq hr
  constructor
  · apply List.subperm_ext_iff.mpr
    intro t _
    rw [← hcount t, State.account]
    exact Nat.le_add_left ..
  · intro hj
    have hr' : (system ω κ τ).RunBy (Decided True) acts s :=
      hr.mono fun _ _ h ↦ ⟨h.1, fun ha hs ↦ iff_true_intro (h.2 ha hs)⟩
    have hempty := (values_eq_nil_iff hr' hj).mpr trivial
    obtain ⟨hst, -⟩ := drainable_iff hr'
    refine ⟨hempty, List.perm_iff_count.mpr fun t ↦ ?_⟩
    have hidle : tally (CallerPc.pushing t) s.callers = 0 :=
      tally_eq_zero.mpr fun c ↦ by rw [hst.callers (by simp [hj]) c]; rfl
    have hexited : tally (WorkerPc.carrying t) s.workers = 0 :=
      tally_eq_zero.mpr fun w ↦ by rw [hst.joined hj w]; rfl
    have h := hcount t
    simp only [State.account, hempty, hidle, hexited, List.count_nil] at h
    omega

end Drain

section Decide

variable [DecidableEq ω] [DecidableEq κ] [DecidableEq τ] [Fintype ω] [Fintype κ]

instance (s : State ω κ τ) (a : Act ω κ τ) : Decidable (Orderly s a) :=
  match a with
  | .call _ _ => inferInstanceAs (Decidable (_ = _))
  | .destroy => inferInstanceAs (Decidable (s.destructor = .idle → ∀ c, s.callers c = .idle))
  | .caller _ _ | .worker _ | .spurious _ => isTrue trivial

instance (s : State ω κ τ) : Decidable (Drainable s) := inferInstanceAs (Decidable (_ ∨ _))

instance (s : State ω κ τ) (a : Act ω κ τ) : Decidable (DrainOk s a) :=
  inferInstanceAs (Decidable (_ ∧ _))

end Decide

/-- The destructor sets `blocking_done_`, wakes the worker, which leaves, and joins it. -/
def destroyed (w : ω) : List (Act ω κ τ) :=
  List.replicate 5 .destroy ++ List.replicate 3 (.worker w) ++ [.destroy]

/-- A submitted task is invoked, and then the pool is destroyed. -/
theorem invoked_once_submitted : ∃ s, (system (Fin 1) (Fin 1) Nat).RunBy DrainOk
    (submitted 0 0 7 ++ destroyed 0) s ∧ s.destructor = .joined ∧ s.invoked.Perm [7] := by
  have hrun : ∃ s, (system (Fin 1) (Fin 1) Nat).RunBy DrainOk (submitted 0 0 7 ++ destroyed 0) s ∧
      s.destructor = .joined := System.exists_runBy _ (by decide)
  obtain ⟨s, hr, hj⟩ := hrun
  exact ⟨s, hr, hj, ((invoked_once hr).2 hj).2⟩

/-- The worker is blocked; a caller submits a task, which wakes it, and at once the pool is
destroyed: the worker leaves without having popped the task. -/
def abandoned (w : ω) (c : κ) (task : τ) : List (Act ω κ τ) :=
  List.replicate 4 (.worker w) ++ .call c task :: List.replicate 4 (.caller c none) ++
    .caller c (some w) :: destroyed w

/-- A task that was submitted before the destructor started is never invoked. -/
theorem not_invoked_abandoned : ¬∀ acts s, (system (Fin 1) (Fin 1) Nat).RunBy Orderly acts s →
    s.destructor = .joined → s.invoked.Perm (submissions acts) := by
  intro h
  have hrun : ∃ s, (system (Fin 1) (Fin 1) Nat).RunBy Orderly (abandoned 0 0 7) s ∧
      s.destructor = .joined ∧ s.invoked = [] := System.exists_runBy _ (by decide)
  obtain ⟨s, hr, hj, hi⟩ := hrun
  have hperm := h _ s hr hj
  rw [hi] at hperm
  revert hperm
  decide

end Crasy.Executor.Blocking
