import Crasy.Future.Settling

/-!
# What block_on reports of its task

Library `Future`. Models the coroutines that `executor::block_on` wraps around a callable:
the one of `block_on_impl` (`src/executor.cpp:93–101`), which sets `done` after its
`co_await`, and the lambda that fills `ret` (`include/crasy/executor.hpp:51–53`), with what
the released caller then returns (`src/executor.cpp:107–115`,
`include/crasy/executor.hpp:54`). Both are coroutines of `Crasy.Future.Tree` around any task.
-/

namespace Crasy.Future.BlockOn

open Crasy.Base

variable {ν ε κ : Type}

/-- What the future of a callable carries: nothing, an object, or a reference. -/
inductive Kind where
  | void
  | object
  | reference
  deriving DecidableEq, Repr

/-- A call of the callable: it throws, or returns the future of a task. -/
inductive Call (ν ε κ : Type) where
  | throws (e : ε)
  | returns (task : Body ν ε κ 0)

/-- Actions of the wrapping coroutines on the locals `ret`, `done` and `cv`, and those of the
task. -/
inductive Action (ν κ : Type) where
  | emplace (v : ν)
  | setDone
  | notify
  | task (a : κ)

/-- The outcome of a call: its exception, or that of its task. -/
def Call.outcome : Call ν ε κ → Except ε ν
  | .throws e => .error e
  | .returns task => (task.eval Fin.elim0).2

/-- The lambda of `block_on`: `ret.emplace(co_await f())`; `include/crasy/executor.hpp:51–53`.
`unit` is what a coroutine without a value returns. -/
def fillRet (unit : ν) : Call ν ε (Action ν κ) → Body ν ε (Action ν κ) 0
  | .throws e => .throw e
  | .returns task => .start task (.await (Fin.last 0) fun
    | .ok v => .emit (.emplace v) (.ret unit)
    | .error e => .throw e)

/-- The coroutine of `block_on_impl`: `co_await fn(ptr)`, then `dn = true` and
`cond_var.notify_one()`; `src/executor.cpp:93–101`. -/
def wrapper (unit : ν) : Call ν ε (Action ν κ) → Body ν ε (Action ν κ) 0
  | .throws e => .throw e
  | .returns task => .start task (.await (Fin.last 0) fun
    | .ok _ => .emit .setDone (.emit .notify (.ret unit))
    | .error e => .throw e)

/-- The same call as one of a coroutine among those of `block_on`. -/
def Call.lift : Call ν ε κ → Call ν ε (Action ν κ)
  | .throws e => .throws e
  | .returns task => .returns (task.mapActions .task)

/-- What `block_on` runs on the executor; `include/crasy/executor.hpp:33–53`. -/
def blockOnTask (unit : ν) (kind : Kind) (call : Call ν ε κ) : Body ν ε (Action ν κ) 0 :=
  match kind with
  | .void => wrapper unit call.lift
  | .object | .reference => wrapper unit (.returns (fillRet unit call.lift))

/-- How a call of `block_on` stands or ends. -/
inductive Result (ν ε : Type) where
  | blocked
  | returned (v : ν)
  | dangling
  | emptyOption
  | threw (e : ε)
  deriving DecidableEq, Repr

/-- The value of an `emplace`. -/
def Action.emplaced : Action ν κ → Option ν
  | .emplace v => some v
  | .setDone | .notify | .task _ => none

/-- The action sets `done`. -/
def Action.isSetDone : Action ν κ → Bool
  | .setDone => true
  | .emplace _ | .notify | .task _ => false

/-- The local `done`, which only the coroutine of `block_on_impl` sets. -/
def done (s : State ν ε (Action ν κ)) : Bool := (s.frames 0).log.any Action.isSetDone

/-- The local `ret`, which only the lambda fills; its frame is the one after the wrapper's. -/
def ret (s : State ν ε (Action ν κ)) : Option ν :=
  ((s.frames 1).log.filterMap Action.emplaced).getLast?

/-- What the caller gets: it waits for `done`, drops the wrapper with whatever its promise
holds, and returns. `*std::move(ret)` is a reference, for an object one into the local
`ret`, and `decltype(auto)` returns it as a reference; `include/crasy/option.hpp:73,231`. -/
def blockOn (unit : ν) (kind : Kind) (s : State ν ε (Action ν κ)) : Result ν ε :=
  if done s then
    match kind with
    | .void => .returned unit
    | .object => .dangling
    | .reference =>
      match ret s with
      | some v => .returned v
      | none => .emptyOption
  else .blocked

/-- What the outcome of the task demands of `block_on`. -/
def expected (unit : ν) (kind : Kind) : Except ε ν → Result ν ε
  | .ok v => .returned (if kind = .void then unit else v)
  | .error e => .threw e

/-- The caller is released and gets the outcome of the task. -/
def Reports (unit : ν) (kind : Kind) (call : Call ν ε κ) (s : State ν ε (Action ν κ)) : Prop :=
  done s = true ∧ blockOn unit kind s = expected unit kind call.outcome

/-! ### The outcome through the wrapping coroutines -/

private theorem Call.lift_outcome (call : Call ν ε κ) : call.lift.outcome = call.outcome := by
  cases call with
  | throws e => rfl
  | returns task => simp [Call.lift, Call.outcome, Body.eval_mapActions]

private theorem eval_wrapper (unit : ν) (call : Call ν ε (Action ν κ)) :
    (wrapper unit call).eval Fin.elim0 = match call.outcome with
      | .ok _ => ([.setDone, .notify], .ok unit)
      | .error e => ([], .error e) := by
  cases call with
  | throws e => rfl
  | returns task =>
    simp only [wrapper, Body.eval, Call.outcome]
    cases h : (task.eval Fin.elim0).2 <;> simp [Body.eval]

private theorem eval_fillRet (unit : ν) (call : Call ν ε (Action ν κ)) :
    (fillRet unit call).eval Fin.elim0 = match call.outcome with
      | .ok v => ([.emplace v], .ok unit)
      | .error e => ([], .error e) := by
  cases call with
  | throws e => rfl
  | returns task =>
    simp only [fillRet, Body.eval, Call.outcome]
    cases h : (task.eval Fin.elim0).2 <;> simp [Body.eval]

/-- What the wrapper does, whatever the callable returns. -/
theorem eval_blockOnTask (unit : ν) (kind : Kind) (call : Call ν ε κ) :
    ((blockOnTask unit kind call).eval Fin.elim0).1 = match call.outcome with
      | .ok _ => [.setDone, .notify]
      | .error _ => [] := by
  cases kind with
  | void =>
    rw [blockOnTask, eval_wrapper, call.lift_outcome]
    cases call.outcome <;> rfl
  | object | reference =>
    have hfill : (Call.returns (fillRet unit call.lift)).outcome =
        ((fillRet unit call.lift).eval Fin.elim0).2 := rfl
    rw [blockOnTask, eval_wrapper, hfill, eval_fillRet, call.lift_outcome]
    cases call.outcome <;> rfl

/-- Once the wrapper has reached its final suspension, `done` is set exactly if neither the
call nor the task threw. -/
theorem done_eq_true_iff {unit : ν} {kind : Kind} {call : Call ν ε κ}
    {s : State ν ε (Action ν κ)} (hr : (system (blockOnTask unit kind call)).Reachable s)
    (hfin : (s.frames 0).done = true) : done s = true ↔ ∃ v, call.outcome = .ok v := by
  rw [done, (logs_of_finished hr hfin).1, eval_blockOnTask]
  cases call.outcome <;> simp [Action.isSetDone]

private theorem ret_eq {unit : ν} {kind : Kind} {call : Call ν ε κ} {s : State ν ε (Action ν κ)}
    (hr : (system (blockOnTask unit kind call)).Reachable s) (hkind : kind ≠ .void)
    (hfin : (s.frames 0).done = true) {v : ν} (hv : call.outcome = .ok v) :
    ret s = some v := by
  have hlog := (logs_of_finished hr hfin).2 (fillRet unit call.lift)
  have hroot : blockOnTask unit kind call = wrapper unit (.returns (fillRet unit call.lift)) := by
    cases kind with
    | void => exact absurd rfl hkind
    | object | reference => rfl
  rw [ret, hlog _ hroot, eval_fillRet, call.lift_outcome, hv]
  rfl

/-- Once the wrapper coroutine has reached its final suspension, the caller is released with
the outcome of the task exactly when nothing threw and the result is not an object. -/
theorem reports_iff {unit : ν} {kind : Kind} {call : Call ν ε κ} {s : State ν ε (Action ν κ)}
    (hr : (system (blockOnTask unit kind call)).Reachable s) (hfin : (s.frames 0).done = true) :
    Reports unit kind call s ↔ kind ≠ .object ∧ ∃ v, call.outcome = .ok v := by
  have hdone := done_eq_true_iff hr hfin
  constructor
  · rintro ⟨hset, hres⟩
    obtain ⟨v, hv⟩ := hdone.mp hset
    refine ⟨?_, v, hv⟩
    rintro rfl
    simp [blockOn, hset, hv, expected] at hres
  · rintro ⟨hkind, v, hv⟩
    have hset := hdone.mpr ⟨v, hv⟩
    refine ⟨hset, ?_⟩
    cases kind with
    | void => simp [blockOn, hset, hv, expected]
    | object => exact absurd rfl hkind
    | reference => simp [blockOn, hset, hv, expected, ret_eq hr (by simp) hfin hv]

/-- A callable whose future carries a reference to cell 7, after one suspension. -/
def suspended : Call Nat String Unit := .returns (.external (.ok 7) fun o ↦ o.casesOn .throw .ret)

/-- The caller is released and gets the reference. -/
theorem reports_iff_suspended : ∃ s, (system (blockOnTask 0 .reference suspended)).Reachable s ∧
    (s.frames 0).done = true ∧ Reports 0 .reference suspended s := by
  have hrun : ∃ s, (system (blockOnTask 0 .reference suspended)).Reachable s ∧
      (s.frames 0).done = true :=
    System.exists_reachable [.take 0, .complete 2, .take 0, .take 0, .take 0] (by decide +kernel)
  obtain ⟨s, hr, hfin⟩ := hrun
  exact ⟨s, hr, hfin, (reports_iff hr hfin).mpr ⟨by simp, 7, rfl⟩⟩

/-- A callable that returns `future<void>` and throws. -/
def failing : Call Nat String Unit := .returns (.throw "refused")

/-- The wrapper reaches its final suspension with the exception, and the caller stays
blocked. -/
theorem not_reports_failing :
    ¬∀ s, (system (blockOnTask 0 .void failing)).Reachable s → (s.frames 0).done = true →
      Reports 0 .void failing s := by
  intro h
  have hrun : ∃ s, (system (blockOnTask 0 .void failing)).Reachable s ∧
      (s.frames 0).done = true ∧ done s = false :=
    System.exists_reachable [.take 0] (by decide +kernel)
  obtain ⟨s, hr, hfin, hset⟩ := hrun
  have hreports := (h s hr hfin).1
  rw [hset] at hreports
  cases hreports

/-! ### How a call of block_on ends -/

/-- The steps that direct evaluation accounts for in the task of a call. -/
def Call.steps : Call ν ε κ → Nat
  | .throws _ => 0
  | .returns task => task.steps Fin.elim0

private theorem steps_mapActions {κ' : Type} (g : κ → κ') {n : Nat} (b : Body ν ε κ n)
    (env : Fin n → Except ε ν) : (b.mapActions g).steps env = b.steps env := by
  induction b with
  | ret v => rfl
  | throw e => rfl
  | emit a rest ih => simp [Body.mapActions, Body.steps, ih]
  | start child rest ihc ihr =>
    simp [Body.mapActions, Body.steps, ihc, ihr, Body.eval_mapActions]
  | await i rest ih => simp [Body.mapActions, Body.steps, ih]
  | external o rest ih => simp [Body.mapActions, Body.steps, ih]

/-- The wrapping coroutines add one step each, the resumption of their `co_await`. -/
theorem steps_blockOnTask_le (unit : ν) (kind : Kind) (call : Call ν ε κ) :
    (blockOnTask unit kind call).steps Fin.elim0 ≤ call.steps + 2 := by
  have hwrapper (c : Call ν ε (Action ν κ)) : (wrapper unit c).steps Fin.elim0 ≤ c.steps + 1 := by
    cases c with
    | throws e => exact Nat.zero_le _
    | returns task =>
      simp only [wrapper, Body.steps, Call.steps]
      split <;> simp [Body.steps]
  have hfill (c : Call ν ε (Action ν κ)) : (fillRet unit c).steps Fin.elim0 ≤ c.steps + 1 := by
    cases c with
    | throws e => exact Nat.zero_le _
    | returns task =>
      simp only [fillRet, Body.steps, Call.steps]
      split <;> simp [Body.steps]
  have hlift : call.lift.steps = call.steps := by
    cases call with
    | throws e => rfl
    | returns task => exact steps_mapActions _ task Fin.elim0
  have hout := hwrapper call.lift
  have hin := hfill call.lift
  cases kind with
  | void => exact (hout.trans_eq (by rw [hlift])).trans (by omega)
  | object | reference =>
    have hboth := hwrapper (.returns (fillRet unit call.lift))
    simp only [Call.steps] at hboth
    simp only [blockOnTask]
    omega

/-- How a call of `block_on` ends, by the outcome of its callable. -/
def ending (unit : ν) : Kind → Except ε ν → Result ν ε
  | .void, .ok _ => .returned unit
  | .object, .ok _ => .dangling
  | .reference, .ok v => .returned v
  | _, .error _ => .blocked

/-- A call of `block_on` always comes to its end on one worker: the worker runs at most three
handlers more than the task accounts for, and when it has nothing left to run the caller has
returned with the value of the task, or is blocked for ever if the callable or its task threw. -/
theorem comes_to_end {unit : ν} {kind : Kind} {call : Call ν ε κ}
    {s : State ν ε (Action ν κ)} {acts : List Act}
    (hr : (system (blockOnTask unit kind call)).Run acts s) : acts.length ≤ call.steps + 3 ∧
      ((∀ a, (system (blockOnTask unit kind call)).next s a = none) →
        blockOn unit kind s = ending unit kind call.outcome) := by
  constructor
  · have hlength := length_le_of_run hr
    have hsteps := steps_blockOnTask_le unit kind call
    omega
  · intro hstop
    obtain ⟨out, heval, hall⟩ := evaluating_of_stopped hr.reachable hstop
    have hfin := hall 0 heval.started
    have hdone := done_eq_true_iff hr.reachable hfin
    cases ho : call.outcome with
    | error e =>
      have hnot : done s = false := by
        rw [← Bool.not_eq_true, hdone, ho]
        simp
      cases kind <;> simp [blockOn, hnot, ending]
    | ok v =>
      have hset := hdone.mpr ⟨v, ho⟩
      cases kind with
      | void | object => simp [blockOn, hset, ending]
      | reference => simp [blockOn, hset, ending, ret_eq hr.reachable (by simp) hfin ho]

/-- The reference comes back after five handlers, in which no step is left. -/
theorem comes_to_end_suspended : ∃ s, (system (blockOnTask 0 .reference suspended)).Run
    [.take 0, .complete 2, .take 0, .take 0, .take 0] s ∧ 5 ≤ suspended.steps + 3 ∧
      blockOn 0 .reference s = .returned 7 := by
  have hrun : ∃ s, (system (blockOnTask 0 .reference suspended)).Run
      [.take 0, .complete 2, .take 0, .take 0, .take 0] s ∧ Settled s ∧ 0 < s.fresh :=
    System.exists_runBy _ (by decide +kernel)
  obtain ⟨s, hr, hsettled, hfresh⟩ := hrun
  rcases evaluates_of_reachable hr.reachable with rfl | ⟨out, heval⟩
  · cases hfresh
  · obtain ⟨hbound, hend⟩ := comes_to_end hr
    exact ⟨s, hr, hbound, hend (heval.inv.stopped_of_settled hsettled)⟩

end Crasy.Future.BlockOn
