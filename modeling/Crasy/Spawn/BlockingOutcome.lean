import Crasy.Spawn.BlockingJoinHandle

/-!
# The outcome of a blocking task

Library `Spawn`. Whether `co_await spawn_blocking(f)` in the model of
`Crasy.Spawn.BlockingJoinHandle` ends as `f` has ended. `call()` records the value or the exception
before it marks the state, and no `await_resume` runs before that; what `await_resume` then looks
at is the value alone in the generic template, `include/crasy/spawn_blocking.hpp:57–60`, and
nothing in the one for `void`, `include/crasy/spawn_blocking.hpp:180`.
-/

namespace Crasy.Spawn.Blocking

open Crasy.Base

variable {φ η α ε κ : Type}

section Outcome

variable [DecidableEq φ]

/-- What an action adds to the outcome of a task: the callable ends, or storing the value that it
has returned throws. -/
def outcomeStep (f : φ) (o : Option (Except ε α)) : Act φ η α ε κ → Option (Except ε α)
  | .call g (.returns r) => if g = f then some r else o
  | .call g (.emplaceThrows e) => if g = f then some (.error e) else o
  | _ => o

/-- How a task has ended in a run. -/
def outcome (f : φ) (acts : List (Act φ η α ε κ)) : Option (Except ε α) :=
  acts.foldl (outcomeStep f) none

@[simp] theorem outcome_snoc (f : φ) (acts : List (Act φ η α ε κ)) (a : Act φ η α ε κ) :
    outcome f (acts ++ [a]) = outcomeStep f (outcome f acts) a := by
  rw [outcome, List.foldl_append]
  rfl

end Outcome

/-- What the generic `await_resume` returns or throws; `none` when it dereferences an empty
`ret`. -/
def answer (read : Option α) : Option (Except ε α) := read.map .ok

/-- What `blocking_join_handle<void>::await_resume` returns or throws. -/
def answerVoid (_ : Option Unit) : Option (Except ε Unit) := some (.ok ())

/-- Every `co_await` of the task has ended as the task has, and as `co_await` of the same outcome
by `spawn` does. -/
def SameOutcome [DecidableEq φ] (answer : Option α → Option (Except ε α))
    (acts : List (Act φ η α ε κ)) (s : State φ η α ε κ) (f : φ) : Prop :=
  ∀ r ∈ (s.tasks f).read, ∃ o, outcome f acts = some o ∧ answer r = some o ∧
    answer r = ((Promise.new : Promise α ε κ).finish o).result

private theorem result_finish (o : Except ε α) :
    ((Promise.new : Promise α ε κ).finish o).result = some o := by
  cases o <;> rfl

/-! ### What is recorded -/

/-- What a task has recorded of its outcome, and what was read of it. -/
structure TaskRecorded (o : Option (Except ε α)) (t : Task α ε κ) : Prop where
  fresh : t.call.settled = false → t.base.ret = none
  front : ∀ r, t.call = .settling r → o = some r
  stored : t.call.settled = true → ∃ r, o = some r ∧ t.base.ret = r.toOption
  read : ∀ r ∈ t.read, t.call.settled = true ∧ r = t.base.ret

namespace TaskRecorded

variable {o : Option (Except ε α)} {t t' : Task α ε κ}

private theorem of_eq (h : TaskRecorded o t) (hc : t'.call = t.call) (hv : t'.base.ret = t.base.ret)
    (hr : t'.read = t.read) : TaskRecorded o t' := by
  constructor
  · rw [hc, hv]
    exact h.fresh
  · rw [hc]
    exact h.front
  · rw [hc, hv]
    exact h.stored
  · rw [hc, hv, hr]
    exact h.read

/-- `await_resume` reads what is stored. -/
theorem awaitResume (h : TaskRecorded o t) (hs : t.call.settled = true) :
    TaskRecorded o { t.access with read := t.read ++ [t.base.awaitResume] } := by
  refine ⟨h.fresh, h.front, h.stored, fun r hr ↦ ?_⟩
  rcases List.mem_append.mp hr with hr | hr
  · exact h.read r hr
  · rw [List.mem_singleton.mp hr]
    exact ⟨hs, rfl⟩

private theorem not_read (h : TaskRecorded o t) (hs : t.call.settled = false) : t.read = [] := by
  refine List.eq_nil_iff_forall_not_mem.mpr fun r hr ↦ ?_
  rw [(h.read r hr).1] at hs
  cases hs

private theorem of_front {o' : Option (Except ε α)} {pc : CallPc α ε κ} (h : TaskRecorded o t)
    (hold : t.call.settled = false) (hc : t'.call = pc) (hpc : pc.settled = false)
    (hv : t'.base.ret = t.base.ret) (hr : t'.read = t.read)
    (ho : ∀ r, pc = .settling r → o' = some r) : TaskRecorded o' t' := by
  refine ⟨fun _ ↦ hv.trans (h.fresh hold), fun r he ↦ ho r (hc ▸ he), fun hs ↦ ?_, fun r hm ↦ ?_⟩
  · rw [hc, hpc] at hs
    cases hs
  · rw [hr, h.not_read hold] at hm
    cases hm

/-- `call()` does not go back. -/
theorem settled_callStep {a : CallAct α ε} (hn : t.callStep a = some t')
    (hs : t.call.settled = true) : t'.call.settled = true := by
  simp only [Task.callStep] at hn
  split at hn <;> cases hn <;> simp_all [CallPc.settled]

private theorem of_back {pc : CallPc α ε κ} (h : TaskRecorded o t) (hold : t.call.settled = true)
    (hc : t'.call = pc) (hpc : pc.settled = true) (hv : t'.base.ret = t.base.ret)
    (hr : t'.read = t.read) : TaskRecorded o t' := by
  rw [← hc] at hpc
  refine ⟨fun hs ↦ ?_, fun r he ↦ ?_, fun _ ↦ hv ▸ h.stored hold, fun r hm ↦ ⟨hpc, ?_⟩⟩
  · rw [hpc] at hs
    cases hs
  · rw [he] at hpc
    cases hpc
  · rw [hr] at hm
    exact (h.read r hm).2.trans hv.symm

/-- A step of `call()`. -/
theorem callStep [DecidableEq φ] {f : φ} {a : CallAct α ε} (h : TaskRecorded o t)
    (hn : t.callStep a = some t') :
    TaskRecorded (outcomeStep f o (.call f a : Act φ η α ε κ)) t' := by
  simp only [Task.callStep] at hn
  split at hn
  · next hc =>
    cases hn
    refine h.of_front (by rw [hc]; rfl) rfl rfl rfl rfl fun r he ↦ ?_
    cases he
  · next r hc =>
    cases hn
    refine h.of_front (by rw [hc]; rfl) rfl rfl rfl rfl fun r' he ↦ ?_
    cases he
    exact if_pos rfl
  · next v e hc =>
    cases hn
    refine h.of_front (by rw [hc]; rfl) rfl rfl rfl rfl fun r' he ↦ ?_
    cases he
    exact if_pos rfl
  · next r hc =>
    cases hn
    have hfresh := h.fresh (by rw [hc]; rfl)
    have hnil := h.not_read (by rw [hc]; rfl)
    refine ⟨fun hs ↦ ?_, fun r' he ↦ ?_, fun _ ↦ ⟨r, h.front r hc, ?_⟩, fun r' hm ↦ ?_⟩
    · cases r <;> cases hs
    · cases r <;> cases he
    · cases r
      · exact hfresh
      · rfl
    · have hm' : r' ∈ t.read := by cases r <;> exact hm
      rw [hnil] at hm'
      cases hm'
  · next hc =>
    cases hn
    exact h.of_back (by rw [hc]; rfl) rfl rfl rfl rfl
  · next st hc =>
    cases hn
    refine h.of_back (by rw [hc]; rfl) rfl rfl ?_ ?_ <;>
      by_cases hst : st = .detached <;> simp [hst, Task.delete]
  · cases hn

end TaskRecorded

/-! ### All tasks and handles -/

section Steps

variable [DecidableEq φ]

/-- What every task has recorded, and that no `await_resume` is in front of a task that has not
settled. -/
structure Recorded (acts : List (Act φ η α ε κ)) (s : State φ η α ε κ) : Prop where
  task : ∀ f, TaskRecorded (outcome f acts) (s.tasks f)
  resuming : ∀ h f, s.handles h = some ⟨some f, .resuming⟩ → (s.tasks f).call.settled = true

/-- The object does not belong to a handle that is in front of `await_resume`. -/
def NotResuming (x : Option (Slot φ (HandleOp κ))) : Prop := ∀ f, x ≠ some ⟨some f, .resuming⟩

namespace Recorded

variable {acts acts' : List (Act φ η α ε κ)} {s s' : State φ η α ε κ}

variable (φ η α ε κ) in
/-- No task and no handle. -/
theorem init : Recorded ([] : List (Act φ η α ε κ)) Blocking.init := by
  refine ⟨fun f ↦ ⟨fun _ ↦ rfl, fun r he ↦ ?_, fun hs ↦ ?_, fun r hr ↦ ?_⟩, fun h f hh ↦ ?_⟩
  · cases he
  · cases hs
  · cases hr
  · cases hh

/-- A step of `call()`. -/
theorem call {f : φ} {a : CallAct α ε} {t : Task α ε κ} (hs : Recorded acts s)
    (hn : (s.tasks f).callStep a = some t) :
    Recorded (acts ++ [.call f a]) { s with tasks := Function.update s.tasks f t } := by
  have ht : TaskRecorded (outcome f (acts ++ [Act.call f a])) t := by
    rw [outcome_snoc]
    exact (hs.task f).callStep hn
  refine ⟨fun g ↦ ?_, fun k g hk ↦ ?_⟩
  · by_cases hgf : g = f
    · subst hgf
      simpa using ht
    · have ho : outcome g (acts ++ [Act.call f a]) = outcome g acts := by
        rw [outcome_snoc]
        cases a <;> simp [outcomeStep, Ne.symm hgf]
      simpa [hgf, ho] using hs.task g
  · have hold := hs.resuming k g hk
    by_cases hgf : g = f
    · subst hgf
      simpa using TaskRecorded.settled_callStep hn hold
    · simpa [hgf] using hold

variable [DecidableEq η]

private theorem setHandle {h : η} {x : Option (Slot φ (HandleOp κ))} (hs : Recorded acts s)
    (ho : ∀ f, outcome f acts' = outcome f acts) (hx : NotResuming x) :
    Recorded acts' (s.setHandle h x) := by
  refine ⟨fun f ↦ ho f ▸ hs.task f, fun k f hk ↦ ?_⟩
  by_cases hkh : k = h
  · subst hkh
    exact absurd ((Function.update_self ..).symm.trans hk) (hx f)
  · exact hs.resuming k f ((Function.update_of_ne hkh ..).symm.trans hk)

private theorem set {h : η} {f : φ} {t : Task α ε κ} {x : Option (Slot φ (HandleOp κ))}
    (hs : Recorded acts s) (ho : ∀ g, outcome g acts' = outcome g acts)
    (ht : TaskRecorded (outcome f acts) t)
    (hkeep : (s.tasks f).call.settled = true → t.call.settled = true)
    (hx : ∀ g, x = some ⟨some g, .resuming⟩ → g = f ∧ t.call.settled = true) :
    Recorded acts' (s.set f t h x) := by
  have hsettled (g : φ) (hg : (s.tasks g).call.settled = true) :
      ((s.set f t h x).tasks g).call.settled = true := by
    by_cases hgf : g = f
    · subst hgf
      simpa [State.set] using hkeep hg
    · simpa [State.set, hgf] using hg
  refine ⟨fun g ↦ ?_, fun k g hk ↦ ?_⟩
  · by_cases hgf : g = f
    · subst hgf
      simpa [State.set, ho] using ht
    · simpa [State.set, hgf, ho] using hs.task g
  · by_cases hkh : k = h
    · subst hkh
      obtain ⟨rfl, hset⟩ := hx g (by simpa [State.set] using hk)
      simpa [State.set] using hset
    · exact hsettled g (hs.resuming k g (by simpa [State.set, hkh] using hk))

/-- `detach()`, explicit or by the destructor. -/
theorem detach {h : η} {f : φ} {op : HandleOp κ} {rest : Option (Slot φ (HandleOp κ))}
    (hs : Recorded acts s) (ho : ∀ g, outcome g acts' = outcome g acts)
    (hop : NotResuming (some ⟨some f, op⟩)) (hrest : NotResuming rest) :
    Recorded acts' (Blocking.detach s h f op rest) := by
  unfold Blocking.detach
  rcases (s.tasks f).base.detach_cases with ⟨hb, -⟩ | ⟨hb, -⟩
  · rw [hb]
    exact hs.set ho ((hs.task f).of_eq rfl rfl rfl) id fun g hg ↦ absurd hg (hop g)
  · rw [hb]
    exact hs.set ho ((hs.task f).of_eq rfl rfl rfl) id fun g hg ↦ absurd hg (hrest g)

variable [DecidableEq κ]

/-- `await_ready`. -/
theorem awaitReady {h : η} (hs : Recorded acts s) (hsound : Sound s)
    (hn : Blocking.next s (.awaitReady h) = some s') : Recorded (acts ++ [.awaitReady h]) s' := by
  simp only [Blocking.next] at hn
  split at hn
  · next f hh =>
    split at hn
    · cases hn
    · cases hn
      refine hs.set (fun g ↦ outcome_snoc g acts _) ((hs.task f).of_eq rfl rfl rfl) id
        fun g hg ↦ ?_
      split at hg
      · next hready =>
        cases hg
        exact ⟨rfl, (hsound.object f).done_iff.mp (by simpa [StateBase.awaitReady] using hready)⟩
      · cases hg
  · cases hn

/-- `await_suspend`. -/
theorem awaitSuspend {h : η} {k : κ} (hs : Recorded acts s)
    (hn : Blocking.next s (.awaitSuspend h k) = some s') :
    Recorded (acts ++ [.awaitSuspend h k]) s' := by
  simp only [Blocking.next] at hn
  split at hn
  · next f hh =>
    cases hn
    have hret : ((s.tasks f).awaitSuspend k).base.ret = (s.tasks f).base.ret := by
      rcases (s.tasks f).base.awaitSuspend_cases k with ⟨hb, -⟩ | ⟨hb, -⟩ <;>
        simp [Task.awaitSuspend, hb]
    exact hs.set (fun g ↦ outcome_snoc g acts _) ((hs.task f).of_eq rfl hret rfl) id
      fun g hg ↦ by cases hg
  · cases hn

/-- The resumption of an awaiter, which is scheduled only after its task has settled. -/
theorem resume {h : η} (hs : Recorded acts s) (hsound : Sound s)
    (hn : Blocking.next s (.resume h) = some s') : Recorded (acts ++ [.resume h]) s' := by
  simp only [Blocking.next] at hn
  split at hn
  · next f k hh =>
    split at hn
    · next hk =>
      cases hn
      have hset : (s.tasks f).call.settled = true :=
        (hsound.object f).done_iff.mp ((hsound.object f).late (List.ne_nil_of_mem hk))
      refine hs.set (fun g ↦ outcome_snoc g acts _) (hs.task f) id fun g hg ↦ ?_
      cases hg
      exact ⟨rfl, hset⟩
    · cases hn
  · cases hn

/-- Every step. -/
theorem next {a : Act φ η α ε κ} (hs : Recorded acts s) (hsound : Sound s)
    (hn : Blocking.next s a = some s') : Recorded (acts ++ [a]) s' := by
  cases a with
  | call f a =>
    obtain ⟨t, ht, rfl⟩ := Option.map_eq_some_iff.mp hn
    exact hs.call ht
  | spawn f h =>
    simp only [Blocking.next] at hn
    split at hn
    · next hc hh =>
      cases hn
      have ht : TaskRecorded (outcome f acts) { s.tasks f with call := .queued } :=
        (hs.task f).of_front (by rw [hc]; rfl) rfl rfl rfl rfl fun r he ↦ by cases he
      exact hs.set (fun g ↦ outcome_snoc g acts _) ht (by simp [hc, CallPc.settled])
        fun g hg ↦ by cases hg
    · cases hn
  | construct h =>
    simp only [Blocking.next] at hn
    split at hn
    · cases hn
      exact hs.setHandle (fun f ↦ outcome_snoc f acts _) fun f hf ↦ by cases hf
    · cases hn
  | moveConstruct dst src =>
    simp only [Blocking.next] at hn
    split at hn
    · cases hn
      exact (hs.setHandle (fun _ ↦ rfl) fun f hf ↦ by cases hf).setHandle
        (fun f ↦ outcome_snoc f acts _) fun f hf ↦ by cases hf
    · cases hn
  | moveAssign lhs rhs =>
    simp only [Blocking.next] at hn
    split at hn
    · cases hn
      exact (hs.setHandle (fun _ ↦ rfl) fun f hf ↦ by cases hf).setHandle
        (fun f ↦ outcome_snoc f acts _) fun f hf ↦ by cases hf
    · cases hn
  | awaitReady h => exact hs.awaitReady hsound hn
  | awaitSuspend h k => exact hs.awaitSuspend hn
  | resume h => exact hs.resume hsound hn
  | awaitResume h =>
    simp only [Blocking.next] at hn
    split at hn
    · next f hh =>
      cases hn
      exact hs.set (fun g ↦ outcome_snoc g acts _) ((hs.task f).awaitResume (hs.resuming h f hh))
        id fun g hg ↦ by cases hg
    · cases hn
  | detach h =>
    simp only [Blocking.next] at hn
    split at hn
    · cases hn
      exact hs.detach (fun g ↦ outcome_snoc g acts _) (fun g hg ↦ by cases hg)
        fun g hg ↦ by cases hg
    · cases hn
  | destruct h =>
    simp only [Blocking.next] at hn
    split at hn
    · cases hn
      exact hs.detach (fun g ↦ outcome_snoc g acts _) (fun g hg ↦ by cases hg)
        fun g hg ↦ by cases hg
    · cases hn
      exact hs.setHandle (fun f ↦ outcome_snoc f acts _) fun f hf ↦ by cases hf
    · cases hn
  | delete h =>
    simp only [Blocking.next] at hn
    split at hn
    · next f hh =>
      cases hn
      exact hs.set (fun g ↦ outcome_snoc g acts _) ((hs.task f).of_eq rfl rfl rfl) id
        fun g hg ↦ by cases hg
    · next f hh =>
      cases hn
      exact hs.set (fun g ↦ outcome_snoc g acts _) ((hs.task f).of_eq rfl rfl rfl) id
        fun g hg ↦ by cases hg
    · cases hn

end Recorded

end Steps

/-! ### Runs -/

variable [DecidableEq φ] [DecidableEq η] [DecidableEq κ]

/-- In every run what was read of a task is the value of its outcome. -/
theorem read_of_run {acts : List (Act φ η α ε κ)} {s : State φ η α ε κ}
    (hr : (system φ η α ε κ).Run acts s) (f : φ) {r : Option α} (hread : r ∈ (s.tasks f).read) :
    ∃ o, outcome f acts = some o ∧ r = o.toOption := by
  have h : Sound s ∧ Recorded acts s :=
    hr.invariant (I := fun acts s ↦ Sound s ∧ Recorded acts s) ⟨sound_init, .init φ η α ε κ⟩
      fun _ _ _ _ h _ hn ↦ ⟨h.1.next hn, h.2.next h.1 hn⟩
  obtain ⟨hset, hval⟩ := (h.2.task f).read r hread
  obtain ⟨o, ho, hret⟩ := (h.2.task f).stored hset
  exact ⟨o, ho, hval.trans hret⟩

/-- The task has not been awaited to the end, or its callable has returned and its value was
stored. -/
def ReturnedIfRead (acts : List (Act φ η α ε κ)) (s : State φ η α ε κ) (f : φ) : Prop :=
  (s.tasks f).read ≠ [] → ∃ v, outcome f acts = some (.ok v)

/-- An `await_resume` that answers rightly for values, and wrongly for exceptions. -/
theorem sameOutcome_iff {answer : Option α → Option (Except ε α)}
    (hok : ∀ v, answer (some v) = some (.ok v)) (herr : ∀ e, answer none ≠ some (.error e))
    {acts : List (Act φ η α ε κ)} {s : State φ η α ε κ} (hr : (system φ η α ε κ).Run acts s)
    (f : φ) : SameOutcome answer acts s f ↔ ReturnedIfRead acts s f := by
  constructor
  · intro h hne
    obtain ⟨r, hread⟩ := List.exists_mem_of_ne_nil _ hne
    obtain ⟨o, ho, rfl⟩ := read_of_run hr f hread
    cases o with
    | ok v => exact ⟨v, ho⟩
    | error e =>
      obtain ⟨o', ho', hans, -⟩ := h _ hread
      rw [ho] at ho'
      cases ho'
      exact absurd hans (herr e)
  · intro h r hread
    obtain ⟨v, hv⟩ := h (List.ne_nil_of_mem hread)
    obtain ⟨o, ho, rfl⟩ := read_of_run hr f hread
    rw [hv] at ho
    cases ho
    exact ⟨.ok v, hv, hok v, (hok v).trans (result_finish _).symm⟩

/-- In every run the `co_await` of a blocking task ends as the task has ended, and as `spawn`
would have it, exactly when the task has not thrown: neither `await_resume` looks at `ex`. -/
theorem same_outcome_iff (f : φ) :
    (∀ (acts : List (Act φ η α ε κ)) (s : State φ η α ε κ), (system φ η α ε κ).Run acts s →
      (SameOutcome answer acts s f ↔ ReturnedIfRead acts s f)) ∧
    ∀ (acts : List (Act φ η Unit ε κ)) (s : State φ η Unit ε κ),
      (system φ η Unit ε κ).Run acts s →
      (SameOutcome answerVoid acts s f ↔ ReturnedIfRead acts s f) :=
  ⟨fun _ _ hr ↦ sameOutcome_iff (fun _ ↦ rfl) (fun _ he ↦ by cases he) hr f,
    fun _ _ hr ↦ sameOutcome_iff (fun _ ↦ rfl) (fun _ he ↦ by cases he) hr f⟩

/-- The task is awaited, returns, and its coroutine reads the value. -/
def returned (v : α) : List (Act (Fin 1) (Fin 1) α Nat Nat) :=
  awaitedThenRun 0 0 3 v ++ [.resume 0, .awaitResume 0]

/-- A task that returns a value, and one that returns nothing. -/
theorem same_outcome_returned :
    (∃ s, (system (Fin 1) (Fin 1) Nat Nat Nat).Run (returned 7) s ∧
      (s.tasks 0).read = [some 7] ∧ SameOutcome answer (returned 7) s 0) ∧
    ∃ s, (system (Fin 1) (Fin 1) Unit Nat Nat).Run (returned ()) s ∧
      (s.tasks 0).read = [some ()] ∧ SameOutcome answerVoid (returned ()) s 0 := by
  have hval : ∃ s, (system (Fin 1) (Fin 1) Nat Nat Nat).Run (returned 7) s ∧
      (s.tasks 0).read = [some 7] := System.exists_runBy _ (by decide)
  have hvoid : ∃ s, (system (Fin 1) (Fin 1) Unit Nat Nat).Run (returned ()) s ∧
      (s.tasks 0).read = [some ()] := System.exists_runBy _ (by decide)
  obtain ⟨s, hr, hs⟩ := hval
  obtain ⟨t, hr', ht⟩ := hvoid
  refine ⟨⟨s, hr, hs, ?_⟩, ⟨t, hr', ht, ?_⟩⟩
  · exact ((same_outcome_iff 0).1 _ s hr).mpr fun _ ↦ ⟨7, rfl⟩
  · exact ((same_outcome_iff (α := Nat) 0).2 _ t hr').mpr fun _ ↦ ⟨(), rfl⟩

/-- The task is awaited and throws, and its coroutine goes on. -/
def thrown (α : Type) (e : Nat) : List (Act (Fin 1) (Fin 1) α Nat Nat) :=
  [.spawn 0 0, .awaitReady 0, .awaitSuspend 0 3, .call 0 .run, .call 0 (.returns (.error e)),
    .call 0 .step, .call 0 .step, .call 0 .step, .resume 0, .awaitResume 0]

/-- The generic `await_resume` dereferences an empty `ret` after the task has thrown, and the one
for `void` returns as if it had not. -/
theorem exception_lost :
    (¬∀ (acts : List (Act (Fin 1) (Fin 1) Nat Nat Nat)) s,
      (system (Fin 1) (Fin 1) Nat Nat Nat).Run acts s → SameOutcome answer acts s 0) ∧
    ¬∀ (acts : List (Act (Fin 1) (Fin 1) Unit Nat Nat)) s,
      (system (Fin 1) (Fin 1) Unit Nat Nat).Run acts s → SameOutcome answerVoid acts s 0 := by
  have hval : ∃ s, (system (Fin 1) (Fin 1) Nat Nat Nat).Run (thrown Nat 5) s ∧
      (s.tasks 0).read = [none] := System.exists_runBy _ (by decide)
  have hvoid : ∃ s, (system (Fin 1) (Fin 1) Unit Nat Nat).Run (thrown Unit 5) s ∧
      (s.tasks 0).read = [none] := System.exists_runBy _ (by decide)
  obtain ⟨s, hr, hs⟩ := hval
  obtain ⟨t, hr', ht⟩ := hvoid
  constructor
  · intro h
    obtain ⟨o, ho, hans, -⟩ := h _ s hr none (by simp [hs])
    cases ho
    cases hans
  · intro h
    obtain ⟨o, ho, hans, -⟩ := h _ t hr' none (by simp [ht])
    cases ho
    cases hans

end Crasy.Spawn.Blocking
