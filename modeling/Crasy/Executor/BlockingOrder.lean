import Crasy.Base.Events
import Crasy.Executor.Blocking

/-!
# The order in which blocking tasks are started

Library `Executor`. Follows each task of `Crasy.Executor.Blocking` from its call of
`run_blocking` through the queue, of which each push and each pop is one step, to the worker that
invokes it. Whatever the interleaving, the workers together take the tasks in the order in which
the callers published them, and each worker invokes what it takes in turn.
-/

namespace Crasy.Executor.Blocking

open Crasy.Base Crasy.LfQueue

variable {ω κ τ : Type}

/-- The task that a caller has yet to publish. -/
def CallerPc.task : CallerPc τ → Option τ
  | .push t => some t
  | .idle | .fetchAdd | .tryLock | .unlock | .notify => none

/-- The task that a worker has taken and yet to invoke. -/
def WorkerPc.task : WorkerPc τ → Option τ
  | .fetchSub t | .invoke t => some t
  | .pop | .lock | .evaluate | .block | .blocked | .relock | .checkDone | .exited => none

/-- The task that a worker's step takes from the queue. -/
def State.taken (s : State ω κ τ) (w : ω) : Option τ :=
  match s.workers w with
  | .pop => s.tasks.pop.1
  | _ => none

/-- The task that a worker's step invokes. -/
def State.invoking (s : State ω κ τ) (w : ω) : Option τ :=
  match s.workers w with
  | .invoke t => some t
  | _ => none

/-- The arguments of `run_blocking`. -/
def requests (_ : State ω κ τ) : Act ω κ τ → List (κ × τ)
  | .call c t => emitted c (some t)
  | _ => []

/-- The tasks that callers publish. -/
def published (s : State ω κ τ) : Act ω κ τ → List (κ × τ)
  | .caller c _ => emitted c (s.callers c).task
  | _ => []

/-- The tasks that workers take from the queue. -/
def takes (s : State ω κ τ) : Act ω κ τ → List (ω × τ)
  | .worker w => emitted w (s.taken w)
  | _ => []

/-- The tasks that workers invoke. -/
def invocations (s : State ω κ τ) : Act ω κ τ → List (ω × τ)
  | .worker w => emitted w (s.invoking w)
  | _ => []

private theorem WorkerPc.Waiting.task {pc : WorkerPc τ} (h : pc.Waiting) : pc.task = none := by
  cases pc <;> first | rfl | cases h

/-- What one step does with the tasks. -/
structure Hands [DecidableEq ω] [DecidableEq κ] (s s' : State ω κ τ) (a : Act ω κ τ) : Prop where
  queue : s.tasks.values ++ (published s a).map Prod.snd =
    (takes s a).map Prod.snd ++ s'.tasks.values
  callers : PassesOn (fun c ↦ (s.callers c).task) (fun c ↦ (s'.callers c).task) (requests s a)
    (published s a)
  workers : PassesOn (fun w ↦ (s.workers w).task) (fun w ↦ (s'.workers w).task) (takes s a)
    (invocations s a)
  invoked : s'.invoked = s.invoked ++ (invocations s a).map Prod.snd

section Steps

variable [DecidableEq ω] [DecidableEq κ] {s s' : State ω κ τ}

private theorem hands_worker {w : ω} {pc : WorkerPc τ} {take invoke : Option τ}
    (htake : s.taken w = take) (hinvoke : s.invoking w = invoke)
    (hw : s'.workers = Function.update s.workers w pc) (hc : s'.callers = s.callers)
    (hqueue : s.tasks.values = take.toList ++ s'.tasks.values)
    (htask : (s.workers w).task.toList ++ take.toList = invoke.toList ++ pc.task.toList)
    (hi : s'.invoked = s.invoked ++ invoke.toList) : Hands s s' (.worker w) := by
  subst htake hinvoke
  refine ⟨?_, .refl fun c ↦ by rw [hc], .of_party w _ _ ?_ fun v hv ↦ ?_, ?_⟩
  · rw [takes, map_snd_emitted, ← hqueue]
    exact List.append_nil _
  · rw [hw, Function.update_self]
    exact htask
  · rw [hw, Function.update_of_ne hv]
  · rw [invocations, map_snd_emitted, hi]

/-- A worker takes a task, invokes the one that it has taken, or does neither. -/
theorem Hands.worker {w : ω} (hn : workerStep s w = some s') : Hands s s' (.worker w) := by
  cases workerStep_moves hn with
  | pop_none hpc hp =>
    refine hands_worker (by rw [State.taken, hpc, hp]) (by rw [State.invoking, hpc]) rfl rfl ?_ ?_
      (List.append_nil _).symm
    · exact (Content.pop_none hp).symm
    · simp [hpc, WorkerPc.task]
  | @pop_some t hpc hp =>
    refine hands_worker (by rw [State.taken, hpc, hp]) (by rw [State.invoking, hpc]) rfl rfl ?_ ?_
      (List.append_nil _).symm
    · exact Content.pop_some hp
    · simp [hpc, WorkerPc.task]
  | fetchSub hpc =>
    exact hands_worker (by rw [State.taken, hpc]) (by rw [State.invoking, hpc]) rfl rfl rfl
      (by simp [hpc, WorkerPc.task]) (List.append_nil _).symm
  | invoke hpc =>
    exact hands_worker (by rw [State.taken, hpc]) (by rw [State.invoking, hpc]) rfl rfl rfl
      (by simp [hpc, WorkerPc.task]) rfl
  | wait hpc hto =>
    have hnone : s.taken w = none ∧ s.invoking w = none := by
      rw [State.taken, State.invoking]
      cases hw : s.workers w <;> first | exact ⟨rfl, rfl⟩ | (rw [hw] at hpc; cases hpc)
    refine hands_worker hnone.1 hnone.2 rfl rfl rfl ?_ (List.append_nil _).symm
    rw [hpc.task]
    rcases hto with hto | ⟨rfl, -⟩
    · rw [hto.task]
    · rfl

variable [DecidableEq τ] [Fintype ω]

omit [DecidableEq τ] [Fintype ω] in
private theorem hands_caller {c : κ} {wakes : Option ω} {pc : CallerPc τ}
    (hc : s'.callers = Function.update s.callers c pc)
    (hw : ∀ w, (s'.workers w).task = (s.workers w).task)
    (hqueue : s'.tasks.values = s.tasks.values ++ (s.callers c).task.toList)
    (htask : pc.task = none) (hi : s'.invoked = s.invoked) : Hands s s' (.caller c wakes) := by
  refine ⟨?_, .of_party c none (s.callers c).task ?_ fun d hd ↦ ?_, .refl hw, ?_⟩
  · rw [published, map_snd_emitted, hqueue]
    rfl
  · simp [hc, htask]
  · rw [hc, Function.update_of_ne hd]
  · rw [hi]
    exact (List.append_nil _).symm

/-- A caller publishes its task, or moves none. -/
theorem Hands.caller {c : κ} {wakes : Option ω} (hn : callerStep s c wakes = some s') :
    Hands s s' (.caller c wakes) := by
  cases callerStep_moves hn with
  | push hpc | fetchAdd hpc | unlock hpc | notify hpc =>
    exact hands_caller rfl (fun _ ↦ rfl) (by simp [hpc, CallerPc.task, State.setCaller]) rfl rfl
  | tryLock hpc hto =>
    refine hands_caller rfl (fun _ ↦ rfl) (by simp [hpc, CallerPc.task, State.setCaller]) ?_ rfl
    rcases hto with rfl | rfl <;> rfl
  | @wake w hpc hb =>
    refine hands_caller rfl (fun v ↦ ?_)
      (by simp [hpc, CallerPc.task, State.setCaller, State.setWorker]) rfl rfl
    change (Function.update s.workers w .relock v).task = (s.workers v).task
    by_cases hv : v = w
    · rw [hv, Function.update_self, hb]
      rfl
    · rw [Function.update_of_ne hv]

/-- Every step hands the tasks on. -/
theorem Hands.next {a : Act ω κ τ} (hn : next s a = some s') : Hands s s' a := by
  cases a with
  | call c t =>
    simp only [Blocking.next] at hn
    split at hn
    · next hpc =>
      cases hn
      refine ⟨List.append_nil _, .of_party c (some t) none ?_ fun d hd ↦ ?_,
        .refl fun _ ↦ rfl, (List.append_nil _).symm⟩
      · rw [setCaller_callers, Function.update_self, hpc]
        rfl
      · rw [setCaller_callers, Function.update_of_ne hd]
    · cases hn
  | caller c wakes => exact .caller hn
  | worker w => exact .worker hn
  | spurious w =>
    simp only [Blocking.next] at hn
    split at hn
    · next hb =>
      cases hn
      refine ⟨List.append_nil _, .refl fun _ ↦ rfl, .refl fun v ↦ ?_, (List.append_nil _).symm⟩
      rw [setWorker_workers]
      by_cases hv : v = w
      · rw [hv, Function.update_self, hb]
        rfl
      · rw [Function.update_of_ne hv]
    · cases hn
  | destroy =>
    obtain ⟨ht, -, hc, hi, hw⟩ := destructorStep_cases hn
    refine ⟨?_, .refl fun c ↦ by rw [hc], .refl fun w ↦ ?_, ?_⟩
    · rw [ht]
      exact List.append_nil _
    · rcases hw w with hw | ⟨hb, hr⟩
      · rw [hw]
      · rw [hb, hr]
        rfl
    · rw [hi]
      exact (List.append_nil _).symm

end Steps

/-! ### Runs -/

section Runs

variable [DecidableEq ω] [DecidableEq κ] [DecidableEq τ] [Fintype ω]

/-- What a run has done with the tasks. The workers take them in the order in which they were
published; each caller publishes and each worker invokes in turn what it gets, but for the task
that it has in hand. So a pool of one worker invokes the tasks in the order in which they were
published. -/
structure InTurn (acts : List (Act ω κ τ)) (s : State ω κ τ) : Prop where
  queue : ((system ω κ τ).events published acts).map Prod.snd =
    ((system ω κ τ).events takes acts).map Prod.snd ++ s.tasks.values
  callers : ∀ c, eventsOf c ((system ω κ τ).events requests acts) =
    eventsOf c ((system ω κ τ).events published acts) ++ (s.callers c).task.toList
  workers : ∀ w, eventsOf w ((system ω κ τ).events takes acts) =
    eventsOf w ((system ω κ τ).events invocations acts) ++ (s.workers w).task.toList
  invoked : s.invoked = ((system ω κ τ).events invocations acts).map Prod.snd
  alone : ∀ w : ω, (∀ v, v = w) →
    s.invoked <+: ((system ω κ τ).events published acts).map Prod.snd

/-- Blocking tasks are started in turn, whatever the interleaving. -/
theorem in_turn {ok : State ω κ τ → Act ω κ τ → Prop} {acts : List (Act ω κ τ)}
    {s : State ω κ τ} (hr : (system ω κ τ).RunBy ok acts s) : InTurn acts s := by
  have hinv := hr.invariant_of_run (I := fun acts s ↦
      ((system ω κ τ).events published acts).map Prod.snd =
        ((system ω κ τ).events takes acts).map Prod.snd ++ s.tasks.values ∧
      PassesOn (fun _ ↦ none) (fun c ↦ (s.callers c).task) ((system ω κ τ).events requests acts)
        ((system ω κ τ).events published acts) ∧
      PassesOn (fun _ ↦ none) (fun w ↦ (s.workers w).task) ((system ω κ τ).events takes acts)
        ((system ω κ τ).events invocations acts) ∧
      s.invoked = ((system ω κ τ).events invocations acts).map Prod.snd)
    ⟨rfl, fun _ ↦ rfl, fun _ ↦ rfl, rfl⟩ fun acts s a s' hr hi _ hn ↦ by
      obtain ⟨hqueue, hcallers, hworkers, hinvoked⟩ := hi
      have hstep := Hands.next hn
      simp only [hr.events_concat hn, List.map_append, hqueue, ← hinvoked]
      refine ⟨?_, hcallers.append hstep.callers, hworkers.append hstep.workers, hstep.invoked⟩
      rw [List.append_assoc, hstep.queue, List.append_assoc]
  obtain ⟨hqueue, hcallers, hworkers, hinvoked⟩ := hinv
  refine ⟨hqueue, fun c ↦ hcallers c, fun w ↦ hworkers w, hinvoked, fun w hw ↦ ?_⟩
  have htaken : ((system ω κ τ).events takes acts).map Prod.snd =
      s.invoked ++ (s.workers w).task.toList := by
    rw [hinvoked, ← eventsOf_of_forall hw, ← eventsOf_of_forall hw]
    exact hworkers w
  rw [hqueue, htaken, List.append_assoc]
  exact List.prefix_append _ _

/-- Caller `c` publishes tasks `x` and `z`, and caller `d` task `y` between them. Worker `v` takes
the first task, and worker `w` the second and the third; it invokes the second before the first
is. -/
def crossed (v w : ω) (c d : κ) (x y z : τ) : List (Act ω κ τ) :=
  [.call c x, .caller c none, .call d y, .caller d none] ++ List.replicate 4 (.caller c none) ++
    [.call c z, .caller c none, .worker v, .worker w, .worker w, .worker w, .worker v, .worker v,
      .worker w, .worker w, .worker w]

/-- The tasks are taken in the order of the publications and invoked in another one. -/
theorem in_turn_crossed : ∃ acts s, (system (Fin 2) (Fin 2) Nat).Run acts s ∧
    (system (Fin 2) (Fin 2) Nat).events published acts = [(0, 7), (1, 8), (0, 9)] ∧
      (system (Fin 2) (Fin 2) Nat).events takes acts = [(0, 7), (1, 8), (1, 9)] ∧
        s.invoked = [8, 7, 9] ∧ InTurn acts s := by
  have hrun : ∃ s, (system (Fin 2) (Fin 2) Nat).Run (crossed 0 1 0 1 7 8 9) s ∧
      s.invoked = [8, 7, 9] := System.exists_runBy (crossed 0 1 0 1 7 8 9) (by decide)
  obtain ⟨s, hr, hi⟩ := hrun
  exact ⟨_, s, hr, by decide, by decide, hi, in_turn hr⟩

end Runs

end Crasy.Executor.Blocking
