import Crasy.Base.System
import Mathlib.Data.Fin.Tuple.Basic
import Mathlib.Data.List.OfFn

/-!
# Trees of futures on one core thread

Library `Future`. Models coroutines that return a `future` and run on a single worker:
`include/crasy/future.hpp:21–89` and its `void` specialisation (`:104–170`), whose
coroutines are those that return the unit value, with `executor::schedule_task`
(`src/executor.cpp:117–127`). A coroutine starts eagerly inside the one that calls it and
runs until it suspends or ends, so that one step of the machine is the execution of one
posted handler.
-/

namespace Crasy.Future

open Crasy.Base

/-- The rest of a coroutine with `n` children that it has started and not yet awaited. It
returns or throws only once it has awaited them all; what it catches is up to the
continuation of an await. `emit` is an action of its own, and `external` awaits an operation
that completes later, with the outcome given here. -/
inductive Body (ν ε κ : Type) : Nat → Type where
  | ret (v : ν) : Body ν ε κ 0
  | throw (e : ε) : Body ν ε κ 0
  | emit {n : Nat} (a : κ) (rest : Body ν ε κ n) : Body ν ε κ n
  | start {n : Nat} (child : Body ν ε κ 0) (rest : Body ν ε κ (n + 1)) : Body ν ε κ n
  | await {n : Nat} (i : Fin (n + 1)) (rest : Except ε ν → Body ν ε κ n) : Body ν ε κ (n + 1)
  | external {n : Nat} (o : Except ε ν) (rest : Except ε ν → Body ν ε κ n) : Body ν ε κ n

variable {ν ε κ : Type}

/-- Direct evaluation, with the outcomes of the children not yet awaited: the coroutine's own
actions in order, and its outcome. -/
def Body.eval : {n : Nat} → Body ν ε κ n → (Fin n → Except ε ν) → List κ × Except ε ν
  | _, .ret v, _ => ([], .ok v)
  | _, .throw e, _ => ([], .error e)
  | _, .emit a rest, env => (a :: (rest.eval env).1, (rest.eval env).2)
  | _, .start child rest, env => rest.eval (Fin.cons (child.eval Fin.elim0).2 env)
  | _, .await i rest, env => (rest (env i)).eval fun j ↦ env (i.succAbove j)
  | _, .external o rest, env => (rest o).eval env

/-- The same coroutine with its actions renamed. -/
def Body.mapActions {κ' : Type} (g : κ → κ') : {n : Nat} → Body ν ε κ n → Body ν ε κ' n
  | _, .ret v => .ret v
  | _, .throw e => .throw e
  | _, .emit a rest => .emit (g a) (rest.mapActions g)
  | _, .start child rest => .start (child.mapActions g) (rest.mapActions g)
  | _, .await i rest => .await i fun o ↦ (rest o).mapActions g
  | _, .external o rest => .external o fun o ↦ (rest o).mapActions g

/-- Renaming actions renames those of the evaluation, and keeps its outcome. -/
theorem Body.eval_mapActions {κ' : Type} (g : κ → κ') {n : Nat} (b : Body ν ε κ n)
    (env : Fin n → Except ε ν) :
    (b.mapActions g).eval env = ((b.eval env).1.map g, (b.eval env).2) := by
  induction b with
  | ret v => rfl
  | throw e => rfl
  | emit a rest ih => simp [mapActions, eval, ih]
  | start child rest ihc ihr => simp [mapActions, eval, ihc, ihr]
  | await i rest ih => simp [mapActions, eval, ih]
  | external o rest ih => simp [mapActions, eval, ih]

/-- A coroutine that has started no children needs no outcomes. -/
theorem Body.eval_zero (b : Body ν ε κ 0) (env : Fin 0 → Except ε ν) :
    b.eval env = b.eval Fin.elim0 := by
  rw [Subsingleton.elim env Fin.elim0]

/-- Where a coroutine is suspended, with the frames of its children not yet awaited and its
continuation. -/
inductive Code (ν ε κ : Type) where
  | absent
  | running
  | awaiting (child : Nat) {n : Nat} (children : Fin n → Nat)
      (rest : Except ε ν → Body ν ε κ n)
  | external (delivered : Bool) (o : Except ε ν) {n : Nat} (children : Fin n → Nat)
      (rest : Except ε ν → Body ν ε κ n)
  | finished

/-- A coroutine frame: `value_`, `ex_`, `suspended_` and `done_` of its promise
(`include/crasy/future.hpp:44–49`), the coroutine's actions so far, the coroutines that
`await_suspend` has stored in it, and the handles that `final_suspend` has scheduled. -/
structure Frame (ν ε κ : Type) where
  code : Code ν ε κ
  value : Option ν
  ex : Option ε
  suspended : Option Nat
  done : Bool
  log : List κ
  awaitedBy : List Nat
  scheduled : List Nat

/-- A frame no coroutine has been given. -/
def Frame.new : Frame ν ε κ :=
  { code := .absent, value := none, ex := none, suspended := none, done := false, log := [],
    awaitedBy := [], scheduled := [] }

/-- A posted handler: the start of the root, or the resumption of a coroutine. -/
inductive Posted where
  | start
  | resume (f : Nat)
  deriving DecidableEq, Repr

/-- The frames, the first frame not yet used, and the handlers posted to the context. -/
structure State (ν ε κ : Type) where
  frames : Nat → Frame ν ε κ
  fresh : Nat
  posted : List Posted

namespace State

/-- Change one frame. -/
def set (s : State ν ε κ) (f : Nat) (fr : Frame ν ε κ) : State ν ε κ :=
  { s with frames := Function.update s.frames f fr }

/-- Begin a coroutine in the next frame. -/
def alloc (s : State ν ε κ) : State ν ε κ :=
  { s.set s.fresh { Frame.new with code := .running } with fresh := s.fresh + 1 }

/-- `return_value`, `return_void` or `unhandled_exception`; `include/crasy/future.hpp:28,42`. -/
def store (s : State ν ε κ) (f : Nat) : Except ε ν → State ν ε κ
  | .ok v => s.set f { s.frames f with value := some v }
  | .error e => s.set f { s.frames f with ex := some e }

/-- `final_suspend`; `include/crasy/future.hpp:32–40`. -/
def finalSuspend (s : State ν ε κ) (f : Nat) : State ν ε κ :=
  let fr := { s.frames f with code := .finished, done := true }
  match fr.suspended with
  | some h =>
    { s with posted := s.posted ++ [Posted.resume h] }.set f
      { fr with suspended := none, scheduled := fr.scheduled ++ [h] }
  | none => s.set f fr

/-- `await_suspend`: the child's promise stores the handle of the coroutine, which suspends;
`include/crasy/future.hpp:77–79`. -/
def suspend (s : State ν ε κ) (f c : Nat) (code : Code ν ε κ) : State ν ε κ :=
  (s.set c { s.frames c with suspended := some f, awaitedBy := (s.frames c).awaitedBy ++ [f] }).set
    f { s.frames f with code := code }

end State

/-- `await_resume`: the outcome and what it leaves in the promise; `none` where the code
would dereference an empty `value_`. `include/crasy/future.hpp:81–89`. -/
def Frame.awaitResume (fr : Frame ν ε κ) : Option (Except ε ν × Frame ν ε κ) :=
  match fr.ex, fr.value with
  | some e, _ => some (.error e, { fr with ex := none })
  | none, some v => some (.ok v, fr)
  | none, none => none

/-- Run a coroutine until it suspends or ends. A child runs first, eagerly, inside its
parent; `await_ready` is the test of the child's `done_`. -/
def Body.exec : {n : Nat} → Body ν ε κ n → Nat → (Fin n → Nat) → State ν ε κ → State ν ε κ
  | _, .ret v, f, _, s => (s.store f (.ok v)).finalSuspend f
  | _, .throw e, f, _, s => (s.store f (.error e)).finalSuspend f
  | _, .emit a rest, f, children, s =>
    rest.exec f children (s.set f { s.frames f with log := (s.frames f).log ++ [a] })
  | _, .start child rest, f, children, s =>
    rest.exec f (Fin.cons s.fresh children) (child.exec s.fresh Fin.elim0 s.alloc)
  | _, .await i rest, f, children, s =>
    let c := children i
    let others := fun j ↦ children (i.succAbove j)
    if (s.frames c).done then
      match (s.frames c).awaitResume with
      | some (o, fr) => (rest o).exec f others (s.set c fr)
      | none => s
    else s.suspend f c (.awaiting c others rest)
  | _, .external o rest, f, children, s =>
    s.set f { s.frames f with code := .external false o children rest }

/-- The choices of the worker and of the outside world: which posted handler runs next, and
which operation completes. -/
inductive Act where
  | take (i : Nat)
  | complete (f : Nat)
  deriving DecidableEq, Repr

/-- Run a posted handler. -/
def runPosted (root : Body ν ε κ 0) (s : State ν ε κ) : Posted → Option (State ν ε κ)
  | .start => some (root.exec s.fresh Fin.elim0 s.alloc)
  | .resume f =>
    match (s.frames f).code with
    | .awaiting c children rest =>
      (s.frames c).awaitResume.map fun (o, fr) ↦ (rest o).exec f children (s.set c fr)
    | .external true o children rest => some ((rest o).exec f children s)
    | _ => none

/-- One step of the worker, or the completion of an operation, which posts the handle of the
coroutine that awaits it. -/
def next (root : Body ν ε κ 0) (s : State ν ε κ) : Act → Option (State ν ε κ)
  | .take i =>
    match s.posted[i]? with
    | some h => runPosted root { s with posted := s.posted.eraseIdx i } h
    | none => none
  | .complete f =>
    match (s.frames f).code with
    | .external false o children rest =>
      some ({ s with posted := s.posted ++ [Posted.resume f] }.set f
        { s.frames f with code := .external true o children rest })
    | _ => none

/-- A tree of futures on one core thread, with the start of its root posted. -/
def system (root : Body ν ε κ 0) : System (State ν ε κ) Act :=
  { init := { frames := fun _ ↦ .new, fresh := 0, posted := [.start] }, next := next root }

/-! ### What a suspended coroutine waits for -/

namespace Code

/-- The frames of the children not yet consumed, the awaited one included. -/
def children : Code ν ε κ → List Nat
  | .awaiting c children _ => c :: List.ofFn children
  | .external _ _ children _ => List.ofFn children
  | .absent | .running | .finished => []

/-- The awaited child. -/
def waitsFor : Code ν ε κ → Option Nat
  | .awaiting c _ _ => some c
  | .external _ _ _ _ | .absent | .running | .finished => none

/-- The awaited operation has completed. -/
def delivered : Code ν ε κ → Bool
  | .external delivered _ _ _ => delivered
  | .awaiting _ _ _ | .absent | .running | .finished => false

/-- The awaited operation has yet to complete. -/
def outstanding : Code ν ε κ → Bool
  | .external delivered _ _ _ => !delivered
  | .awaiting _ _ _ | .absent | .running | .finished => false

/-- The coroutine is suspended. -/
def isSuspended : Code ν ε κ → Bool
  | .awaiting _ _ _ | .external _ _ _ _ => true
  | .absent | .running | .finished => false

/-- What the rest of a suspended coroutine evaluates to, given the results of all frames. -/
def goal (out : Nat → List κ × Except ε ν) : Code ν ε κ → Option (List κ × Except ε ν)
  | .awaiting c children rest => some ((rest (out c).2).eval fun i ↦ (out (children i)).2)
  | .external _ o children rest => some ((rest o).eval fun i ↦ (out (children i)).2)
  | .absent | .running | .finished => none

theorem isSuspended_of_waitsFor {code : Code ν ε κ} {c : Nat} (h : code.waitsFor = some c) :
    code.isSuspended = true := by
  cases code <;> simp_all [waitsFor, isSuspended]

theorem isSuspended_of_delivered {code : Code ν ε κ} (h : code.delivered = true) :
    code.isSuspended = true := by
  cases code <;> simp_all [delivered, isSuspended]

theorem not_delivered {code : Code ν ε κ} {c : Nat} (h : code.waitsFor = some c) :
    code.delivered ≠ true := by
  cases code <;> simp_all [waitsFor, delivered]

theorem mem_children {code : Code ν ε κ} {c : Nat} (h : code.waitsFor = some c) :
    c ∈ code.children := by
  cases code <;> simp_all [waitsFor, children]

/-- The goal depends on the results of the children alone. -/
theorem goal_congr {out out' : Nat → List κ × Except ε ν} {code : Code ν ε κ}
    (h : ∀ c ∈ code.children, out' c = out c) : code.goal out' = code.goal out := by
  cases code with
  | awaiting c children rest =>
    simp only [Code.children, List.mem_cons, List.mem_ofFn, forall_eq_or_imp,
      forall_exists_index, forall_apply_eq_imp_iff] at h
    simp [goal, h.1, h.2]
  | external d o children rest =>
    simp only [Code.children, List.mem_ofFn, forall_exists_index,
      forall_apply_eq_imp_iff] at h
    simp [goal, h]
  | absent | running | finished => rfl

end Code

/-- The outcome stored in a promise. -/
def Frame.outcome (fr : Frame ν ε κ) : Option (Except ε ν) :=
  match fr.ex with
  | some e => some (.error e)
  | none => fr.value.map .ok

/-- `await_resume` yields the stored outcome, and changes no more than the promise's slots. -/
theorem Frame.awaitResume_eq (fr : Frame ν ε κ) :
    fr.awaitResume = fr.outcome.map fun o ↦ (o, { fr with ex := none }) := by
  obtain ⟨code, value, ex, suspended, done, log, awaitedBy, scheduled⟩ := fr
  cases ex <;> cases value <;> rfl

end Crasy.Future
