import Crasy.Base.Rendezvous
import Crasy.Spawn.JoinHandle

/-!
# Handing the outcome of an operation to its awaiter

Library `Io`. Models `include/crasy/io_future.hpp` and `src/io_future.cpp:6–22`, with the `ret`
of the futures in `src/udp.cpp`, whose completion handlers store a result and call `finish`.
Beside them stand spawned tasks, whose promises are those of `Crasy.Spawn`. Both are cells of a
one-shot rendezvous, so that any number of operations of either kind run beside their awaiters.
-/

namespace Crasy.Io

open Crasy.Base Crasy.Spawn

variable {α ε κ : Type}

/-- The pointer of an `io_future`: null, the address of a coroutine, or `FUTURE_DONE`;
`src/io_future.cpp:6`. -/
inductive Word (κ : Type) where
  | null
  | handle (k : κ)
  | futureDone
  deriving DecidableEq, Repr

/-- An `io_future` with the `ret` of the future that extends it; `src/udp.cpp:137–154`. -/
structure IoFuture (α ε κ : Type) where
  suspended : Word κ
  ret : Option (Except ε α)
  deriving DecidableEq

namespace IoFuture

/-- An operation that has been started. -/
def new : IoFuture α ε κ := { suspended := .null, ret := none }

/-- `await_ready`; `src/io_future.cpp:8`. -/
def awaitReady (f : IoFuture α ε κ) : Bool :=
  match f.suspended with
  | .null => false
  | .handle _ | .futureDone => true

/-- The exchange of `await_suspend`, with the handle it goes on to schedule;
`src/io_future.cpp:10–15`. -/
def awaitSuspend (f : IoFuture α ε κ) (k : κ) : IoFuture α ε κ × Option κ :=
  ({ f with suspended := .handle k },
    match f.suspended with
    | .futureDone => some k
    | .null | .handle _ => none)

/-- The completion handler stores its result; `src/udp.cpp:143–149`. -/
def emplace (f : IoFuture α ε κ) (o : Except ε α) : IoFuture α ε κ := { f with ret := some o }

/-- The exchange of `finish`, with the handle it goes on to schedule. A second call would take
`FUTURE_DONE` for one, and is left out. `src/io_future.cpp:17–22`. -/
def finish (f : IoFuture α ε κ) : Option (IoFuture α ε κ × Option κ) :=
  match f.suspended with
  | .null => some ({ f with suspended := .futureDone }, none)
  | .handle k => some ({ f with suspended := .futureDone }, some k)
  | .futureDone => none

end IoFuture

/-- An outstanding operation: an I/O future, or a spawned task. -/
inductive Cell (α ε κ : Type) where
  | io (f : IoFuture α ε κ)
  | join (p : Promise α ε κ)
  deriving DecidableEq

/-- The two kinds of operations. -/
inductive Kind where
  | io
  | join
  deriving DecidableEq, Repr

namespace Cell

/-- An operation as it starts. -/
def new : Kind → Cell α ε κ
  | .io => .io .new
  | .join => .join .new

/-- `await_ready`. -/
def ready : Cell α ε κ → Bool
  | .io f => f.awaitReady
  | .join p => p.awaitReady

/-- The section of `await_suspend`. -/
def suspend : Cell α ε κ → κ → Cell α ε κ × Option κ
  | .io f, k => (f.awaitSuspend k).map .io id
  | .join p, k => (p.awaitSuspend k).map .join id

/-- The outcome is stored: by the completion handler, or by `return_value` or
`unhandled_exception`. -/
def store : Cell α ε κ → Except ε α → Cell α ε κ
  | .io f, o => .io (f.emplace o)
  | .join p, o => .join (p.finish o)

/-- `finish()`, or the section of `final_suspend`; `none` when a detached task is left to
destroy itself. -/
def finish : Cell α ε κ → Option (Cell α ε κ × Option κ)
  | .io f => f.finish.map (Prod.map .io id)
  | .join p => p.finalSuspend.map (Prod.map .join id)

/-- What `await_resume` returns or rethrows; `none` when it dereferences an empty option. -/
def read : Cell α ε κ → Option (Except ε α)
  | .io f => f.ret
  | .join p => p.result

/-- What `await_resume` leaves behind. -/
def take : Cell α ε κ → Cell α ε κ
  | .io f => .io f
  | .join p => .join p.awaitResume

/-- The sections of a promise schedule a coroutine while they hold `mtx_`. -/
def inside : Cell α ε κ → Bool
  | .io _ => false
  | .join _ => true

/-- What the two sides have left at an operation. -/
def mark : Cell α ε κ → Mark κ
  | .io f =>
    match f.suspended with
    | .null => .empty
    | .handle k => .waiting k
    | .futureDone => .done
  | .join p =>
    match p.state, p.suspended with
    | .waiting, none => .empty
    | .waiting, some k => .waiting k
    | .done, _ => .done
    | .detached, _ => .closed

private theorem new_mark (kind : Kind) : (new kind : Cell α ε κ).mark = .empty ∧
    (new kind : Cell α ε κ).read = none := by
  cases kind <;> exact ⟨rfl, rfl⟩

end Cell

/-- An I/O future and a promise are rendezvous alike. -/
def rendezvous (α ε κ : Type) : Rendezvous (Cell α ε κ) κ (Except ε α) where
  ready := Cell.ready
  suspend := Cell.suspend
  store := Cell.store
  finish := Cell.finish
  read := Cell.read
  take := Cell.take
  inside := Cell.inside
  mark := Cell.mark
  ready_empty c h := by
    cases c with
    | io f => cases hs : f.suspended <;> simp_all [Cell.mark, Cell.ready, IoFuture.awaitReady]
    | join p => cases hs : p.state <;> simp_all [Cell.mark, Cell.ready, Promise.awaitReady]
  ready_done c h := by
    cases c with
    | io f => cases hs : f.suspended <;> simp_all [Cell.mark, Cell.ready, IoFuture.awaitReady]
    | join p =>
      cases hs : p.state <;> cases hk : p.suspended <;>
        simp_all [Cell.mark, Cell.ready, Promise.awaitReady]
  suspend_empty c k h := by
    cases c with
    | io f => cases hs : f.suspended <;> simp_all [Cell.mark, Cell.suspend, IoFuture.awaitSuspend]
    | join p =>
      cases hs : p.state <;> cases hk : p.suspended <;>
        simp_all [Cell.mark, Cell.suspend, Promise.awaitSuspend]
  suspend_done c k h := by
    cases c with
    | io f => cases hs : f.suspended <;> simp_all [Cell.mark, Cell.suspend, IoFuture.awaitSuspend]
    | join p =>
      cases hs : p.state <;> cases hk : p.suspended <;>
        simp_all [Cell.mark, Cell.suspend, Promise.awaitSuspend]
  read_suspend c k := by
    cases c with
    | io f => rfl
    | join p => cases hs : p.state <;> simp [Cell.read, Cell.suspend, Promise.awaitSuspend, hs,
        Promise.result]
  mark_store c o := by
    cases c with
    | io f => rfl
    | join p => cases o <;> rfl
  read_store c o h := by
    cases c with
    | io f => rfl
    | join p => cases o <;> cases he : p.ex <;> simp_all [Cell.read, Cell.store, Promise.finish,
        Promise.result]
  finish_empty c h := by
    cases c with
    | io f =>
      cases hs : f.suspended <;> simp_all [Cell.mark, Cell.finish, IoFuture.finish, Cell.read]
    | join p =>
      cases hs : p.state <;> cases hk : p.suspended <;>
        simp_all [Cell.mark, Cell.finish, Promise.finalSuspend, Cell.read, Promise.result]
  finish_waiting c k h := by
    cases c with
    | io f =>
      cases hs : f.suspended <;> simp_all [Cell.mark, Cell.finish, IoFuture.finish, Cell.read]
    | join p =>
      cases hs : p.state <;> cases hk : p.suspended <;>
        simp_all [Cell.mark, Cell.finish, Promise.finalSuspend, Cell.read, Promise.result]

/-- Outstanding operations of either kind and the coroutines that await them. -/
def system {ι : Type} (α ε κ : Type) [DecidableEq ι] [DecidableEq κ] (kinds : ι → Kind) :
    System (Rendezvous.State (Cell α ε κ) ι κ (Except ε α)) (Rendezvous.Act ι κ (Except ε α)) :=
  (rendezvous α ε κ).system fun i ↦ .new (kinds i)

/-- In every run every outcome is handed over: an awaiter continues once, with it, and is never
left behind. -/
theorem handed_off {ι : Type} [DecidableEq ι] [DecidableEq κ] {kinds : ι → Kind}
    {s : Rendezvous.State (Cell α ε κ) ι κ (Except ε α)} (hr : (system α ε κ kinds).Reachable s) :
    Rendezvous.HandedOff (rendezvous α ε κ) s :=
  Rendezvous.handedOff (rendezvous α ε κ) (fun i ↦ Cell.new_mark (kinds i)) hr

/-- A read and a task that throws, each of which completes while its awaiter suspends. -/
def crossed : List (Rendezvous.Act Bool Nat (Except Nat Nat)) :=
  [.ready 1 false, .ready 2 true, .store false (.ok 5), .store true (.error 6), .finish false,
    .suspend 1, .suspend 2, .finish true, .scheduleSelf 1, .run 2, .run 1, .read 1, .read 2]

/-- Both awaiters continue with what they awaited: the read count and the exception. -/
theorem handed_off_crossed : ∃ s,
    (system Nat Nat Nat fun b ↦ if b then .join else .io).Reachable s ∧
    ((s.ops false).results = [some (.ok 5)] ∧ (s.ops true).results = [some (.error 6)]) ∧
    Rendezvous.HandedOff (rendezvous Nat Nat Nat) s := by
  have hrun : ∃ s, (system Nat Nat Nat fun b ↦ if b then .join else .io).Reachable s ∧
      (s.ops false).results = [some (.ok 5)] ∧ (s.ops true).results = [some (.error 6)] :=
    System.exists_reachable crossed (by decide)
  obtain ⟨s, hr, hs⟩ := hrun
  exact ⟨s, hr, hs, handed_off hr⟩

end Crasy.Io
