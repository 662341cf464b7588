import Crasy.Base.System
import Mathlib.Logic.Function.Basic

/-!
# A chain of futures on a pool of core threads

Library `Future`. Models the hand-off between `await_ready`, `await_suspend` and
`final_suspend` of `include/crasy/future.hpp:32–40,75–79` (and of `future<void>`,
`:115–123,157–161`) with each access to `done_` and `suspended_` as one step. Coroutine
`c` starts coroutine `c + 1` and awaits it; the last one of the chain completes at once
or after an external completion. Coroutines run on the workers of the pool: a worker
that has taken `core_work_pending_` is in `run()` (`src/executor.cpp:136–148`) and takes
posted handles, and a coroutine starts its child on its own worker.
-/

namespace Crasy.Future.Chain

open Crasy.Base

variable {ω : Type}

/-- Where a coroutine stands. -/
inductive Pc where
  | notStarted
  | body
  | awaitReady
  | awaitSuspend
  | suspended
  | external
  | setDone
  | readSuspended
  | schedule (handle : Nat)
  | finished
  deriving DecidableEq, Repr

/-- A posted handler: the start of the chain, or the resumption of a coroutine. -/
inductive Posted where
  | start
  | resume (c : Nat)
  deriving DecidableEq, Repr

/-- The coroutines with the fields of their promises, the handlers posted to the context,
and the workers: which are in `run()`, and the coroutines each is executing, innermost
first. `suspended c` is the handle stored in the promise of `c`, and `scheduled c` says that
a child has scheduled the handle of `c`. -/
structure State (ω : Type) where
  pc : Nat → Pc
  done : Nat → Bool
  suspended : Nat → Option Nat
  scheduled : Nat → Bool
  posted : List Posted
  pending : Bool
  inRun : ω → Bool
  stack : ω → List Nat

/-- The choices of the scheduler and of the environment. -/
inductive Act (ω : Type) where
  | blockOn
  | enter (w : ω)
  | take (w : ω) (i : Nat)
  | step (w : ω)
  | exit (w : ω)
  | complete
  deriving DecidableEq, Repr

/-- The chain's start is posted and no worker is in `run()`. -/
def init : State ω :=
  { pc := fun _ ↦ .notStarted, done := fun _ ↦ false, suspended := fun _ ↦ none,
    scheduled := fun _ ↦ false, posted := [.start], pending := false,
    inRun := fun _ ↦ false, stack := fun _ ↦ [] }

/-- The chain: its depth, and whether its last coroutine awaits an external completion. -/
structure Shape where
  depth : Nat
  external : Bool

section Steps

variable [DecidableEq ω]

/-- Move one coroutine. -/
def State.setPc (s : State ω) (c : Nat) (pc : Pc) : State ω :=
  { s with pc := Function.update s.pc c pc }

/-- The worker leaves the innermost coroutine, which suspended or finished. -/
def State.leave (s : State ω) (w : ω) : State ω :=
  { s with stack := Function.update s.stack w (s.stack w).tail }

/-- The worker goes on with a coroutine. -/
def State.run (s : State ω) (w : ω) (c : Nat) (pc : Pc) : State ω :=
  { s with stack := Function.update s.stack w (c :: s.stack w) }.setPc c pc

/-- The next step of the coroutine a worker is executing. -/
def coroutineStep (shape : Shape) (s : State ω) (w : ω) (c : Nat) : Option (State ω) :=
  match s.pc c with
  | .body =>
    if c < shape.depth then some ((s.setPc c .awaitReady).run w (c + 1) .body)
    else if shape.external then some ((s.setPc c .external).leave w)
    else some (s.setPc c .setDone)
  | .awaitReady => some (s.setPc c (if s.done (c + 1) then .setDone else .awaitSuspend))
  | .awaitSuspend =>
    some (({ s with suspended := Function.update s.suspended (c + 1) (some c) }.setPc c
      .suspended).leave w)
  | .setDone => some ({ s with done := Function.update s.done c true }.setPc c .readSuspended)
  | .readSuspended =>
    match s.suspended c with
    | some handle =>
      some ({ s with suspended := Function.update s.suspended c none }.setPc c
        (.schedule handle))
    | none => some ((s.setPc c .finished).leave w)
  | .schedule handle =>
    some (({ s with
      posted := s.posted ++ [Posted.resume handle]
      scheduled := Function.update s.scheduled handle true }.setPc c .finished).leave w)
  | .notStarted | .suspended | .external | .finished => none

/-- A worker in `run()` that is executing nothing takes a posted handler. -/
def takePosted (s : State ω) (w : ω) (i : Nat) : Option (State ω) :=
  if s.inRun w ∧ s.stack w = [] then
    match s.posted[i]? with
    | some .start =>
      if s.pc 0 = .notStarted then some ({ s with posted := s.posted.eraseIdx i }.run w 0 .body)
      else none
    | some (.resume c) =>
      if s.pc c = .suspended ∨ s.pc c = .external then
        some ({ s with posted := s.posted.eraseIdx i }.run w c .setDone)
      else none
    | none => none
  else none

/-- One step of the pool. A call of `block_on` sets `core_work_pending_`, which lets one
worker into `run()`; a worker between two handlers may return from it; an external
completion posts the last coroutine's handle. -/
def next (shape : Shape) (s : State ω) : Act ω → Option (State ω)
  | .blockOn => some { s with pending := true }
  | .enter w =>
    if s.pending ∧ s.inRun w = false then
      some { s with pending := false, inRun := Function.update s.inRun w true }
    else none
  | .take w i => takePosted s w i
  | .step w =>
    match s.stack w with
    | [] => none
    | c :: _ => coroutineStep shape s w c
  | .exit w =>
    if s.inRun w ∧ s.stack w = [] then
      some { s with inRun := Function.update s.inRun w false }
    else none
  | .complete =>
    if s.pc shape.depth = .external ∧ .resume shape.depth ∉ s.posted then
      some { s with posted := s.posted ++ [Posted.resume shape.depth] }
    else none

/-- A chain of futures on a pool of workers. -/
def system (ω : Type) [DecidableEq ω] (shape : Shape) : System (State ω) (Act ω) :=
  { init := init, next := next shape }

end Steps

/-! ### No lost resumption -/

/-- The coroutine has suspended on its child, the child has completed `final_suspend`, and
the coroutine's handle was never scheduled. -/
def Lost (s : State ω) (c : Nat) : Prop :=
  s.pc (c + 1) = .finished ∧ s.pc c = .suspended ∧ s.scheduled c = false

/-- The steps that lose no resumption: `final_suspend` reads `suspended_` only while the
parent is not between the read of `done_` in its `await_ready` and the write of
`suspended_` in its `await_suspend`. -/
def StepOk (s : State ω) : Act ω → Prop
  | .step w => ∀ c, (s.stack w).head? = some (c + 1) → s.pc (c + 1) = .readSuspended →
      s.pc c ≠ .awaitSuspend
  | _ => True

/-- The child has not yet read `suspended_` in its `final_suspend`. -/
def Pc.Before (pc : Pc) : Prop := (∀ handle, pc ≠ .schedule handle) ∧ pc ≠ .finished

/-- The child has not yet written `done_`. -/
def Pc.Early (pc : Pc) : Prop := pc.Before ∧ pc ≠ .readSuspended

/-- What a parent and its child agree on. -/
structure Agree (s : State ω) (c : Nat) : Prop where
  fresh : s.pc c = .notStarted ∨ s.pc c = .body → s.pc (c + 1) = .notStarted
  early : s.done (c + 1) = false → (s.pc (c + 1)).Early
  registering : s.pc c = .awaitSuspend → (s.pc (c + 1)).Before
  registered : s.pc c = .suspended → s.scheduled c = false →
    s.pc (c + 1) = .schedule c ∨ s.suspended (c + 1) = some c ∧ (s.pc (c + 1)).Before

variable {s s' : State ω}

private theorem Agree.of_eq {c : Nat} (h : Agree s c) (hc : s'.pc c = s.pc c)
    (hk : s'.pc (c + 1) = s.pc (c + 1)) (hd : s'.done (c + 1) = s.done (c + 1))
    (hs : s'.suspended (c + 1) = s.suspended (c + 1))
    (hw : s'.scheduled c = false → s.scheduled c = false) : Agree s' c := by
  constructor
  · rw [hc, hk]
    exact h.fresh
  · rw [hd, hk]
    exact h.early
  · rw [hc, hk]
    exact h.registering
  · rw [hc, hk, hs]
    exact fun hp hf ↦ h.registered hp (hw hf)

private theorem Agree.child {c : Nat} (h : Agree s c) (hc : s'.pc c = s.pc c)
    (hstart : s.pc (c + 1) ≠ .notStarted) (hold : ∀ handle, s.pc (c + 1) ≠ .schedule handle)
    (hnew : (s'.pc (c + 1)).Early) (hs : s'.suspended (c + 1) = s.suspended (c + 1))
    (hw : s'.scheduled c = s.scheduled c) : Agree s' c := by
  constructor
  · rw [hc]
    exact fun hf ↦ absurd (h.fresh hf) hstart
  · exact fun _ ↦ hnew
  · exact fun _ ↦ hnew.1
  · rw [hc, hs, hw]
    intro hp hf
    exact .inr ⟨((h.registered hp hf).resolve_left (hold c)).1, hnew.1⟩

private theorem Agree.parent {c : Nat} (h : Agree s c) (hk : s'.pc (c + 1) = s.pc (c + 1))
    (hd : s'.done (c + 1) = s.done (c + 1))
    (hfresh : s'.pc c = .notStarted ∨ s'.pc c = .body → s.pc (c + 1) = .notStarted)
    (hreg : s'.pc c = .awaitSuspend → (s.pc (c + 1)).Before)
    (hsus : s'.pc c ≠ .suspended) : Agree s' c := by
  constructor
  · rwa [hk]
  · rw [hd, hk]
    exact h.early
  · rwa [hk]
  · exact fun hp ↦ absurd hp hsus

private theorem Agree.final {c : Nat} {p : Pc} (h : Agree s c) (hc : s'.pc c = s.pc c)
    (hk : s'.pc (c + 1) = p) (hstart : s.pc (c + 1) ≠ .notStarted)
    (hdone : s'.done (c + 1) ≠ false) (hreg : s.pc c = .awaitSuspend → p.Before)
    (hsus : s.pc c = .suspended → s'.scheduled c = false →
      p = .schedule c ∨ s'.suspended (c + 1) = some c ∧ p.Before) : Agree s' c := by
  constructor
  · rw [hc]
    exact fun hf ↦ absurd (h.fresh hf) hstart
  · exact fun hf ↦ absurd hf hdone
  · rwa [hc, hk]
  · rwa [hc, hk]

private theorem Agree.done_of_not_early {c : Nat} (h : Agree s c) (hk : ¬(s.pc (c + 1)).Early) :
    s.done (c + 1) ≠ false := fun hf ↦ hk (h.early hf)

private theorem agree_move {c : Nat} {p : Pc} (h : ∀ d, Agree s d)
    (hpc : s'.pc = Function.update s.pc c p)
    (hd : ∀ d, d ≠ c → d + 1 ≠ c → s'.done (d + 1) = s.done (d + 1))
    (hs : ∀ d, d ≠ c → d + 1 ≠ c → s'.suspended (d + 1) = s.suspended (d + 1))
    (hw : ∀ d, s'.scheduled d = false → s.scheduled d = false)
    (hparent : Agree s' c) (hkid : ∀ d, d + 1 = c → Agree s' d) : ∀ d, Agree s' d := by
  intro d
  by_cases hdc : d = c
  · subst hdc
    exact hparent
  · by_cases hkc : d + 1 = c
    · exact hkid d hkc
    · exact (h d).of_eq (by rw [hpc, Function.update_of_ne hdc])
        (by rw [hpc, Function.update_of_ne hkc]) (hd d hdc hkc) (hs d hdc hkc) (hw d)

private theorem agree_setPc {c : Nat} {p : Pc} (h : ∀ d, Agree s d)
    (hpc : s'.pc = Function.update s.pc c p) (hd : s'.done = s.done)
    (hs : s'.suspended = s.suspended) (hw : s'.scheduled = s.scheduled)
    (hstart : s.pc c ≠ .notStarted) (hold : ∀ handle, s.pc c ≠ .schedule handle)
    (hnew : p.Early) (hfresh : p ≠ .notStarted ∧ p ≠ .body)
    (hreg : p = .awaitSuspend → (s.pc (c + 1)).Before) (hsus : p ≠ .suspended) :
    ∀ d, Agree s' d := by
  refine agree_move h hpc (fun _ _ _ ↦ by rw [hd]) (fun _ _ _ ↦ by rw [hs])
    (fun d hf ↦ by rwa [← hw]) ?_ ?_
  · have hk : s'.pc (c + 1) = s.pc (c + 1) := by rw [hpc, Function.update_of_ne (by omega)]
    have hp : s'.pc c = p := by rw [hpc, Function.update_self]
    refine (h c).parent hk (by rw [hd]) ?_ (by rwa [hp]) (by rwa [hp])
    rw [hp]
    exact fun he ↦ (he.elim hfresh.1 hfresh.2).elim
  · rintro d rfl
    exact (h d).child (by rw [hpc, Function.update_of_ne (by omega)]) hstart hold
      (by rwa [hpc, Function.update_self]) (by rw [hs]) (by rw [hw])

private theorem agree_final {c : Nat} {p : Pc} (h : ∀ d, Agree s d)
    (hpc : s'.pc = Function.update s.pc c p)
    (hd : ∀ d, d ≠ c → s'.done d = s.done d)
    (hs : ∀ d, d ≠ c → s'.suspended d = s.suspended d)
    (hw : ∀ d, s'.scheduled d = false → s.scheduled d = false)
    (hp : p ≠ .notStarted ∧ p ≠ .body ∧ p ≠ .awaitSuspend ∧ p ≠ .suspended)
    (hkid : ∀ d, d + 1 = c → Agree s' d) : ∀ d, Agree s' d := by
  refine agree_move h hpc (fun d _ hkc ↦ hd (d + 1) hkc) (fun d _ hkc ↦ hs (d + 1) hkc) hw ?_
    hkid
  have hc : s'.pc c = p := by rw [hpc, Function.update_self]
  apply (h c).parent (by rw [hpc, Function.update_of_ne (by omega)]) (hd _ (by omega))
  · rw [hc]
    exact fun he ↦ (he.elim hp.1 hp.2.1).elim
  · rw [hc]
    exact fun he ↦ (hp.2.2.1 he).elim
  · rw [hc]
    exact hp.2.2.2

variable [DecidableEq ω]

/-- The body of a coroutine starts its child, which has not run before. -/
theorem agree_start {w : ω} {c : Nat} (h : ∀ d, Agree s d) (hpc : s.pc c = .body) :
    ∀ d, Agree ((s.setPc c .awaitReady).run w (c + 1) .body) d := by
  have hkid := (h c).fresh (.inr hpc)
  have hmid : ∀ d, d ≠ c → Agree (s.setPc c .awaitReady) d := by
    intro d hdc
    by_cases hkc : d + 1 = c
    · subst hkc
      refine (h d).child ?_ (by simp [hpc]) (by simp [hpc]) ?_ rfl rfl
      · exact Function.update_of_ne (by omega) ..
      · simp [State.setPc, Pc.Early, Pc.Before]
    · exact (h d).of_eq (Function.update_of_ne hdc ..) (Function.update_of_ne hkc ..) rfl rfl id
  have hc : ((s.setPc c .awaitReady).run w (c + 1) .body).pc c = .awaitReady := by
    simp [State.run, State.setPc]
  have hk : ((s.setPc c .awaitReady).run w (c + 1) .body).pc (c + 1) = .body :=
    Function.update_self ..
  intro d
  by_cases hdc : d = c
  · subst hdc
    constructor <;> simp [hc, hk, Pc.Early, Pc.Before]
  · by_cases hd : d = c + 1
    · subst hd
      refine (hmid (c + 1) hdc).parent ?_ rfl ?_ ?_ ?_
      · exact Function.update_of_ne (by omega) ..
      · exact fun _ ↦ (hmid (c + 1) hdc).fresh (.inl (by simp [State.setPc, hkid]))
      · simp [hk]
      · simp [hk]
    · exact (hmid d hdc).of_eq (Function.update_of_ne hd ..) (Function.update_of_ne (by omega) ..)
        rfl rfl id

omit [DecidableEq ω] in
/-- `await_ready` reads `done_`. -/
theorem agree_awaitReady {c : Nat} (h : ∀ d, Agree s d) (hpc : s.pc c = .awaitReady) :
    ∀ d, Agree (s.setPc c (if s.done (c + 1) then .setDone else .awaitSuspend)) d := by
  cases hd : s.done (c + 1) with
  | true =>
    exact agree_setPc (c := c) (p := .setDone) h (by simp [State.setPc]) rfl rfl rfl
      (by simp [hpc]) (by simp [hpc]) (by simp [Pc.Early, Pc.Before]) (by simp) (by simp)
      (by simp)
  | false =>
    exact agree_setPc (c := c) (p := .awaitSuspend) h (by simp [State.setPc]) rfl rfl rfl
      (by simp [hpc]) (by simp [hpc]) (by simp [Pc.Early, Pc.Before]) (by simp)
      (fun _ ↦ ((h c).early hd).1) (by simp)

/-- `await_suspend` writes `suspended_` of the child, which has not read it yet. -/
theorem agree_awaitSuspend {w : ω} {c : Nat} (h : ∀ d, Agree s d) (hpc : s.pc c = .awaitSuspend) :
    ∀ d, Agree (({ s with suspended := Function.update s.suspended (c + 1) (some c) }.setPc c
      .suspended).leave w) d := by
  refine agree_move h (p := .suspended) rfl (fun _ _ _ ↦ rfl) ?_ (fun _ ↦ id) ?_ ?_
  · exact fun d hdc _ ↦ Function.update_of_ne (by omega) ..
  · have hreg := (h c).registering hpc
    have hk : (Function.update s.pc c .suspended) (c + 1) = s.pc (c + 1) :=
      Function.update_of_ne (by omega) ..
    constructor
    · simp [State.leave, State.setPc]
    · intro hf
      simpa only [State.leave, State.setPc, hk] using (h c).early hf
    · simp [State.leave, State.setPc]
    · intro _ _
      refine .inr ⟨Function.update_self .., ?_⟩
      simpa only [State.leave, State.setPc, hk] using hreg
  · rintro d rfl
    refine (h d).child ?_ (by simp [hpc]) (by simp [hpc]) ?_ ?_ rfl
    · exact Function.update_of_ne (by omega) ..
    · simp [State.leave, State.setPc, Pc.Early, Pc.Before]
    · exact Function.update_of_ne (by omega) ..

omit [DecidableEq ω] in
/-- `final_suspend` sets `done_`. -/
theorem agree_setDone {c : Nat} (h : ∀ d, Agree s d) (hpc : s.pc c = .setDone) :
    ∀ d, Agree ({ s with done := Function.update s.done c true }.setPc c .readSuspended) d := by
  refine agree_final h (p := .readSuspended) rfl ?_ (fun _ _ ↦ rfl) (fun _ ↦ id) (by simp) ?_
  · exact fun d hdc ↦ Function.update_of_ne hdc ..
  · rintro d rfl
    refine (h d).final (p := .readSuspended) (Function.update_of_ne (by omega) ..)
      (Function.update_self ..) (by simp [hpc]) (by simp [State.setPc]) (by simp [Pc.Before]) ?_
    intro hp hf
    exact .inr ⟨(((h d).registered hp hf).resolve_left (by simp [hpc])).1, by simp [Pc.Before]⟩

omit [DecidableEq ω] in
/-- `final_suspend` takes the handle of the parent. -/
theorem agree_takeSuspended {c handle : Nat} (h : ∀ d, Agree s d)
    (hpc : s.pc c = .readSuspended) (hreg : s.suspended c = some handle)
    (hok : ∀ d, d + 1 = c → s.pc d ≠ .awaitSuspend) :
    ∀ d, Agree ({ s with suspended := Function.update s.suspended c none }.setPc c
      (.schedule handle)) d := by
  refine agree_final h (p := .schedule handle) rfl (fun _ _ ↦ rfl) ?_ (fun _ ↦ id) (by simp) ?_
  · exact fun d hdc ↦ Function.update_of_ne hdc ..
  · rintro d rfl
    refine (h d).final (p := .schedule handle) (Function.update_of_ne (by omega) ..)
      (Function.update_self ..) (by simp [hpc])
      ((h d).done_of_not_early (by simp [hpc, Pc.Early])) (fun hp ↦ absurd hp (hok d rfl)) ?_
    intro hp hf
    rcases (h d).registered hp hf with hs | ⟨hs, -⟩
    · rw [hpc] at hs
      cases hs
    · rw [hreg, Option.some.injEq] at hs
      exact .inl (congrArg Pc.schedule hs)

/-- `final_suspend` finds no handle: nobody has suspended on the coroutine, or is about to. -/
theorem agree_finish {w : ω} {c : Nat} (h : ∀ d, Agree s d) (hpc : s.pc c = .readSuspended)
    (hreg : s.suspended c = none) (hok : ∀ d, d + 1 = c → s.pc d ≠ .awaitSuspend) :
    ∀ d, Agree ((s.setPc c .finished).leave w) d := by
  refine agree_final h (p := .finished) rfl (fun _ _ ↦ rfl) (fun _ _ ↦ rfl) (fun _ ↦ id)
    (by simp) ?_
  rintro d rfl
  refine (h d).final (p := .finished) (Function.update_of_ne (by omega) ..)
    (Function.update_self ..) (by simp [hpc])
    ((h d).done_of_not_early (by simp [hpc, Pc.Early])) (fun hp ↦ absurd hp (hok d rfl)) ?_
  intro hp hf
  rcases (h d).registered hp hf with hs | ⟨hs, -⟩
  · rw [hpc] at hs
    cases hs
  · rw [hreg] at hs
    cases hs

/-- `final_suspend` schedules the handle it has taken. -/
theorem agree_schedule {w : ω} {c handle : Nat} (h : ∀ d, Agree s d)
    (hpc : s.pc c = .schedule handle) :
    ∀ d, Agree (({ s with
      posted := s.posted ++ [Posted.resume handle]
      scheduled := Function.update s.scheduled handle true }.setPc c .finished).leave w) d := by
  refine agree_final h (p := .finished) rfl (fun _ _ ↦ rfl) (fun _ _ ↦ rfl) ?_ (by simp) ?_
  · intro d hf
    by_cases hd : d = handle
    · subst hd
      simp [State.setPc, State.leave] at hf
    · simpa [State.setPc, State.leave, hd] using hf
  · rintro d rfl
    refine (h d).final (p := .finished) (Function.update_of_ne (by omega) ..)
      (Function.update_self ..) (by simp [hpc])
      ((h d).done_of_not_early (by simp [hpc, Pc.Early, Pc.Before])) ?_ ?_
    · exact fun hp ↦ absurd hpc (((h d).registering hp).1 handle)
    · intro hp hf
      by_cases hd : d = handle
      · subst hd
        simp [State.setPc, State.leave] at hf
      · have hf' : s.scheduled d = false := by simpa [State.setPc, State.leave, hd] using hf
        rcases (h d).registered hp hf' with hs | ⟨-, hs⟩
        · rw [hpc, Pc.schedule.injEq] at hs
          exact absurd hs.symm hd
        · exact absurd hpc (hs.1 handle)

/-- Every permitted step of a coroutine keeps the agreement of each pair. -/
theorem agree_coroutineStep {shape : Shape} {w : ω} {c : Nat} (h : ∀ d, Agree s d)
    (hok : ∀ d, d + 1 = c → s.pc (d + 1) = .readSuspended → s.pc d ≠ .awaitSuspend)
    (hn : coroutineStep shape s w c = some s') : ∀ d, Agree s' d := by
  simp only [coroutineStep] at hn
  split at hn
  · next hpc =>
    split at hn
    · cases hn
      exact agree_start h hpc
    · split at hn
      all_goals
        cases hn
        exact agree_setPc h rfl rfl rfl rfl (by simp [hpc]) (by simp [hpc])
          (by simp [Pc.Early, Pc.Before]) (by simp) (by simp) (by simp)
  · next hpc =>
    cases hn
    exact agree_awaitReady h hpc
  · next hpc =>
    cases hn
    exact agree_awaitSuspend h hpc
  · next hpc =>
    cases hn
    exact agree_setDone h hpc
  · next hpc =>
    have hpeace (d : Nat) (hd : d + 1 = c) : s.pc d ≠ .awaitSuspend :=
      hok d hd (by rw [hd, hpc])
    split at hn
    · next handle hreg =>
      cases hn
      exact agree_takeSuspended h hpc hreg hpeace
    · next hreg =>
      cases hn
      exact agree_finish h hpc hreg hpeace
  · next handle hpc =>
    cases hn
    exact agree_schedule h hpc
  all_goals cases hn

/-- A worker that takes a posted handler starts the chain, or resumes a coroutine that
suspended. -/
theorem agree_takePosted {w : ω} {i : Nat} (h : ∀ d, Agree s d)
    (hn : takePosted s w i = some s') : ∀ d, Agree s' d := by
  simp only [takePosted] at hn
  split at hn
  · split at hn
    · split at hn
      · next hpc =>
        cases hn
        refine agree_move (c := 0) (p := .body) h rfl (fun _ _ _ ↦ rfl) (fun _ _ _ ↦ rfl)
          (fun _ ↦ id) ?_ (fun d hd ↦ absurd hd (by omega))
        exact (h 0).parent (by simp [State.run, State.setPc]) rfl
          (fun _ ↦ (h 0).fresh (.inl hpc)) (by simp [State.run, State.setPc])
          (by simp [State.run, State.setPc])
      · cases hn
    · next c _ =>
      split at hn
      · next hpc =>
        cases hn
        exact agree_setPc (c := c) (p := .setDone) h rfl rfl rfl rfl
          (by rintro he; simp [he] at hpc) (by rintro handle he; simp [he] at hpc)
          (by simp [Pc.Early, Pc.Before]) (by simp) (by simp) (by simp)
      · cases hn
    · cases hn
  · cases hn

/-- Every permitted step keeps the agreement of each pair. -/
theorem agree_next {shape : Shape} {a : Act ω} (h : ∀ d, Agree s d) (hok : StepOk s a)
    (hn : next shape s a = some s') : ∀ d, Agree s' d := by
  cases a with
  | blockOn =>
    cases hn
    exact fun d ↦ (h d).of_eq rfl rfl rfl rfl id
  | take w i => exact agree_takePosted h hn
  | step w =>
    simp only [next] at hn
    split at hn
    · cases hn
    · next c _ hstack =>
      refine agree_coroutineStep h (fun d hd hpc ↦ hok d ?_ hpc) hn
      rw [hstack, hd, List.head?_cons]
  | enter w | exit w | complete =>
    simp only [next] at hn
    split at hn
    · cases hn
      exact fun d ↦ (h d).of_eq rfl rfl rfl rfl id
    · cases hn

/-- On runs where no `final_suspend` reads `suspended_` inside its parent's window, no
resumption is lost. -/
theorem no_lost_resumption {shape : Shape} (hr : (system ω shape).ReachableBy StepOk s)
    (c : Nat) : ¬Lost s c := by
  have hall : ∀ d, Agree s d := by
    refine hr.invariant (fun d ↦ ?_) fun _ _ _ hi hok hn ↦ agree_next hi hok hn
    constructor <;> simp [system, init, Pc.Early, Pc.Before]
  rintro ⟨hchild, hpc, hnever⟩
  rcases (hall c).registered hpc hnever with hs | ⟨-, hs⟩
  · rw [hchild] at hs
    cases hs
  · exact hs.2 hchild

instance (s : State ω) (c : Nat) : Decidable (Lost s c) :=
  inferInstanceAs (Decidable (_ ∧ _ ∧ _))

instance (s : State ω) (a : Act ω) : Decidable (StepOk s a) :=
  match a with
  | .step w =>
    match hs : s.stack w with
    | [] | 0 :: _ => isTrue (by simp [StepOk, hs])
    | (c + 1) :: _ =>
      decidable_of_iff (s.pc (c + 1) = .readSuspended → s.pc c ≠ .awaitSuspend)
        (by simp [StepOk, hs])
  | .blockOn | .enter _ | .take _ _ | .exit _ | .complete => isTrue trivial

/-- Two calls of `block_on` bring two workers into `run()`. Worker `w` starts coroutine 0 and
its child, which awaits an external completion, and coroutine 0 reads `done_`. -/
def twoWorkers {κ : Type} (w v : κ) : List (Act κ) :=
  [.blockOn, .enter w, .blockOn, .enter v, .take w 0, .step w, .step w, .step w]

/-- The parent registers before the child finishes on the other worker, and is resumed. -/
theorem no_lost_resumption_external :
    ∃ s, (system (Fin 2) ⟨1, true⟩).ReachableBy StepOk s ∧
      s.pc 1 = .finished ∧ s.pc 0 = .suspended ∧ ¬Lost s 0 := by
  have hrun : ∃ s, (system (Fin 2) ⟨1, true⟩).ReachableBy StepOk s ∧
      s.pc 1 = .finished ∧ s.pc 0 = .suspended :=
    System.exists_reachableBy
      (twoWorkers 0 1 ++ [.step 0, .complete, .take 1 0, .step 1, .step 1, .step 1]) (by decide)
  obtain ⟨s, hr, hchild, hpc⟩ := hrun
  exact ⟨s, hr, hchild, hpc, no_lost_resumption hr 0⟩

/-- The child finishes on the other worker between the two accesses of its parent, whose
handle is then never scheduled. -/
theorem lost_resumption :
    ¬∀ s, (system (Fin 2) ⟨1, true⟩).Reachable s → ∀ c, ¬Lost s c := by
  intro h
  have hrun : ∃ s, (system (Fin 2) ⟨1, true⟩).Reachable s ∧ Lost s 0 :=
    System.exists_reachable
      (twoWorkers 0 1 ++ [.complete, .take 1 0, .step 1, .step 1, .step 0]) (by decide)
  obtain ⟨s, hr, hlost⟩ := hrun
  exact h s hr 0 hlost

end Crasy.Future.Chain
