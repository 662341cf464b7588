import Crasy.Base.System

/-!
# What block_on_impl gets back from the worker

Library `Executor`. Models `block_on_impl` (`src/executor.cpp:87–115`) at the steps by which the
calling thread and the core worker share its locals `handle`, `done`, `mut` and `cv` and the
frame of the wrapping coroutine: a `future<void>`, whose `initial_suspend` and `final_suspend`
are in `include/crasy/future.hpp:113–123`, and whose handle the posted handler stores and the
guard destroys (`include/crasy/future.hpp:144–176`). The task is any: it completes or throws
while it is started, or suspends, and then is resumed any number of times before it is done.
-/

namespace Crasy.Executor.HandBack

open Crasy.Base

/-- Where the calling thread stands. `wait` releases `mut` as it blocks and takes it again when
it wakes. `guard` is in front of the construction of the guard, `destroy` of its destruction,
and `leave` of the end of the other locals. -/
inductive CallerPc where
  | post
  | wakeWorker
  | lock
  | evaluate
  | blocked
  | unlock
  | guard
  | destroy
  | leave
  | returned
  deriving DecidableEq, Repr

/-- What the core worker does for the call: nothing, run the posted handler inside the wrapper,
store the handle that the wrapper's start came back with, or resume the wrapper. -/
inductive WorkerPc where
  | idle
  | starting
  | storing
  | resuming
  deriving DecidableEq, Repr

/-- Where the wrapper stands: before its start, in the call of `fn`, suspended on the future of
the task, in front of its `await_resume`, of each of its steps on the locals, and of
`final_suspend`, and at its final suspend point. -/
inductive WrapperPc where
  | absent
  | call
  | suspended
  | awaitResume
  | lock
  | setDone
  | unlock
  | notify
  | finalSuspend
  | final
  deriving DecidableEq, Repr

/-- A thread that may hold `mut`. -/
inductive Thread where
  | caller
  | worker
  deriving DecidableEq, Repr

/-- How the start of the task ends. -/
inductive Start where
  | completes
  | throws
  | suspends
  deriving DecidableEq, Repr

/-- The two threads, the wrapper, the handlers of the call that are queued (`posted` to start the
wrapper, `scheduled` to resume it) and the locals: `owner` is that of `mut`, `handle` and `guard`
say whether the handle of the wrapper is in them, `alive` whether the locals exist. The last
fields record the calls of `destroy()`, one on a frame that is not at its final suspend point, a
step of a frame after one, and an access to a local that does not exist. -/
structure State where
  caller : CallerPc
  worker : WorkerPc
  wrapper : WrapperPc
  posted : Bool
  scheduled : Bool
  owner : Option Thread
  done : Bool
  handle : Bool
  guard : Bool
  alive : Bool
  destroyed : Nat
  early : Bool
  ranAfter : Bool
  dangling : Bool
  deriving DecidableEq, Repr

/-- The choices of the scheduler and of the task. A thread in `wait` may wake at any time. -/
inductive Act where
  | caller
  | wake
  | start
  | call (r : Start)
  | runTask (completes : Bool)
  | resume
  | awaitResume (throws : Bool)
  | wrapper
  | store
  deriving DecidableEq, Repr

/-- The call begins, with nothing posted. -/
def init : State :=
  { caller := .post, worker := .idle, wrapper := .absent, posted := false, scheduled := false,
    owner := none, done := false, handle := false, guard := false, alive := true,
    destroyed := 0, early := false, ranAfter := false, dangling := false }

/-- The worker accesses one of the locals. -/
def State.touch (s : State) : State := { s with dangling := s.dangling || !s.alive }

/-- The wrapper takes a step. -/
def State.move (s : State) (pc : WrapperPc) : State :=
  { s with wrapper := pc, ranAfter := s.ranAfter || s.destroyed != 0 }

/-- The next step of the calling thread; `src/executor.cpp:93–115`. -/
def callerStep (s : State) : Option State :=
  match s.caller with
  | .post => some { s with caller := .wakeWorker, posted := true }
  | .wakeWorker => some { s with caller := .lock }
  | .lock =>
    if s.owner = none then some { s with caller := .evaluate, owner := some .caller } else none
  | .evaluate =>
    if s.done then some { s with caller := .unlock }
    else some { s with caller := .blocked, owner := none }
  | .blocked => none
  | .unlock => some { s with caller := .guard, owner := none }
  | .guard => some { s with caller := .destroy, guard := s.handle }
  | .destroy =>
    if s.guard then some { s with
      caller := .leave, destroyed := s.destroyed + 1, early := s.early || s.wrapper != .final }
    else some { s with caller := .leave }
  | .leave => some { s with caller := .returned, alive := false }
  | .returned => none

/-- The next step of the wrapper behind its `co_await`; `src/executor.cpp:97–101`,
`include/crasy/future.hpp:115–123`. -/
def wrapperStep (s : State) : Option State :=
  match s.wrapper with
  | .lock =>
    if s.owner = none then some { s.touch.move .setDone with owner := some .worker } else none
  | .setDone => some { s.touch.move .unlock with done := true }
  | .unlock => some { s.touch.move .notify with owner := none }
  | .notify => some (s.touch.move .finalSuspend)
  | .finalSuspend => some { s.move .final with
      worker := if s.worker = .starting then .storing else .idle }
  | .absent | .call | .suspended | .awaitResume | .final => none

/-- One step. -/
def next (s : State) : Act → Option State
  | .caller => callerStep s
  | .wake => if s.caller = .blocked then some { s with caller := .lock } else none
  | .start =>
    if s.worker = .idle ∧ s.posted then
      some { s with worker := .starting, posted := false, wrapper := .call }
    else none
  | .call r =>
    if s.wrapper = .call then
      match r with
      | .completes => some (s.move .lock)
      | .throws => some (s.move .finalSuspend)
      | .suspends => some { s.move .suspended with worker := .storing }
    else none
  | .runTask completes =>
    if s.worker = .idle ∧ s.wrapper = .suspended ∧ s.scheduled = false then
      some { s with scheduled := completes }
    else none
  | .resume =>
    if s.worker = .idle ∧ s.scheduled then
      some { s.move .awaitResume with worker := .resuming, scheduled := false }
    else none
  | .awaitResume throws =>
    if s.wrapper = .awaitResume then
      some (s.move (if throws then .finalSuspend else .lock))
    else none
  | .wrapper => wrapperStep s
  | .store =>
    if s.worker = .storing then some { s.touch with handle := true, worker := .idle } else none

/-- A call of `block_on_impl` beside a core worker. -/
def system : System State Act := { init := init, next := next }

/-! ### The hand-back -/

/-- The calling thread has constructed its guard. -/
def CallerPc.guarded : CallerPc → Bool
  | .destroy | .leave | .returned => true
  | .post | .wakeWorker | .lock | .evaluate | .blocked | .unlock | .guard => false

/-- The calling thread has seen `done`. -/
def CallerPc.released : CallerPc → Bool
  | .unlock | .guard | .destroy | .leave | .returned => true
  | .post | .wakeWorker | .lock | .evaluate | .blocked => false

/-- The wrapper is being executed. -/
def WrapperPc.executing : WrapperPc → Bool
  | .call | .awaitResume | .lock | .setDone | .unlock | .notify | .finalSuspend => true
  | .absent | .suspended | .final => false

/-- The wrapper is past `dn = true`, or has come to its end without. -/
def WrapperPc.ending : WrapperPc → Bool
  | .unlock | .notify | .finalSuspend | .final => true
  | .absent | .call | .suspended | .awaitResume | .lock | .setDone => false

/-- A local is still to be accessed by the worker. -/
def State.touches (s : State) : Bool :=
  s.worker == .storing || match s.wrapper with
    | .lock | .setDone | .unlock | .notify => true
    | .absent | .call | .suspended | .awaitResume | .finalSuspend | .final => false

/-- Once the guard has been constructed, the handle of the wrapper had been stored, none of the
locals will be accessed, and the wrapper is at its final suspend point; and its frame is destroyed
exactly once and not while it is executing. -/
structure HandedBack (s : State) : Prop where
  ordered : s.caller.guarded = true → s.handle = true ∧ s.touches = false ∧ s.wrapper = .final
  atMostOnce : s.destroyed ≤ 1
  once : s.caller = .returned → s.destroyed = 1
  notEarly : s.early = false ∧ s.ranAfter = false
  notDangling : s.dangling = false

/-- The guard is constructed only when the worker has left the handler in which the wrapper has
set `done`. -/
def GuardOk (s : State) : Act → Prop
  | .caller => s.caller = .guard → s.worker = .idle
  | _ => True

/-- How the positions of the two threads and the wrapper belong together in every run. -/
structure Placed (s : State) : Prop where
  unposted : s.caller = .post → s.posted = false
  absent : s.posted = true ∨ s.caller = .post → s.wrapper = .absent ∧ s.worker = .idle
  runs : s.wrapper.executing = true ↔ s.worker = .starting ∨ s.worker = .resuming
  stores : s.worker = .storing → s.wrapper = .suspended ∨ s.wrapper = .final
  stored : s.worker = .resuming ∨ s.worker = .idle ∧ s.wrapper ≠ .absent → s.handle = true
  scheduled : s.scheduled = true → s.wrapper = .suspended
  set : s.done = true → s.wrapper.ending = true
  released : s.caller.released = true → s.done = true

/-- What holds as long as guards are constructed at the right time. -/
structure Ordered (s : State) : Prop where
  idle : s.caller.guarded = true → s.worker = .idle
  guard : s.caller = .destroy → s.guard = true
  destroyed : s.destroyed = if s.caller = .leave ∨ s.caller = .returned then 1 else 0
  alive : s.alive = false → s.caller = .returned
  clean : s.early = false ∧ s.ranAfter = false ∧ s.dangling = false

namespace Placed

variable {s s' : State}

private theorem of_caller {pc : CallerPc} {owner : Option Thread} {guard alive early : Bool}
    {destroyed : Nat} (h : Placed s) (hpc : pc ≠ .post)
    (hreleased : pc.released = true → s.done = true) :
    Placed { s with caller := pc, owner := owner, guard := guard, alive := alive,
                    destroyed := destroyed, early := early } :=
  { h with
    unposted := fun hp ↦ absurd hp hpc
    absent := fun hp ↦ h.absent (.inl (hp.resolve_right hpc))
    released := hreleased }

private theorem of_wrapper {pc : WrapperPc} {owner : Option Thread} {done ranAfter dangling : Bool}
    (h : Placed s) (hold : s.wrapper.executing = true) (hnew : pc.executing = true)
    (hdone : s.done = true → done = true) (hending : done = true → pc.ending = true) :
    Placed { s with wrapper := pc, owner := owner, done := done, ranAfter := ranAfter,
                    dangling := dangling } := by
  have hworker := h.runs.mp hold
  constructor
  · exact h.unposted
  · intro hp
    rw [(h.absent hp).1] at hold
    cases hold
  · exact iff_of_true hnew hworker
  · intro hw
    rcases hworker with hs | hs <;> rw [hs] at hw <;> cases hw
  · rintro (hw | ⟨hw, -⟩)
    · exact h.stored (.inl hw)
    · rcases hworker with hs | hs <;> rw [hs] at hw <;> cases hw
  · intro hs
    rw [h.scheduled hs] at hold
    cases hold
  · exact hending
  · exact fun hr ↦ hdone (h.released hr)

/-- A step of the calling thread. -/
theorem callerStep (h : Placed s) (hn : callerStep s = some s') : Placed s' := by
  unfold HandBack.callerStep at hn
  split at hn
  · next hc =>
    cases hn
    exact { h with
      unposted := fun hp ↦ by cases hp
      absent := fun _ ↦ h.absent (.inr hc)
      released := by simp [CallerPc.released] }
  · cases hn
    exact h.of_caller (by decide) (by simp [CallerPc.released])
  · split at hn <;> cases hn
    exact h.of_caller (by decide) (by simp [CallerPc.released])
  · split at hn <;> cases hn
    · next hd => exact h.of_caller (by decide) fun _ ↦ hd
    · exact h.of_caller (by decide) (by simp [CallerPc.released])
  · cases hn
  · next hc =>
    cases hn
    exact h.of_caller (by decide) fun _ ↦ h.released (by rw [hc]; rfl)
  · next hc =>
    cases hn
    exact h.of_caller (by decide) fun _ ↦ h.released (by rw [hc]; rfl)
  · next hc =>
    split at hn <;> cases hn
    · exact h.of_caller (by decide) fun _ ↦ h.released (by rw [hc]; rfl)
    · exact h.of_caller (by decide) fun _ ↦ h.released (by rw [hc]; rfl)
  · next hc =>
    cases hn
    exact h.of_caller (by decide) fun _ ↦ h.released (by rw [hc]; rfl)
  · cases hn

/-- The wrapper comes to its final suspend point, and control goes back to the handler. -/
theorem finalSuspend {ranAfter : Bool} (h : Placed s) (hw : s.wrapper = .finalSuspend) :
    Placed { s with wrapper := .final, ranAfter := ranAfter,
                    worker := if s.worker = .starting then .storing else .idle } := by
  have hworker := h.runs.mp (by rw [hw]; rfl)
  constructor
  · exact h.unposted
  · intro hp
    have habsent := (h.absent hp).1
    rw [hw] at habsent
    cases habsent
  · rcases hworker with hs | hs <;> simp [hs, WrapperPc.executing]
  · exact fun _ ↦ .inr rfl
  · rcases hworker with hs | hs
    · simp [hs]
    · exact fun _ ↦ h.stored (.inl hs)
  · intro hs
    have hsusp := h.scheduled hs
    rw [hw] at hsusp
    cases hsusp
  · exact fun _ ↦ rfl
  · exact h.released

/-- A step of the wrapper. -/
theorem wrapperStep (h : Placed s) (hn : wrapperStep s = some s') : Placed s' := by
  unfold HandBack.wrapperStep at hn
  have hset := h.set
  split at hn
  · next hw =>
    split at hn <;> cases hn
    refine h.of_wrapper (by rw [hw]; rfl) rfl id fun hd ↦ ?_
    rw [hw] at hset
    cases hset hd
  · next hw =>
    cases hn
    exact h.of_wrapper (by rw [hw]; rfl) rfl (fun _ ↦ rfl) fun _ ↦ rfl
  · next hw =>
    cases hn
    exact h.of_wrapper (by rw [hw]; rfl) rfl id fun _ ↦ rfl
  · next hw =>
    cases hn
    exact h.of_wrapper (by rw [hw]; rfl) rfl id fun _ ↦ rfl
  · next hw =>
    cases hn
    exact h.finalSuspend hw
  all_goals cases hn

/-- The worker runs the posted handler. -/
theorem start (h : Placed s) (hposted : s.posted = true) :
    Placed { s with worker := .starting, posted := false, wrapper := .call } := by
  obtain ⟨hw, -⟩ := h.absent (.inl hposted)
  have hset := h.set
  have hscheduled := h.scheduled
  rw [hw] at hset hscheduled
  constructor
  · exact fun _ ↦ rfl
  · rintro (hp | hp)
    · cases hp
    · rw [h.unposted hp] at hposted
      cases hposted
  · simp [WrapperPc.executing]
  · simp
  · simp
  · intro hs
    cases hscheduled hs
  · intro hd
    cases hset hd
  · exact h.released

/-- The task suspends, and the start of the wrapper comes back to the handler. -/
theorem suspends {ranAfter : Bool} (h : Placed s) (hw : s.wrapper = .call) :
    Placed { s with wrapper := .suspended, ranAfter := ranAfter, worker := .storing } := by
  have hset := h.set
  rw [hw] at hset
  constructor
  · exact h.unposted
  · intro hp
    have habsent := (h.absent hp).1
    rw [hw] at habsent
    cases habsent
  · simp [WrapperPc.executing]
  · exact fun _ ↦ .inl rfl
  · simp
  · exact fun _ ↦ rfl
  · intro hd
    cases hset hd
  · exact h.released

/-- The worker resumes the wrapper. -/
theorem resume {ranAfter : Bool} (h : Placed s) (hidle : s.worker = .idle)
    (hs : s.scheduled = true) :
    Placed { s with wrapper := .awaitResume, ranAfter := ranAfter, worker := .resuming,
                    scheduled := false } := by
  have hw := h.scheduled hs
  have hset := h.set
  rw [hw] at hset
  constructor
  · exact h.unposted
  · intro hp
    have habsent := (h.absent hp).1
    rw [hw] at habsent
    cases habsent
  · simp [WrapperPc.executing]
  · simp
  · exact fun _ ↦ h.stored (.inr ⟨hidle, by simp [hw]⟩)
  · simp
  · intro hd
    cases hset hd
  · exact h.released

/-- The posted handler stores the handle. -/
theorem store {dangling : Bool} (h : Placed s) (hw : s.worker = .storing) :
    Placed { s with dangling := dangling, handle := true, worker := .idle } := by
  constructor
  · exact h.unposted
  · exact fun hp ↦ ⟨(h.absent hp).1, rfl⟩
  · rcases h.stores hw with hs | hs <;> simp [hs, WrapperPc.executing]
  · simp
  · exact fun _ ↦ rfl
  · exact h.scheduled
  · exact h.set
  · exact h.released

/-- Every step keeps the positions together. -/
theorem next {a : Act} (h : Placed s) (hn : next s a = some s') : Placed s' := by
  cases a with
  | caller => exact h.callerStep hn
  | wake =>
    simp only [HandBack.next] at hn
    split at hn <;> cases hn
    exact h.of_caller (by decide) (by simp [CallerPc.released])
  | start =>
    simp only [HandBack.next] at hn
    split at hn <;> cases hn
    next hc => exact h.start hc.2
  | call r =>
    simp only [HandBack.next] at hn
    split at hn
    · next hw =>
      have hset := h.set
      rw [hw] at hset
      split at hn <;> cases hn
      · exact h.of_wrapper (by rw [hw]; rfl) rfl id fun hd ↦ by cases hset hd
      · exact h.of_wrapper (by rw [hw]; rfl) rfl id fun hd ↦ by cases hset hd
      · exact h.suspends hw
    · cases hn
  | runTask completes =>
    simp only [HandBack.next] at hn
    split at hn <;> cases hn
    next hc => exact { h with scheduled := fun _ ↦ hc.2.1 }
  | resume =>
    simp only [HandBack.next] at hn
    split at hn <;> cases hn
    next hc => exact h.resume hc.1 hc.2
  | awaitResume throws =>
    simp only [HandBack.next] at hn
    split at hn <;> cases hn
    next hw =>
    have hset := h.set
    rw [hw] at hset
    refine h.of_wrapper (by rw [hw]; rfl) ?_ id fun hd ↦ by cases hset hd
    cases throws <;> rfl
  | wrapper => exact h.wrapperStep hn
  | store =>
    simp only [HandBack.next] at hn
    split at hn <;> cases hn
    next hw => exact h.store hw

end Placed

namespace Ordered

variable {s s' : State}

/-- Once the guard has been constructed nothing of the call is left for the worker. -/
theorem quiet (h : Ordered s) (hp : Placed s) (hg : s.caller.guarded = true) :
    s.worker = .idle ∧ s.handle = true ∧ s.wrapper = .final := by
  have hidle := h.idle hg
  have hending := hp.set (hp.released (by cases hc : s.caller <;> simp_all [CallerPc.guarded,
    CallerPc.released]))
  have hfinal : s.wrapper = .final := by
    have hnot : ¬s.wrapper.executing = true := by
      rw [hp.runs, hidle]
      simp
    cases hw : s.wrapper <;> simp_all [WrapperPc.ending, WrapperPc.executing]
  exact ⟨hidle, hp.stored (.inr ⟨hidle, by simp [hfinal]⟩), hfinal⟩

private theorem unguarded (h : Ordered s) (hw : s.worker ≠ .idle) : s.caller.guarded = false := by
  rw [← Bool.not_eq_true]
  exact fun hg ↦ hw (h.idle hg)

private theorem live (h : Ordered s) (hg : s.caller.guarded = false) :
    s.destroyed = 0 ∧ s.alive = true ∧ s.caller ≠ .destroy := by
  have hcaller : s.caller ≠ .destroy ∧ s.caller ≠ .leave ∧ s.caller ≠ .returned := by
    cases hc : s.caller <;> simp_all [CallerPc.guarded]
  refine ⟨by simp [h.destroyed, hcaller], ?_, hcaller.1⟩
  by_contra hnot
  exact hcaller.2.2 (h.alive (by simpa using hnot))

private theorem touch_eq (h : Ordered s) (hg : s.caller.guarded = false) : s.touch = s := by
  have hdangling : (s.dangling || !s.alive) = s.dangling := by simp [(h.live hg).2.1]
  rw [State.touch, hdangling]

private theorem move_eq (h : Ordered s) (hg : s.caller.guarded = false) (pc : WrapperPc) :
    s.move pc = { s with wrapper := pc } := by
  have hran : (s.ranAfter || s.destroyed != 0) = s.ranAfter := by simp [(h.live hg).1]
  rw [State.move, hran]

private theorem of_worker {worker : WorkerPc} {wrapper : WrapperPc}
    {posted scheduled done handle : Bool}
    {owner : Option Thread} (h : Ordered s) (hg : s.caller.guarded = false) :
    Ordered { s with
      worker := worker, wrapper := wrapper, posted := posted, scheduled := scheduled,
      owner := owner, done := done, handle := handle } :=
  { h with
    idle := fun hg' ↦ by rw [hg] at hg'; cases hg'
    guard := fun hd ↦ absurd hd (h.live hg).2.2 }

private theorem of_caller {pc : CallerPc} {owner : Option Thread} {posted : Bool} (h : Ordered s)
    (hg : s.caller.guarded = false) (hpc : pc.guarded = false) :
    Ordered { s with caller := pc, owner := owner, posted := posted } := by
  obtain ⟨hzero, halive, -⟩ := h.live hg
  have hne : pc ≠ .destroy ∧ pc ≠ .leave ∧ pc ≠ .returned := by
    cases pc <;> simp_all [CallerPc.guarded]
  constructor
  · intro hg'
    rw [hpc] at hg'
    cases hg'
  · exact fun hd ↦ absurd hd hne.1
  · simp [hzero, hne]
  · intro hdead
    rw [halive] at hdead
    cases hdead
  · exact h.clean

/-- A step of the calling thread, which constructs its guard at the right time. -/
theorem callerStep (h : Ordered s) (hp : Placed s) (hok : GuardOk s .caller)
    (hn : callerStep s = some s') : Ordered s' := by
  unfold HandBack.callerStep at hn
  split at hn
  · next hc =>
    cases hn
    exact h.of_caller (by rw [hc]; rfl) rfl
  · next hc =>
    cases hn
    exact h.of_caller (by rw [hc]; rfl) rfl
  · next hc =>
    split at hn <;> cases hn
    exact h.of_caller (by rw [hc]; rfl) rfl
  · next hc =>
    split at hn <;> cases hn
    · exact h.of_caller (by rw [hc]; rfl) rfl
    · exact h.of_caller (by rw [hc]; rfl) rfl
  · cases hn
  · next hc =>
    cases hn
    exact h.of_caller (by rw [hc]; rfl) rfl
  · next hc =>
    cases hn
    obtain ⟨hzero, halive, -⟩ := h.live (by rw [hc]; rfl)
    have hidle : s.worker = .idle := hok hc
    have hending := hp.set (hp.released (by rw [hc]; rfl))
    have hstarted : s.wrapper ≠ .absent := by
      intro hw
      rw [hw] at hending
      cases hending
    exact ⟨fun _ ↦ hidle, fun _ ↦ hp.stored (.inr ⟨hidle, hstarted⟩), by simp [hzero],
      fun hdead ↦ by simp [halive] at hdead, h.clean⟩
  · next hc =>
    obtain ⟨hidle, -, hfinal⟩ := h.quiet hp (by rw [hc]; rfl)
    have hguard := h.guard hc
    have hzero : s.destroyed = 0 := by simp [h.destroyed, hc]
    have halive : s.alive = true := by
      by_contra hnot
      have := h.alive (by simpa using hnot)
      simp [hc] at this
    rw [if_pos hguard] at hn
    cases hn
    exact ⟨fun _ ↦ hidle, fun hd ↦ by simp at hd, by simp [hzero],
      fun hdead ↦ by simp [halive] at hdead, by simp [h.clean, hfinal]⟩
  · next hc =>
    cases hn
    obtain ⟨hidle, -, -⟩ := h.quiet hp (by rw [hc]; rfl)
    exact ⟨fun _ ↦ hidle, fun hd ↦ by simp at hd, by simp [h.destroyed, hc], fun _ ↦ rfl, h.clean⟩
  · cases hn

/-- A step of the wrapper. -/
theorem wrapperStep (h : Ordered s) (hg : s.caller.guarded = false)
    (hn : wrapperStep s = some s') : Ordered s' := by
  unfold HandBack.wrapperStep at hn
  simp only [h.touch_eq hg, h.move_eq hg] at hn
  split at hn
  · split at hn <;> cases hn
    exact h.of_worker hg
  · cases hn
    exact h.of_worker hg
  · cases hn
    exact h.of_worker hg
  · cases hn
    exact h.of_worker hg
  · cases hn
    exact h.of_worker hg
  all_goals cases hn

/-- Every step keeps the order, if it constructs the guard at the right time. -/
theorem next {a : Act} (h : Ordered s) (hp : Placed s) (hok : GuardOk s a)
    (hn : next s a = some s') : Ordered s' := by
  have hearly (hw : s.wrapper.ending = false) : s.caller.guarded = false := by
    rw [← Bool.not_eq_true]
    intro hg
    have hfinal := (h.quiet hp hg).2.2
    rw [hfinal] at hw
    cases hw
  cases a with
  | caller => exact h.callerStep hp hok hn
  | wake =>
    simp only [HandBack.next] at hn
    split at hn <;> cases hn
    next hc => exact h.of_caller (by rw [hc]; rfl) rfl
  | start =>
    simp only [HandBack.next] at hn
    split at hn <;> cases hn
    next hc => exact h.of_worker (hearly (by rw [(hp.absent (.inl hc.2)).1]; rfl))
  | call r =>
    simp only [HandBack.next] at hn
    split at hn
    · next hw =>
      have hg := hearly (by rw [hw]; rfl)
      simp only [h.move_eq hg] at hn
      split at hn <;> cases hn
      · exact h.of_worker hg
      · exact h.of_worker hg
      · exact h.of_worker hg
    · cases hn
  | runTask completes =>
    simp only [HandBack.next] at hn
    split at hn <;> cases hn
    next hc => exact h.of_worker (hearly (by rw [hc.2.1]; rfl))
  | resume =>
    simp only [HandBack.next] at hn
    split at hn
    · next hc =>
      have hg := hearly (by rw [hp.scheduled hc.2]; rfl)
      rw [h.move_eq hg] at hn
      cases hn
      exact h.of_worker hg
    · cases hn
  | awaitResume throws =>
    simp only [HandBack.next] at hn
    split at hn
    · next hw =>
      have hg := hearly (by rw [hw]; rfl)
      rw [h.move_eq hg] at hn
      cases hn
      exact h.of_worker hg
    · cases hn
  | wrapper =>
    by_cases hw : s.wrapper.executing = true
    · refine h.wrapperStep (h.unguarded ?_) hn
      rcases hp.runs.mp hw with hs | hs <;> simp [hs]
    · simp only [HandBack.next, HandBack.wrapperStep] at hn
      cases hc : s.wrapper <;> simp_all [WrapperPc.executing]
  | store =>
    simp only [HandBack.next] at hn
    split at hn
    · next hw =>
      have hg := h.unguarded (by simp [hw])
      rw [h.touch_eq hg] at hn
      cases hn
      exact h.of_worker hg
    · cases hn

/-- What the calling thread is owed follows. -/
theorem handedBack (h : Ordered s) (hp : Placed s) : HandedBack s := by
  refine ⟨fun hg ↦ ?_, ?_, fun hc ↦ by simp [h.destroyed, hc], ⟨h.clean.1, h.clean.2.1⟩,
    h.clean.2.2⟩
  · obtain ⟨hidle, hhandle, hfinal⟩ := h.quiet hp hg
    exact ⟨hhandle, by simp [State.touches, hidle, hfinal], hfinal⟩
  · rw [h.destroyed]
    split <;> decide

end Ordered

/-- A guard that is constructed too early is out of order at once. -/
theorem not_handedBack_guard {s s' : State} {a : Act} (hp : Placed s) (hbad : ¬GuardOk s a)
    (hn : next s a = some s') : ¬HandedBack s' := by
  cases a with
  | caller =>
    obtain ⟨hc, hbusy⟩ := Classical.not_imp.mp hbad
    simp only [next, callerStep, hc] at hn
    cases hn
    intro h
    obtain ⟨-, htouches, hfinal⟩ := h.ordered rfl
    have hnot : ¬(s.worker = .starting ∨ s.worker = .resuming) := by
      rw [← hp.runs]
      intro he
      have hfinal' : s.wrapper = .final := hfinal
      rw [hfinal'] at he
      cases he
    have hstoring : s.worker = .storing := by
      cases hw : s.worker <;> simp_all
    simp [State.touches, hstoring] at htouches
  | _ => exact absurd trivial hbad

/-- A run is in order throughout exactly when the guard is not constructed while the worker is
still in the handler in which the wrapper has set `done`. -/
theorem handed_back {acts : List Act} {s : State} (hr : system.Run acts s) :
    (∀ before t, before <+: acts → system.Run before t → HandedBack t) ↔
      system.RunBy GuardOk acts s := by
  have hplaced : Placed system.init := by
    constructor <;> simp [system, init, WrapperPc.executing, CallerPc.released]
  have hordered : Ordered system.init := by
    constructor <;> simp [system, init, CallerPc.guarded]
  exact hr.passes_iff ⟨hplaced, hordered⟩ (fun _ _ _ hp hn ↦ hp.next hn)
    (fun _ _ _ hp h hok hn ↦ h.next hp hok hn) (fun _ hp h ↦ h.handedBack hp)
    fun _ _ _ hp _ hbad hn ↦ not_handedBack_guard hp hbad hn

instance (s : State) (a : Act) : Decidable (GuardOk s a) :=
  match a with
  | .caller => inferInstanceAs (Decidable (s.caller = .guard → s.worker = .idle))
  | .wake | .start | .call _ | .runTask _ | .resume | .awaitResume _ | .wrapper | .store =>
    isTrue trivial

/-- A task that suspends twice, with the caller asleep until the worker has done its part. -/
def suspendedTwice : List Act :=
  [.caller, .caller, .start, .call .suspends, .store, .caller, .caller, .runTask false,
    .runTask true, .resume, .awaitResume false, .wrapper, .wrapper, .wrapper, .wrapper, .wrapper,
    .wake, .caller, .caller, .caller, .caller, .caller, .caller]

/-- The call returns, and the frame of the wrapper has been destroyed. -/
theorem handed_back_suspendedTwice : ∃ s, system.Run suspendedTwice s ∧
    (s.caller = .returned ∧ s.destroyed = 1) ∧ HandedBack s := by
  have hrun : ∃ s, system.RunBy GuardOk suspendedTwice s ∧ s.caller = .returned ∧
      s.destroyed = 1 :=
    System.exists_runBy _ (by decide)
  obtain ⟨s, hgood, hs⟩ := hrun
  have hr : system.Run suspendedTwice s := hgood.mono fun _ _ _ ↦ trivial
  exact ⟨s, hr, hs, (handed_back hr).mpr hgood _ s List.prefix_rfl hr⟩

/-- A task that completes while it is started: the caller sees `done` before the handler has
stored the handle, and returns without having destroyed the frame. -/
theorem not_handed_back_completes : ¬∀ s, system.Reachable s → HandedBack s := by
  intro h
  have hrun : ∃ s, system.Reachable s ∧ s.caller = .returned ∧ s.destroyed = 0 :=
    System.exists_reachable [.caller, .caller, .start, .call .completes, .wrapper, .wrapper,
      .wrapper, .caller, .caller, .caller, .caller, .caller, .caller] (by decide)
  obtain ⟨s, hr, hc, hd⟩ := hrun
  have hone := (h s hr).once hc
  omega

end Crasy.Executor.HandBack
