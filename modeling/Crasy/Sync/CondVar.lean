import Crasy.Base.Ledger
import Crasy.Base.System
import Crasy.LfQueue.Fifo

/-!
# The condition variable and its waiters

Library `Sync`. Models the wait futures of `include/crasy/condition_variable.hpp:19–53,83–110`
and the notifications of `src/condition_variable.cpp:9–30`. `waiters_` is an `lfqueue` of
references, whose entries behave as the generic ones (`Crasy.LfQueue.RefEntry`), so that it
takes each push and pop as one step with the behaviour of `Content`. Any number of calls of
`notify_one` and `notify_all` run beside each other and beside the waits that register.
-/

namespace Crasy.Sync.CondVar

open Crasy.Base Crasy.LfQueue

variable {ω κ ν : Type}

/-- `condition_variable_wait_future`, without its two pointers; `awaiter` says whether
`awaiter_` has a value. -/
structure WaitFuture (κ : Type) where
  suspended : Option κ
  notified : Bool
  locked : Bool
  awaiter : Bool
  deriving DecidableEq, Repr

namespace WaitFuture

/-- A wait future as its constructor leaves it. -/
def new : WaitFuture κ :=
  { suspended := none, notified := false, locked := false, awaiter := false }

/-- `await_ready`, with what `awaiter_->await_ready()` answers;
`include/crasy/condition_variable.hpp:84–94`. -/
def awaitReady (f : WaitFuture κ) (inner : Bool) : WaitFuture κ × Bool :=
  if f.notified then ({ f with locked := true, awaiter := f.awaiter || !f.locked }, inner)
  else (f, false)

/-- `await_suspend`, and whether it pushes the future to `waiters_` rather than suspend on
the lock; `include/crasy/condition_variable.hpp:97–105`. -/
def awaitSuspend (f : WaitFuture κ) (k : κ) : WaitFuture κ × Bool :=
  if f.awaiter then (f, false) else ({ f with suspended := some k }, true)

/-- `notify`, with the handle it schedules; `src/condition_variable.cpp:9–14`. -/
def notify (f : WaitFuture κ) : WaitFuture κ × Option κ :=
  ({ f with notified := true, suspended := none }, f.suspended)

/-- A new future is pushed, with the handle it is given. -/
@[simp] theorem awaitSuspend_new (k : κ) : new.awaitSuspend k =
    ({ suspended := some k, notified := false, locked := false, awaiter := false }, true) := rfl

@[simp] theorem notify_suspended (f : WaitFuture κ) : f.notify.1.suspended = none := rfl

end WaitFuture

/-- Where a call of `notify_one` or `notify_all` stands. -/
inductive NotifyPc (ω : Type) where
  | idle
  | pop (all : Bool)
  | notify (all : Bool) (waiter : ω)
  deriving DecidableEq, Repr

/-- The waiter that a call has popped and has yet to notify. -/
def NotifyPc.waiter : NotifyPc ω → Option ω
  | .notify _ w => some w
  | .idle | .pop _ => none

/-- The condition variable (`waiters_`), the wait futures, the calls of the two notify
functions, and the registrations and schedulings so far, each with the future's handle. -/
structure State (ω κ ν : Type) where
  waiters : Content ω
  futures : ω → WaitFuture κ
  notifiers : ν → NotifyPc ω
  registered : List (ω × κ)
  scheduled : List (ω × κ)

/-- The choices of the scheduler and of the program. -/
inductive Act (ω κ ν : Type) where
  | register (w : ω) (k : κ)
  | notifyOne (n : ν)
  | notifyAll (n : ν)
  | notifier (n : ν)
  deriving DecidableEq, Repr

/-- Nobody has waited or notified. -/
def init : State ω κ ν :=
  { waiters := .empty, futures := fun _ ↦ .new, notifiers := fun _ ↦ .idle, registered := [],
    scheduled := [] }

section Steps

variable [DecidableEq ω] [DecidableEq ν]

/-- Move one notify call. -/
def State.setNotifier (s : State ω κ ν) (n : ν) (pc : NotifyPc ω) : State ω κ ν :=
  { s with notifiers := Function.update s.notifiers n pc }

/-- A wait: the future is new, as every `wait` makes one, and its `await_suspend` pushes it
to `waiters_`. -/
def register (s : State ω κ ν) (w : ω) (k : κ) : State ω κ ν :=
  { s with
    waiters := s.waiters.push w
    futures := Function.update s.futures w (WaitFuture.new.awaitSuspend k).1
    registered := s.registered ++ [(w, k)] }

/-- The next step of `notify_one` or `notify_all`; `src/condition_variable.cpp:16–30`. -/
def notifierStep (s : State ω κ ν) (n : ν) : Option (State ω κ ν) :=
  match s.notifiers n with
  | .pop all =>
    let (waiter, waiters) := s.waiters.pop
    some ({ s with waiters := waiters }.setNotifier n
      (match waiter with | some w => .notify all w | none => .idle))
  | .notify all w =>
    let (f, k) := (s.futures w).notify
    some ({ s with futures := Function.update s.futures w f,
                   scheduled := s.scheduled ++ (k.map (w, ·)).toList }.setNotifier n
      (if all then .pop true else .idle))
  | .idle => none

/-- One step of the condition variable. -/
def next (s : State ω κ ν) : Act ω κ ν → Option (State ω κ ν)
  | .register w k =>
    if w ∈ s.registered.map Prod.fst then none else some (register s w k)
  | .notifyOne n =>
    if s.notifiers n = .idle then some (s.setNotifier n (.pop false)) else none
  | .notifyAll n =>
    if s.notifiers n = .idle then some (s.setNotifier n (.pop true)) else none
  | .notifier n => notifierStep s n

/-- A condition variable under all interleavings of waits and notifications. -/
def system (ω κ ν : Type) [DecidableEq ω] [DecidableEq ν] :
    System (State ω κ ν) (Act ω κ ν) := { init := init, next := next }

end Steps

/-! ### Every waiter once -/

/-- The steps at which no pop of a notify call is spent on an emptied front entry of the
queue. -/
def PopOk (s : State ω κ ν) : Act ω κ ν → Prop
  | .notifier n => (∃ all, s.notifiers n = .pop all) → ¬s.waiters.Refilled
  | .register _ _ | .notifyOne _ | .notifyAll _ => True

/-- Every registration is queued, with one notify call, or scheduled. -/
structure Tracked (s : State ω κ ν) : Prop where
  ledger : Ledger (fun w ↦ (s.futures w).suspended ≠ none) (fun n ↦ (s.notifiers n).waiter)
    s.waiters.values
  order : ∃ taken, s.registered.map Prod.fst = taken ++ s.waiters.values
  distinct : (s.registered.map Prod.fst).Nodup
  waiting : ∀ w k, (s.futures w).suspended = some k → (w, k) ∈ s.registered
  kept : ∀ e ∈ s.registered, e ∈ s.scheduled ∨ (s.futures e.1).suspended = some e.2
  sound : ∀ e ∈ s.scheduled, e ∈ s.registered ∧ (s.futures e.1).suspended = none
  once : (s.scheduled.map Prod.fst).Nodup

namespace Tracked

variable {s s' : State ω κ ν}

private theorem queued_or_taken (h : Tracked s) {e : ω × κ} (he : e ∈ s.registered) :
    e ∈ s.scheduled ∨ e.1 ∈ s.waiters.values ∨ ∃ n, (s.notifiers n).waiter = some e.1 := by
  refine (h.kept e he).imp_right fun hs ↦ (h.ledger.total e.1).mp ?_
  rw [hs]
  exact Option.some_ne_none _

private theorem of_taken (h : Tracked s) {n : ν} {w : ω} (hw : (s.notifiers n).waiter = some w) :
    ∃ k, (s.futures w).suspended = some k ∧ (w, k) ∈ s.registered := by
  have hlive := (h.ledger.total w).mpr (.inr ⟨n, hw⟩)
  obtain ⟨k, hk⟩ := Option.ne_none_iff_exists'.mp hlive
  exact ⟨k, hk, h.waiting w k hk⟩

private theorem of_eq (h : Tracked s) (hq : s'.waiters.values = s.waiters.values)
    (hf : s'.futures = s.futures) (hr : s'.registered = s.registered)
    (hs : s'.scheduled = s.scheduled)
    (hn : ∀ n, (s'.notifiers n).waiter = (s.notifiers n).waiter) : Tracked s' := by
  have hheld : (fun n ↦ (s'.notifiers n).waiter) = fun n ↦ (s.notifiers n).waiter := funext hn
  refine ⟨?_, ?_, ?_, ?_, ?_, ?_, ?_⟩
  · rw [hheld, hf, hq]
    exact h.ledger
  · rw [hr, hq]
    exact h.order
  · rw [hr]
    exact h.distinct
  · rw [hf, hr]
    exact h.waiting
  · rw [hf, hr, hs]
    exact h.kept
  · rw [hf, hr, hs]
    exact h.sound
  · rw [hs]
    exact h.once

variable [DecidableEq ω]

/-- A wait registers a new future. -/
theorem register {w : ω} {k : κ} (h : Tracked s) (hw : w ∉ s.registered.map Prod.fst) :
    Tracked (register s w k) := by
  have hnot (v : ω) (j : κ) (hv : (v, j) ∈ s.registered) : v ≠ w := by
    rintro rfl
    exact hw (List.mem_map_of_mem (f := Prod.fst) hv)
  have hdead : ¬(s.futures w).suspended ≠ none := by
    intro hlive
    obtain ⟨j, hj⟩ := Option.ne_none_iff_exists'.mp hlive
    exact hnot w j (h.waiting w j hj) rfl
  have hself : ((CondVar.register s w k).futures w).suspended = some k := by
    simp [CondVar.register]
  have hother {v : ω} (hv : v ≠ w) :
      ((CondVar.register s w k).futures v).suspended = (s.futures v).suspended := by
    simp [CondVar.register, hv]
  obtain ⟨taken, htaken⟩ := h.order
  constructor
  · have hgrow : Ledger (fun v ↦ ((CondVar.register s w k).futures v).suspended ≠ none)
        (fun n ↦ (s.notifiers n).waiter) (w :: s.waiters.values) := by
      refine h.ledger.grow hdead fun v ↦ ?_
      by_cases hv : v = w
      · subst hv
        simp [hself]
      · simp [hother hv, hv]
    exact hgrow.perm (List.perm_append_singleton w s.waiters.values).symm
  · refine ⟨taken, ?_⟩
    simp [CondVar.register, htaken]
  · simp only [CondVar.register, List.map_append, List.map_cons, List.map_nil]
    exact (List.perm_append_singleton w _).nodup_iff.mpr (List.nodup_cons.mpr ⟨hw, h.distinct⟩)
  · intro v j hj
    by_cases hv : v = w
    · subst hv
      rw [hself] at hj
      cases hj
      simp [CondVar.register]
    · rw [hother hv] at hj
      exact List.mem_append_left _ (h.waiting v j hj)
  · intro e he
    rcases List.mem_append.mp he with he | he
    · have hne := hnot e.1 e.2 he
      exact (h.kept e he).imp_right fun hs ↦ (hother hne).trans hs
    · rw [List.mem_singleton.mp he]
      exact .inr hself
  · intro e he
    obtain ⟨hreg, hnone⟩ := h.sound e he
    exact ⟨List.mem_append_left _ hreg, (hother (hnot e.1 e.2 hreg)).trans hnone⟩
  · exact h.once

variable [DecidableEq ν]

omit [DecidableEq ω] in
private theorem waiter_update (notifiers : ν → NotifyPc ω) (n : ν) (pc : NotifyPc ω) :
    (fun m ↦ (Function.update notifiers n pc m).waiter) =
      Function.update (fun m ↦ (notifiers m).waiter) n pc.waiter := by
  funext m
  by_cases hm : m = n
  · subst hm
    simp
  · simp [hm]

omit [DecidableEq ω] in
/-- A notify call takes the first waiter. -/
theorem take {n : ν} {all : Bool} {w : ω} {c : Content ω} (h : Tracked s)
    (hn : s.notifiers n = .pop all) (hc : s.waiters.values = w :: c.values) :
    Tracked ({ s with waiters := c }.setNotifier n (.notify all w)) := by
  obtain ⟨taken, htaken⟩ := h.order
  have hledger := h.ledger
  rw [hc] at hledger
  refine ⟨?_, ⟨taken ++ [w], ?_⟩, h.distinct, h.waiting, h.kept, h.sound, h.once⟩
  · change Ledger _ (fun m ↦ (Function.update s.notifiers n (.notify all w) m).waiter) c.values
    rw [waiter_update]
    exact hledger.take (by rw [hn]; rfl)
  · change s.registered.map Prod.fst = taken ++ [w] ++ c.values
    rw [htaken, hc, List.append_cons]

/-- A notify call notifies the waiter it has taken. -/
theorem notify {n : ν} {all : Bool} {w : ω} {k : κ} {pc : NotifyPc ω} (h : Tracked s)
    (hn : s.notifiers n = .notify all w) (hk : (s.futures w).suspended = some k)
    (hpc : pc.waiter = none) :
    Tracked ({ s with futures := Function.update s.futures w (s.futures w).notify.1,
                      scheduled := s.scheduled ++ [(w, k)] }.setNotifier n pc) := by
  have hreg := h.waiting w k hk
  have hself : (Function.update s.futures w (s.futures w).notify.1 w).suspended = none := by
    rw [Function.update_self, WaitFuture.notify_suspended]
  have hother {v : ω} (hv : v ≠ w) :
      (Function.update s.futures w (s.futures w).notify.1 v).suspended =
        (s.futures v).suspended := by
    rw [Function.update_of_ne hv]
  refine ⟨?_, h.order, h.distinct, fun v j hj ↦ ?_, fun e he ↦ ?_, fun e he ↦ ?_, ?_⟩
  · change Ledger (fun v ↦ (Function.update s.futures w (s.futures w).notify.1 v).suspended ≠ none)
      (fun m ↦ (Function.update s.notifiers n pc m).waiter) s.waiters.values
    rw [waiter_update, hpc]
    refine h.ledger.drop (p := w) (by rw [hn]; rfl) fun v ↦ ?_
    by_cases hv : v = w
    · subst hv
      simp
    · rw [hother hv]
      simp [hv]
  · by_cases hv : v = w
    · subst hv
      have hnone : none = some j := hself.symm.trans hj
      cases hnone
    · exact h.waiting v j ((hother hv).symm.trans hj)
  · by_cases hv : e.1 = w
    · left
      rcases h.kept e he with hs | hs
      · exact List.mem_append_left _ hs
      · have hek : some k = some e.2 := by rw [← hk, ← hv, hs]
        rw [show e = (w, k) from Prod.ext hv (Option.some.inj hek).symm]
        exact List.mem_append_right _ List.mem_cons_self
    · exact (h.kept e he).imp (List.mem_append_left _) fun hs ↦ (hother hv).trans hs
  · rcases List.mem_append.mp he with he | he
    · obtain ⟨her, hnone⟩ := h.sound e he
      refine ⟨her, ?_⟩
      by_cases hv : e.1 = w
      · rw [hv]
        exact hself
      · exact (hother hv).trans hnone
    · rw [List.mem_singleton.mp he]
      exact ⟨hreg, hself⟩
  · have hnot : w ∉ s.scheduled.map Prod.fst := by
      intro hm
      obtain ⟨e, he, rfl⟩ := List.mem_map.mp hm
      rw [(h.sound e he).2] at hk
      cases hk
    change ((s.scheduled ++ [(w, k)]).map Prod.fst).Nodup
    rw [List.map_append]
    exact (List.perm_append_singleton w _).nodup_iff.mpr (List.nodup_cons.mpr ⟨hnot, h.once⟩)

omit [DecidableEq ω] in
private theorem of_move {n : ν} {pc : NotifyPc ω} {c : Content ω} (h : Tracked s)
    (hn : (s.notifiers n).waiter = none) (hpc : pc.waiter = none)
    (hc : c.values = s.waiters.values) :
    Tracked ({ s with waiters := c }.setNotifier n pc) := by
  refine h.of_eq hc rfl rfl rfl fun m ↦ ?_
  change (Function.update s.notifiers n pc m).waiter = (s.notifiers m).waiter
  by_cases hm : m = n
  · subst hm
    rw [Function.update_self, hpc, hn]
  · rw [Function.update_of_ne hm]

private theorem notifierStep_notify {n : ν} {all : Bool} {w : ω} {k : κ}
    (hn : s.notifiers n = .notify all w) (hk : (s.futures w).suspended = some k) :
    notifierStep s n =
      some ({ s with futures := Function.update s.futures w (s.futures w).notify.1,
                     scheduled := s.scheduled ++ [(w, k)] }.setNotifier n
        (if all then .pop true else .idle)) := by
  simp [notifierStep, hn, WaitFuture.notify, hk]

/-- A step of a notify call. -/
theorem notifierStep {n : ν} (h : Tracked s) (hok : PopOk s (.notifier n))
    (hn : notifierStep s n = some s') : Tracked s' := by
  cases hpc : s.notifiers n with
  | idle => simp [CondVar.notifierStep, hpc] at hn
  | pop all =>
    simp only [CondVar.notifierStep, hpc] at hn
    cases hn
    cases hp : s.waiters.pop.1 with
    | none =>
      have hempty := Content.values_of_pop_none (hok ⟨all, hpc⟩) hp
      exact h.of_move (by rw [hpc]; rfl) rfl (by rw [Content.pop_nil hempty])
    | some w => exact h.take hpc (Content.pop_some hp)
  | notify all w =>
    obtain ⟨k, hk, -⟩ := h.of_taken (n := n) (by rw [hpc]; rfl)
    rw [notifierStep_notify hpc hk] at hn
    cases hn
    refine h.notify hpc hk ?_
    cases all <;> rfl

/-- Every permitted step keeps track of the waiters. -/
theorem next {a : Act ω κ ν} (h : Tracked s) (hok : PopOk s a)
    (hn : CondVar.next s a = some s') : Tracked s' := by
  cases a with
  | register w k =>
    simp only [CondVar.next] at hn
    split at hn
    · cases hn
    · next hw =>
      cases hn
      exact h.register hw
  | notifyOne n | notifyAll n =>
    simp only [CondVar.next] at hn
    split at hn
    · next hidle =>
      cases hn
      exact h.of_move (by rw [hidle]; rfl) rfl rfl
    · cases hn
  | notifier n => exact h.notifierStep hok hn

end Tracked

section Delivered

variable [DecidableEq ω] [DecidableEq ν]

/-- What notifications owe the waiters, for the steps that satisfy `ok`. No registration is
scheduled twice, and none is lost; a notify call takes the longest-registered waiter that
no other call has taken, and returns only if there is none; it schedules the waiter it has
taken; and when `notify_all` returns, each registration has been scheduled or is with
another call. -/
structure Delivered (ok : State ω κ ν → Act ω κ ν → Prop) (s : State ω κ ν) : Prop where
  once : (s.scheduled.map Prod.fst).Nodup
  sound : ∀ e ∈ s.scheduled, e ∈ s.registered
  kept : ∀ e ∈ s.registered, e ∈ s.scheduled ∨ e.1 ∈ s.waiters.values ∨
    ∃ n, (s.notifiers n).waiter = some e.1
  order : ∃ taken, s.registered.map Prod.fst = taken ++ s.waiters.values
  pops : ∀ n all s', s.notifiers n = .pop all → ok s (.notifier n) →
    next s (.notifier n) = some s' →
      (∃ w, s.waiters.values = w :: s'.waiters.values ∧ s'.notifiers n = .notify all w) ∨
      s.waiters.values = [] ∧ s'.notifiers n = .idle
  notifies : ∀ n all w s', s.notifiers n = .notify all w → next s (.notifier n) = some s' →
    ∃ k, (w, k) ∈ s.registered ∧ s'.scheduled = s.scheduled ++ [(w, k)] ∧
      s'.notifiers n = if all then .pop true else .idle
  all : ∀ n s', s.notifiers n = .pop true → ok s (.notifier n) →
    next s (.notifier n) = some s' → s'.notifiers n = .idle → s'.waiters.values = [] ∧
      ∀ e ∈ s'.registered, e ∈ s'.scheduled ∨ ∃ m, m ≠ n ∧ (s'.notifiers m).waiter = some e.1

/-- A pop of a notify call takes the first waiter, or finds none and returns. -/
theorem pop_cases {s s' : State ω κ ν} {n : ν} {all : Bool} (hpc : s.notifiers n = .pop all)
    (hok : PopOk s (.notifier n)) (hn : next s (.notifier n) = some s') :
    (∃ w, s.waiters.values = w :: s'.waiters.values ∧ s'.notifiers n = .notify all w) ∨
      s.waiters.values = [] ∧ s'.waiters.values = [] ∧ s'.notifiers n = .idle := by
  simp only [next, notifierStep, hpc] at hn
  cases hn
  cases hp : s.waiters.pop.1 with
  | none =>
    have hempty := Content.values_of_pop_none (hok ⟨all, hpc⟩) hp
    exact .inr ⟨hempty, by simp [State.setNotifier, Content.pop_nil hempty, hempty],
      by simp [State.setNotifier]⟩
  | some w => exact .inl ⟨w, Content.pop_some hp, by simp [State.setNotifier]⟩

/-- On runs whose every pop finds the waiters that are queued, notifications reach them. -/
theorem waiters_notified {s : State ω κ ν} (hr : (system ω κ ν).ReachableBy PopOk s) :
    Delivered PopOk s := by
  have hinit : Tracked (system ω κ ν).init := by
    refine ⟨⟨List.nodup_nil, ?_, ?_, ?_⟩, ⟨[], rfl⟩, List.nodup_nil, ?_, ?_, ?_, List.nodup_nil⟩
    all_goals simp [system, init, Content.empty, NotifyPc.waiter, WaitFuture.new]
  have hstep : ∀ (s : State ω κ ν) a s', Tracked s → PopOk s a →
      (system ω κ ν).next s a = some s' → Tracked s' := fun _ _ _ hi hok hn ↦ hi.next hok hn
  have h : Tracked s := hr.invariant hinit hstep
  refine ⟨h.once, fun e he ↦ (h.sound e he).1, fun e he ↦ h.queued_or_taken he, h.order,
    fun n all s' hpc hok hn ↦ ?_, fun n all w s' hpc hn ↦ ?_, fun n s' hpc hok hn hidle ↦ ?_⟩
  · exact (pop_cases hpc hok hn).imp_right fun hc ↦ ⟨hc.1, hc.2.2⟩
  · obtain ⟨k, hk, hreg⟩ := h.of_taken (n := n) (by rw [hpc]; rfl)
    simp only [next, Tracked.notifierStep_notify hpc hk] at hn
    cases hn
    exact ⟨k, hreg, rfl, by simp [State.setNotifier]⟩
  · have h' : Tracked s' := hstep s (.notifier n) s' h hok hn
    rcases pop_cases hpc hok hn with ⟨w, -, hnotify⟩ | ⟨-, hempty, -⟩
    · rw [hnotify] at hidle
      cases hidle
    · refine ⟨hempty, fun e he ↦ (h'.queued_or_taken he).imp_right fun hq ↦ ?_⟩
      rw [hempty] at hq
      obtain ⟨m, hm⟩ := hq.resolve_left List.not_mem_nil
      refine ⟨m, ?_, hm⟩
      rintro rfl
      rw [hidle] at hm
      cases hm

end Delivered

instance [DecidableEq ω] (s : State ω κ ν) (a : Act ω κ ν) : Decidable (PopOk s a) :=
  match a with
  | .notifier n =>
    match h : s.notifiers n with
    | .pop all => decidable_of_iff (¬s.waiters.Refilled) ⟨fun hr _ ↦ hr, fun hr ↦ hr ⟨all, h⟩⟩
    | .idle | .notify _ _ => isTrue fun ⟨all, hp⟩ ↦ by rw [h] at hp; cases hp
  | .register _ _ | .notifyOne _ | .notifyAll _ => isTrue trivial

/-- Two waits register, and a call of `notify_all` notifies both and returns. -/
def notifyBoth (v w : ω) (j k : κ) (n : ν) : List (Act ω κ ν) :=
  [.register v j, .register w k, .notifyAll n, .notifier n, .notifier n, .notifier n,
    .notifier n, .notifier n]

/-- The two waiters have been scheduled, in the order of their registration. -/
theorem waiters_notified_notifyBoth : ∃ s, (system Nat Nat (Fin 1)).ReachableBy PopOk s ∧
    s.scheduled = [(0, 10), (1, 11)] ∧ Delivered PopOk s := by
  have hrun : ∃ s, (system Nat Nat (Fin 1)).ReachableBy PopOk s ∧
      s.scheduled = [(0, 10), (1, 11)] :=
    System.exists_reachableBy (notifyBoth 0 1 10 11 0) (by decide)
  obtain ⟨s, hr, hs⟩ := hrun
  exact ⟨s, hr, hs, waiters_notified hr⟩

/-- After the queue has been drained once, the next `notify_all` returns at its first pop
and leaves the waiter behind. -/
theorem not_notified_refilled :
    ¬∀ s, (system Nat Nat (Fin 1)).Reachable s → Delivered (fun _ _ ↦ True) s := by
  intro h
  have hrun : ∃ s, (system Nat Nat (Fin 1)).Reachable s ∧ s.notifiers 0 = .pop true ∧
      ∃ s' ∈ next s (.notifier 0), s'.notifiers 0 = .idle ∧ s'.waiters.values = [2] :=
    System.exists_reachable (notifyBoth 0 1 10 11 0 ++ [.register 2 12, .notifyAll 0]) (by decide)
  obtain ⟨s, hr, hpc, s', hn, hidle, hv⟩ := hrun
  have hempty := ((h s hr).all 0 s' hpc trivial hn hidle).1
  rw [hv] at hempty
  cases hempty

end Crasy.Sync.CondVar
