import Crasy.Base.Events
import Crasy.Sync.Mutex
import Mathlib.Data.List.Perm.Basic

/-!
# The unchecked pop of `await_suspend`

Library `Sync`. Whether the option that `await_suspend` of `Crasy.Sync.Mutex` dereferences holds
a handle. Every call of `await_suspend` has pushed a handle, but an `unlock` that pops may take it
before the call does, so that the handles in the queue have to be counted against the calls that
have yet to pop. Besides, the first pop after a push that refills an emptied queue is spent on the
entry that the pop of the last handle has left.
-/

namespace Crasy.Sync.Mutex

open Crasy.Base Crasy.LfQueue

variable {ι : Type}

/-- The call has pushed its handle and has yet to pop, unless it finds the flag set. -/
def SuspendPc.beforePop : SuspendPc ι → Bool
  | .load | .pop => true
  | .schedule _ => false

/-- The calls of `await_suspend` between their push and the end of their pop. -/
def State.inFlight (s : State ι) : Nat := s.suspenders.countP SuspendPc.beforePop

/-- The step pops the waiter queue. -/
def Pops (s : State ι) : Act ι → Prop
  | .task t => s.tasks t = .unlockPop
  | .suspender i => s.suspenders[i]? = some .pop
  | .callTryLock _ | .callLock _ | .callUnlock _ | .resume _ => False

section Counts

variable [DecidableEq ι]

/-- The handle that a step pushes. -/
def pushed (s : State ι) : Act ι → Nat
  | .task t => if s.tasks t = .awaitSuspend then 1 else 0
  | _ => 0

/-- The handle that a step of `unlock` pops. -/
def unlockTaken (s : State ι) : Act ι → Nat
  | .task t => if s.tasks t = .unlockPop then s.suspended.pop.1.toList.length else 0
  | _ => 0

/-- A call of `await_suspend` finds the flag set, and ends. -/
def flagFound (s : State ι) : Act ι → Nat
  | .suspender i => if s.suspenders[i]? = some .load ∧ s.locked = true then 1 else 0
  | _ => 0

/-- The handles that have been pushed. -/
def pushes (acts : List (Act ι)) : Nat := (system ι).total pushed acts

/-- The handles that calls of `unlock` have popped. -/
def unlockTakes (acts : List (Act ι)) : Nat := (system ι).total unlockTaken acts

/-- The calls of `await_suspend` that have found the flag set. -/
def flagsFound (acts : List (Act ι)) : Nat := (system ι).total flagFound acts

/-- A handle was pushed after all earlier ones had been popped, and no pop has run since. -/
inductive Refilled : List (Act ι) → Prop
  | push {acts : List (Act ι)} {s : State ι} {t : ι} :
      (system ι).Run acts s → s.tasks t = .awaitSuspend → s.suspended.values = [] →
        0 < pushes acts → Refilled (acts ++ [.task t])
  | stay {acts : List (Act ι)} {s : State ι} {a : Act ι} :
      Refilled acts → (system ι).Run acts s → ¬Pops s a → Refilled (acts ++ [a])

end Counts

/-! ### What a step does to the queue -/

/-- What a step does to the waiter queue and to the calls of `await_suspend` past their push. -/
inductive QueueStep (s s' : State ι) : Act ι → Prop
  | push {t : ι} : s.tasks t = .awaitSuspend → s'.suspended = s.suspended.push t →
      s'.suspenders = s.suspenders ++ [.load] → s'.undefined = s.undefined →
      QueueStep s s' (.task t)
  | unlockPop {t : ι} : s.tasks t = .unlockPop → s'.suspended = s.suspended.pop.2 →
      s'.suspenders = s.suspenders → s'.undefined = s.undefined → QueueStep s s' (.task t)
  | flagSet {i : Nat} : s.suspenders[i]? = some .load → s.locked = true →
      s'.suspended = s.suspended → s'.suspenders = s.suspenders.eraseIdx i →
      s'.undefined = s.undefined → QueueStep s s' (.suspender i)
  | flagClear {i : Nat} : s.suspenders[i]? = some .load → s.locked = false →
      s'.suspended = s.suspended → s'.suspenders = s.suspenders.set i .pop →
      s'.undefined = s.undefined → QueueStep s s' (.suspender i)
  | popped {i : Nat} {h : ι} : s.suspenders[i]? = some .pop → s.suspended.pop.1 = some h →
      s'.suspended = s.suspended.pop.2 → s'.suspenders = s.suspenders.set i (.schedule h) →
      s'.undefined = s.undefined → QueueStep s s' (.suspender i)
  | nothing {i : Nat} : s.suspenders[i]? = some .pop → s.suspended.pop.1 = none →
      s'.suspended = s.suspended.pop.2 → s'.undefined = true → QueueStep s s' (.suspender i)
  | schedule {i : Nat} {h : ι} : s.suspenders[i]? = some (.schedule h) →
      s'.suspended = s.suspended → s'.suspenders = s.suspenders.eraseIdx i →
      s'.undefined = s.undefined → QueueStep s s' (.suspender i)
  | other {a : Act ι} : (∀ i, a ≠ .suspender i) →
      (∀ t, a = .task t → s.tasks t ≠ .awaitSuspend ∧ s.tasks t ≠ .unlockPop) →
      s'.suspended = s.suspended → s'.suspenders = s.suspenders →
      s'.undefined = s.undefined → QueueStep s s' a

section Steps

variable {s s' : State ι}

private theorem queueStep_suspenderStep {i : Nat} (hn : suspenderStep s i = some s') :
    QueueStep s s' (.suspender i) := by
  simp only [suspenderStep] at hn
  split at hn
  · next hi =>
    cases hn
    cases hl : s.locked with
    | true => exact .flagSet hi hl (by simp) (by simp) (by simp)
    | false => exact .flagClear hi hl (by simp) (by simp) (by simp)
  · next hi =>
    cases hn
    cases hp : s.suspended.pop.1 with
    | some h => exact .popped hi hp rfl rfl rfl
    | none => exact .nothing hi hp rfl rfl
  · next h hi =>
    cases hn
    exact .schedule hi rfl rfl rfl
  · cases hn

variable [DecidableEq ι]

/-- Every step. -/
theorem queueStep {a : Act ι} (hn : next s a = some s') : QueueStep s s' a := by
  have hother {a : Act ι} (ha : ∀ i, a ≠ .suspender i) (ht : ∀ t, a ≠ .task t)
      (hq : s'.suspended = s.suspended) (hs : s'.suspenders = s.suspenders)
      (hu : s'.undefined = s.undefined) : QueueStep s s' a :=
    .other ha (fun t he ↦ absurd he (ht t)) hq hs hu
  cases a with
  | callTryLock t | callLock t =>
    simp only [next] at hn
    split at hn <;> cases hn
    exact hother (by simp) (by simp) rfl rfl rfl
  | callUnlock t =>
    simp only [next] at hn
    split at hn <;> cases hn
    exact hother (by simp) (by simp) rfl rfl rfl
  | task t =>
    simp only [next, taskStep] at hn
    split at hn
    · next hpc =>
      cases hn
      exact .other (by simp) (by simp [hpc]) rfl rfl rfl
    · next hpc =>
      cases hn
      exact .other (by simp) (by simp [hpc]) rfl rfl rfl
    · next hpc =>
      cases hn
      exact .push hpc rfl rfl rfl
    · next hpc =>
      cases hn
      exact .other (by simp) (by simp [hpc]) rfl rfl rfl
    · next hpc =>
      cases hn
      exact .unlockPop hpc rfl rfl rfl
    · next hpc =>
      cases hn
      exact .other (by simp) (by simp [hpc]) rfl rfl rfl
    all_goals cases hn
  | suspender i => exact queueStep_suspenderStep hn
  | resume i =>
    simp only [next, resume] at hn
    split at hn
    · split at hn <;> cases hn
      exact hother (by simp) (by simp) rfl rfl rfl
    · cases hn

end Steps

/-! ### Handles and calls in flight -/

section Counting

variable {s s' : State ι}

private theorem inFlight_eraseIdx {i : Nat} {pc : SuspendPc ι} (hi : s.suspenders[i]? = some pc)
    (hs : s'.suspenders = s.suspenders.eraseIdx i) :
    s.inFlight = s'.inFlight + pc.beforePop.toNat := by
  obtain ⟨hlt, rfl⟩ := List.getElem?_eq_some_iff.mp hi
  rw [State.inFlight, State.inFlight, hs, ← (List.getElem_cons_eraseIdx_perm hlt).countP_eq,
    List.countP_cons, Bool.toNat, Bool.cond_eq_ite]

private theorem inFlight_set {i : Nat} {pc pc' : SuspendPc ι} (hi : s.suspenders[i]? = some pc)
    (hs : s'.suspenders = s.suspenders.set i pc') :
    s'.inFlight + pc.beforePop.toNat = s.inFlight + pc'.beforePop.toNat := by
  have herase : s.inFlight =
      State.inFlight { s with suspenders := s.suspenders.eraseIdx i } + pc.beforePop.toNat :=
    inFlight_eraseIdx hi rfl
  obtain ⟨hlt, rfl⟩ := List.getElem?_eq_some_iff.mp hi
  have hset := (List.set_perm_cons_eraseIdx hlt pc').countP_eq SuspendPc.beforePop
  rw [List.countP_cons, ← Bool.cond_eq_ite] at hset
  rw [herase, State.inFlight, hs, hset]
  simp only [State.inFlight, Bool.toNat]
  omega

private theorem pop_length (c : Content ι) :
    c.values.length = c.pop.2.values.length + c.pop.1.toList.length := by
  cases hp : c.pop.1 with
  | none => simp [Content.pop_none hp]
  | some v => simp [Content.pop_some hp]

variable [DecidableEq ι] {acts : List (Act ι)}

/-- As long as every pop of `await_suspend` has returned a handle, the handles in the queue and
those that `unlock` has taken are as many as the calls in flight and those that found the flag
set. -/
def Balanced (acts : List (Act ι)) (s : State ι) : Prop :=
  s.undefined = false →
    s.suspended.values.length + unlockTakes acts = flagsFound acts + s.inFlight

/-- Every step keeps the balance: what a call pops is not in flight any more, and `unlock` counts
what it pops. -/
theorem Balanced.next {a : Act ι} (hr : (system ι).Run acts s) (h : Balanced acts s)
    (hn : next s a = some s') : Balanced (acts ++ [a]) s' := by
  intro hu
  have hbefore (hsame : s'.undefined = s.undefined) := h (hsame.symm.trans hu)
  have hpop := pop_length s.suspended
  rw [unlockTakes, flagsFound, hr.total_concat hn, hr.total_concat hn]
  simp only [unlockTakes, flagsFound] at hbefore
  cases queueStep hn with
  | @push t ht hq hs hsame =>
    have := hbefore hsame
    have ht' : unlockTaken s (.task t) = 0 := if_neg (by simp [ht])
    have hf : flagFound s (.task t) = 0 := rfl
    have hc : s'.inFlight = s.inFlight + 1 := by
      rw [State.inFlight, hs, List.countP_append]
      rfl
    rw [hq, Content.push_values, List.length_append, List.length_singleton]
    omega
  | @unlockPop t ht hq hs hsame =>
    have := hbefore hsame
    have ht' : unlockTaken s (.task t) = s.suspended.pop.1.toList.length := if_pos ht
    have hf : flagFound s (.task t) = 0 := rfl
    have hc : s'.inFlight = s.inFlight := by rw [State.inFlight, hs, State.inFlight]
    rw [hq]
    omega
  | @flagSet i hi hl hq hs hsame =>
    have := hbefore hsame
    have ht' : unlockTaken s (.suspender i) = 0 := rfl
    have hf : flagFound s (.suspender i) = 1 := if_pos ⟨hi, hl⟩
    have hc : s.inFlight = s'.inFlight + 1 := inFlight_eraseIdx hi hs
    rw [hq]
    omega
  | @flagClear i hi hl hq hs hsame =>
    have := hbefore hsame
    have ht' : unlockTaken s (.suspender i) = 0 := rfl
    have hf : flagFound s (.suspender i) = 0 := if_neg (by simp [hl])
    have hc : s'.inFlight + 1 = s.inFlight + 1 := inFlight_set hi hs
    rw [hq]
    omega
  | @popped i u hi hp hq hs hsame =>
    have := hbefore hsame
    have ht' : unlockTaken s (.suspender i) = 0 := rfl
    have hf : flagFound s (.suspender i) = 0 := if_neg (by simp [hi])
    have hc : s'.inFlight + 1 = s.inFlight + 0 := inFlight_set hi hs
    rw [hp, Option.toList_some, List.length_singleton] at hpop
    rw [hq]
    omega
  | nothing hi hp hq hset =>
    rw [hset] at hu
    cases hu
  | @schedule i u hi hq hs hsame =>
    have := hbefore hsame
    have ht' : unlockTaken s (.suspender i) = 0 := rfl
    have hf : flagFound s (.suspender i) = 0 := if_neg (by simp [hi])
    have hc : s.inFlight = s'.inFlight + 0 := inFlight_eraseIdx hi hs
    rw [hq]
    omega
  | other hsusp ht hq hs hsame =>
    have := hbefore hsame
    have ht' : unlockTaken s a = 0 := by
      cases a with
      | task t => exact if_neg (ht t rfl).2
      | _ => rfl
    have hf : flagFound s a = 0 := by
      cases a with
      | suspender i => exact absurd rfl (hsusp i)
      | _ => rfl
    have hc : s'.inFlight = s.inFlight := by rw [State.inFlight, hs, State.inFlight]
    rw [hq]
    omega

end Counting

/-! ### The queue that was refilled -/

section History

private theorem used_pop_iff (c : Content ι) : c.pop.2.Used ↔ c.Used := by
  refine ⟨fun h ↦ ?_, Content.Used.pop⟩
  by_cases hv : c.values = []
  · rwa [Content.pop_nil hv] at h
  · exact .inr hv

private theorem not_refilled_pop (c : Content ι) : ¬c.pop.2.Refilled := by
  intro ⟨hd, hv⟩
  cases hvals : c.values with
  | nil =>
    rw [Content.pop_nil hvals] at hv
    exact hv hvals
  | cons v rest =>
    cases hdrained : c.drained with
    | true =>
      rw [Content.pop_drained hdrained (by simp [hvals])] at hd
      cases hd
    | false =>
      rw [Content.pop_cons hdrained hvals] at hd hv
      exact hv (List.isEmpty_iff.mp hd)

variable [DecidableEq ι] {acts : List (Act ι)} {s s' : State ι}

/-- Whether the queue was refilled is seen from its front entry. -/
structure Remembers (acts : List (Act ι)) (s : State ι) : Prop where
  used : 0 < pushes acts ↔ s.suspended.Used
  refilled : Refilled acts ↔ s.suspended.Refilled

private theorem refilled_concat {a : Act ι} (hr : (system ι).Run acts s) :
    Refilled (acts ++ [a]) ↔
      (∃ t, a = .task t ∧ s.tasks t = .awaitSuspend ∧ s.suspended.values = [] ∧ 0 < pushes acts) ∨
        Refilled acts ∧ ¬Pops s a := by
  constructor
  · intro h
    generalize hl : acts ++ [a] = l at h
    cases h with
    | push hr' ht hv hp =>
      obtain ⟨rfl, he⟩ := List.append_inj' hl rfl
      cases he
      rw [hr.unique hr']
      exact .inl ⟨_, rfl, ht, hv, hp⟩
    | stay h hr' hp =>
      obtain ⟨rfl, he⟩ := List.append_inj' hl rfl
      cases he
      rw [hr.unique hr']
      exact .inr ⟨h, hp⟩
  · rintro (⟨t, rfl, ht, hv, hp⟩ | ⟨h, hp⟩)
    · exact .push hr ht hv hp
    · exact .stay h hr hp

namespace Remembers

variable {a : Act ι}

private theorem of_keep (hr : (system ι).Run acts s) (h : Remembers acts s)
    (hn : Mutex.next s a = some s') (hq : s'.suspended = s.suspended) (ha : pushed s a = 0)
    (hp : ¬Pops s a) : Remembers (acts ++ [a]) s' := by
  constructor
  · rw [pushes, hr.total_concat hn, ha, hq]
    exact h.used
  · rw [refilled_concat hr, hq, ← h.refilled]
    refine ⟨?_, fun hold ↦ .inr ⟨hold, hp⟩⟩
    rintro (⟨t, rfl, ht, -⟩ | ⟨hold, -⟩)
    · rw [pushed, if_pos ht] at ha
      cases ha
    · exact hold

private theorem of_pop (hr : (system ι).Run acts s) (h : Remembers acts s)
    (hn : Mutex.next s a = some s') (hq : s'.suspended = s.suspended.pop.2) (ha : pushed s a = 0)
    (hp : Pops s a) : Remembers (acts ++ [a]) s' := by
  constructor
  · rw [pushes, hr.total_concat hn, ha, hq, used_pop_iff]
    exact h.used
  · rw [refilled_concat hr, hq]
    refine iff_of_false ?_ (not_refilled_pop s.suspended)
    rintro (⟨t, rfl, ht, -⟩ | ⟨-, hnot⟩)
    · rw [pushed, if_pos ht] at ha
      cases ha
    · exact hnot hp

/-- Every step is remembered: a push into an emptied queue refills it, a pop ends that. -/
theorem next (hr : (system ι).Run acts s) (h : Remembers acts s)
    (hn : Mutex.next s a = some s') : Remembers (acts ++ [a]) s' := by
  cases queueStep hn with
  | @push t ht hq hs hsame =>
    have hv : s'.suspended.values ≠ [] := by simp [hq]
    have hd : s'.suspended.Refilled ↔ s.suspended.drained = true := by
      rw [Content.Refilled, hq, Content.push]
      simp
    constructor
    · have ha : pushed s (.task t) = 1 := if_pos ht
      have hstep : (system ι).next s (.task t) = some s' := hn
      rw [pushes, hr.total_concat hstep, ha]
      exact iff_of_true (Nat.succ_pos _) (.inr hv)
    · rw [refilled_concat hr, h.refilled, h.used, hd]
      refine ⟨?_, fun hdrained ↦ ?_⟩
      · rintro (⟨_, -, -, hempty, hused⟩ | ⟨hold, -⟩)
        · exact hused.resolve_right (not_not.mpr hempty)
        · exact hold.1
      · by_cases hempty : s.suspended.values = []
        · exact .inl ⟨t, rfl, ht, hempty, .inl hdrained⟩
        · exact .inr ⟨⟨hdrained, hempty⟩, by simp [Pops, ht]⟩
  | unlockPop ht hq hs hsame => exact h.of_pop hr hn hq (if_neg (by simp [ht])) ht
  | flagSet hi hl hq hs hsame => exact h.of_keep hr hn hq rfl (by simp [Pops, hi])
  | flagClear hi hl hq hs hsame => exact h.of_keep hr hn hq rfl (by simp [Pops, hi])
  | popped hi hp hq hs hsame => exact h.of_pop hr hn hq rfl hi
  | nothing hi hp hq hset => exact h.of_pop hr hn hq rfl hi
  | schedule hi hq hs hsame => exact h.of_keep hr hn hq rfl (by simp [Pops, hi])
  | other hsusp ht hq hs hsame =>
    cases a with
    | task t => exact h.of_keep hr hn hq (if_neg (ht t rfl).1) (ht t rfl).2
    | suspender i => exact absurd rfl (hsusp i)
    | _ => exact h.of_keep hr hn hq rfl id

end Remembers

end History

/-! ### Which steps dereference an empty option -/

variable [DecidableEq ι] {acts : List (Act ι)} {s s' : State ι}

private theorem undefined_next {a : Act ι} (hn : next s a = some s') :
    s'.undefined = true ↔ s.undefined = true ∨
      ∃ i, a = .suspender i ∧ s.suspenders[i]? = some .pop ∧ s.suspended.pop.1 = none := by
  cases queueStep hn with
  | popped hi hp hq hs hsame => simp [hsame, hp]
  | nothing hi hp hq hset => simp [hset, hi, hp]
  | push ht hq hs hsame | unlockPop ht hq hs hsame => simp [hsame]
  | flagSet hi hl hq hs hsame | flagClear hi hl hq hs hsame | schedule hi hq hs hsame =>
    simp [hsame, hi]
  | other hsusp ht hq hs hsame => simp [hsame, hsusp]

/-- A call of `await_suspend` that pops here returns a handle: the handles that `unlock` has taken
so far are fewer than the calls in flight, of which this is one, and those that have found the flag
set; and the queue was not refilled, or has been popped since. -/
def Supplied (acts : List (Act ι)) (s : State ι) : Prop :=
  unlockTakes acts < flagsFound acts + s.inFlight ∧ ¬Refilled acts

private theorem pop_ne_none_iff_supplied (hb : Balanced acts s) (hm : Remembers acts s)
    (hu : s.undefined = false) : s.suspended.pop.1 ≠ none ↔ Supplied acts s := by
  have hcount := hb hu
  have hpos : s.suspended.values ≠ [] ↔ unlockTakes acts < flagsFound acts + s.inFlight := by
    rw [← List.length_pos_iff]
    omega
  rw [Content.pop_ne_none_iff, Supplied, hpos, hm.refilled]

private theorem counted (hr : (system ι).Run acts s) : Balanced acts s ∧ Remembers acts s := by
  refine hr.invariant_of_run (I := fun acts s ↦ Balanced acts s ∧ Remembers acts s)
    ⟨fun _ ↦ rfl, ?_, ?_⟩ fun acts s a s' hr h _ hn ↦ ⟨h.1.next hr hn, h.2.next hr hn⟩
  · simp [pushes, system, init, Content.Used, Content.empty]
  · refine iff_of_false (fun h ↦ ?_) (by simp [system, init, Content.Refilled, Content.empty])
    generalize hl : ([] : List (Act ι)) = l at h
    cases h <;> simp at hl

/-- Every pop inside `await_suspend` has returned a handle exactly when each of them has run while
the handles taken by `unlock` were fewer than the calls in flight and those that had found the flag
set, and not as the first pop since a push had refilled an emptied queue. Nothing clears
`undefined`. -/
theorem unchecked_pop_iff (hr : (system ι).Run acts s) :
    s.undefined = false ↔
      ∀ before t i, before ++ [.suspender i] <+: acts → (system ι).Run before t →
        t.suspenders[i]? = some .pop → Supplied before t := by
  induction hr with
  | init => simp [system, init]
  | @step acts s s' a hr _ hn ih =>
    obtain ⟨hb, hm⟩ := counted hr
    have hlast : s'.undefined = false ↔ s.undefined = false ∧
        ∀ i, a = .suspender i → s.suspenders[i]? = some .pop → Supplied acts s := by
      have hundefined := undefined_next hn
      constructor
      · intro hu
        rw [← Bool.not_eq_true, hundefined] at hu
        have hold : s.undefined = false := by simpa using fun h ↦ hu (.inl h)
        refine ⟨hold, fun i ha hi ↦ (pop_ne_none_iff_supplied hb hm hold).mp fun hp ↦ ?_⟩
        exact hu (.inr ⟨i, ha, hi, hp⟩)
      · rintro ⟨hold, hsupplied⟩
        rw [← Bool.not_eq_true, hundefined]
        rintro (hu | ⟨i, ha, hi, hp⟩)
        · rw [hold] at hu
          cases hu
        · exact (pop_ne_none_iff_supplied hb hm hold).mpr (hsupplied i ha hi) hp
    rw [hlast, ih]
    constructor
    · rintro ⟨hbefore, hnow⟩ before t i hpre ht hi
      rcases List.prefix_concat_iff.mp hpre with he | hpre
      · obtain ⟨rfl, ha⟩ := List.append_inj' he rfl
        cases ha
        rw [ht.unique hr] at hi ⊢
        exact hnow i rfl hi
      · exact hbefore before t i hpre ht hi
    · intro hall
      refine ⟨fun before t i hpre ht hi ↦ ?_, fun i ha hi ↦ ?_⟩
      · exact hall before t i (hpre.trans (List.prefix_append acts [a])) ht hi
      · subst ha
        exact hall acts s i List.prefix_rfl hr hi

/-- The flag is cleared between the exchange and the push of task `u`, which then pops its own
handle. -/
def popOwn {κ : Type} (t u : κ) : List (Act κ) :=
  [.callTryLock t, .task t, .callLock u, .task u, .callUnlock t, .task t, .task u, .suspender 0,
    .suspender 0]

/-- The `await_suspend` that pops the handle it has pushed. -/
theorem unchecked_pop_own : ∃ s, (system (Fin 2)).Run (popOwn 0 1) s ∧
    s.suspenders = [.schedule 1] ∧ s.undefined = false ∧
      ∀ before t i, before ++ [.suspender i] <+: popOwn 0 1 → (system (Fin 2)).Run before t →
        t.suspenders[i]? = some .pop → Supplied before t := by
  have hrun : ∃ s, (system (Fin 2)).RunBy StepOk (popOwn 0 1) s ∧ s.suspenders = [.schedule 1] ∧
      s.undefined = false := System.exists_runBy _ (by decide)
  obtain ⟨s, hr, hs, hu⟩ := hrun
  have hall : (system (Fin 2)).Run (popOwn 0 1) s := hr.mono fun _ _ _ ↦ trivial
  exact ⟨s, hall, hs, hu, (unchecked_pop_iff hall).mp hu⟩

/-- The `unlock` of the owner pops the handle of a task that has pushed it and not yet loaded the
flag. The load finds the flag clear, and the pop that follows finds nothing. -/
theorem unchecked_pop_empty :
    ¬∀ s, (system (Fin 2)).Reachable s → s.undefined = false := by
  intro h
  have hrun : ∃ s, (system (Fin 2)).Reachable s ∧ s.undefined = true :=
    System.exists_reachable [.callTryLock 0, .task 0, .callLock 1, .task 1, .task 1,
      .callUnlock 0, .task 0, .task 0, .suspender 0, .suspender 0] (by decide)
  obtain ⟨s, hr, hu⟩ := hrun
  rw [h s hr] at hu
  cases hu

end Crasy.Sync.Mutex
