import Crasy.Base.System
import Crasy.Types.Option

/-!
# What a stream delivers

Library `Future`. Models `include/crasy/stream.hpp:17–57,81–119`: the promise of a producer that
calls `yield_value` and then returns or throws, and one consumer that awaits the stream again and
again. Producer and consumer take turns on one thread, so that a call of a method of the promise
or the stream is one step; a consumer that suspends continues at `await_resume` once its handle
has been scheduled. `moved` is what the move constructor of `T` leaves of a value. What
`std::optional` holds is still there after a move, as something moved from.
-/

namespace Crasy.Future.Stream

open Crasy.Base Crasy.Types

variable {α ε : Type}

/-- The object in `value_`, and whether it has been moved from. -/
structure Held (α : Type) where
  value : α
  movedFrom : Bool
  deriving DecidableEq, Repr

/-- `promise_type`. Of `suspended_`, whether it is the consumer's handle or null. -/
structure Promise (α ε : Type) where
  value_ : ValueOption (Held α)
  ex_ : Option ε
  suspended_ : Bool
  done_ : Bool
  deriving DecidableEq, Repr

/-- What `await_resume` returns or throws. -/
inductive Answer (α ε : Type) where
  | returned (v : Option α)
  | threw (e : ε)
  deriving DecidableEq, Repr

namespace Promise

/-- A new promise; `include/crasy/stream.hpp:49–53`. -/
def new : Promise α ε := { value_ := .new, ex_ := none, suspended_ := false, done_ := false }

/-- Takes `suspended_`, if it is set, to schedule it. -/
def takeSuspended (p : Promise α ε) : Bool × Promise α ε :=
  if p.suspended_ then (true, { p with suspended_ := false }) else (false, p)

/-- `unhandled_exception`; `include/crasy/stream.hpp:24`. -/
def unhandledException (p : Promise α ε) (e : ε) : Promise α ε := { p with ex_ := some e }

/-- `final_suspend`, and whether it schedules the consumer; `include/crasy/stream.hpp:28–36`. -/
def finalSuspend (p : Promise α ε) : Bool × Promise α ε := takeSuspended { p with done_ := true }

/-- `yield_value`, and whether it schedules the consumer; `include/crasy/stream.hpp:38–45`. -/
def yieldValue (p : Promise α ε) (v : α) : Bool × Promise α ε :=
  takeSuspended { p with value_ := p.value_.emplace ⟨v, false⟩ }

/-- The end of the producer's body, which throws or returns. -/
def finish (p : Promise α ε) : Option ε → Bool × Promise α ε
  | none => p.finalSuspend
  | some e => (p.unhandledException e).finalSuspend

/-- `await_ready`; `include/crasy/stream.hpp:81–85`. -/
def awaitReady (p : Promise α ε) : Bool := p.done_ || p.value_.hasValue || p.ex_.isSome

/-- `await_suspend`; `include/crasy/stream.hpp:87–89`. -/
def awaitSuspend (p : Promise α ε) : Promise α ε := { p with suspended_ := true }

/-- The move construction of an `option` from `value_`, and what it leaves. -/
def moveValue (moved : α → α) (o : ValueOption (Held α)) : Option α × ValueOption (Held α) :=
  match o.opt with
  | none => (none, o)
  | some x => (some x.value, ⟨some ⟨moved x.value, true⟩⟩)

/-- `await_resume`; `include/crasy/stream.hpp:91–99`. -/
def awaitResume (moved : α → α) (p : Promise α ε) : Answer α ε × Promise α ε :=
  match p.ex_ with
  | some e => (.threw e, { p with ex_ := none })
  | none =>
    let (v, value_) := moveValue moved p.value_
    (.returned v, { p with value_ := value_ })

end Promise

/-- Where the consumer is: not in an await, suspended in one, or in the run queue. -/
inductive Consumer where
  | running
  | suspended
  | scheduled
  deriving DecidableEq, Repr

/-- The promise and the consumer, with what has been yielded, how the producer has ended, and what
the consumer has got. -/
structure State (α ε : Type) where
  promise : Promise α ε
  consumer : Consumer
  yielded : List α
  ended : Option (Option ε)
  received : List (Answer α ε)
  deriving DecidableEq, Repr

namespace State

/-- Before the first turn. -/
def init : State α ε :=
  { promise := .new, consumer := .running, yielded := [], ended := none, received := [] }

/-- The promise has done something, and scheduled the consumer or not. -/
def afterTurn (s : State α ε) (turn : Bool × Promise α ε) : State α ε :=
  { s with promise := turn.2, consumer := if turn.1 then .scheduled else s.consumer }

/-- The consumer gets an answer and goes on. -/
def receive (moved : α → α) (s : State α ε) : State α ε :=
  { s with
    promise := (s.promise.awaitResume moved).2
    consumer := .running
    received := s.received ++ [(s.promise.awaitResume moved).1] }

end State

/-- A turn: `yield_value`, the end of the producer, a `co_await` of the stream as far as it gets,
and the resumption of the consumer. -/
inductive Act (α ε : Type) where
  | yield (v : α)
  | finish (ex : Option ε)
  | await
  | resume
  deriving DecidableEq, Repr

/-- What a turn does. -/
def next (moved : α → α) (s : State α ε) : Act α ε → Option (State α ε)
  | .yield v =>
    if s.ended.isSome then none
    else some { s.afterTurn (s.promise.yieldValue v) with yielded := s.yielded ++ [v] }
  | .finish ex =>
    if s.ended.isSome then none
    else some { s.afterTurn (s.promise.finish ex) with ended := some ex }
  | .await =>
    match s.consumer with
    | .running =>
      if s.promise.awaitReady then some (s.receive moved)
      else some { s with promise := s.promise.awaitSuspend, consumer := .suspended }
    | .suspended | .scheduled => none
  | .resume =>
    match s.consumer with
    | .scheduled => some (s.receive moved)
    | .running | .suspended => none

/-- Any producer and any consumer. -/
def system (moved : α → α) : System (State α ε) (Act α ε) := { init := .init, next := next moved }

/-! ### What a stream delivers -/

/-- How far a `for_each` loop is. -/
inductive Progress (ε : Type) where
  | looping
  | ended
  | threw (e : ε)
  deriving DecidableEq, Repr

/-- The values that `for_each` has handed to its function when its awaits were answered so, and how
far it is; `include/crasy/stream.hpp:107–118`. -/
def forEach : List (Answer α ε) → List α × Progress ε
  | [] => ([], .looping)
  | .returned (some v) :: rest => (v :: (forEach rest).1, (forEach rest).2)
  | .returned none :: _ => ([], .ended)
  | .threw e :: _ => ([], .threw e)

/-- The answer for a value. -/
def answerOf (v : α) : Answer α ε := .returned (some v)

/-- The end of the producer, as the loop should see it. -/
def Progress.ofEnd : Option (Option ε) → Progress ε
  | none => .looping
  | some none => .ended
  | some (some e) => .threw e

/-- What the promise has still to hand over, in the order in which it does. -/
def Promise.pending (p : Promise α ε) : List (Answer α ε) :=
  (p.ex_.map .threw).toList ++
    ((p.value_.opt.filter fun x ↦ !x.movedFrom).map fun x ↦ answerOf x.value).toList

/-- The answers that the producer has given rise to: one for each value, and its exception. -/
def State.sent (s : State α ε) : List (Answer α ε) :=
  s.yielded.map answerOf ++ (s.ended.join.map .threw).toList

/-- What the consumer has got, and what the promise has for it, is what was sent, followed by
nothing but the end. -/
def Ordered (s : State α ε) : Prop :=
  ∃ n, s.received ++ s.promise.pending = s.sent ++ List.replicate n (.returned none) ∧
    (n ≠ 0 → s.ended.isSome = true)

/-- The consumer gets what was yielded, in order and each value once, and then the end. While it is
suspended there is nothing to be had, and it will be woken. A `for_each` loop hands on the values
and ends, after the last one, as the producer has. -/
structure Delivers (s : State α ε) : Prop where
  ordered : Ordered s
  attended : s.consumer = .suspended → s.promise.awaitReady = false ∧ s.promise.suspended_ = true
  loop : forEach s.received = (s.yielded.take s.received.length,
    if s.received.length ≤ s.yielded.length then .looping else .ofEnd s.ended)

/-! ### The promise -/

namespace Promise

variable {moved : α → α} {p : Promise α ε}

/-- `suspended_` is null afterwards. -/
theorem takeSuspended_eq (p : Promise α ε) :
    p.takeSuspended = (p.suspended_, { p with suspended_ := false }) := by
  obtain ⟨_, _, _ | _, _⟩ := p <;> rfl

/-- The end of the producer leaves `value_` and may set `ex_`. -/
theorem finish_eq (p : Promise α ε) (ex : Option ε) : p.finish ex =
    (p.suspended_, { p with ex_ := ex.or p.ex_, suspended_ := false, done_ := true }) := by
  cases ex <;> exact takeSuspended_eq _

/-- `value_` holds a value that the consumer has not got. -/
def Undelivered (p : Promise α ε) : Prop := ∃ v, p.value_.opt = some ⟨v, false⟩

/-- `await_resume` would return what it has left in `value_` before. -/
def Stale (p : Promise α ε) : Prop := p.ex_ = none ∧ ∃ v, p.value_.opt = some ⟨v, true⟩

private theorem pending_of_undelivered {v : α} (h : p.value_.opt = some ⟨v, false⟩) :
    p.pending = (p.ex_.map .threw).toList ++ [answerOf v] := by
  rw [pending, h]
  rfl

private theorem pending_of_delivered (h : ¬p.Undelivered) :
    p.pending = (p.ex_.map .threw).toList := by
  rw [pending]
  cases hv : p.value_.opt with
  | none => exact List.append_nil _
  | some x =>
    obtain ⟨v, _ | _⟩ := x
    · exact absurd ⟨v, hv⟩ h
    · exact List.append_nil _

private theorem not_stale_of_none (h : p.value_.opt = none) : ¬p.Stale := by
  rintro ⟨-, v, hv⟩
  rw [h] at hv
  cases hv

/-- `await_resume` throws `ex_` first. -/
theorem awaitResume_of_ex {e : ε} (h : p.ex_ = some e) :
    p.awaitResume moved = (.threw e, { p with ex_ := none }) := by
  simp only [awaitResume, h]

/-- `await_resume` of an empty `value_`. -/
theorem awaitResume_of_none (hex : p.ex_ = none) (h : p.value_.opt = none) :
    p.awaitResume moved = (.returned none, p) := by
  simp only [awaitResume, hex, moveValue, h]
  cases p
  cases hex
  rfl

/-- `await_resume` of a `value_` that holds something. -/
theorem awaitResume_of_some {x : Held α} (hex : p.ex_ = none) (h : p.value_.opt = some x) :
    p.awaitResume moved =
      (answerOf x.value, { p with value_ := ⟨some ⟨moved x.value, true⟩⟩ }) := by
  simp only [awaitResume, hex, moveValue, h]
  cases p
  cases hex
  rfl

private theorem pending_awaitResume (moved : α → α) (h : ¬p.Stale) :
    p.pending = (p.awaitResume moved).1 :: (p.awaitResume moved).2.pending ∨
      p.ex_ = none ∧ p.value_.opt = none ∧ p.awaitResume moved = (.returned none, p) := by
  cases hex : p.ex_ with
  | some e =>
    rw [awaitResume_of_ex hex, pending, hex]
    exact .inl rfl
  | none =>
    cases hv : p.value_.opt with
    | none => exact .inr ⟨rfl, rfl, awaitResume_of_none hex hv⟩
    | some x =>
      obtain ⟨v, _ | _⟩ := x
      · rw [awaitResume_of_some hex hv, pending_of_undelivered hv, pending, hex]
        exact .inl rfl
      · exact absurd ⟨hex, v, hv⟩ h

private theorem pending_awaitResume_stale (moved : α → α) (h : p.Stale) :
    p.pending = [] ∧ (p.awaitResume moved).2.pending = [] ∧
      ∃ v, (p.awaitResume moved).1 = answerOf v := by
  obtain ⟨hex, v, hv⟩ := h
  rw [awaitResume_of_some hex hv, pending, pending, hv, hex]
  exact ⟨rfl, rfl, v, rfl⟩

end Promise

/-! ### Turns -/

variable {moved : α → α} {s s' : State α ε} {a : Act α ε}

/-- What a turn does: the producer yields or ends, or the consumer receives or suspends. -/
theorem next_cases (h : next moved s a = some s') :
    (∃ v, a = .yield v ∧ s.ended = none ∧
      s' = { s.afterTurn (s.promise.yieldValue v) with yielded := s.yielded ++ [v] }) ∨
    (∃ ex, a = .finish ex ∧ s.ended = none ∧
      s' = { s.afterTurn (s.promise.finish ex) with ended := some ex }) ∨
    ((a = .await ∧ s.consumer = .running ∧ s.promise.awaitReady = true ∨
      a = .resume ∧ s.consumer = .scheduled) ∧ s' = s.receive moved) ∨
    (a = .await ∧ s.consumer = .running ∧ s.promise.awaitReady = false ∧
      s' = { s with promise := s.promise.awaitSuspend, consumer := .suspended }) := by
  cases a with
  | yield v =>
    simp only [next] at h
    split at h
    · cases h
    · next hend =>
      cases h
      exact .inl ⟨v, rfl, Option.not_isSome_iff_eq_none.mp hend, rfl⟩
  | finish ex =>
    simp only [next] at h
    split at h
    · cases h
    · next hend =>
      cases h
      exact .inr (.inl ⟨ex, rfl, Option.not_isSome_iff_eq_none.mp hend, rfl⟩)
  | await =>
    simp only [next] at h
    split at h
    · next hc =>
      split at h
      · next hready =>
        cases h
        exact .inr (.inr (.inl ⟨.inl ⟨rfl, hc, hready⟩, rfl⟩))
      · next hready =>
        cases h
        exact .inr (.inr (.inr ⟨rfl, hc, Bool.not_eq_true _ ▸ hready, rfl⟩))
    · cases h
    · cases h
  | resume =>
    simp only [next] at h
    split at h
    · next hc =>
      cases h
      exact .inr (.inr (.inl ⟨.inr ⟨rfl, hc⟩, rfl⟩))
    · cases h
    · cases h

/-- What holds however the turns fall: the consumer is suspended when its handle is stored, and
only as long as there is nothing to be had. -/
structure Attended (s : State α ε) : Prop where
  stored : s.consumer = .suspended ↔ s.promise.suspended_ = true
  waits : s.consumer = .suspended → s.promise.awaitReady = false
  woken : s.consumer = .scheduled → s.promise.awaitReady = true
  done : s.promise.done_ = s.ended.isSome
  thrown : ∀ e, s.promise.ex_ = some e → s.ended = some (some e)

theorem attended_init : Attended (.init : State α ε) := by
  refine ⟨⟨fun h ↦ ?_, fun h ↦ ?_⟩, fun h ↦ ?_, fun h ↦ ?_, rfl, fun e h ↦ ?_⟩ <;> cases h

/-- The promise has scheduled the consumer if it was suspended, and it is ready now. -/
theorem Attended.afterTurn (h : Attended s) {p : Promise α ε} (hs : p.suspended_ = false)
    (hready : p.awaitReady = true) {yielded : List α} {ended : Option (Option ε)}
    (hdone : p.done_ = ended.isSome) (hex : ∀ e, p.ex_ = some e → ended = some (some e)) :
    Attended { s.afterTurn (s.promise.suspended_, p) with yielded := yielded, ended := ended } where
  stored := by
    cases hold : s.promise.suspended_ with
    | true => simp [State.afterTurn, hs]
    | false =>
      have hnot : s.consumer ≠ .suspended := fun hc ↦ by
        rw [h.stored.mp hc] at hold
        cases hold
      simp [State.afterTurn, hs, hnot]
  waits hc := by
    cases hold : s.promise.suspended_ with
    | true => simp [State.afterTurn, hold] at hc
    | false =>
      rw [State.afterTurn, hold] at hc
      rw [h.stored.mp hc] at hold
      cases hold
  woken _ := hready
  done := hdone
  thrown := hex

/-- The consumer goes on after `await_resume`. -/
theorem Attended.receive (h : Attended s) (hrun : s.consumer ≠ .suspended) :
    Attended (s.receive moved) := by
  have hs : s.promise.suspended_ = false := by
    rw [← Bool.not_eq_true, ← h.stored]
    exact hrun
  have hkept : (s.promise.awaitResume moved).2.suspended_ = s.promise.suspended_ ∧
      (s.promise.awaitResume moved).2.done_ = s.promise.done_ ∧
      ∀ e, (s.promise.awaitResume moved).2.ex_ = some e → s.promise.ex_ = some e := by
    unfold Promise.awaitResume
    split <;> simp_all
  refine ⟨⟨fun hc ↦ ?_, fun hc ↦ ?_⟩, fun hc ↦ ?_, fun hc ↦ ?_, ?_, fun e he ↦ ?_⟩
  · cases hc
  · rw [State.receive, hkept.1, hs] at hc
    cases hc
  · cases hc
  · cases hc
  · rw [State.receive, hkept.2.1]
    exact h.done
  · exact h.thrown e (hkept.2.2 e he)

/-- Every turn keeps the consumer attended to. -/
theorem Attended.next (h : Attended s) (hn : next moved s a = some s') : Attended s' := by
  rcases next_cases hn with ⟨v, -, hend, rfl⟩ | ⟨ex, -, hend, rfl⟩ | ⟨hrun, rfl⟩ |
    ⟨-, hc, hready, rfl⟩
  · rw [Promise.yieldValue, Promise.takeSuspended_eq]
    exact h.afterTurn rfl (by simp [Promise.awaitReady, ValueOption.emplace, ValueOption.hasValue])
      h.done h.thrown
  · rw [Promise.finish_eq]
    refine h.afterTurn rfl (by simp [Promise.awaitReady]) rfl fun e he ↦ ?_
    cases ex with
    | none =>
      have hold := h.thrown e he
      rw [hend] at hold
      cases hold
    | some e' =>
      cases he
      rfl
  · refine h.receive fun hc ↦ ?_
    rcases hrun with ⟨-, hrun, -⟩ | ⟨-, hrun⟩ <;> rw [hrun] at hc <;> cases hc
  · refine ⟨iff_of_true rfl rfl, fun _ ↦ hready, fun hc ↦ ?_, h.done, h.thrown⟩
    cases hc

/-! ### The order of what is delivered -/

/-- The producer does not overtake the consumer: no value is yielded and no exception thrown as
long as a value is undelivered, and nothing stale is returned. -/
def InTurn (s : State α ε) : Act α ε → Prop
  | .yield _ | .finish (some _) => ¬s.promise.Undelivered
  | .finish none => True
  | .await | .resume => ¬s.promise.Stale

private theorem Attended.ex_none (h : Attended s) (hend : s.ended = none) :
    s.promise.ex_ = none := by
  rw [Option.eq_none_iff_forall_ne_some]
  intro e he
  have hthrown := h.thrown e he
  rw [hend] at hthrown
  cases hthrown

theorem ordered_init : Ordered (.init : State α ε) := ⟨0, rfl, fun h ↦ absurd rfl h⟩

private theorem Ordered.running (h : Ordered s) (hend : s.ended = none) :
    s.received ++ s.promise.pending = s.yielded.map answerOf := by
  obtain ⟨n, heq, hn⟩ := h
  rw [hend] at hn
  obtain rfl : n = 0 := by
    by_contra hne
    cases hn hne
  rw [heq, State.sent, hend]
  simp

/-- A value may be yielded when none is undelivered. -/
theorem Ordered.yield_iff (h : Ordered s) (hatt : Attended s) (hend : s.ended = none) (v : α) :
    Ordered { s.afterTurn (s.promise.yieldValue v) with yielded := s.yielded ++ [v] } ↔
      ¬s.promise.Undelivered := by
  have hold := h.running hend
  have hpending : (s.promise.yieldValue v).2.pending = [answerOf v] := by
    rw [Promise.yieldValue, Promise.takeSuspended_eq, Promise.pending, hatt.ex_none hend]
    rfl
  constructor
  · rintro h' ⟨u, hu⟩
    have hnew := h'.running hend
    rw [Promise.pending_of_undelivered hu, hatt.ex_none hend] at hold
    -- one answer for two values
    have hlen := congrArg List.length hold
    have hlen' := congrArg List.length hnew
    simp only [State.afterTurn, hpending] at hlen'
    simp at hlen hlen'
    omega
  · intro hdel
    rw [Promise.pending_of_delivered hdel, hatt.ex_none hend] at hold
    refine ⟨0, ?_, fun hne ↦ absurd rfl hne⟩
    have hreceived : s.received = s.yielded.map answerOf := by simpa using hold
    simp only [State.afterTurn, State.sent, hpending, hend, hreceived]
    simp

/-- The producer may return at any time. -/
theorem Ordered.finish (h : Ordered s) (hatt : Attended s) (hend : s.ended = none) :
    Ordered { s.afterTurn (s.promise.finish none) with ended := some none } := by
  refine ⟨0, ?_, fun hne ↦ absurd rfl hne⟩
  have hold := h.running hend
  rw [Promise.pending, hatt.ex_none hend] at hold
  simpa [State.afterTurn, State.sent, Promise.finish_eq, Promise.pending, hatt.ex_none hend]
    using hold

/-- The producer may throw when no value is undelivered. -/
theorem Ordered.finish_iff (h : Ordered s) (hatt : Attended s) (hend : s.ended = none) (e : ε) :
    Ordered { s.afterTurn (s.promise.finish (some e)) with ended := some (some e) } ↔
      ¬s.promise.Undelivered := by
  have hold := h.running hend
  constructor
  · rintro ⟨n, heq, -⟩ ⟨u, hu⟩
    rw [Promise.pending_of_undelivered hu, hatt.ex_none hend] at hold
    have hpending : (s.promise.finish (some e)).2.pending = [.threw e, answerOf u] := by
      rw [Promise.finish_eq]
      exact Promise.pending_of_undelivered hu
    -- the exception comes before the value
    simp only [State.afterTurn, State.sent, hpending, ← hold] at heq
    simp [answerOf] at heq
  · intro hdel
    rw [Promise.pending_of_delivered hdel, hatt.ex_none hend] at hold
    have hpending : (s.promise.finish (some e)).2.pending = [.threw e] := by
      rw [Promise.finish_eq]
      exact Promise.pending_of_delivered hdel
    have hreceived : s.received = s.yielded.map answerOf := by simpa using hold
    refine ⟨0, ?_, fun hne ↦ absurd rfl hne⟩
    simp only [State.afterTurn, State.sent, hpending, hreceived]
    simp

private theorem Attended.ended_of_ready (h : Attended s) (hready : s.promise.awaitReady = true)
    (hex : s.promise.ex_ = none) (hv : s.promise.value_.opt = none) : s.ended.isSome = true := by
  rw [← h.done]
  simpa [Promise.awaitReady, ValueOption.hasValue, hex, hv] using hready

/-- The consumer may go on with anything that is not stale. -/
theorem Ordered.receive_iff (h : Ordered s) (hatt : Attended s)
    (hready : s.promise.awaitReady = true) :
    Ordered (s.receive moved) ↔ ¬s.promise.Stale := by
  obtain ⟨n, heq, hn⟩ := h
  constructor
  · rintro ⟨n', heq', -⟩ hstale
    obtain ⟨hnone, hnone', v, hv⟩ := Promise.pending_awaitResume_stale moved hstale
    rw [hnone, List.append_nil] at heq
    -- the value comes after everything that was sent
    simp only [State.receive, hnone', hv, List.append_nil, heq] at heq'
    have htail : List.replicate n (.returned none) ++ [answerOf v] =
        List.replicate n' (.returned none : Answer α ε) :=
      List.append_cancel_left ((List.append_assoc _ _ _).symm.trans heq')
    have hmem : answerOf v ∈ List.replicate n' (.returned none : Answer α ε) := by
      rw [← htail]
      simp
    cases List.eq_of_mem_replicate hmem
  · intro hfresh
    rcases Promise.pending_awaitResume moved hfresh with hpending | ⟨hex, hv, hresume⟩
    · refine ⟨n, ?_, hn⟩
      rw [hpending] at heq
      change s.received ++ [_] ++ _ = s.sent ++ _
      rw [List.append_assoc]
      exact heq
    · refine ⟨n + 1, ?_, fun _ ↦ hatt.ended_of_ready hready hex hv⟩
      have hnone : s.promise.pending = [] := by
        rw [Promise.pending, hex, hv]
        rfl
      rw [hnone, List.append_nil] at heq
      simp only [State.receive, hresume, hnone, heq, List.append_nil, List.replicate_succ',
        List.append_assoc, State.sent]

/-- A turn keeps the order exactly when it is in turn. -/
theorem Ordered.next_iff (h : Ordered s) (hatt : Attended s) (hn : next moved s a = some s') :
    Ordered s' ↔ InTurn s a := by
  rcases next_cases hn with ⟨v, rfl, hend, rfl⟩ | ⟨ex, rfl, hend, rfl⟩ | ⟨hrun, rfl⟩ |
    ⟨rfl, -, hready, rfl⟩
  · exact h.yield_iff hatt hend v
  · cases ex with
    | none => exact iff_of_true (h.finish hatt hend) trivial
    | some e => exact h.finish_iff hatt hend e
  · rcases hrun with ⟨rfl, -, hready⟩ | ⟨rfl, hc⟩
    · exact h.receive_iff hatt hready
    · exact h.receive_iff hatt (hatt.woken hc)
  · have hv : s.promise.value_.opt = none := by
      simp only [Promise.awaitReady, ValueOption.hasValue, Bool.or_eq_false_iff] at hready
      exact Option.not_isSome_iff_eq_none.mp (Bool.eq_false_iff.mp hready.1.2)
    exact iff_of_true h (Promise.not_stale_of_none hv)

/-! ### The loop -/

private theorem forEach_append (vs : List α) (tail : List (Answer α ε)) :
    forEach (vs.map answerOf ++ tail) = (vs ++ (forEach tail).1, (forEach tail).2) := by
  induction vs with
  | nil => rfl
  | cons v vs ih => simp only [List.map_cons, List.cons_append, answerOf, forEach, ih]

/-- The loop does what it should when the answers are in order. -/
theorem Ordered.loop (h : Ordered s) : forEach s.received = (s.yielded.take s.received.length,
    if s.received.length ≤ s.yielded.length then .looping else .ofEnd s.ended) := by
  obtain ⟨n, heq, hn⟩ := h
  rw [State.sent, List.append_assoc] at heq
  have hreceived := List.prefix_append s.received s.promise.pending
  rw [heq] at hreceived
  have hyielded := List.prefix_append (s.yielded.map answerOf)
    ((s.ended.join.map .threw).toList ++ List.replicate n (.returned none))
  split
  · next hle =>
    have hpre := List.prefix_of_prefix_length_le hreceived hyielded (by simpa using hle)
    have htake : s.received = (s.yielded.take s.received.length).map answerOf := by
      rw [List.map_take]
      exact List.prefix_iff_eq_take.mp hpre
    have hloop := forEach_append (ε := ε) (s.yielded.take s.received.length) []
    rw [List.append_nil, ← htake] at hloop
    rw [hloop]
    simp [forEach]
  · next hlt =>
    have hle : s.yielded.length ≤ s.received.length := by omega
    obtain ⟨tail, htail⟩ :=
      List.prefix_of_prefix_length_le hyielded hreceived (by simpa using hle)
    rw [← htail, forEach_append, htail, List.take_of_length_le hle]
    rw [← htail, List.append_assoc] at heq
    have hrest := List.append_cancel_left heq
    cases tail with
    | nil =>
      rw [← htail] at hlt
      simp at hlt
    | cons x tail =>
      -- the first answer after the values is the end
      rcases hend : s.ended with _ | _ | e
      · rw [hend] at hn
        obtain rfl : n = 0 := by
          by_contra hne
          cases hn hne
        rw [hend] at hrest
        cases hrest
      · rw [hend] at hrest
        cases n with
        | zero => cases hrest
        | succ n =>
          obtain rfl : x = .returned none := (List.cons.inj hrest).1
          simp [forEach, Progress.ofEnd]
      · rw [hend] at hrest
        obtain rfl : x = .threw e := (List.cons.inj hrest).1
        simp [forEach, Progress.ofEnd]

/-- Answers in order are a delivery. -/
theorem Ordered.delivers (h : Ordered s) (hatt : Attended s) : Delivers s :=
  ⟨h, fun hc ↦ ⟨hatt.waits hc, hatt.stored.mp hc⟩, h.loop⟩

/-! ### The end of a stream -/

/-- `value_` is never emptied, and nullopt is returned only when it is empty. -/
structure Spent (s : State α ε) : Prop where
  empty : s.promise.value_.opt = none → s.yielded = []
  told : .returned none ∈ s.received → s.promise.value_.opt = none ∧ s.ended.isSome = true

theorem Spent.next (h : Spent s) (hatt : Attended s) (hn : next moved s a = some s') :
    Spent s' := by
  rcases next_cases hn with ⟨v, -, hend, rfl⟩ | ⟨ex, -, hend, rfl⟩ | ⟨hrun, rfl⟩ | ⟨-, -, -, rfl⟩
  · rw [Promise.yieldValue, Promise.takeSuspended_eq]
    refine ⟨fun hv ↦ ?_, fun hmem ↦ ?_⟩
    · cases hv
    · have hended := (h.told hmem).2
      rw [hend] at hended
      cases hended
  · rw [Promise.finish_eq]
    exact ⟨h.empty, fun hmem ↦ ⟨(h.told hmem).1, rfl⟩⟩
  · have hready : s.promise.awaitReady = true := by
      rcases hrun with ⟨-, -, hready⟩ | ⟨-, hc⟩
      · exact hready
      · exact hatt.woken hc
    rw [State.receive]
    cases hex : s.promise.ex_ with
    | some e =>
      rw [Promise.awaitResume_of_ex hex]
      refine ⟨h.empty, fun hmem ↦ h.told ?_⟩
      simpa using hmem
    | none =>
      cases hv : s.promise.value_.opt with
      | none =>
        rw [Promise.awaitResume_of_none hex hv]
        exact ⟨h.empty, fun _ ↦ ⟨hv, hatt.ended_of_ready hready hex hv⟩⟩
      | some x =>
        rw [Promise.awaitResume_of_some hex hv]
        refine ⟨fun hnone ↦ ?_, fun hmem ↦ ?_⟩
        · cases hnone
        · have hmem' : .returned none ∈ s.received := by simpa [answerOf] using hmem
          rw [(h.told hmem').1] at hv
          cases hv
  · exact ⟨h.empty, h.told⟩

private theorem mem_of_forEach_ended {answers : List (Answer α ε)}
    (h : (forEach answers).2 = .ended) :
    .returned none ∈ answers := by
  induction answers with
  | nil => cases h
  | cons x rest ih =>
    rcases x with (_ | v) | e
    · exact List.mem_cons_self
    · exact List.mem_cons_of_mem _ (ih h)
    · cases h

/-- A stream delivers exactly when the producer never overtakes the consumer and the consumer never
awaits what it has had already. The end of a stream that has yielded a value is never delivered. -/
theorem delivers_iff {acts : List (Act α ε)} (hr : (system moved).Run acts s) :
    ((∀ before t, before <+: acts → (system moved).Run before t → Delivers t) ↔
      (system moved).RunBy InTurn acts s) ∧
    (s.yielded ≠ [] → (forEach s.received).2 ≠ .ended) := by
  constructor
  · exact hr.passes_iff ⟨attended_init, ordered_init⟩ (fun _ _ _ hatt hn ↦ hatt.next hn)
      (fun _ _ _ hatt h hturn hn ↦ (h.next_iff hatt hn).mpr hturn) (fun _ hatt h ↦ h.delivers hatt)
      fun _ _ _ hatt h hnot hn h' ↦ hnot ((h.next_iff hatt hn).mp h'.ordered)
  · intro hne hended
    have hinv : Attended s ∧ Spent s := by
      refine hr.invariant (I := fun _ s ↦ Attended s ∧ Spent s) ⟨attended_init, ?_⟩
        fun _ _ _ _ h _ hn ↦ ⟨h.1.next hn, h.2.next h.1 hn⟩
      exact ⟨fun _ ↦ rfl, fun hmem ↦ absurd hmem List.not_mem_nil⟩
    exact hne (hinv.2.empty (hinv.2.told (mem_of_forEach_ended hended)).1)

instance (p : Promise α ε) : Decidable p.Undelivered :=
  decidable_of_iff (p.value_.opt.any (fun x ↦ !x.movedFrom) = true) (by
    rw [Promise.Undelivered]
    rcases p.value_.opt with _ | ⟨v, _ | _⟩ <;> simp)

instance (p : Promise α ε) : Decidable p.Stale :=
  decidable_of_iff (p.ex_.isNone = true ∧ p.value_.opt.any Held.movedFrom = true) (by
    rw [Promise.Stale, Option.isNone_iff_eq_none]
    rcases p.value_.opt with _ | ⟨v, _ | _⟩ <;> simp)

instance (s : State α ε) (a : Act α ε) : Decidable (InTurn s a) :=
  match a with
  | .yield _ | .finish (some _) => inferInstanceAs (Decidable (¬s.promise.Undelivered))
  | .finish none => isTrue trivial
  | .await | .resume => inferInstanceAs (Decidable (¬s.promise.Stale))

/-- The consumer is first, then the two take turns, and the producer throws. -/
def inTurn : List (Act Nat Nat) :=
  [.await, .yield 1, .resume, .yield 2, .await, .yield 3, .await, .finish (some 9), .await]

/-- Three values and an exception. -/
theorem delivers_inTurn : ∃ s, (system fun _ ↦ 0).Run inTurn s ∧
    s.received = [answerOf 1, answerOf 2, answerOf 3, .threw 9] ∧
      ∀ before t, before <+: inTurn → (system fun _ ↦ 0).Run before t → Delivers t := by
  have hrun : ∃ s, (system fun _ : Nat ↦ 0).RunBy InTurn inTurn s ∧
      s.received = [answerOf 1, answerOf 2, answerOf 3, .threw 9] :=
    System.exists_runBy inTurn (by decide)
  obtain ⟨s, hr, hreceived⟩ := hrun
  have hall : (system fun _ : Nat ↦ 0).Run inTurn s := hr.mono fun _ _ _ ↦ trivial
  exact ⟨s, hall, hreceived, (delivers_iff hall).1.mpr hr⟩

/-- A value is overwritten before the consumer comes; and a consumer that comes again after the
last value gets what is left of it instead of the end. -/
theorem value_lost_or_repeated :
    (∃ s, (system (ε := Nat) fun _ : Nat ↦ 0).Reachable s ∧ s.yielded = [1, 2] ∧
      s.received = [answerOf 2]) ∧
    (∃ s, (system (ε := Nat) fun _ : Nat ↦ 0).Reachable s ∧ s.yielded = [1] ∧
      s.ended = some none ∧ s.received = [answerOf 1, answerOf 0]) ∧
    ¬∀ s, (system (ε := Nat) fun _ : Nat ↦ 0).Reachable s → Delivers s := by
  have hlost : ∃ s, (system (ε := Nat) fun _ : Nat ↦ 0).Reachable s ∧ s.yielded = [1, 2] ∧
      s.received = [answerOf 2] :=
    System.exists_reachable [.yield 1, .yield 2, .await] (by decide)
  have hrepeated : ∃ s, (system (ε := Nat) fun _ : Nat ↦ 0).Reachable s ∧ s.yielded = [1] ∧
      s.ended = some none ∧ s.received = [answerOf 1, answerOf 0] :=
    System.exists_reachable [.yield 1, .await, .finish none, .await] (by decide)
  refine ⟨hlost, hrepeated, fun h ↦ ?_⟩
  obtain ⟨s, hr, hyielded, hreceived⟩ := hlost
  have hloop := (h s hr).loop
  rw [hyielded, hreceived] at hloop
  cases hloop

end Crasy.Future.Stream
