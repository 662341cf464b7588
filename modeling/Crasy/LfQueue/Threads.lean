import Crasy.Base.Linked
import Crasy.Base.System
import Crasy.Base.Tally
import Crasy.LfQueue.Sequential

/-!
# Threads that share a lock-free queue

Library `LfQueue`. Models `include/crasy/lfqueue.hpp:32–53,78–96,134–162` for threads
that call `push` and `pop` on one queue, one action for each atomic access, and says
which entry belongs to whom. Entries are recycled at once, so the pointers that the loops
of `new_entry` and `pop` have loaded may be stale when their compare-exchange succeeds.
-/

namespace Crasy.LfQueue.Concurrent

open Crasy.Base

variable {ι α : Type}

/-- What a thread does next, with the local variables it still needs. -/
inductive Pc (α : Type) where
  | idle
  | loadFree (v : α)
  | alloc (v : α)
  | loadNext (v : α) (entry : Ptr)
  | casFree (v : α) (entry : Ptr) (next : Option Ptr)
  | clearNext (v : α) (entry : Ptr)
  | loadValue (v : α) (entry : Ptr)
  | construct (v : α) (entry : Ptr)
  | setValue (entry : Ptr)
  | exchangeHead (entry : Ptr)
  | storeTail (entry : Ptr)
  | storeNext (head entry : Ptr)
  | loadTail
  | loadTailNext (tail : Ptr)
  | casTail (tail : Ptr) (next : Option Ptr)
  | exchangeValue (tail : Ptr) (next : Option Ptr)
  | moveData (tail : Ptr) (next : Option Ptr)
  | restoreTail (tail : Ptr) (ret : Option α)
  | delLoad (entry : Ptr) (ret : Option α)
  | delStore (entry : Ptr) (next : Option Ptr) (ret : Option α)
  | delCas (entry : Ptr) (next : Option Ptr) (ret : Option α)
  | finished (ret : Option α)
  deriving DecidableEq, Repr

/-- The round of `new_entry`'s loop for a value of `free_`; lines 88–90. -/
def newEntryRound (v : α) : Option Ptr → Pc α
  | none => .alloc v
  | some entry => .loadNext v entry

/-- What `pop` does once it has the answer; lines 156–161. -/
def afterTake (tail : Ptr) (next : Option Ptr) (ret : Option α) : Pc α :=
  match next with
  | none => .restoreTail tail ret
  | some _ => .delLoad tail ret

/-- One atomic access of a thread. The loops of `new_entry` and `del_entry` go on with the
value that a failed compare-exchange has loaded; the loop of `pop` loads `tail_` again. -/
def advance (q : Queue α) : Pc α → Queue α × Pc α
  -- `new_entry`; lines 85–96
  | .loadFree v => (q, newEntryRound v q.free)
  | .alloc v => (q.alloc, .loadValue v q.allocated)
  | .loadNext v entry => (q, .casFree v entry (q.next entry))
  | .casFree v entry next =>
    if q.free = some entry then ({ q with free := next }, .clearNext v entry)
    else (q, newEntryRound v q.free)
  | .clearNext v entry => (q.setNext entry none, .loadValue v entry)
  -- `put_data`; lines 33–38: a set flag means that an old object is destroyed first
  | .loadValue v entry => (q, .construct v entry)
  | .construct v entry =>
    (q.set entry { q.entries entry with data := some v }, .setValue entry)
  | .setValue entry =>
    (q.set entry { q.entries entry with hasValue := true }, .exchangeHead entry)
  -- `push`; lines 138–143
  | .exchangeHead entry =>
    ({ q with head := some entry },
      match q.head with
      | none => .storeTail entry
      | some head => .storeNext head entry)
  | .storeTail entry => ({ q with tail := some entry }, .idle)
  | .storeNext head entry => (q.setNext head (some entry), .idle)
  -- `pop`; lines 149–154
  | .loadTail =>
    (q, match q.tail with
      | none => .finished none
      | some tail => .loadTailNext tail)
  | .loadTailNext tail => (q, .casTail tail (q.next tail))
  | .casTail tail next =>
    if q.tail = some tail then ({ q with tail := next }, .exchangeValue tail next)
    else (q, .loadTail)
  -- `take_data`; lines 41–53
  | .exchangeValue tail next =>
    (q.set tail { q.entries tail with hasValue := false },
      if (q.entries tail).hasValue then .moveData tail next else afterTake tail next none)
  | .moveData tail next =>
    (q.set tail { q.entries tail with data := none },
      afterTake tail next (q.entries tail).data)
  | .restoreTail tail ret => ({ q with tail := some tail }, .finished ret)
  -- `del_entry`; lines 78–83
  | .delLoad entry ret => (q, .delStore entry q.free ret)
  | .delStore entry next ret => (q.setNext entry next, .delCas entry next ret)
  | .delCas entry next ret =>
    if q.free = next then ({ q with free := some entry }, .finished ret)
    else (q, .delStore entry q.free ret)
  | .idle => (q, .idle)
  | .finished ret => (q, .finished ret)

/-- The queue and its threads, with the values of all pushes started and of all pops
returned. -/
structure State (ι α : Type) where
  queue : Queue α
  threads : ι → Pc α
  pushed : Multiset α
  popped : Multiset α

/-- The values in an optional result. -/
def values : Option α → Multiset α
  | none => 0
  | some v => {v}

/-- A thread calls `push` or `pop`, makes its next access, or returns from `pop`. -/
inductive Act (ι α : Type) where
  | push (i : ι) (v : α)
  | pop (i : ι)
  | access (i : ι)
  | ret (i : ι)
  deriving DecidableEq, Repr

section Steps

variable [DecidableEq ι]

/-- Move one thread. -/
def State.setThread (s : State ι α) (i : ι) (pc : Pc α) : State ι α :=
  { s with threads := Function.update s.threads i pc }

/-- One step of one thread. -/
def next (s : State ι α) : Act ι α → Option (State ι α)
  | .push i v =>
    match s.threads i with
    | .idle => some ({ s with pushed := v ::ₘ s.pushed }.setThread i (.loadFree v))
    | _ => none
  | .pop i =>
    match s.threads i with
    | .idle => some (s.setThread i .loadTail)
    | _ => none
  | .access i =>
    let (queue, pc) := advance s.queue (s.threads i)
    some ({ s with queue := queue }.setThread i pc)
  | .ret i =>
    match s.threads i with
    | .finished ret => some ({ s with popped := values ret + s.popped }.setThread i .idle)
    | _ => none

/-- A queue with some initial capacity under all interleavings of its threads. -/
def system (ι α : Type) [DecidableEq ι] (capacity : Nat) : System (State ι α) (Act ι α) where
  init := { queue := .ofCapacity capacity, threads := fun _ ↦ .idle, pushed := 0, popped := 0 }
  next := next

/-- A step of the machine takes one thread from `pc` to `pc'` and the queue from `q` to `q'`. -/
inductive Moves (q : Queue α) : Act ι α → ι → Pc α → Queue α → Pc α → Prop where
  | push (i : ι) (v : α) : Moves q (.push i v) i .idle q (.loadFree v)
  | pop (i : ι) : Moves q (.pop i) i .idle q .loadTail
  | access (i : ι) (pc : Pc α) : Moves q (.access i) i pc (advance q pc).1 (advance q pc).2
  | ret (i : ι) (ret : Option α) : Moves q (.ret i) i (.finished ret) q .idle

theorem next_moves {s s' : State ι α} {a : Act ι α} (h : next s a = some s') :
    ∃ i pc', Moves s.queue a i (s.threads i) s'.queue pc' ∧
      s'.threads = Function.update s.threads i pc' := by
  cases a with
  | push i v =>
    simp only [next] at h
    split at h
    · next hi =>
      cases h
      exact ⟨i, .loadFree v, hi ▸ .push i v, rfl⟩
    · cases h
  | pop i =>
    simp only [next] at h
    split at h
    · next hi =>
      cases h
      exact ⟨i, .loadTail, hi ▸ .pop i, rfl⟩
    · cases h
  | access i =>
    cases h
    exact ⟨i, (advance s.queue (s.threads i)).2, .access i (s.threads i), rfl⟩
  | ret i =>
    simp only [next] at h
    split at h
    · next ret hi =>
      cases h
      exact ⟨i, .idle, hi ▸ .ret i ret, rfl⟩
    · cases h

end Steps

/-! ### Roles -/

/-- The entry that a `push` in flight has from `new_entry` and not yet made the head. -/
def Pc.pushing : Pc α → Option Ptr
  | .clearNext _ entry | .loadValue _ entry | .construct _ entry | .setValue entry
  | .exchangeHead entry => some entry
  | _ => none

/-- The entry that a `pop` in flight has taken from `tail_` and not yet given back. -/
def Pc.popping : Pc α → Option Ptr
  | .exchangeValue tail _ | .moveData tail _ | .restoreTail tail _ | .delLoad tail _
  | .delStore tail _ _ | .delCas tail _ _ => some tail
  | _ => none

/-- The entry that a thread will store to `tail_`: the first entry ever, or an entry that
`pop` took without a successor. -/
def Pc.pending : Pc α → Option Ptr
  | .storeTail entry | .exchangeValue entry none | .moveData entry none
  | .restoreTail entry _ => some entry
  | _ => none

/-- The link that a `push` still has to store: the old head and its successor. -/
def Pc.linking : Pc α → Option (Ptr × Ptr)
  | .storeNext head entry => some (head, entry)
  | _ => none

/-- An entry of the queue chain: it can be reached from `tail_`, from the head of a `push`
that still has to store a pointer to it, or from the successor of an entry that `pop` took
without one and will put back. -/
def State.InChain (s : State ι α) (p : Ptr) : Prop :=
  Path s.queue.next s.queue.tail p ∨
  (∃ i e, s.threads i = .storeTail e ∧ Path s.queue.next (some e) p) ∨
  (∃ i a e, s.threads i = .storeNext a e ∧ Path s.queue.next (some e) p) ∨
  ∃ i t, (s.threads i).popping = some t ∧ (s.threads i).pending = some t ∧
    Path s.queue.next (s.queue.next t) p

/-- The roles of an entry. -/
inductive Role (ι : Type) where
  | pushing (i : ι)
  | chain
  | popping (i : ι)
  | free
  deriving DecidableEq, Repr

/-- An entry has a role. -/
def State.HasRole (s : State ι α) (p : Ptr) : Role ι → Prop
  | .pushing i => (s.threads i).pushing = some p
  | .chain => s.InChain p
  | .popping i => (s.threads i).popping = some p
  | .free => Path s.queue.next s.queue.free p

/-- `new_entry` hands out an entry in the thread's next step. -/
def State.HandsOut (s : State ι α) (i : ι) (p : Ptr) : Prop :=
  (s.threads i).pushing = none ∧ (advance s.queue (s.threads i)).2.pushing = some p

/-- All values that entries hold. -/
def stored (q : Queue α) : Multiset α :=
  ∑ p ∈ Finset.range q.allocated, values (q.entries p).data

/-- The values that a thread holds itself: the argument of a `push` until it is
constructed, the answer of a `pop` once it is moved out. -/
def Pc.carried : Pc α → Multiset α
  | .loadFree v | .alloc v | .loadNext v _ | .casFree v _ _ | .clearNext v _
  | .loadValue v _ | .construct v _ => {v}
  | .restoreTail _ ret | .delLoad _ ret | .delStore _ _ ret | .delCas _ _ ret
  | .finished ret => values ret
  | _ => 0

/-- Every entry has exactly one role. An entry that `new_entry` hands out has no role but
that of a free one, a value is constructed only where there is none, and every pushed
value is exactly once among those returned, carried by a thread or stored; so different
values are returned at most once each. -/
structure NodeOwnership [Fintype ι] (s : State ι α) : Prop where
  role : ∀ p < s.queue.allocated, ∃! r, s.HasRole p r
  handedOut : ∀ i p, s.HandsOut i p → ∀ r, s.HasRole p r → r = .free
  vacant : ∀ i v p, s.threads i = .construct v p →
    (s.queue.entries p).data = none ∧ (s.queue.entries p).hasValue = false
  conserved : s.pushed = s.popped + tally Pc.carried s.threads + stored s.queue
  returnedOnce : s.pushed.Nodup → s.popped.Nodup

/-- A compare-exchange that succeeds installs the successor that the entry has now. A null
pointer read from the entry at `tail_` may be stale: the entry is put back afterwards. -/
def AccessOk (q : Queue α) : Pc α → Prop
  | .casFree _ entry next => q.free = some entry → q.next entry = next
  | .casTail tail (some next) => q.tail = some tail → q.next tail = some next
  | _ => True

/-- No compare-exchange of the step installs a stale successor. -/
def StepOk (s : State ι α) : Act ι α → Prop
  | .access i => AccessOk s.queue (s.threads i)
  | _ => True

instance (q : Queue α) (pc : Pc α) : Decidable (AccessOk q pc) :=
  match pc with
  | .casFree _ entry next =>
    inferInstanceAs (Decidable (q.free = some entry → q.next entry = next))
  | .casTail tail (some next) =>
    inferInstanceAs (Decidable (q.tail = some tail → q.next tail = some next))
  | .casTail _ none | .idle | .loadFree _ | .alloc _ | .loadNext .. | .clearNext ..
  | .loadValue .. | .construct .. | .setValue _ | .exchangeHead _ | .storeTail _
  | .storeNext .. | .loadTail | .loadTailNext _ | .exchangeValue .. | .moveData ..
  | .restoreTail .. | .delLoad .. | .delStore .. | .delCas .. | .finished _ => isTrue trivial

instance (s : State ι α) (a : Act ι α) : Decidable (StepOk s a) :=
  match a with
  | .access i => inferInstanceAs (Decidable (AccessOk s.queue (s.threads i)))
  | .push .. | .pop _ | .ret _ => isTrue trivial

end Crasy.LfQueue.Concurrent
