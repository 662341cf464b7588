import Crasy.LfQueue.Destructor
import Crasy.LfQueue.Order

/-!
# One producer and one consumer

Library `LfQueue`. The machine of `Crasy.LfQueue.Threads` with two threads, of which one only
pushes and the other only pops. The producer alone takes entries from the free list and the
consumer alone moves `tail_`, so that no compare-exchange succeeds with a stale successor, and
the values pass through the entries as `Crasy.LfQueue.Order` has it, in the order in which they
are pushed.
-/

namespace Crasy.LfQueue.SingleProducer

open Crasy.Base Crasy.LfQueue.Concurrent

variable {α : Type}

/-- The two threads. -/
inductive Side where
  | producer
  | consumer
  deriving DecidableEq, Repr

/-- A `pop` that has returned. It was `due` a value or a full front entry if, when it was
called, no `push` was in progress and some values were undelivered. -/
structure Popped (α : Type) where
  due : Bool
  ret : Option α
  deriving DecidableEq, Repr

/-- The queue and the two threads, the values of all pushes started, the pops that have
returned, and whether the one in progress is due. -/
structure State (α : Type) where
  queue : Queue α
  threads : Side → Pc α
  pushed : List α
  popped : List (Popped α)
  due : Bool

/-- The producer calls `push`, the consumer calls `pop` or returns from it, or one of them
makes its next access. -/
inductive Act (α : Type) where
  | push (v : α)
  | pop
  | access (side : Side)
  | ret
  deriving DecidableEq, Repr

/-- Neither a `push` nor a `pop`. -/
def idle : Pc α → Bool
  | .idle => true
  | _ => false

private theorem eq_idle {pc : Pc α} (h : idle pc = true) : pc = .idle := by
  cases pc with
  | idle => rfl
  | _ => cases h

/-- The values that pops have returned, in order. -/
def State.delivered (s : State α) : List α := (s.popped.map Popped.ret).reduceOption

/-- Move one thread. -/
def State.setThread (s : State α) (side : Side) (pc : Pc α) : State α :=
  { s with threads := Function.update s.threads side pc }

/-- The next atomic access of a thread. -/
def State.access (s : State α) (side : Side) : State α :=
  let (queue, pc) := advance s.queue (s.threads side)
  { s with queue := queue }.setThread side pc

/-- One step of one thread. -/
def next (s : State α) : Act α → Option (State α)
  | .push v =>
    match s.threads .producer with
    | .idle => some ({ s with pushed := s.pushed ++ [v] }.setThread .producer (.loadFree v))
    | _ => none
  | .pop =>
    match s.threads .consumer with
    | .idle =>
      let due := idle (s.threads .producer) && decide (s.delivered.length < s.pushed.length)
      some ({ s with due := due }.setThread .consumer .loadTail)
    | _ => none
  | .access side => some (s.access side)
  | .ret =>
    match s.threads .consumer with
    | .finished ret =>
      some ({ s with popped := s.popped ++ [Popped.mk s.due ret] }.setThread .consumer .idle)
    | _ => none

/-- A queue of some initial capacity between its producer and its consumer. -/
def system (α : Type) (capacity : Nat) : System (State α) (Act α) where
  init := { queue := .ofCapacity capacity, threads := fun _ ↦ .idle, pushed := [], popped := [],
            due := false }
  next := next

/-! ### What the two threads know -/

/-- The thread is inside `push`, or idle. -/
def Pushes : Pc α → Prop
  | .idle | .loadFree _ | .alloc _ | .loadNext _ _ | .casFree _ _ _ | .clearNext _ _
  | .loadValue _ _ | .construct _ _ | .setValue _ | .exchangeHead _ | .storeTail _
  | .storeNext _ _ => True
  | _ => False

/-- The thread is inside `pop`, or idle. -/
def Pops : Pc α → Prop
  | .idle | .loadTail | .loadTailNext _ | .casTail _ _ | .exchangeValue _ _ | .moveData _ _
  | .restoreTail _ _ | .delLoad _ _ | .delStore _ _ _ | .delCas _ _ _ | .finished _ => True
  | _ => False

/-- What the producer has read of the free list is still so: nobody else takes from it. -/
def Fresh (q : Queue α) (free : List Ptr) : Pc α → Prop
  | .loadNext _ entry => entry ∈ free
  | .casFree _ entry next => entry ∈ free ∧ q.next entry = next
  | _ => True

/-- What the consumer has read of `tail_` is still so, but a successor may have come. -/
def Current (q : Queue α) : Pc α → Prop
  | .loadTailNext tail => q.tail = some tail
  | .casTail tail next => q.tail = some tail ∧ ∀ n, next = some n → q.next tail = some n
  | _ => True

/-- The front entry of the queue holds a value. -/
def FrontFull (q : Queue α) : Prop := ∃ t, q.tail = some t ∧ (q.entries t).data ≠ none

/-- The `pop` will return a value. -/
def Full (q : Queue α) : Pc α → Prop
  | .idle | .loadTail => FrontFull q
  | .loadTailNext tail | .casTail tail _ => q.tail = some tail ∧ (q.entries tail).data ≠ none
  | .exchangeValue tail _ | .moveData tail _ => (q.entries tail).data ≠ none
  | .restoreTail _ ret | .delLoad _ ret | .delStore _ _ ret | .delCas _ _ ret | .finished ret =>
    ret ≠ none
  | _ => True

/-- The `pop` will return a value, or leave a full front entry. -/
def Due (q : Queue α) : Pc α → Prop
  | .loadTail => ∃ t, q.tail = some t ∧ ((q.entries t).data ≠ none ∨ q.next t ≠ none)
  | .loadTailNext tail =>
    q.tail = some tail ∧ ((q.entries tail).data ≠ none ∨ q.next tail ≠ none)
  | .casTail tail next => q.tail = some tail ∧ ((q.entries tail).data ≠ none ∨ next ≠ none)
  | .exchangeValue tail next =>
    (q.entries tail).data ≠ none ∨ next ≠ none ∧ FrontFull q
  | .moveData tail _ => (q.entries tail).data ≠ none
  | .restoreTail _ ret => ret ≠ none
  | .delLoad _ ret | .delStore _ _ ret | .delCas _ _ ret | .finished ret => ret ≠ none ∨ FrontFull q
  | _ => True

/-! ### Between two accesses -/

/-- Of any two pops in a row, the first of which was due, one returned a value. -/
def Attentive (popped : List (Popped α)) : Prop :=
  ∀ before p r after, popped = before ++ p :: r :: after → p.due = true →
    p.ret ≠ none ∨ r.ret ≠ none

/-- The last `pop` was due and returned nothing. -/
def Missed (popped : List (Popped α)) : Prop := popped.getLast? = some ⟨true, none⟩

/-- The state between two accesses. All pushed values are on their way in order, only the
front entry may be empty, and a `pop` that misses leaves it full. -/
structure Passing (s : State α) (order free : List Ptr) (after : Ptr → Option Ptr) : Prop where
  sound : Sound s.queue s.threads order free after
  pushes : Pushes (s.threads .producer)
  pops : Pops (s.threads .consumer)
  fresh : Fresh s.queue free (s.threads .producer)
  current : Current s.queue (s.threads .consumer)
  filled : Filled s.queue s.threads order
  line : s.pushed = s.delivered ++ ((inHand s.queue (s.threads .consumer)).toList ++
    contents s.queue s.threads order ++ (offered s.queue (s.threads .producer)).toList)
  due : s.due = true → Due s.queue (s.threads .consumer)
  primed : Missed s.popped → Full s.queue (s.threads .consumer)
  attentive : Attentive s.popped

/-! ### Steps of the producer -/

/-- What one thread may do to the entries that the other one knows: it sets `tail_` and
successors only where there are none, and leaves the values. -/
structure Untouched (known : Ptr → Prop) (q q' : Queue α) : Prop where
  tail : ∀ t, q.tail = some t → q'.tail = some t
  data : ∀ p, known p → (q'.entries p).data = (q.entries p).data
  next : ∀ p n, known p → q.next p = some n → q'.next p = some n

namespace Untouched

variable {known : Ptr → Prop} {q q' : Queue α}

private theorem of_entries (ht : ∀ t, q.tail = some t → q'.tail = some t)
    (he : q'.entries = q.entries) :
    Untouched known q q' := by
  refine ⟨ht, fun p _ ↦ by rw [he], fun p n _ hn ↦ ?_⟩
  rw [← hn, Queue.next, Queue.next, he]

private theorem of_set {p : Ptr} {e : Entry α} (hp : ¬known p) : Untouched known q (q.set p e) := by
  have hne (r : Ptr) (hr : known r) : r ≠ p := fun he ↦ hp (he ▸ hr)
  refine ⟨fun _ ↦ id, fun r hr ↦ by rw [Queue.set_entries_ne _ _ (hne r hr)], fun r n hr hn ↦ ?_⟩
  rw [← hn, Queue.next, Queue.next, Queue.set_entries_ne _ _ (hne r hr)]

private theorem frontFull (h : Untouched known q q') (hk : ∀ t, q.tail = some t → known t)
    (hf : FrontFull q) : FrontFull q' := by
  obtain ⟨t, ht, hd⟩ := hf
  exact ⟨t, h.tail t ht, by rwa [h.data t (hk t ht)]⟩

/-- What the consumer counts on stays so. -/
theorem promises (h : Untouched known q q') {pc : Pc α} (hk : ∀ t, q.tail = some t → known t)
    (htaken : ∀ t, pc.popping = some t → known t) :
    (Current q pc → Current q' pc) ∧ (Full q pc → Full q' pc) ∧ (Due q pc → Due q' pc) := by
  have hsucc (t : Ptr) (ht : q.tail = some t) (hn : q.next t ≠ none) : q'.next t ≠ none := by
    obtain ⟨n, hn⟩ := Option.ne_none_iff_exists'.mp hn
    rw [h.next t n (hk t ht) hn]
    exact Option.some_ne_none n
  have hdata (t : Ptr) (ht : q.tail = some t) (hd : (q.entries t).data ≠ none) :
      (q'.entries t).data ≠ none := by rwa [h.data t (hk t ht)]
  cases pc with
  | loadTail =>
    refine ⟨id, h.frontFull hk, ?_⟩
    rintro ⟨t, ht, hdue⟩
    exact ⟨t, h.tail t ht, hdue.imp (hdata t ht) (hsucc t ht)⟩
  | loadTailNext t =>
    exact ⟨h.tail t, fun hf ↦ ⟨h.tail t hf.1, hdata t hf.1 hf.2⟩,
      fun hd ↦ ⟨h.tail t hd.1, hd.2.imp (hdata t hd.1) (hsucc t hd.1)⟩⟩
  | casTail t n =>
    exact ⟨fun hc ↦ ⟨h.tail t hc.1, fun m hm ↦ h.next t m (hk t hc.1) (hc.2 m hm)⟩,
      fun hf ↦ ⟨h.tail t hf.1, hdata t hf.1 hf.2⟩,
      fun hd ↦ ⟨h.tail t hd.1, hd.2.imp_left (hdata t hd.1)⟩⟩
  | exchangeValue t n =>
    have ht : (q'.entries t).data = (q.entries t).data := h.data t (htaken t rfl)
    simp only [Current, Full, Due, ht]
    exact ⟨id, id, fun hd ↦ hd.imp_right fun hn ↦ ⟨hn.1, h.frontFull hk hn.2⟩⟩
  | moveData t n =>
    have ht : (q'.entries t).data = (q.entries t).data := h.data t (htaken t rfl)
    simp only [Current, Full, Due, ht]
    exact ⟨id, id, id⟩
  | delLoad | delStore | delCas | finished =>
    exact ⟨id, id, fun hd ↦ hd.imp_right (h.frontFull hk)⟩
  | idle => exact ⟨id, h.frontFull hk, id⟩
  | _ => exact ⟨id, id, id⟩

end Untouched

section Producer

variable {q : Queue α} {threads : Side → Pc α} {order free : List Ptr}
  {after : Ptr → Option Ptr}

private theorem mem_of_tail (h : Sound q threads order free after) {t : Ptr}
    (ht : q.tail = some t) :
    t ∈ order := by
  have hends : Ends q.head (some t) (Pc.pending ∘ threads) order := ht ▸ h.ends
  obtain ⟨rest, rfl⟩ := hends.first_of_tail
  exact List.mem_cons_self

/-- The entries that the consumer knows: the order, and the one it has taken. -/
def Known (order : List Ptr) (pc : Pc α) (p : Ptr) : Prop := p ∈ order ∨ pc.Owns p

private theorem not_known_of_held (h : Sound q threads order free after) {p : Ptr}
    (hp : (threads .producer).held = some p) : ¬Known order (threads .consumer) p := by
  rintro (hm | hown)
  · exact (h.not_mem_of_held hp).1 hm
  · cases h.owns_unique (.inl hp) hown

/-- An access of the producer leaves what the consumer knows. -/
theorem producer_untouched (h : Sound q threads order free after)
    (hp : Pushes (threads .producer)) :
    Untouched (Known order (threads .consumer)) q (advance q (threads .producer)).1 := by
  cases hpc : threads .producer with
  | idle | loadFree | loadNext | loadValue | exchangeHead =>
    exact .of_entries (fun _ ↦ id) rfl
  | casFree v entry next =>
    simp only [advance]
    split <;> exact .of_entries (fun _ ↦ id) rfl
  | alloc v =>
    have hnew : ¬Known order (threads .consumer) q.allocated := by
      rintro (hm | hown)
      · exact Nat.lt_irrefl _ (h.order_allocated hm)
      · exact Nat.lt_irrefl _ (h.owns_allocated hown)
    have hset : Untouched (Known order (threads .consumer)) q (q.set q.allocated Entry.new) :=
      .of_set hnew
    exact ⟨hset.tail, hset.data, hset.next⟩
  | clearNext v entry | construct v entry | setValue entry =>
    exact .of_set (not_known_of_held h (by rw [hpc]; rfl))
  | storeTail entry =>
    refine .of_entries (fun t ht ↦ ?_) rfl
    have hnull := (h.ends.pending_first .producer entry (by simp [hpc, Pc.pending])).2
    rw [hnull] at ht
    cases ht
  | storeNext head entry =>
    have hnull := (h.chain.owed .producer head entry (by simp [hpc, Pc.linking])).2.2
    refine ⟨fun _ ↦ id, fun p _ ↦ ?_, fun p n _ hn ↦ ?_⟩
    · by_cases hph : p = head
      · subst hph
        simp [advance, Queue.setNext]
      · simp [advance, Queue.setNext, hph]
    · have hph : p ≠ head := by
        rintro rfl
        rw [hnull] at hn
        cases hn
      simpa [advance, hph] using hn
  | _ =>
    rw [hpc] at hp
    exact hp.elim

/-- The producer stays inside `push`. -/
theorem pushes_advance {pc : Pc α} (hp : Pushes pc) : Pushes (advance q pc).2 := by
  cases pc with
  | loadFree v =>
    simp only [advance]
    cases q.free <;> trivial
  | casFree v entry next =>
    simp only [advance]
    split
    · trivial
    · cases q.free <;> trivial
  | exchangeHead entry =>
    simp only [advance]
    cases q.head <;> trivial
  | idle | alloc | loadNext | clearNext | loadValue | construct | setValue | storeTail
  | storeNext => trivial
  | _ => exact hp.elim

/-- What the producer reads of the free list is so. -/
theorem fresh_advance (h : Sound q threads order free after)
    (hf : Fresh q free (threads .producer)) :
    Fresh (advance q (threads .producer)).1 (nextFree q free (threads .producer))
      (advance q (threads .producer)).2 := by
  have hround (v : α) : Fresh q free (newEntryRound v q.free) := by
    cases hq : q.free with
    | none => trivial
    | some entry =>
      obtain ⟨rest, rfl, -⟩ := (hq ▸ h.free_linked : Linked q.next (some entry) free).exists_cons
      exact List.mem_cons_self
  cases hpc : threads .producer with
  | loadFree v => exact hround v
  | loadNext v entry =>
    rw [hpc] at hf
    exact ⟨hf, rfl⟩
  | casFree v entry next =>
    by_cases hq : q.free = some entry
    · simp only [advance, if_pos hq]
      trivial
    · simp only [advance, nextFree, if_neg hq]
      exact hround v
  | exchangeHead entry =>
    simp only [advance]
    cases q.head <;> trivial
  | loadTail =>
    simp only [advance]
    cases q.tail <;> trivial
  | casTail t n =>
    simp only [advance]
    split <;> trivial
  | exchangeValue t n =>
    simp only [advance]
    split
    · trivial
    · cases n <;> trivial
  | moveData t n => cases n <;> trivial
  | delCas e n r =>
    simp only [advance]
    split <;> trivial
  | _ => trivial

private theorem takenOut_of_pushes {pc : Pc α} (hp : Pushes pc) : takenOut q pc = none := by
  cases pc with
  | casTail => exact hp.elim
  | _ => rfl

/-- The values in line behind an access of the producer. -/
theorem producer_line (h : Sound q threads order free after) (hp : Pushes (threads .producer)) :
    contents (advance q (threads .producer)).1
          (Function.update threads .producer (advance q (threads .producer)).2)
          (nextOrder q order (threads .producer)) ++
        (offered (advance q (threads .producer)).1 (advance q (threads .producer)).2).toList =
      contents q threads order ++ (offered q (threads .producer)).toList := by
  have hvalues := h.contents_advance .producer
  rw [takenOut_of_pushes hp, Option.toList_none, List.nil_append] at hvalues
  rw [← hvalues, offered_advance q (threads .producer), List.append_assoc]

end Producer

section Consumer

variable {q : Queue α} {threads : Side → Pc α} {order free : List Ptr}
  {after : Ptr → Option Ptr}

/-- The consumer stays inside `pop`. -/
theorem pops_advance {pc : Pc α} (hp : Pops pc) : Pops (advance q pc).2 := by
  cases pc with
  | loadTail =>
    simp only [advance]
    cases q.tail <;> trivial
  | casTail t n | delCas t n r =>
    simp only [advance]
    split <;> trivial
  | exchangeValue t n =>
    simp only [advance]
    split
    · trivial
    · cases n <;> trivial
  | moveData t n => cases n <;> trivial
  | idle | loadTailNext | restoreTail | delLoad | delStore | finished => trivial
  | _ => exact hp.elim

/-- The consumer adds to the free list, and leaves the successors in it. -/
theorem fresh_consumer (h : Sound q threads order free after) (hp : Pops (threads .consumer))
    {pc : Pc α} (hf : Fresh q free pc) :
    Fresh (advance q (threads .consumer)).1 (nextFree q free (threads .consumer)) pc := by
  have hmem (p : Ptr) (hm : p ∈ free) : p ∈ nextFree q free (threads .consumer) ∧
      (advance q (threads .consumer)).1.next p = q.next p := by
    cases hpc : threads .consumer with
    | casTail t n =>
      simp only [advance]
      split <;> exact ⟨hm, rfl⟩
    | delCas t n r =>
      simp only [advance, nextFree]
      split
      · exact ⟨List.mem_cons_of_mem _ hm, rfl⟩
      · exact ⟨hm, rfl⟩
    | exchangeValue t n =>
      exact ⟨hm, congrFun (Queue.next_set_of_next q t { q.entries t with hasValue := false } rfl) p⟩
    | moveData t n =>
      exact ⟨hm, congrFun (Queue.next_set_of_next q t { q.entries t with data := none } rfl) p⟩
    | delStore t n r =>
      have hpt : p ≠ t := by
        rintro rfl
        exact (h.not_mem_of_held (i := .consumer) (by rw [hpc]; rfl)).2 hm
      exact ⟨hm, by simp [advance, hpt]⟩
    | idle | loadTail | loadTailNext | restoreTail | delLoad | finished => exact ⟨hm, rfl⟩
    | _ =>
      rw [hpc] at hp
      exact hp.elim
  cases pc with
  | loadNext v entry => exact (hmem entry hf).1
  | casFree v entry next => exact ⟨(hmem entry hf.1).1, (hmem entry hf.1).2.trans hf.2⟩
  | _ => trivial

/-- What the consumer reads of `tail_` is so. -/
theorem current_advance {pc : Pc α} (hc : Current q pc) (hp : Pops pc) :
    Current (advance q pc).1 (advance q pc).2 := by
  cases pc with
  | loadTail =>
    simp only [advance]
    cases hq : q.tail with
    | none => trivial
    | some t => exact hq
  | loadTailNext t => exact ⟨hc, fun n hn ↦ hn⟩
  | casTail t n | delCas t n r =>
    simp only [advance]
    split <;> trivial
  | exchangeValue t n =>
    simp only [advance]
    split
    · trivial
    · cases n <;> trivial
  | moveData t n => cases n <;> trivial
  | idle | restoreTail | delLoad | delStore | finished => trivial
  | _ => exact hp.elim

private theorem putIn_of_pops {pc : Pc α} (hp : Pops pc) : putIn q pc = none := by
  cases pc with
  | exchangeHead => exact hp.elim
  | _ => rfl

/-- The values in line before an access of the consumer. -/
theorem consumer_line (h : Sound q threads order free after) (hp : Pops (threads .consumer)) :
    (inHand (advance q (threads .consumer)).1 (advance q (threads .consumer)).2).toList ++
        contents (advance q (threads .consumer)).1
          (Function.update threads .consumer (advance q (threads .consumer)).2)
          (nextOrder q order (threads .consumer)) =
      (inHand q (threads .consumer)).toList ++ contents q threads order := by
  have hvalues := h.contents_advance .consumer
  rw [putIn_of_pops hp, Option.toList_none, List.append_nil] at hvalues
  rw [hvalues, ← h.inHand_advance, List.append_assoc]

private theorem FrontFull.congr {q' : Queue α} (h : FrontFull q) (ht : q'.tail = q.tail)
    (hd : ∀ p, (q'.entries p).data = (q.entries p).data) : FrontFull q' := by
  obtain ⟨t, hq, hfull⟩ := h
  exact ⟨t, ht.trans hq, by rwa [hd t]⟩

/-- A `pop` that is going to return a value goes on to do so. -/
theorem full_advance (h : Sound q threads order free after) (hp : Pops (threads .consumer))
    (hf : Full q (threads .consumer)) :
    Full (advance q (threads .consumer)).1 (advance q (threads .consumer)).2 := by
  cases hpc : threads .consumer with
  | loadTail =>
    rw [hpc] at hf
    obtain ⟨t, ht, hd⟩ := hf
    simp only [advance, ht]
    exact ⟨ht, hd⟩
  | casTail t n =>
    rw [hpc] at hf
    simp only [advance, if_pos hf.1]
    exact hf.2
  | exchangeValue t n =>
    have hflag := h.settled (Pc.owns_of_popping (by rw [hpc]; rfl)) (by rw [hpc]; rfl)
    rw [hpc] at hf
    rw [Option.isSome_iff_ne_none.mpr hf] at hflag
    simp only [advance, hflag, if_pos]
    change ((q.set t _).entries t).data ≠ none
    rwa [Queue.set_entries_self]
  | moveData t n =>
    rw [hpc] at hf
    cases n <;> exact hf
  | delCas t n r =>
    rw [hpc] at hf
    simp only [advance]
    split <;> exact hf
  | idle | loadTailNext | restoreTail | delLoad | delStore | finished =>
    rw [hpc] at hf
    exact hf
  | _ =>
    rw [hpc] at hp
    exact hp.elim

private theorem frontFull_of_casTail (h : Sound q threads order free after)
    (hfull : ∀ p ∈ order.tail, (q.entries p).data ≠ none) {t n : Ptr} (ht : q.tail = some t)
    (hn : q.next t = some n) : FrontFull { q with tail := some n } := by
  have hmem := mem_of_tail h ht
  exact ⟨n, rfl, hfull n (h.chain.mem_tail_of_after hmem (h.chain.after_of_next hmem hn))⟩

/-- A `pop` that is due goes on to be so. -/
theorem due_advance (h : Sound q threads order free after) (hp : Pops (threads .consumer))
    (hc : Current q (threads .consumer)) (hfull : ∀ p ∈ order.tail, (q.entries p).data ≠ none)
    (hd : Due q (threads .consumer)) :
    Due (advance q (threads .consumer)).1 (advance q (threads .consumer)).2 := by
  cases hpc : threads .consumer with
  | loadTail =>
    rw [hpc] at hd
    obtain ⟨t, ht, hdue⟩ := hd
    simp only [advance, ht]
    exact ⟨ht, hdue⟩
  | casTail t n =>
    rw [hpc] at hc hd
    obtain ⟨ht, hdue⟩ := hd
    simp only [advance, if_pos ht]
    refine hdue.imp_right fun hn ↦ ⟨hn, ?_⟩
    obtain ⟨m, rfl⟩ := Option.ne_none_iff_exists'.mp hn
    exact frontFull_of_casTail h hfull ht (hc.2 m rfl)
  | exchangeValue t n =>
    have hflag := h.settled (Pc.owns_of_popping (by rw [hpc]; rfl)) (by rw [hpc]; rfl)
    rw [hpc] at hd
    simp only [advance]
    cases hv : (q.entries t).hasValue with
    | true =>
      rw [hv] at hflag
      rw [if_pos rfl]
      change ((q.set t _).entries t).data ≠ none
      rw [Queue.set_entries_self]
      exact Option.isSome_iff_ne_none.mp hflag.symm
    | false =>
      have hnone : (q.entries t).data = none := by
        rw [hv] at hflag
        simpa using hflag.symm
      obtain ⟨hn, hfront⟩ := hd.resolve_left fun hne ↦ hne hnone
      rw [if_neg Bool.false_ne_true]
      obtain ⟨m, rfl⟩ := Option.ne_none_iff_exists'.mp hn
      refine .inr (hfront.congr rfl fun p ↦ ?_)
      by_cases hpt : p = t
      · rw [hpt, Queue.set_entries_self]
      · rw [Queue.set_entries_ne _ _ hpt]
  | moveData t n =>
    rw [hpc] at hd
    cases n with
    | none => exact hd
    | some m => exact .inl hd
  | restoreTail t r =>
    rw [hpc] at hd
    exact .inl hd
  | delStore t n r =>
    rw [hpc] at hd
    refine hd.imp_right fun hf ↦ hf.congr rfl fun p ↦ ?_
    by_cases hpt : p = t
    · simp [advance, Queue.setNext, hpt]
    · simp [advance, Queue.setNext, hpt]
  | delCas t n r =>
    rw [hpc] at hd
    simp only [advance]
    split
    · exact hd.imp_right fun hf ↦ hf.congr rfl fun _ ↦ rfl
    · exact hd
  | idle | loadTailNext | delLoad | finished =>
    rw [hpc] at hd
    exact hd
  | _ =>
    rw [hpc] at hp
    exact hp.elim

end Consumer

namespace Passing

variable {s : State α} {order free : List Ptr} {after : Ptr → Option Ptr}

/-- A step of the producer. -/
theorem producer (h : Passing s order free after) :
    ∃ order' free' after', Passing (s.access .producer) order' free' after' := by
  have hok : AccessOk s.queue (s.threads .producer) := by
    have hf := h.fresh
    have hp := h.pushes
    cases hpc : s.threads .producer with
    | casFree v entry next =>
      rw [hpc] at hf
      exact fun _ ↦ hf.2
    | casTail t n =>
      rw [hpc] at hp
      exact hp.elim
    | _ => trivial
  obtain ⟨after', hs⟩ := h.sound.step hok
  have hunt := producer_untouched h.sound h.pushes
  have htaken (t : Ptr) (ht : (s.threads .consumer).popping = some t) :
      Known order (s.threads .consumer) t := .inr (Pc.owns_of_popping ht)
  obtain ⟨hcur, hfull, hdue⟩ := hunt.promises (fun t ht ↦ .inl (mem_of_tail h.sound ht)) htaken
  refine ⟨_, _, after', hs, pushes_advance h.pushes, h.pops, fresh_advance h.sound h.fresh,
    hcur h.current, h.filled.step h.sound .producer, ?_, fun hd ↦ hdue (h.due hd),
    fun hm ↦ hfull (h.primed hm), h.attentive⟩
  have hhand := h.sound.inHand_other (i := .producer) (j := .consumer) nofun
  refine h.line.trans (congrArg (s.delivered ++ ·) ?_)
  rw [List.append_assoc, ← producer_line h.sound h.pushes, ← hhand, ← List.append_assoc]
  rfl

/-- A step of the consumer. -/
theorem consumer (h : Passing s order free after) :
    ∃ order' free' after', Passing (s.access .consumer) order' free' after' := by
  have hok : AccessOk s.queue (s.threads .consumer) := by
    have hc := h.current
    have hp := h.pops
    cases hpc : s.threads .consumer with
    | casTail t n =>
      rw [hpc] at hc
      cases n with
      | none => trivial
      | some m => exact fun _ ↦ hc.2 m rfl
    | casFree v entry next =>
      rw [hpc] at hp
      exact hp.elim
    | _ => trivial
  obtain ⟨after', hs⟩ := h.sound.step hok
  refine ⟨_, _, after', hs, h.pushes, pops_advance h.pops, fresh_consumer h.sound h.pops h.fresh,
    current_advance h.current h.pops, h.filled.step h.sound .consumer, ?_,
    fun hd ↦ due_advance h.sound h.pops h.current h.filled.behind (h.due hd),
    fun hm ↦ full_advance h.sound h.pops (h.primed hm), h.attentive⟩
  have hoffered := h.sound.offered_other (i := .consumer) (j := .producer) nofun
  refine h.line.trans (congrArg (s.delivered ++ ·) ?_)
  rw [← consumer_line h.sound h.pops, ← hoffered]
  rfl

/-- The producer calls `push`. -/
theorem push {v : α} (h : Passing s order free after) (hi : s.threads .producer = .idle) :
    Passing ({ s with pushed := s.pushed ++ [v] }.setThread .producer (.loadFree v))
      order free after := by
  have hseized : (Pc.loadFree v).seized = (s.threads .producer).seized := by rw [hi]; rfl
  have hcontents := contents_update s.queue hseized order
  refine ⟨h.sound.quiet ?_, trivial, h.pops, trivial, h.current, h.filled.quiet nofun, ?_, h.due,
    h.primed, h.attentive⟩
  · rw [hi]
    exact ⟨rfl, rfl, rfl, .inl rfl, rfl, rfl⟩
  · have hline := h.line
    rw [hi, ← hcontents] at hline
    refine (congrArg (· ++ [v]) hline).trans ?_
    have hnone : (offered s.queue (.idle : Pc α)).toList = [] := rfl
    rw [List.append_assoc, hnone, List.append_nil]
    rfl

private theorem idle_of_both {threads : Side → Pc α} (hi : threads .producer = .idle)
    (hj : threads .consumer = .idle) (side : Side) : threads side = .idle := by
  cases side
  · exact hi
  · exact hj

/-- Between calls the chain from `tail_` holds the undelivered values. -/
theorem at_rest (h : Passing s order free after) (hi : s.threads .producer = .idle)
    (hj : s.threads .consumer = .idle) : Linked s.queue.next s.queue.tail order ∧
      s.pushed = s.delivered ++ order.filterMap fun p ↦ (s.queue.entries p).data := by
  obtain ⟨hlinked, hcontents⟩ := h.sound.contents_at_rest (idle_of_both hi hj)
  refine ⟨hlinked, ?_⟩
  have hline := h.line
  rw [hi, hj, hcontents] at hline
  exact hline.trans (congrArg (s.delivered ++ ·) (List.append_nil _))

/-- Between calls a chain with undelivered values has one at its first entry, or a successor. -/
theorem due_of_undelivered (h : Passing s order free after)
    (hi : s.threads .producer = .idle) (hj : s.threads .consumer = .idle)
    (hlt : s.delivered.length < s.pushed.length) : Due s.queue (.loadTail : Pc α) := by
  obtain ⟨hlinked, hline⟩ := h.at_rest hi hj
  have hnil : (order.filterMap fun p ↦ (s.queue.entries p).data) ≠ [] := by
    intro hnil
    rw [hline, hnil, List.append_nil] at hlt
    exact Nat.lt_irrefl _ hlt
  cases order with
  | nil => exact absurd rfl hnil
  | cons t rest =>
    refine ⟨t, hlinked.1, ?_⟩
    cases hd : (s.queue.entries t).data with
    | some v => exact .inl (Option.some_ne_none v)
    | none =>
      refine .inr fun hn ↦ ?_
      cases rest with
      | nil => exact hnil (List.filterMap_cons_none hd)
      | cons r rest =>
        have hnext : s.queue.next t = some r := hlinked.2.1
        rw [hn] at hnext
        cases hnext

/-- The consumer calls `pop`. -/
theorem pop {due : Bool} (h : Passing s order free after) (hj : s.threads .consumer = .idle)
    (hdue : due = true → s.threads .producer = .idle ∧ s.delivered.length < s.pushed.length) :
    Passing ({ s with due := due }.setThread .consumer .loadTail) order free after := by
  have hseized : (Pc.loadTail : Pc α).seized = (s.threads .consumer).seized := by rw [hj]; rfl
  have hcontents := contents_update s.queue hseized order
  refine ⟨h.sound.quiet ?_, h.pushes, trivial, h.fresh, trivial, h.filled.quiet nofun, ?_,
    fun hd ↦ ?_, fun hm ↦ ?_, h.attentive⟩
  · rw [hj]
    exact ⟨rfl, rfl, rfl, .inl rfl, rfl, rfl⟩
  · have hline := h.line
    rw [hj, ← hcontents] at hline
    exact hline
  · obtain ⟨hi, hlt⟩ := hdue hd
    exact h.due_of_undelivered hi hj hlt
  · have hfull := h.primed hm
    rw [hj] at hfull
    exact hfull

/-- The consumer returns from `pop`. -/
theorem ret {r : Option α} (h : Passing s order free after)
    (hj : s.threads .consumer = .finished r) :
    Passing ({ s with popped := s.popped ++ [Popped.mk s.due r] }.setThread .consumer .idle)
      order free after := by
  have hdue := h.due
  have hprimed := h.primed
  have hline := h.line
  have hseized : (Pc.idle : Pc α).seized = (s.threads .consumer).seized := by rw [hj]; rfl
  have hcontents := contents_update s.queue hseized order
  rw [hj] at hdue hprimed hline
  refine ⟨h.sound.quiet ?_, h.pushes, trivial, h.fresh, trivial, h.filled.quiet nofun, ?_,
    fun _ ↦ trivial, fun hm ↦ ?_, ?_⟩
  · rw [hj]
    exact ⟨rfl, rfl, rfl, .inl rfl, rfl, rfl⟩
  · refine hline.trans ?_
    rw [← hcontents]
    cases r <;> simp [State.delivered, State.setThread, inHand, List.reduceOption_append]
  · have hlast : (s.popped ++ [Popped.mk s.due r]).getLast? = some ⟨true, none⟩ := hm
    rw [List.getLast?_concat] at hlast
    obtain ⟨hd, hr⟩ := Popped.mk.inj (Option.some.inj hlast)
    exact (hdue hd).resolve_left fun hne ↦ hne hr
  · intro before p r' rest he hp
    rcases List.eq_nil_or_concat rest with rfl | ⟨rest, last, rfl⟩
    · -- the last two pops: if the first one missed, it left the front entry full
      rw [List.append_cons before] at he
      obtain ⟨hbefore, hlast⟩ := List.append_inj' he rfl
      cases hlast
      by_cases hret : p.ret = none
      · refine .inr (hprimed ?_)
        have hmissed : p = ⟨true, none⟩ := by rw [← hp, ← hret]
        rw [Missed, hbefore, List.getLast?_concat, hmissed]
      · exact .inl hret
    · refine h.attentive before p r' rest ?_ hp
      rw [List.concat_eq_append, ← List.cons_append, ← List.cons_append, ← List.append_assoc] at he
      exact (List.append_inj' he rfl).1

/-- Between calls the values of the chain from `tail_` are the undelivered ones. -/
theorem chain (h : Passing s order free after) (hi : s.threads .producer = .idle)
    (hj : s.threads .consumer = .idle) :
    Linked s.queue.next s.queue.tail order ∧
      s.pushed = s.delivered ++ order.filterMap s.queue.value := by
  obtain ⟨hlinked, hline⟩ := h.at_rest hi hj
  have hvalue (p : Ptr) : s.queue.value p = (s.queue.entries p).data := by
    have hflag := h.sound.slots.settled p fun side ↦ by
      rw [Function.comp_apply, idle_of_both hi hj side]
      exact fun he ↦ by cases he
    unfold Queue.value Entry.value
    cases hd : (s.queue.entries p).data <;> simp [hflag, hd]
  exact ⟨hlinked, hline.trans (by rw [List.filterMap_congr fun p _ ↦ hvalue p])⟩

/-- A new queue. -/
theorem init (capacity : Nat) : ∃ order free after,
    Passing (system α capacity).init order free after := by
  obtain ⟨free, hs⟩ := Sound.ofCapacity (ι := Side) (α := α) capacity
  refine ⟨[], free, _, hs, trivial, trivial, trivial, trivial, ⟨nofun, nofun⟩, rfl,
    fun hd ↦ ?_, fun hm ↦ ?_, fun before p r after he ↦ ?_⟩
  · cases hd
  · cases hm
  · cases before <;> cases he

/-- Every step. -/
theorem step {a : Act α} {s' : State α} (h : Passing s order free after)
    (hn : next s a = some s') : ∃ order' free' after', Passing s' order' free' after' := by
  cases a with
  | push v =>
    simp only [next] at hn
    split at hn
    · next hi =>
      cases hn
      exact ⟨_, _, _, h.push hi⟩
    · cases hn
  | pop =>
    simp only [next] at hn
    split at hn
    · next hj =>
      cases hn
      refine ⟨_, _, _, h.pop hj fun hd ↦ ?_⟩
      obtain ⟨hi, hlt⟩ := Bool.and_eq_true_iff.mp hd
      exact ⟨eq_idle hi, of_decide_eq_true hlt⟩
    · cases hn
  | access side =>
    cases hn
    cases side
    · exact h.producer
    · exact h.consumer
  | ret =>
    simp only [next] at hn
    split at hn
    · next r hj =>
      cases hn
      exact ⟨_, _, _, h.ret hj⟩
    · cases hn

end Passing

/-! ### Runs -/

/-- What has been delivered is a prefix of what was pushed. Between calls the chain from `tail_`
holds the rest, in order. Two pops in a row do not both miss a value. -/
structure InOrder (s : State α) : Prop where
  delivered : s.delivered <+: s.pushed
  chain : s.threads .producer = .idle → s.threads .consumer = .idle →
    ∃ order, Linked s.queue.next s.queue.tail order ∧
      s.pushed = s.delivered ++ order.filterMap s.queue.value
  attentive : Attentive s.popped

/-- With one producer and one consumer the queue keeps the order of the values and loses none,
however their accesses interleave. -/
theorem single_producer_in_order (capacity : Nat) {s : State α}
    (hr : (system α capacity).Reachable s) : InOrder s := by
  obtain ⟨order, free, after, h⟩ :=
    hr.invariant (I := fun s ↦ ∃ order free after, Passing s order free after)
      (Passing.init capacity) fun _ _ _ ⟨_, _, _, h⟩ hn ↦ h.step hn
  exact ⟨⟨_, h.line.symm⟩, fun hi hj ↦ ⟨order, h.chain hi hj⟩, h.attentive⟩

/-- A whole `push` while the free list has entries. -/
def pushAll (v : Nat) : List (Act Nat) := .push v :: List.replicate 9 (.access .producer)

/-- A whole `pop`. -/
def popAll : List (Act Nat) := .pop :: List.replicate 8 (.access .consumer) ++ [.ret]

/-- The second `pop` finds the entry that the first one has emptied and put back, and frees it;
the third returns the value behind it. -/
theorem single_producer_in_order_missed :
    ∃ s, (system Nat 2).Reachable s ∧
      s.popped = [⟨true, some 10⟩, ⟨true, none⟩, ⟨true, some 11⟩] ∧ InOrder s := by
  have hrun : ∃ s, (system Nat 2).Reachable s ∧
      s.popped = [⟨true, some 10⟩, ⟨true, none⟩, ⟨true, some 11⟩] :=
    System.exists_reachable (pushAll 10 ++ popAll ++ pushAll 11 ++ popAll ++ popAll)
      (by decide +kernel)
  obtain ⟨s, hr, hp⟩ := hrun
  exact ⟨s, hr, hp, single_producer_in_order 2 hr⟩

end Crasy.LfQueue.SingleProducer
