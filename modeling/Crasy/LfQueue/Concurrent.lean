import Crasy.Base.Deferred
import Crasy.Base.Ledger
import Crasy.LfQueue.Ends
import Crasy.LfQueue.Threads

/-!
# The invariant of a shared queue

Library `LfQueue`. The invariant of the machine in `Crasy.LfQueue.Threads`. The order of
the queue and the free list share the entries with the threads in flight; the link to a
new head is owed by the thread that made it the head; an entry that `pop` took without a
successor stays the first of the order.
-/

namespace Crasy.LfQueue.Concurrent

open Crasy.Base

variable {ι α : Type}

/-! ### What a thread knows -/

/-- The entry that a thread has for itself outside the queue and the free list. -/
def Pc.held : Pc α → Option Ptr
  | .clearNext _ entry | .loadValue _ entry | .construct _ entry | .setValue entry
  | .exchangeHead entry | .exchangeValue entry (some _) | .moveData entry (some _)
  | .delLoad entry _ | .delStore entry _ _ | .delCas entry _ _ => some entry
  | _ => none

/-- The successor that a thread has stored in its own entry. -/
def Pc.ownNext : Pc α → Option (Ptr × Option Ptr)
  | .loadValue _ entry | .construct _ entry | .setValue entry | .exchangeHead entry =>
    some (entry, none)
  | .delCas entry next _ => some (entry, next)
  | _ => none

/-- The entry whose object and flag disagree for the moment. -/
def Pc.midway : Pc α → Option Ptr
  | .setValue entry | .moveData entry _ => some entry
  | _ => none

/-- The entry that has no object. -/
def Pc.clean : Pc α → Option Ptr
  | .clearNext _ entry | .loadValue _ entry | .construct _ entry | .restoreTail entry _
  | .delLoad entry _ | .delStore entry _ _ | .delCas entry _ _ => some entry
  | _ => none

/-- What a thread knows at `pc'` is what it knows at `pc`, but it may forget the successor
of its entry. -/
structure Pc.Keeps (pc' pc : Pc α) : Prop where
  held : pc'.held = pc.held
  pending : pc'.pending = pc.pending
  linking : pc'.linking = pc.linking
  ownNext : pc'.ownNext = none ∨ pc'.ownNext = pc.ownNext
  midway : pc'.midway = pc.midway
  clean : pc'.clean = pc.clean

/-- From `pc` to `pc'` the thread finishes `take_data` on its entry. -/
structure Pc.Taken (pc pc' : Pc α) (p : Ptr) : Prop where
  held : pc'.held = pc.held
  pending : pc'.pending = pc.pending
  linking : pc'.linking = pc.linking
  ownNext : pc'.ownNext = none
  midway : pc'.midway = none
  clean : pc'.clean = some p

private theorem newEntryRound_keeps {pc : Pc α} (v : α) (f : Option Ptr) (h : Pc.idle.Keeps pc) :
    (newEntryRound v f).Keeps pc := by
  cases f <;> exact ⟨h.held, h.pending, h.linking, h.ownNext, h.midway, h.clean⟩

/-- The entry belongs to the thread, outside the lists or at the front of the queue. -/
def Pc.Owns (pc : Pc α) (p : Ptr) : Prop := pc.held = some p ∨ pc.pending = some p

theorem Pc.owns_of_midway {pc : Pc α} {p : Ptr} (h : pc.midway = some p) : pc.Owns p := by
  cases pc with
  | setValue entry => exact .inl h
  | moveData entry next =>
    cases next with
    | none => exact .inr h
    | some n => exact .inl h
  | _ => cases h

private theorem Pc.owns_of_clean {pc : Pc α} {p : Ptr} (h : pc.clean = some p) : pc.Owns p := by
  cases pc with
  | restoreTail => exact .inr h
  | clearNext | loadValue | construct | delLoad | delStore | delCas => exact .inl h
  | _ => cases h

private theorem Pc.held_of_ownNext {pc : Pc α} {p : Ptr} {n : Option Ptr}
    (h : pc.ownNext = some (p, n)) : pc.held = some p := by
  cases pc with
  | loadValue | construct | setValue | exchangeHead | delCas =>
    cases h
    rfl
  | _ => cases h

/-! ### The invariant -/

/-- The queue and its threads with the order of the queue, the free list, and the intended
successors. -/
structure Sound (q : Queue α) (threads : ι → Pc α) (order free : List Ptr)
    (after : Ptr → Option Ptr) : Prop where
  ledger : Ledger (· < q.allocated) (Pc.held ∘ threads) (order ++ free)
  chain : Deferred q.next after (Pc.linking ∘ threads) order
  ends : Ends q.head q.tail (Pc.pending ∘ threads) order
  free_linked : Linked q.next q.free free
  own_next : ∀ i p n, (threads i).ownNext = some (p, n) → q.next p = n
  slots : Slots q.entries (Pc.midway ∘ threads) (Pc.clean ∘ threads) free

/-- The order of the queue after an access of a thread. -/
def nextOrder (q : Queue α) (order : List Ptr) : Pc α → List Ptr
  | .exchangeHead entry => order ++ [entry]
  | .casTail tail (some _) => if q.tail = some tail then order.tail else order
  | _ => order

/-- The free list after an access of a thread. -/
def nextFree (q : Queue α) (free : List Ptr) : Pc α → List Ptr
  | .casFree _ entry _ => if q.free = some entry then free.tail else free
  | .delCas entry next _ => if q.free = next then entry :: free else free
  | _ => free

namespace Sound

variable {q : Queue α} {threads : ι → Pc α} {order free : List Ptr}
  {after : Ptr → Option Ptr} {i j : ι} {p : Ptr}

theorem nodup_order (h : Sound q threads order free after) : order.Nodup :=
  (List.nodup_append.mp h.ledger.nodup).1

theorem disjoint (h : Sound q threads order free after) (hp : p ∈ order) : p ∉ free :=
  fun hf ↦ (List.nodup_append.mp h.ledger.nodup).2.2 p hp p hf rfl

theorem not_mem_of_held (h : Sound q threads order free after)
    (hp : (threads i).held = some p) : p ∉ order ∧ p ∉ free := by
  have := h.ledger.apart i p hp
  rw [List.mem_append, not_or] at this
  exact this

theorem mem_of_pending (h : Sound q threads order free after)
    (hp : (threads i).pending = some p) : p ∈ order :=
  List.mem_of_mem_head? (h.ends.pending_first i p hp).1

/-- An entry belongs to one thread only, and is not free. -/
theorem owns_unique (h : Sound q threads order free after) (hi : (threads i).Owns p)
    (hj : (threads j).Owns p) : i = j := by
  rcases hi with hi | hi <;> rcases hj with hj | hj
  · exact h.ledger.unique i j p hi hj
  · exact absurd (h.mem_of_pending hj) (h.not_mem_of_held hi).1
  · exact absurd (h.mem_of_pending hi) (h.not_mem_of_held hj).1
  · exact h.ends.unique i j p p hi hj

theorem not_free_of_owns (h : Sound q threads order free after) (hi : (threads i).Owns p) :
    p ∉ free := by
  rcases hi with hi | hi
  · exact (h.not_mem_of_held hi).2
  · exact h.disjoint (h.mem_of_pending hi)

theorem owns_allocated (h : Sound q threads order free after) (hi : (threads i).Owns p) :
    p < q.allocated := by
  rw [h.ledger.total p]
  rcases hi with hi | hi
  · exact .inr ⟨i, hi⟩
  · exact .inl (List.mem_append_left _ (h.mem_of_pending hi))

theorem order_allocated (h : Sound q threads order free after) (hp : p ∈ order) :
    p < q.allocated := (h.ledger.total p).mpr (.inl (List.mem_append_left _ hp))

private theorem unknown (h : Sound q threads order free after) (hi : (threads i).Owns p)
    (hj : j ≠ i) : (threads j).midway ≠ some p ∧ (threads j).clean ≠ some p :=
  ⟨fun hm ↦ hj (h.owns_unique (Pc.owns_of_midway hm) hi),
    fun hc ↦ hj (h.owns_unique (Pc.owns_of_clean hc) hi)⟩

/-- Outside `put_data` and `take_data` the flag of an owned entry tells the truth. -/
theorem settled (h : Sound q threads order free after) (hown : (threads i).Owns p)
    (hmid : (threads i).midway = none) :
    (q.entries p).hasValue = (q.entries p).data.isSome := by
  apply h.slots.settled p
  intro j hj
  have hji : j = i := h.owns_unique (Pc.owns_of_midway hj) hown
  subst hji
  simp [hmid] at hj

variable [DecidableEq ι] {pc : Pc α}

private theorem comp_same {β : Type*} (g : Pc α → β) (hg : g pc = g (threads i)) :
    g ∘ Function.update threads i pc = g ∘ threads := by
  rw [Function.comp_update, hg]
  exact Function.update_eq_self ..

private theorem own_next_update {next next' : Ptr → Option Ptr}
    (h : ∀ j r n, (threads j).ownNext = some (r, n) → next r = n)
    (hn : ∀ j r n, (threads j).ownNext = some (r, n) → j ≠ i → next' r = next r)
    (hpc : ∀ r n, pc.ownNext = some (r, n) → next' r = n) (j : ι) (r : Ptr) (n : Option Ptr)
    (hj : (Function.update threads i pc j).ownNext = some (r, n)) : next' r = n := by
  by_cases hji : j = i
  · subst hji
    rw [Function.update_self] at hj
    exact hpc r n hj
  · rw [Function.update_of_ne hji] at hj
    rw [hn j r n hj hji, h j r n hj]

/-- A step that leaves the queue alone and what the thread knows of its entries. -/
theorem quiet (h : Sound q threads order free after) (hpc : pc.Keeps (threads i)) :
    Sound q (Function.update threads i pc) order free after where
  ledger := by rw [comp_same Pc.held hpc.held]; exact h.ledger
  chain := by rw [comp_same Pc.linking hpc.linking]; exact h.chain
  ends := by rw [comp_same Pc.pending hpc.pending]; exact h.ends
  free_linked := h.free_linked
  own_next := own_next_update h.own_next (fun _ _ _ _ _ ↦ rfl) fun r n hr ↦ by
    rcases hpc.ownNext with hno | hsame
    · rw [hno] at hr
      cases hr
    · exact h.own_next i r n (hsame ▸ hr)
  slots := by rw [comp_same Pc.midway hpc.midway, comp_same Pc.clean hpc.clean]; exact h.slots

private theorem set_entry {e : Entry α} (h : Sound q threads order free after)
    (hown : (threads i).Owns p)
    (hheld : pc.held = (threads i).held) (hlink : pc.linking = (threads i).linking)
    (hpend : pc.pending = (threads i).pending)
    (hnext : (threads i).held = some p ∨ e.next = q.next p)
    (hafter : ∀ r n, pc.ownNext = some (r, n) → r = p ∧ e.next = n)
    (hmid0 : ∀ r, (threads i).midway = some r → r = p)
    (hmid : pc.midway = none ∧ e.hasValue = e.data.isSome ∨
      pc.midway = some p ∧ e.hasValue = false ∧ e.data ≠ none)
    (hclean : ∀ r, pc.clean = some r → r = p ∧ e.data = none) :
    Sound (q.set p e) (Function.update threads i pc) order free after := by
  have hfree := h.not_free_of_owns hown
  have horder : Deferred (q.set p e).next after (Pc.linking ∘ threads) order := by
    rcases hnext with hi | hn
    · rw [Queue.next_set]
      exact h.chain.update (h.not_mem_of_held hi).1
    · rw [Queue.next_set_of_next q p e hn]
      exact h.chain
  constructor
  · rw [comp_same Pc.held hheld]
    exact h.ledger
  · rw [comp_same Pc.linking hlink]
    exact horder
  · rw [comp_same Pc.pending hpend]
    exact h.ends
  · rw [Queue.next_set]
    exact h.free_linked.update hfree
  · refine own_next_update h.own_next (fun j r n hj hji ↦ ?_) fun r n hr ↦ ?_
    · rw [Queue.next_set, Function.update_of_ne]
      rintro rfl
      exact hji (h.owns_unique (.inl (Pc.held_of_ownNext hj)) hown)
    · obtain ⟨rfl, he⟩ := hafter r n hr
      rw [Queue.next_set, Function.update_self, he]
  · rw [Function.comp_update, Function.comp_update]
    exact h.slots.set (fun j hji ↦ h.unknown hown hji) hfree hmid0 hmid hclean

/-- A thread stores the successor of its own entry outside the queue. -/
theorem set_next {n : Option Ptr} (h : Sound q threads order free after)
    (hheld : (threads i).held = some p) (hpend : (threads i).pending = none)
    (hlink : (threads i).linking = none) (hmid : (threads i).midway = none)
    (hclean : (threads i).clean = some p)
    (hpc : pc.held = some p ∧ pc.pending = none ∧ pc.linking = none ∧
      pc.ownNext = some (p, n) ∧ pc.midway = none ∧ pc.clean = some p) :
    Sound (q.setNext p n) (Function.update threads i pc) order free after := by
  obtain ⟨hheld', hpend', hlink', hnext', hmid', hclean'⟩ := hpc
  refine h.set_entry (.inl hheld) (hheld'.trans hheld.symm) (hlink'.trans hlink.symm)
    (hpend'.trans hpend.symm) (.inl hheld) (fun r m hr ↦ ?_) (fun r hr ↦ ?_)
    (.inl ⟨hmid', h.settled (.inl hheld) hmid⟩) fun r hr ↦ ?_
  · rw [hnext'] at hr
    cases hr
    exact ⟨rfl, rfl⟩
  · rw [hmid] at hr
    cases hr
  · rw [hclean'] at hr
    cases hr
    exact ⟨rfl, h.slots.clean_data i p hclean⟩

/-- `put_data` constructs the object. -/
theorem construct {v : α} (h : Sound q threads order free after)
    (hi : threads i = .construct v p) :
    Sound (q.set p { q.entries p with data := some v }) (Function.update threads i (.setValue p))
      order free after := by
  have hheld : (threads i).held = some p := by rw [hi]; rfl
  have hflag := h.settled (.inl hheld) (by rw [hi]; rfl)
  rw [h.slots.clean_data i p (by simp [hi, Pc.clean])] at hflag
  refine h.set_entry (.inl hheld) hheld.symm (by rw [hi]; rfl) (by rw [hi]; rfl) (.inl hheld)
    (fun r n hr ↦ ?_) (fun r hr ↦ ?_) (.inr ⟨rfl, hflag, by simp⟩) fun r hr ↦ nomatch hr
  · cases hr
    exact ⟨rfl, h.own_next i p none (by rw [hi]; rfl)⟩
  · rw [hi] at hr
    cases hr

/-- `put_data` sets the flag. -/
theorem set_value (h : Sound q threads order free after) (hi : threads i = .setValue p) :
    Sound (q.set p { q.entries p with hasValue := true })
      (Function.update threads i (.exchangeHead p)) order free after := by
  have hheld : (threads i).held = some p := by rw [hi]; rfl
  have hdata := (h.slots.half i p (by simp [hi, Pc.midway])).2
  refine h.set_entry (.inl hheld) hheld.symm (by rw [hi]; rfl) (by rw [hi]; rfl) (.inl hheld)
    (fun r n hr ↦ ?_) (fun r hr ↦ ?_) (.inl ⟨rfl, ?_⟩) fun r hr ↦ nomatch hr
  · cases hr
    exact ⟨rfl, h.own_next i p none (by rw [hi]; rfl)⟩
  · rw [hi] at hr
    cases hr
    rfl
  · exact (Option.isSome_iff_ne_none.mpr hdata).symm

private theorem taken {e : Entry α} (h : Sound q threads order free after)
    (hown : (threads i).Owns p) (hpc : Pc.Taken (threads i) pc p)
    (hmid : ∀ r, (threads i).midway = some r → r = p) (hflag : e.hasValue = false)
    (hdata : e.data = none) (hnext : e.next = q.next p) :
    Sound (q.set p e) (Function.update threads i pc) order free after := by
  refine h.set_entry hown hpc.held hpc.linking hpc.pending (.inr hnext) (fun r m hr ↦ ?_) hmid
    (.inl ⟨hpc.midway, by rw [hflag, hdata]; rfl⟩) fun r hr ↦ ?_
  · rw [hpc.ownNext] at hr
    cases hr
  · rw [hpc.clean] at hr
    cases hr
    exact ⟨rfl, hdata⟩

/-- `take_data` exchanges the flag. -/
theorem exchange_value {n : Option Ptr} (h : Sound q threads order free after)
    (hi : threads i = .exchangeValue p n) :
    Sound (q.set p { q.entries p with hasValue := false })
      (Function.update threads i
        (if (q.entries p).hasValue then .moveData p n else afterTake p n none))
      order free after := by
  have hown : (threads i).Owns p := by
    rw [hi]
    cases n
    · exact .inr rfl
    · exact .inl rfl
  have hmid : (threads i).midway = none := by rw [hi]; rfl
  have hmid0 (r : Ptr) (hr : (threads i).midway = some r) : r = p := by
    rw [hmid] at hr
    cases hr
  have hflag := h.settled hown hmid
  cases hv : (q.entries p).hasValue with
  | true =>
    rw [hv] at hflag
    have hdata := Option.isSome_iff_ne_none.mp hflag.symm
    rw [if_pos rfl]
    refine h.set_entry hown ?_ ?_ ?_ (.inr rfl) (fun r m hr ↦ nomatch hr) hmid0
      (.inr ⟨rfl, rfl, hdata⟩) (fun r hr ↦ nomatch hr)
    all_goals
      rw [hi]
      cases n <;> rfl
  | false =>
    rw [hv] at hflag
    have hdata : (q.entries p).data = none := by simpa using hflag.symm
    rw [if_neg Bool.false_ne_true]
    exact h.taken hown (by rw [hi]; cases n <;> constructor <;> rfl) hmid0 rfl hdata rfl

/-- `take_data` moves the object out. -/
theorem move_data {n : Option Ptr} (h : Sound q threads order free after)
    (hi : threads i = .moveData p n) :
    Sound (q.set p { q.entries p with data := none })
      (Function.update threads i (afterTake p n (q.entries p).data)) order free after := by
  have hmid : (threads i).midway = some p := by rw [hi]; rfl
  have hown := Pc.owns_of_midway hmid
  have hmid0 (r : Ptr) (hr : (threads i).midway = some r) : r = p := by
    rw [hmid] at hr
    exact (Option.some.inj hr).symm
  exact h.taken hown (by rw [hi]; cases n <;> constructor <;> rfl) hmid0
    (h.slots.half i p hmid).1 rfl rfl

/-- `new entry_t`. -/
theorem alloc {v : α} (h : Sound q threads order free after) (hi : threads i = .alloc v) :
    Sound q.alloc (Function.update threads i (.loadValue v q.allocated)) order free after := by
  have hnew : ¬q.allocated < q.allocated := Nat.lt_irrefl _
  have hnot : q.allocated ∉ order ++ free := fun hm ↦ hnew ((h.ledger.total _).mpr (.inl hm))
  rw [List.mem_append, not_or] at hnot
  have hown (j : ι) : ¬(threads j).Owns q.allocated := fun hj ↦ hnew (h.owns_allocated hj)
  have hnext : q.alloc.next = Function.update q.next q.allocated none :=
    Queue.next_set q q.allocated Entry.new
  constructor
  · rw [Function.comp_update]
    refine (h.ledger.grow hnew fun r ↦ ?_).take (by simp [hi, Pc.held])
    exact Nat.lt_succ_iff_lt_or_eq.trans or_comm
  · rw [comp_same Pc.linking (by rw [hi]; rfl), hnext]
    exact h.chain.update hnot.1
  · rw [comp_same Pc.pending (by rw [hi]; rfl)]
    exact h.ends
  · rw [hnext]
    exact h.free_linked.update hnot.2
  · refine own_next_update h.own_next (fun j r n hj _ ↦ ?_) fun r n hr ↦ ?_
    · rw [hnext, Function.update_of_ne]
      rintro rfl
      exact hown j (.inl (Pc.held_of_ownNext hj))
    · cases hr
      rw [hnext, Function.update_self]
  · rw [Function.comp_update, Function.comp_update]
    refine h.slots.set (fun j _ ↦ ⟨fun hm ↦ ?_, fun hc ↦ ?_⟩) hnot.2 ?_ (.inl ⟨rfl, rfl⟩) ?_
    · exact hown j (Pc.owns_of_midway hm)
    · exact hown j (Pc.owns_of_clean hc)
    · intro r hr
      simp [hi, Pc.midway] at hr
    · intro r hr
      cases hr
      exact ⟨rfl, rfl⟩

/-- `new_entry` takes the first free entry and leaves its successor. -/
theorem take_free {v : α} (h : Sound q threads order free after)
    (hi : threads i = .casFree v p (q.next p)) (hf : q.free = some p) :
    Sound { q with free := q.next p } (Function.update threads i (.clearNext v p))
      order free.tail after := by
  obtain ⟨rest, rfl, hrest⟩ := (hf ▸ h.free_linked : Linked q.next (some p) free).exists_cons
  refine ⟨?_, ?_, ?_, hrest, ?_, ?_⟩
  · rw [Function.comp_update]
    exact (h.ledger.perm List.perm_middle).take (by simp [hi, Pc.held])
  · rw [comp_same Pc.linking (by rw [hi]; rfl)]
    exact h.chain
  · rw [comp_same Pc.pending (by rw [hi]; rfl)]
    exact h.ends
  · exact own_next_update h.own_next (fun _ _ _ _ _ ↦ rfl) fun r n hr ↦ nomatch hr
  · rw [comp_same Pc.midway (by rw [hi]; rfl), Function.comp_update]
    exact h.slots.take

/-- `del_entry` puts the entry before the free ones. -/
theorem give_free {ret : Option α} (h : Sound q threads order free after)
    (hi : threads i = .delCas p q.free ret) :
    Sound { q with free := some p } (Function.update threads i (.finished ret))
      order (p :: free) after := by
  refine ⟨?_, ?_, ?_, ⟨rfl, ?_⟩, ?_, ?_⟩
  · rw [Function.comp_update]
    refine (h.ledger.give (p := p) ?_).perm List.perm_middle.symm
    simp [hi, Pc.held]
  · rw [comp_same Pc.linking (by rw [hi]; rfl)]
    exact h.chain
  · rw [comp_same Pc.pending (by rw [hi]; rfl)]
    exact h.ends
  · change Linked q.next (q.next p) free
    rw [h.own_next i p q.free (by rw [hi]; rfl)]
    exact h.free_linked
  · exact own_next_update h.own_next (fun _ _ _ _ _ ↦ rfl) fun r n hr ↦ nomatch hr
  · rw [comp_same Pc.midway (by rw [hi]; rfl), Function.comp_update]
    exact h.slots.give (by simp [hi, Pc.clean])

/-- The first entry ever becomes the head. -/
theorem first_head (h : Sound q threads order free after)
    (hi : threads i = .exchangeHead p) (hq : q.head = none) :
    Sound { q with head := some p } (Function.update threads i (.storeTail p))
      [p] free (fun _ ↦ none) := by
  obtain ⟨rfl, hends⟩ := (hq ▸ h.ends :
    Ends none q.tail (Pc.pending ∘ threads) order).first (i := i) (e := p)
  have hlink (j : ι) : (threads j).linking = none := by
    cases hj : (threads j).linking with
    | none => rfl
    | some ab => exact absurd (h.chain.owed j ab.1 ab.2 hj).1 List.not_mem_nil
  refine ⟨?_, ?_, ?_, h.free_linked, ?_, ?_⟩
  · rw [Function.comp_update]
    exact h.ledger.give (by simp [hi, Pc.held])
  · rw [comp_same Pc.linking (by rw [hi]; rfl)]
    exact .single hlink (h.own_next i p none (by rw [hi]; rfl))
  · rw [Function.comp_update]
    exact hends
  · exact own_next_update h.own_next (fun _ _ _ _ _ ↦ rfl) fun r n hr ↦ nomatch hr
  · rw [comp_same Pc.midway (by rw [hi]; rfl), comp_same Pc.clean (by rw [hi]; rfl)]
    exact h.slots

/-- A further entry becomes the head; the link to it is deferred. -/
theorem next_head {a : Ptr} (h : Sound q threads order free after)
    (hi : threads i = .exchangeHead p) (hq : q.head = some a) :
    Sound { q with head := some p } (Function.update threads i (.storeNext a p))
      (order ++ [p]) free
      (Function.update (Function.update after p none) a (some p)) := by
  have hends : Ends (some a) q.tail (Pc.pending ∘ threads) order := hq ▸ h.ends
  obtain ⟨ps, rfl⟩ := List.getLast?_eq_some_iff.mp hends.head_last.symm
  have hheld : (threads i).held = some p := by rw [hi]; rfl
  have ha : a ∉ ps := fun hm ↦
    (List.nodup_append.mp h.nodup_order).2.2 a hm a List.mem_cons_self rfl
  have hchain := h.chain.snoc (i := i) ha (h.not_mem_of_held hheld).1
    (h.own_next i p none (by rw [hi]; rfl)) (by simp [hi, Pc.linking])
  refine ⟨?_, ?_, ?_, h.free_linked, ?_, ?_⟩
  · rw [Function.comp_update]
    apply (h.ledger.give hheld).perm
    rw [List.append_assoc (ps ++ [a])]
    exact List.perm_middle.symm
  · rw [Function.comp_update]
    exact hchain
  · rw [comp_same Pc.pending (by rw [hi]; rfl)]
    exact hends.snoc
  · exact own_next_update h.own_next (fun _ _ _ _ _ ↦ rfl) fun r n hr ↦ nomatch hr
  · rw [comp_same Pc.midway (by rw [hi]; rfl), comp_same Pc.clean (by rw [hi]; rfl)]
    exact h.slots

/-- A thread stores the entry it had to store to `tail_`. -/
theorem settle_tail (h : Sound q threads order free after)
    (hi : (threads i).pending = some p) (hpend : pc.pending = none)
    (hheld : pc.held = (threads i).held) (hlink : pc.linking = (threads i).linking)
    (hown : pc.ownNext = none) (hmid : pc.midway = (threads i).midway)
    (hclean : pc.clean = none) :
    Sound { q with tail := some p } (Function.update threads i pc) order free after := by
  refine ⟨?_, ?_, ?_, h.free_linked, ?_, ?_⟩
  · rw [comp_same Pc.held hheld]
    exact h.ledger
  · rw [comp_same Pc.linking hlink]
    exact h.chain
  · rw [Function.comp_update, hpend]
    exact h.ends.settle hi
  · exact own_next_update h.own_next (fun _ _ _ _ _ ↦ rfl) fun r n hr ↦ by
      simp [hown] at hr
  · rw [comp_same Pc.midway hmid, Function.comp_update, hclean]
    exact h.slots.forget

/-- A thread stores the link it had deferred. -/
theorem store_next {a : Ptr} (h : Sound q threads order free after)
    (hi : threads i = .storeNext a p) :
    Sound (q.setNext a (some p)) (Function.update threads i .idle) order free after := by
  have hlink : (Pc.linking ∘ threads) i = some (a, p) := by simp [hi, Pc.linking]
  have ha : a ∈ order := (h.chain.owed i a p hlink).1
  constructor
  · rw [comp_same Pc.held (by rw [hi]; rfl)]
    exact h.ledger
  · rw [Function.comp_update, Queue.next_setNext]
    exact h.chain.settle hlink
  · rw [comp_same Pc.pending (by rw [hi]; rfl)]
    exact h.ends
  · rw [Queue.next_setNext]
    exact h.free_linked.update (h.disjoint ha)
  · refine own_next_update h.own_next (fun j r n hj _ ↦ ?_) fun r n hr ↦ nomatch hr
    rw [Queue.next_setNext, Function.update_of_ne]
    rintro rfl
    exact (h.not_mem_of_held (Pc.held_of_ownNext hj)).1 ha
  · rw [comp_same Pc.midway (by rw [hi]; rfl), comp_same Pc.clean (by rw [hi]; rfl)]
    apply h.slots.congr
    intro r
    by_cases hr : r = a
    · subst hr
      rw [Queue.setNext, Queue.set_entries_self]
      exact ⟨rfl, rfl⟩
    · rw [Queue.setNext, Queue.set_entries_ne _ _ hr]
      exact ⟨rfl, rfl⟩

/-- `pop` takes the first entry and moves `tail_` to its successor. -/
theorem take_tail {t n : Ptr} (h : Sound q threads order free after)
    (hi : threads i = .casTail t (some n)) (ht : q.tail = some t) (hn : q.next t = some n) :
    Sound { q with tail := some n }
      (Function.update threads i (.exchangeValue t (some n))) order.tail free after := by
  have hends : Ends q.head (some t) (Pc.pending ∘ threads) order := ht ▸ h.ends
  obtain ⟨rest, rfl⟩ := hends.first_of_tail
  obtain ⟨hchain, hfirst⟩ := h.chain.tail hn
  refine ⟨?_, ?_, ?_, h.free_linked, ?_, ?_⟩
  · rw [Function.comp_update]
    exact Ledger.take h.ledger (by simp [hi, Pc.held])
  · rw [comp_same Pc.linking (by rw [hi]; rfl)]
    exact hchain
  · rw [comp_same Pc.pending (by rw [hi]; rfl)]
    exact hends.advance hfirst
  · exact own_next_update h.own_next (fun _ _ _ _ _ ↦ rfl) fun r n hr ↦ nomatch hr
  · rw [comp_same Pc.midway (by rw [hi]; rfl), comp_same Pc.clean (by rw [hi]; rfl)]
    exact h.slots

/-- `pop` takes the first entry without a successor; the entry stays in the order. -/
theorem seize_tail {t : Ptr} (h : Sound q threads order free after)
    (hi : threads i = .casTail t none) (ht : q.tail = some t) :
    Sound { q with tail := none } (Function.update threads i (.exchangeValue t none))
      order free after := by
  have hends : Ends q.head (some t) (Pc.pending ∘ threads) order := ht ▸ h.ends
  refine ⟨?_, ?_, ?_, h.free_linked, ?_, ?_⟩
  · rw [comp_same Pc.held (by rw [hi]; rfl)]
    exact h.ledger
  · rw [comp_same Pc.linking (by rw [hi]; rfl)]
    exact h.chain
  · rw [Function.comp_update]
    exact hends.seize
  · exact own_next_update h.own_next (fun _ _ _ _ _ ↦ rfl) fun r n hr ↦ nomatch hr
  · rw [comp_same Pc.midway (by rw [hi]; rfl), comp_same Pc.clean (by rw [hi]; rfl)]
    exact h.slots

/-- Every access that installs no stale successor keeps the invariant. -/
theorem step (h : Sound q threads order free after) (hok : AccessOk q (threads i)) :
    ∃ after', Sound (advance q (threads i)).1
      (Function.update threads i (advance q (threads i)).2)
      (nextOrder q order (threads i)) (nextFree q free (threads i)) after' := by
  cases hi : threads i with
  | idle | finished | loadNext | loadTailNext | delLoad =>
    refine ⟨after, h.quiet ?_⟩
    rw [hi]
    exact ⟨rfl, rfl, rfl, .inl rfl, rfl, rfl⟩
  | loadValue v entry =>
    refine ⟨after, h.quiet ?_⟩
    rw [hi]
    exact ⟨rfl, rfl, rfl, .inr rfl, rfl, rfl⟩
  | loadFree v =>
    refine ⟨after, h.quiet ?_⟩
    rw [hi]
    exact newEntryRound_keeps v q.free ⟨rfl, rfl, rfl, .inl rfl, rfl, rfl⟩
  | loadTail =>
    refine ⟨after, h.quiet ?_⟩
    rw [hi, advance]
    cases q.tail <;> exact ⟨rfl, rfl, rfl, .inl rfl, rfl, rfl⟩
  | alloc v => exact ⟨after, h.alloc hi⟩
  | casFree v entry next =>
    by_cases hf : q.free = some entry
    · rw [hi] at hok
      have hn := hok hf
      subst hn
      simp only [advance, nextFree, if_pos hf]
      exact ⟨after, h.take_free hi hf⟩
    · simp only [advance, nextFree, if_neg hf]
      refine ⟨after, h.quiet ?_⟩
      rw [hi]
      exact newEntryRound_keeps v q.free ⟨rfl, rfl, rfl, .inl rfl, rfl, rfl⟩
  | clearNext v entry =>
    refine ⟨after, h.set_next ?_ ?_ ?_ ?_ ?_ ⟨rfl, rfl, rfl, rfl, rfl, rfl⟩⟩ <;>
      rw [hi] <;> rfl
  | construct v entry => exact ⟨after, h.construct hi⟩
  | setValue entry => exact ⟨after, h.set_value hi⟩
  | exchangeHead entry =>
    cases hq : q.head with
    | none =>
      simp only [advance, hq]
      have hnil : order = [] :=
        List.getLast?_eq_none_iff.mp (hq ▸ h.ends.head_last).symm
      subst hnil
      exact ⟨_, h.first_head hi hq⟩
    | some head =>
      simp only [advance, hq]
      exact ⟨_, h.next_head hi hq⟩
  | storeTail entry =>
    refine ⟨after, h.settle_tail ?_ rfl ?_ ?_ rfl ?_ rfl⟩ <;> rw [hi] <;> rfl
  | storeNext head entry => exact ⟨after, h.store_next hi⟩
  | casTail tail next =>
    by_cases ht : q.tail = some tail
    · rw [hi] at hok
      cases next with
      | none =>
        simp only [advance, if_pos ht]
        exact ⟨after, h.seize_tail hi ht⟩
      | some n =>
        simp only [advance, nextOrder, if_pos ht]
        exact ⟨after, h.take_tail hi ht (hok ht)⟩
    · have hkeep : nextOrder q order (.casTail tail next) = order := by
        cases next with
        | none => rfl
        | some n => rw [nextOrder, if_neg ht]
      simp only [advance, if_neg ht, hkeep]
      refine ⟨after, h.quiet ?_⟩
      rw [hi]
      exact ⟨rfl, rfl, rfl, .inl rfl, rfl, rfl⟩
  | exchangeValue tail next => exact ⟨after, h.exchange_value hi⟩
  | moveData tail next => exact ⟨after, h.move_data hi⟩
  | restoreTail tail ret =>
    refine ⟨after, h.settle_tail ?_ rfl ?_ ?_ rfl ?_ rfl⟩ <;> rw [hi] <;> rfl
  | delStore entry next ret =>
    refine ⟨after, h.set_next ?_ ?_ ?_ ?_ ?_ ⟨rfl, rfl, rfl, rfl, rfl, rfl⟩⟩ <;>
      rw [hi] <;> rfl
  | delCas entry next ret =>
    by_cases hf : q.free = next
    · subst hf
      simp only [advance, nextFree, if_true]
      exact ⟨after, h.give_free hi⟩
    · simp only [advance, nextFree, if_neg hf]
      refine ⟨after, h.quiet ?_⟩
      rw [hi]
      exact ⟨rfl, rfl, rfl, .inl rfl, rfl, rfl⟩

end Sound

end Crasy.LfQueue.Concurrent
