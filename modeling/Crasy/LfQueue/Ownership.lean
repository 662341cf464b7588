import Crasy.LfQueue.Concurrent
import Mathlib.Tactic.Abel

/-!
# Entry ownership under concurrent use

Library `LfQueue`. From the invariant of `Crasy.LfQueue.Concurrent`: every entry has
exactly one role, and the values of all calls are accounted for, on the runs in which no
compare-exchange installs a stale successor; and a run in which one does.
-/

namespace Crasy.LfQueue.Concurrent

open Crasy.Base

variable {ι α : Type}

/-! ### Roles and places -/

theorem Pc.held_of_pushing {pc : Pc α} {p : Ptr} (h : pc.pushing = some p) :
    pc.held = some p ∧ pc.popping = none := by
  cases pc with
  | clearNext | loadValue | construct | setValue | exchangeHead => exact ⟨h, rfl⟩
  | _ => cases h

theorem Pc.owns_of_popping {pc : Pc α} {p : Ptr} (h : pc.popping = some p) : pc.Owns p := by
  cases pc with
  | exchangeValue tail next | moveData tail next =>
    cases next with
    | none => exact .inr h
    | some n => exact .inl h
  | restoreTail => exact .inr h
  | delLoad | delStore | delCas => exact .inl h
  | _ => cases h

private theorem Pc.role_of_held {pc : Pc α} {p : Ptr} (h : pc.held = some p) :
    pc.pushing = some p ∨ pc.popping = some p := by
  cases pc with
  | clearNext | loadValue | construct | setValue | exchangeHead => exact .inl h
  | exchangeValue tail next | moveData tail next =>
    cases next with
    | none => cases h
    | some n => exact .inr h
  | delLoad | delStore | delCas => exact .inr h
  | _ => cases h

private theorem Pc.role_of_pending {pc : Pc α} {p : Ptr} (h : pc.pending = some p) :
    pc = .storeTail p ∨ pc.popping = some p := by
  cases pc with
  | storeTail =>
    cases h
    exact .inl rfl
  | exchangeValue tail next | moveData tail next =>
    cases next with
    | none => exact .inr h
    | some n => cases h
  | restoreTail => exact .inr h
  | _ => cases h

private theorem Pc.eq_of_linking {pc : Pc α} {a b : Ptr} (h : pc.linking = some (a, b)) :
    pc = .storeNext a b := by
  cases pc with
  | storeNext =>
    cases h
    rfl
  | _ => cases h

/-- `new_entry` hands out a new entry or the first free one. -/
theorem pushing_advance {q : Queue α} {pc : Pc α} {p : Ptr} (hno : pc.pushing = none)
    (hp : (advance q pc).2.pushing = some p) : p = q.allocated ∨ q.free = some p := by
  cases pc with
  | alloc v =>
    cases hp
    exact .inl rfl
  | casFree v entry next =>
    simp only [advance] at hp
    split at hp
    · next hf =>
      cases hp
      exact .inr hf
    · cases hf : q.free <;> simp [hf, newEntryRound, Pc.pushing] at hp
  | loadFree v => cases hf : q.free <;> simp [advance, hf, newEntryRound, Pc.pushing] at hp
  | loadTail => cases ht : q.tail <;> simp [advance, ht, Pc.pushing] at hp
  | casTail tail next =>
    simp only [advance] at hp
    split at hp <;> cases hp
  | exchangeValue tail next =>
    simp only [advance] at hp
    split at hp
    · cases hp
    · cases next <;> cases hp
  | moveData tail next => cases next <;> cases hp
  | delCas entry next ret =>
    simp only [advance] at hp
    split at hp <;> cases hp
  | clearNext | loadValue | construct | setValue | exchangeHead => cases hno
  | _ => cases hp

namespace Sound

variable {s : State ι α} {order free : List Ptr} {after : Ptr → Option Ptr} {p : Ptr}


private theorem inChain_snoc {r : Ptr} (hp : s.InChain p) (hn : s.queue.next p = some r) :
    s.InChain r := by
  rcases hp with hp | ⟨i, e, hi, hp⟩ | ⟨i, a, e, hi, hp⟩ | ⟨i, t, hi, hpend, hp⟩
  · exact .inl (hp.snoc hn)
  · exact .inr (.inl ⟨i, e, hi, hp.snoc hn⟩)
  · exact .inr (.inr (.inl ⟨i, a, e, hi, hp.snoc hn⟩))
  · exact .inr (.inr (.inr ⟨i, t, hi, hpend, hp.snoc hn⟩))

variable (h : Sound s.queue s.threads order free after)
include h

private theorem pending_of_popping {i : ι} (hp : p ∈ order) (hi : (s.threads i).popping = some p) :
    (s.threads i).pending = some p :=
  (Pc.owns_of_popping hi).resolve_left fun hheld ↦ (h.not_mem_of_held hheld).1 hp

private theorem not_popping_of_mem_tail (hp : p ∈ order.tail) :
    p ∈ order ∧ ∀ i, (s.threads i).popping ≠ some p := by
  have hmem := List.mem_of_mem_tail hp
  refine ⟨hmem, fun i hi ↦ ?_⟩
  have hfirst := (h.ends.pending_first i p (h.pending_of_popping hmem hi)).1
  cases order with
  | nil => cases hp
  | cons r rest =>
    cases hfirst
    exact (List.nodup_cons.mp h.nodup_order).1 hp

/-- The chain consists of the queue's entries without one that a `pop` will put back. -/
theorem inChain_iff : s.InChain p ↔ p ∈ order ∧ ∀ i, (s.threads i).popping ≠ some p := by
  constructor
  · have hnext (a b : Ptr) (ha : a ∈ order ∧ ∀ i, (s.threads i).popping ≠ some a)
        (hb : s.queue.next a = some b) : b ∈ order ∧ ∀ i, (s.threads i).popping ≠ some b :=
      h.not_popping_of_mem_tail (h.chain.mem_tail_of_after ha.1 (h.chain.after_of_next ha.1 hb))
    rintro (hp | ⟨i, e, hi, hp⟩ | ⟨i, a, e, hi, hp⟩ | ⟨i, t, hi, hpend, hp⟩)
    · refine hp.invariant (fun r hr ↦ ?_) hnext
      have hends : Ends s.queue.head (some r) (Pc.pending ∘ s.threads) order := hr ▸ h.ends
      obtain ⟨rest, rfl⟩ := hends.first_of_tail
      refine ⟨List.mem_cons_self, fun j hj ↦ ?_⟩
      have hpend := h.pending_of_popping List.mem_cons_self hj
      exact absurd (hends.pending_none j) (by simp [hpend])
    · refine hp.invariant (fun r hr ↦ ?_) hnext
      cases hr
      have hpend : (s.threads i).pending = some e := by rw [hi]; rfl
      have hmem := h.mem_of_pending hpend
      refine ⟨hmem, fun j hj ↦ ?_⟩
      have hij := h.ends.unique i j e e hpend (h.pending_of_popping hmem hj)
      subst hij
      rw [hi] at hj
      cases hj
    · refine hp.invariant (fun r hr ↦ ?_) hnext
      cases hr
      have hlink : (Pc.linking ∘ s.threads) i = some (a, e) := by simp [hi, Pc.linking]
      obtain ⟨ha, hb, _⟩ := h.chain.owed i a e hlink
      exact h.not_popping_of_mem_tail (h.chain.mem_tail_of_after ha hb)
    · refine hp.invariant (fun r hr ↦ ?_) hnext
      have ht := h.mem_of_pending hpend
      exact h.not_popping_of_mem_tail
        (h.chain.mem_tail_of_after ht (h.chain.after_of_next ht hr))
  · rintro ⟨hp, hno⟩
    -- every entry of the order is in the chain or the one that a `pop` will put back
    have hall : ∀ r ∈ order, (∃ i, (s.threads i).popping = some r ∧
        (s.threads i).pending = some r) ∨ s.InChain r := by
      refine h.chain.forall_mem (fun r hr ↦ ?_) (fun a b ha hb ↦ .inr ?_) fun i a b hi ↦ .inr ?_
      · by_cases hex : ∃ i t, (s.threads i).pending = some t
        · obtain ⟨i, t, hi⟩ := hex
          have ht := (h.ends.pending_first i t hi).1
          rw [hr] at ht
          cases ht
          rcases Pc.role_of_pending hi with hs | hs
          · exact .inr (.inr (.inl ⟨i, r, hs, .here r⟩))
          · exact .inl ⟨i, hs, hi⟩
        · push Not at hex
          have htail := h.ends.tail_first fun i ↦ Option.eq_none_iff_forall_ne_some.mpr (hex i)
          refine .inr (.inl ?_)
          rw [htail, hr]
          exact .here r
      · rcases ha with ⟨i, hi, hpend⟩ | ha
        · refine .inr (.inr (.inr ⟨i, a, hi, hpend, ?_⟩))
          rw [hb]
          exact .here b
        · exact inChain_snoc ha hb
      · exact .inr (.inr (.inl ⟨i, a, b, Pc.eq_of_linking hi, .here b⟩))
    rcases hall p hp with ⟨i, hi, _⟩ | hc
    · exact absurd hi (hno i)
    · exact hc

private theorem role_allocated {r : Role ι} (hr : s.HasRole p r) : p < s.queue.allocated := by
  cases r with
  | pushing i => exact h.owns_allocated (.inl (Pc.held_of_pushing hr).1)
  | chain => exact h.order_allocated (h.inChain_iff.mp hr).1
  | popping i => exact h.owns_allocated (Pc.owns_of_popping hr)
  | free =>
    have hf := (h.free_linked.path_iff p).mp hr
    exact (h.ledger.total p).mpr (.inl (List.mem_append_right _ hf))

/-- A free entry has no other role. -/
theorem free_unique {r : Role ι} (hf : s.HasRole p .free) (hr : s.HasRole p r) : r = .free := by
  have hmem := (h.free_linked.path_iff p).mp hf
  cases r with
  | pushing i => exact absurd hmem (h.not_mem_of_held (Pc.held_of_pushing hr).1).2
  | chain => exact absurd hmem (h.disjoint (h.inChain_iff.mp hr).1)
  | popping i => exact absurd hmem (h.not_free_of_owns (Pc.owns_of_popping hr))
  | free => rfl

/-- An entry of the chain has no other role. -/
theorem chain_unique {r : Role ι} (hc : s.HasRole p .chain) (hr : s.HasRole p r) :
    r = .chain := by
  obtain ⟨hmem, hno⟩ := h.inChain_iff.mp hc
  cases r with
  | pushing i => exact absurd hmem (h.not_mem_of_held (Pc.held_of_pushing hr).1).1
  | chain => rfl
  | popping i => exact absurd hr (hno i)
  | free => exact (h.free_unique hr hc).symm

/-- No entry has two roles. -/
theorem role_unique {r r' : Role ι} (hr : s.HasRole p r) (hr' : s.HasRole p r') : r = r' := by
  cases r with
  | free => exact (h.free_unique hr hr').symm
  | chain => exact (h.chain_unique hr hr').symm
  | pushing i =>
    obtain ⟨hheld, hpop⟩ := Pc.held_of_pushing hr
    cases r' with
    | free => exact h.free_unique hr' hr
    | chain => exact h.chain_unique hr' hr
    | pushing j =>
      rw [h.owns_unique (.inl hheld) (.inl (Pc.held_of_pushing hr').1)]
    | popping j =>
      have hij := h.owns_unique (.inl hheld) (Pc.owns_of_popping hr')
      subst hij
      rw [State.HasRole, hpop] at hr'
      cases hr'
  | popping i =>
    have hown := Pc.owns_of_popping hr
    cases r' with
    | free => exact h.free_unique hr' hr
    | chain => exact h.chain_unique hr' hr
    | pushing j =>
      obtain ⟨hheld, hpop⟩ := Pc.held_of_pushing hr'
      have hij := h.owns_unique hown (.inl hheld)
      subst hij
      rw [State.HasRole, hpop] at hr
      cases hr
    | popping j => rw [h.owns_unique hown (Pc.owns_of_popping hr')]

private theorem exists_role (hp : p < s.queue.allocated) : ∃ r, s.HasRole p r := by
  rcases (h.ledger.total p).mp hp with hm | ⟨i, hi⟩
  · rcases List.mem_append.mp hm with ho | hf
    · by_cases hex : ∃ i, (s.threads i).popping = some p
      · obtain ⟨i, hi⟩ := hex
        exact ⟨.popping i, hi⟩
      · push Not at hex
        exact ⟨.chain, h.inChain_iff.mpr ⟨ho, hex⟩⟩
    · exact ⟨.free, (h.free_linked.path_iff p).mpr hf⟩
  · rcases Pc.role_of_held hi with hi | hi
    · exact ⟨.pushing i, hi⟩
    · exact ⟨.popping i, hi⟩

private theorem free_of_handsOut {i : ι} {r : Role ι} (hi : s.HandsOut i p) (hr : s.HasRole p r) :
    r = .free := by
  rcases pushing_advance hi.1 hi.2 with rfl | hf
  · exact absurd (h.role_allocated hr) (Nat.lt_irrefl _)
  · refine h.free_unique ?_ hr
    rw [State.HasRole, hf]
    exact .here p

private theorem vacant {i : ι} {v : α} (hi : s.threads i = .construct v p) :
    (s.queue.entries p).data = none ∧ (s.queue.entries p).hasValue = false := by
  have hdata := h.slots.clean_data i p (by simp [hi, Pc.clean])
  refine ⟨hdata, ?_⟩
  rw [h.settled (i := i) (.inl (by rw [hi]; rfl)) (by rw [hi]; rfl), hdata]
  rfl

end Sound

/-! ### Conservation of values -/

private theorem stored_set (q : Queue α) {p : Ptr} (e : Entry α) (hp : p < q.allocated) :
    stored (q.set p e) + values (q.entries p).data = stored q + values e.data := by
  have hmem : p ∈ Finset.range q.allocated := Finset.mem_range.mpr hp
  have hrest : ∑ r ∈ (Finset.range q.allocated).erase p, values ((q.set p e).entries r).data =
      ∑ r ∈ (Finset.range q.allocated).erase p, values (q.entries r).data := by
    apply Finset.sum_congr rfl
    intro r hr
    rw [Queue.set_entries_ne _ _ (Finset.ne_of_mem_erase hr)]
  simp only [stored, Queue.set_allocated]
  rw [← Finset.sum_erase_add _ _ hmem, hrest, Queue.set_entries_self,
    ← Finset.sum_erase_add _ (fun r ↦ values (q.entries r).data) hmem, add_right_comm]

private theorem stored_set_of_data (q : Queue α) (p : Ptr) (e : Entry α)
    (he : e.data = (q.entries p).data) : stored (q.set p e) = stored q := by
  apply Finset.sum_congr rfl
  intro r _
  by_cases hr : r = p
  · rw [hr, Queue.set_entries_self, he]
  · rw [Queue.set_entries_ne _ _ hr]

private theorem stored_alloc (q : Queue α) : stored q.alloc = stored q := by
  have hnew : (q.alloc.entries q.allocated) = Entry.new := Queue.set_entries_self ..
  have hold : ∑ p ∈ Finset.range q.allocated, values (q.alloc.entries p).data = stored q := by
    apply Finset.sum_congr rfl
    intro p hp
    have hne : p ≠ q.allocated := Nat.ne_of_lt (Finset.mem_range.mp hp)
    exact congrArg (fun e ↦ values e.data) (Queue.set_entries_ne q Entry.new hne)
  change ∑ p ∈ Finset.range (q.allocated + 1), values (q.alloc.entries p).data = stored q
  rw [Finset.sum_range_succ, hold, hnew]
  exact add_zero _

@[simp] theorem carried_newEntryRound (v : α) (f : Option Ptr) :
    (newEntryRound v f).carried = {v} := by
  cases f <;> rfl

@[simp] theorem carried_afterTake (tail : Ptr) (next : Option Ptr) (ret : Option α) :
    (afterTake tail next ret).carried = values ret := by
  cases next <;> rfl

/-- An access moves values between the thread and the entries but neither loses nor copies
one. -/
theorem Sound.carried_add_stored {q : Queue α} {threads : ι → Pc α} {order free : List Ptr}
    {after : Ptr → Option Ptr} (h : Sound q threads order free after) (i : ι) :
    (advance q (threads i)).2.carried + stored (advance q (threads i)).1 =
      (threads i).carried + stored q := by
  cases hi : threads i with
  | idle | finished | loadNext | loadTailNext | loadValue | delLoad => rfl
  | loadFree v =>
    simp only [advance, carried_newEntryRound]
    rfl
  | alloc v => exact congrArg _ (stored_alloc q)
  | casFree v entry next =>
    simp only [advance]
    split
    · rfl
    · rw [carried_newEntryRound]
      rfl
  | clearNext v entry | delStore entry n ret =>
    exact congrArg _ (stored_set_of_data q entry _ rfl)
  | construct v entry =>
    have hown : (threads i).Owns entry := .inl (by rw [hi]; rfl)
    have hset := stored_set q { q.entries entry with data := some v } (h.owns_allocated hown)
    rw [h.slots.clean_data i entry (by simp [hi, Pc.clean])] at hset
    change 0 + stored (q.set entry _) = {v} + stored q
    rw [zero_add, add_comm, ← add_zero (stored (q.set entry _))]
    exact hset
  | setValue entry => exact congrArg _ (stored_set_of_data q entry _ rfl)
  | exchangeHead entry =>
    cases hq : q.head <;> simp [advance, hq, Pc.carried, stored]
  | storeTail entry => rfl
  | storeNext head entry => exact congrArg _ (stored_set_of_data q head _ rfl)
  | loadTail => cases ht : q.tail <;> simp [advance, ht, Pc.carried, values]
  | casTail tail next =>
    simp only [advance]
    split <;> rfl
  | exchangeValue tail next =>
    simp only [advance]
    rw [stored_set_of_data q tail { q.entries tail with hasValue := false } rfl]
    split
    · rfl
    · rw [carried_afterTake]
      rfl
  | moveData tail next =>
    have hown : (threads i).Owns tail := Pc.owns_of_midway (by rw [hi]; rfl)
    have hset := stored_set q { q.entries tail with data := none } (h.owns_allocated hown)
    simp only [advance, carried_afterTake]
    rw [add_comm, hset, add_comm]
    rfl
  | restoreTail tail ret => rfl
  | delCas entry next ret =>
    simp only [advance]
    split <;> rfl

/-! ### Runs -/

/-- A new queue, with all its threads idle. -/
theorem Sound.ofCapacity (capacity : Nat) : ∃ free, Sound (Queue.ofCapacity capacity : Queue α)
    (fun _ : ι ↦ .idle) [] free (fun _ ↦ none) := by
  obtain ⟨free, hrep⟩ := @Queue.represents_ofCapacity α capacity
  refine ⟨free, ?_, .nil fun _ ↦ rfl, ?_, hrep.free_linked, ?_, ?_⟩
  · refine ⟨hrep.nodup, nofun, nofun, fun p ↦ ?_⟩
    have hiff : p < (Queue.ofCapacity capacity : Queue α).allocated ↔ p ∈ [] ++ ([] ++ free) :=
      (hrep.owned p).symm
    exact ⟨fun hp ↦ .inl (hiff.mp hp), fun hp ↦ hiff.mpr (hp.resolve_right nofun)⟩
  · exact ⟨hrep.head_last, nofun, nofun, fun _ ↦ hrep.chain_linked⟩
  · exact nofun
  · refine ⟨fun p _ ↦ ?_, nofun, nofun, fun p _ ↦ (Queue.ofCapacity_vacant capacity p).1⟩
    obtain ⟨hdata, hflag⟩ := @Queue.ofCapacity_vacant α capacity p
    exact hflag.trans (congrArg Option.isSome hdata).symm

/-- The state between two steps. -/
structure Invariant [Fintype ι] (s : State ι α) : Prop where
  sound : ∃ order free after, Sound s.queue s.threads order free after
  conserved : s.pushed = s.popped + tally Pc.carried s.threads + stored s.queue

namespace Invariant

variable [Fintype ι] {s s' : State ι α}

/-- The invariant gives every entry its role and accounts for every value. -/
theorem nodeOwnership (h : Invariant s) : NodeOwnership s := by
  obtain ⟨order, free, after, hs⟩ := h.sound
  refine ⟨fun p hp ↦ ?_, fun i p hi r hr ↦ hs.free_of_handsOut hi hr,
    fun i v p hi ↦ hs.vacant hi, h.conserved, fun hnodup ↦ Multiset.nodup_of_le ?_ hnodup⟩
  · obtain ⟨r, hr⟩ := hs.exists_role hp
    exact ⟨r, hr, fun r' hr' ↦ hs.role_unique hr' hr⟩
  · rw [h.conserved, add_assoc]
    exact Multiset.le_add_right _ _

variable [DecidableEq ι]

/-- A new queue satisfies the invariant. -/
theorem init (capacity : Nat) : Invariant (system ι α capacity).init := by
  obtain ⟨free, hs⟩ := Sound.ofCapacity (ι := ι) (α := α) capacity
  refine ⟨⟨[], free, _, hs⟩, ?_⟩
  have hcarried : tally Pc.carried (fun _ : ι ↦ (Pc.idle : Pc α)) = 0 :=
    Finset.sum_eq_zero fun _ _ ↦ rfl
  have hstored : stored (Queue.ofCapacity capacity : Queue α) = 0 := by
    apply Finset.sum_eq_zero
    intro p _
    rw [(Queue.ofCapacity_vacant capacity p).1]
    rfl
  change (0 : Multiset α) = 0 + tally Pc.carried (fun _ : ι ↦ Pc.idle) +
    stored (Queue.ofCapacity capacity)
  rw [hcarried, hstored, add_zero, add_zero]

private theorem conserve {i : ι} {pc : Pc α} {gained given : Multiset α} (h : Invariant s)
    (hthreads : s'.threads = Function.update s.threads i pc)
    (hpushed : s'.pushed = gained + s.pushed) (hpopped : s'.popped = given + s.popped)
    (hbalance : given + (pc.carried + stored s'.queue) =
      gained + ((s.threads i).carried + stored s.queue)) :
    s'.pushed = s'.popped + tally Pc.carried s'.threads + stored s'.queue := by
  have htally := tally_update Pc.carried s.threads i pc
  rw [← hthreads] at htally
  apply add_right_cancel (b := (s.threads i).carried)
  calc s'.pushed + (s.threads i).carried
      = s.popped + tally Pc.carried s.threads +
          (gained + ((s.threads i).carried + stored s.queue)) := by
        rw [hpushed, h.conserved]
        abel
    _ = given + s.popped + (tally Pc.carried s.threads + pc.carried) + stored s'.queue := by
        rw [← hbalance]
        abel
    _ = s'.popped + tally Pc.carried s'.threads + stored s'.queue + (s.threads i).carried := by
        rw [← htally, hpopped]
        abel

/-- Every permitted step keeps the invariant. -/
theorem step {a : Act ι α} (h : Invariant s) (hok : StepOk s a) (hn : next s a = some s') :
    Invariant s' := by
  obtain ⟨order, free, after, hs⟩ := h.sound
  cases a with
  | push i v =>
    simp only [next] at hn
    split at hn
    · next hi =>
      cases hn
      refine ⟨⟨order, free, after, hs.quiet ?_⟩, h.conserve rfl
        (Multiset.singleton_add v s.pushed).symm (zero_add _).symm ?_⟩
      · rw [hi]
        exact ⟨rfl, rfl, rfl, .inl rfl, rfl, rfl⟩
      · rw [hi]
        change 0 + ({v} + stored s.queue) = {v} + (0 + stored s.queue)
        rw [zero_add, zero_add]
    · cases hn
  | pop i =>
    simp only [next] at hn
    split at hn
    · next hi =>
      cases hn
      refine ⟨⟨order, free, after, hs.quiet ?_⟩, h.conserve rfl (zero_add _).symm
        (zero_add _).symm ?_⟩
      · rw [hi]
        exact ⟨rfl, rfl, rfl, .inl rfl, rfl, rfl⟩
      · rw [hi]
        rfl
    · cases hn
  | access i =>
    cases hn
    exact ⟨⟨_, _, hs.step hok⟩, h.conserve rfl (zero_add _).symm (zero_add _).symm
      (congrArg _ (hs.carried_add_stored i))⟩
  | ret i =>
    simp only [next] at hn
    split at hn
    · next ret hi =>
      cases hn
      refine ⟨⟨order, free, after, hs.quiet ?_⟩, h.conserve rfl (zero_add _).symm rfl ?_⟩
      · rw [hi]
        exact ⟨rfl, rfl, rfl, .inl rfl, rfl, rfl⟩
      · rw [hi]
        change values ret + (0 + stored s.queue) = 0 + (values ret + stored s.queue)
        rw [zero_add, zero_add]
    · cases hn

end Invariant

variable [DecidableEq ι] [Fintype ι]

/-- On runs in which no compare-exchange installs a stale successor, every entry has
exactly one role in every state reached, and no value is lost or returned twice. -/
theorem node_ownership (capacity : Nat) {s : State ι α}
    (hr : (system ι α capacity).ReachableBy StepOk s) : NodeOwnership s := by
  have hinv : Invariant s :=
    hr.invariant (.init capacity) fun _ _ _ hi hok hn ↦ hi.step hok hn
  exact hinv.nodeOwnership

/-- A whole `push` by one thread while the free list has entries. -/
def pushAlone {κ : Type} (i : κ) (v : Nat) : List (Act κ Nat) :=
  .push i v :: List.replicate 9 (.access i)

/-- A whole `pop` by one thread that frees an entry. -/
def popAlone {κ : Type} (i : κ) : List (Act κ Nat) :=
  .pop i :: List.replicate 8 (.access i) ++ [.ret i]

/-- One thread's `pop` frees the entry of the first value, and another thread's `push` is
handed that entry again. -/
theorem node_ownership_recycled :
    ∃ s, (system (Fin 2) Nat 2).ReachableBy StepOk s ∧
      (s.threads 0).pushing = some 1 ∧ s.queue.tail = some 0 ∧ NodeOwnership s := by
  have hrun : ∃ s, (system (Fin 2) Nat 2).ReachableBy StepOk s ∧
      (s.threads 0).pushing = some 1 ∧ s.queue.tail = some 0 :=
    System.exists_reachableBy (pushAlone 1 10 ++ pushAlone 1 11 ++ popAlone 1 ++
      .push 0 12 :: List.replicate 3 (.access 0)) (by decide +kernel)
  obtain ⟨s, hr, hp, ht⟩ := hrun
  exact ⟨s, hr, hp, ht, node_ownership 2 hr⟩

/-- One thread stops in `new_entry` before its compare-exchange. Meanwhile another uses
both free entries and frees the first again, so the compare-exchange succeeds and makes the
entry at `tail_` the top of the free list. -/
theorem entry_in_two_roles :
    ¬∀ s, (system (Fin 2) Nat 2).Reachable s →
      ∀ p < s.queue.allocated, ∃! r, s.HasRole p r := by
  intro h
  have hrun : ∃ s, (system (Fin 2) Nat 2).Reachable s ∧
      0 < s.queue.allocated ∧ s.queue.tail = some 0 ∧ s.queue.free = some 0 :=
    System.exists_reachable (.push 0 12 :: List.replicate 2 (.access 0) ++ pushAlone 1 10 ++
      pushAlone 1 11 ++ popAlone 1 ++ [.access 0]) (by decide +kernel)
  obtain ⟨s, hr, ha, ht, hf⟩ := hrun
  have hchain : s.HasRole 0 .chain := .inl (ht ▸ .here 0)
  have hfree : s.HasRole 0 .free := by
    rw [State.HasRole, hf]
    exact .here 0
  cases (h s hr 0 ha).unique hchain hfree

end Crasy.LfQueue.Concurrent
