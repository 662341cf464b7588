import Crasy.LfQueue.Ownership

/-!
# Recycling is the only source of stale successors

Library `LfQueue`. The loops of `new_entry` and `pop` read the successor of an entry that
they have loaded from `free_` or `tail_`, and install it if the word is unchanged
(`include/crasy/lfqueue.hpp:85–96,146–154`). The successor can have changed only if the entry
has been given back by `del_entry` in the meantime: on the runs in which no entry is given
back while another thread's loop still has its address, no compare-exchange installs a stale
successor.
-/

namespace Crasy.LfQueue.Concurrent

open Crasy.Base

variable {ι α : Type}

/-- The entry whose address a loop has loaded. -/
def Pc.observes : Pc α → Option Ptr
  | .loadNext _ entry | .casFree _ entry _ => some entry
  | .loadTailNext tail | .casTail tail _ => some tail
  | _ => none

/-- The entry that the thread's access gives back. -/
def givesBack (q : Queue α) : Pc α → Option Ptr
  | .delCas entry next _ => if q.free = next then some entry else none
  | _ => none

/-- No entry is given back whose address some loop has. -/
def Unrecycled (s : State ι α) : Act ι α → Prop
  | .access i => ∀ p ∈ givesBack s.queue (s.threads i), ∀ j, (s.threads j).observes ≠ some p
  | _ => True

instance [Fintype ι] (s : State ι α) (a : Act ι α) : Decidable (Unrecycled s a) :=
  match a with
  | .access i => inferInstanceAs
      (Decidable (∀ p ∈ givesBack s.queue (s.threads i), ∀ j, (s.threads j).observes ≠ some p))
  | .push .. | .pop _ | .ret _ => isTrue trivial

/-- The entry has been in the queue and not been given back since. -/
structure Retained (q : Queue α) (threads : ι → Pc α) (free : List Ptr) (p : Ptr) : Prop where
  allocated : p < q.allocated
  not_free : p ∉ free
  not_pushing : ∀ i, (threads i).pushing ≠ some p

/-- What a loop knows of the entry that it has loaded. -/
def Current (q : Queue α) (threads : ι → Pc α) (order free : List Ptr) : Pc α → Prop
  | .casFree _ entry next => entry ∈ free → q.next entry = next
  | .loadTailNext tail => Retained q threads free tail
  | .casTail tail next => Retained q threads free tail ∧
      (tail ∈ order → ∀ n, next = some n → q.next tail = some n)
  | _ => True

/-- A loop that knows its entry installs no stale successor. -/
theorem Sound.accessOk {q : Queue α} {threads : ι → Pc α} {order free : List Ptr}
    {after : Ptr → Option Ptr} (h : Sound q threads order free after) {pc : Pc α}
    (hc : Current q threads order free pc) : AccessOk q pc := by
  cases pc with
  | casFree v entry next =>
    intro hf
    obtain ⟨rest, rfl, -⟩ := (hf ▸ h.free_linked : Linked q.next (some entry) free).exists_cons
    exact hc List.mem_cons_self
  | casTail tail next =>
    cases next with
    | none => trivial
    | some n =>
      intro ht
      obtain ⟨rest, rfl⟩ := (ht ▸ h.ends :
        Ends q.head (some tail) (Pc.pending ∘ threads) order).first_of_tail
      exact hc.2 List.mem_cons_self n rfl
  | _ => trivial

/-! ### What one access does to the entries -/

/-- A thread that brings an entry brought it before, allocated it or took it from the free
list. -/
theorem pushing_of_advance {q : Queue α} {pc : Pc α} {p : Ptr}
    (h : (advance q pc).2.pushing = some p) :
    pc.pushing = some p ∨ p = q.allocated ∨ q.free = some p := by
  cases hp : pc.pushing with
  | none => exact .inr (pushing_advance hp h)
  | some r =>
    refine .inl ?_
    cases pc with
    | clearNext | loadValue | construct | setValue => exact hp.symm.trans h
    | exchangeHead entry =>
      simp only [advance] at h
      cases hq : q.head <;> simp [hq, Pc.pushing] at h
    | _ => cases hp

/-- An access changes the successor of an entry that the thread has for itself, of one to which
it owes a link, or of a new one. -/
theorem next_advance {q : Queue α} {pc : Pc α} {p : Ptr} (hp : p < q.allocated)
    (hheld : pc.held ≠ some p) (hlink : ∀ b, pc.linking ≠ some (p, b)) :
    (advance q pc).1.next p = q.next p := by
  have hset {t : Ptr} {e : Entry α} (he : t = p → e.next = q.next p) :
      (q.set t e).next p = q.next p := by
    rw [Queue.next_set]
    by_cases ht : p = t
    · subst ht
      rw [Function.update_self, he rfl]
    · rw [Function.update_of_ne ht]
  cases pc with
  | alloc v => exact hset fun ht ↦ absurd ht (Nat.ne_of_gt hp)
  | clearNext v entry => exact hset fun ht ↦ absurd (congrArg some ht) hheld
  | storeNext head entry => exact hset fun ht ↦ absurd (by rw [← ht]; rfl) (hlink entry)
  | delStore entry next ret => exact hset fun ht ↦ absurd (congrArg some ht) hheld
  | construct | setValue | exchangeValue | moveData => exact hset fun ht ↦ by rw [← ht]; rfl
  | casFree | casTail | delCas =>
    simp only [advance]
    split <;> rfl
  | _ => rfl

/-- Entries only become more. -/
theorem allocated_le_advance (q : Queue α) (pc : Pc α) :
    q.allocated ≤ (advance q pc).1.allocated := by
  cases pc with
  | alloc v => exact Nat.le_succ _
  | casFree | casTail | delCas =>
    simp only [advance]
    split <;> exact Nat.le_refl _
  | _ => exact Nat.le_refl _

private theorem mem_nextFree {q : Queue α} {free : List Ptr} {pc : Pc α} {p : Ptr}
    (h : p ∈ nextFree q free pc) : p ∈ free ∨ givesBack q pc = some p := by
  cases pc with
  | casFree v entry next =>
    simp only [nextFree] at h
    split at h
    · exact .inl (List.mem_of_mem_tail h)
    · exact .inl h
  | delCas entry next ret =>
    simp only [nextFree] at h
    split at h
    · next hf =>
      rcases List.mem_cons.mp h with rfl | h
      · exact .inr (by rw [givesBack, if_pos hf])
      · exact .inl h
    · exact .inl h
  | _ => exact .inl h

private theorem mem_nextOrder {q : Queue α} {order : List Ptr} {pc : Pc α} {p : Ptr}
    (h : p ∈ nextOrder q order pc) : p ∈ order ∨ pc.pushing = some p := by
  cases pc with
  | exchangeHead entry =>
    rcases List.mem_append.mp h with h | h
    · exact .inl h
    · exact .inr (by rw [List.mem_singleton.mp h]; rfl)
  | casTail tail next =>
    cases next with
    | none => exact .inl h
    | some n =>
      simp only [nextOrder] at h
      split at h
      · exact .inl (List.mem_of_mem_tail h)
      · exact .inl h
  | _ => exact .inl h

section Step

variable [DecidableEq ι] {q : Queue α} {threads : ι → Pc α} {order free : List Ptr}
  {after : Ptr → Option Ptr} {i : ι} {p : Ptr}

/-- An entry that is not given back stays retained. -/
theorem Retained.step (h : Retained q threads free p) (hs : Sound q threads order free after)
    (hgive : givesBack q (threads i) ≠ some p) :
    Retained (advance q (threads i)).1 (Function.update threads i (advance q (threads i)).2)
      (nextFree q free (threads i)) p where
  allocated := h.allocated.trans_le (allocated_le_advance q (threads i))
  not_free hm := (mem_nextFree hm).elim h.not_free hgive
  not_pushing j hj := by
    by_cases hji : j = i
    · subst hji
      rw [Function.update_self] at hj
      rcases pushing_of_advance hj with hj | hj | hj
      · exact h.not_pushing j hj
      · exact absurd h.allocated (by rw [hj]; exact Nat.lt_irrefl _)
      · obtain ⟨rest, rfl, -⟩ :=
          (hj ▸ hs.free_linked : Linked q.next (some p) free).exists_cons
        exact h.not_free List.mem_cons_self
    · rw [Function.update_of_ne hji] at hj
      exact h.not_pushing j hj

/-- What the other loops know stays true while their entries are not given back. -/
theorem Current.other {pc : Pc α} (h : Current q threads order free pc)
    (hs : Sound q threads order free after)
    (hgive : ∀ p, pc.observes = some p → givesBack q (threads i) ≠ some p) :
    Current (advance q (threads i)).1 (Function.update threads i (advance q (threads i)).2)
      (nextOrder q order (threads i)) (nextFree q free (threads i)) pc := by
  cases pc with
  | casFree v entry next =>
    intro hm
    have hfree := (mem_nextFree hm).resolve_right (hgive entry rfl)
    rw [next_advance, h hfree]
    · exact (hs.ledger.total entry).mpr (.inl (List.mem_append_right _ hfree))
    · exact fun hheld ↦ (hs.not_mem_of_held hheld).2 hfree
    · exact fun b hlink ↦ hs.disjoint (hs.chain.owed i entry b hlink).1 hfree
  | loadTailNext tail => exact Retained.step h hs (hgive tail rfl)
  | casTail tail next =>
    refine ⟨h.1.step hs (hgive tail rfl), fun hm n hn ↦ ?_⟩
    have horder := (mem_nextOrder hm).resolve_right (h.1.not_pushing i)
    have hnext := h.2 horder n hn
    rw [next_advance h.1.allocated, hnext]
    · exact fun hheld ↦ (hs.not_mem_of_held hheld).1 horder
    · intro b hlink
      rw [(hs.chain.owed i tail b hlink).2.2] at hnext
      cases hnext
  | _ => trivial

omit [DecidableEq ι] in
/-- The entry at `tail_` is retained. -/
theorem Sound.retained_tail (h : Sound q threads order free after) (ht : q.tail = some p) :
    Retained q threads free p := by
  obtain ⟨rest, rfl⟩ := (ht ▸ h.ends :
    Ends q.head (some p) (Pc.pending ∘ threads) order).first_of_tail
  have hp : p ∈ p :: rest := List.mem_cons_self
  exact ⟨h.order_allocated hp, h.disjoint hp,
    fun j hj ↦ (h.not_mem_of_held (Pc.held_of_pushing hj).1).1 hp⟩

/-- What a loop loads itself is current. -/
theorem Current.own (h : Current q threads order free (threads i))
    (hs : Sound q threads order free after) :
    Current (advance q (threads i)).1 (Function.update threads i (advance q (threads i)).2)
      (nextOrder q order (threads i)) (nextFree q free (threads i))
      (advance q (threads i)).2 := by
  cases hi : threads i with
  | loadFree v =>
    simp only [advance]
    cases q.free <;> trivial
  | loadNext v entry => exact fun _ ↦ rfl
  | casFree v entry next =>
    simp only [advance]
    split
    · trivial
    · cases q.free <;> trivial
  | exchangeHead entry =>
    simp only [advance]
    cases q.head <;> trivial
  | loadTail =>
    cases ht : q.tail with
    | none =>
      simp only [advance, ht]
      trivial
    | some tail =>
      have hstep := (hs.retained_tail ht).step (i := i) hs (by simp [hi, givesBack])
      rw [hi] at hstep
      simp only [advance, ht] at hstep ⊢
      exact hstep
  | loadTailNext tail =>
    rw [hi] at h
    have hstep := Retained.step (i := i) h hs (by simp [hi, givesBack])
    rw [hi] at hstep
    exact ⟨hstep, fun _ _ hn ↦ hn⟩
  | casTail tail next =>
    simp only [advance]
    split <;> trivial
  | exchangeValue tail next =>
    simp only [advance]
    split
    · trivial
    · cases next <;> trivial
  | moveData tail next => cases next <;> trivial
  | delCas entry next ret =>
    simp only [advance]
    split <;> trivial
  | _ => trivial

end Step

/-! ### Runs -/

variable [DecidableEq ι]

/-- Every loop knows its entry. -/
def Known (q : Queue α) (threads : ι → Pc α) : Prop :=
  ∃ order free after, Sound q threads order free after ∧
    ∀ i, Current q threads order free (threads i)

/-- A thread that begins or ends a call has loaded nothing. -/
theorem Known.quiet {q : Queue α} {threads : ι → Pc α} {i : ι} {pc : Pc α}
    (h : Known q threads) (hkeeps : pc.Keeps (threads i)) (hpushing : pc.pushing = none)
    (hpc : ∀ (threads : ι → Pc α) order free, Current q threads order free pc) :
    Known q (Function.update threads i pc) := by
  obtain ⟨order, free, after, hs, hc⟩ := h
  have hretained {p : Ptr} (hr : Retained q threads free p) :
      Retained q (Function.update threads i pc) free p := by
    refine ⟨hr.allocated, hr.not_free, fun j hj ↦ ?_⟩
    by_cases hji : j = i
    · rw [hji, Function.update_self, hpushing] at hj
      cases hj
    · rw [Function.update_of_ne hji] at hj
      exact hr.not_pushing j hj
  refine ⟨order, free, after, hs.quiet hkeeps, fun j ↦ ?_⟩
  by_cases hji : j = i
  · rw [hji, Function.update_self]
    exact hpc ..
  · rw [Function.update_of_ne hji]
    have hj := hc j
    generalize threads j = pcj at hj
    cases pcj with
    | loadTailNext tail => exact hretained hj
    | casTail tail next => exact ⟨hretained hj.1, hj.2⟩
    | casFree v entry next => exact hj
    | _ => trivial

/-- An access that gives back no entry which some loop knows. -/
theorem Known.access {q : Queue α} {threads : ι → Pc α} {i : ι} (h : Known q threads)
    (hok : ∀ p, givesBack q (threads i) = some p → ∀ j, (threads j).observes ≠ some p) :
    AccessOk q (threads i) ∧
      Known (advance q (threads i)).1 (Function.update threads i (advance q (threads i)).2) := by
  obtain ⟨order, free, after, hs, hc⟩ := h
  have haccess := hs.accessOk (hc i)
  obtain ⟨after', hs'⟩ := hs.step haccess
  refine ⟨haccess, _, _, after', hs', fun j ↦ ?_⟩
  by_cases hji : j = i
  · rw [hji, Function.update_self]
    exact (hc i).own hs
  · rw [Function.update_of_ne hji]
    exact (hc j).other hs fun p hp hgive ↦ hok p hgive j hp

/-- A step installs no stale successor, and leaves every loop knowing its entry. -/
theorem Known.step {s s' : State ι α} {a : Act ι α} (h : Known s.queue s.threads)
    (hok : Unrecycled s a) (hn : next s a = some s') :
    StepOk s a ∧ Known s'.queue s'.threads := by
  obtain ⟨i, pc', hmoves, hthreads⟩ := next_moves hn
  rw [hthreads]
  generalize hpc : s.threads i = pc at hmoves
  generalize s'.queue = q' at hmoves
  cases hmoves with
  | push i v =>
    refine ⟨trivial, h.quiet ?_ rfl fun _ _ _ ↦ trivial⟩
    rw [hpc]
    exact ⟨rfl, rfl, rfl, .inl rfl, rfl, rfl⟩
  | pop i =>
    refine ⟨trivial, h.quiet ?_ rfl fun _ _ _ ↦ trivial⟩
    rw [hpc]
    exact ⟨rfl, rfl, rfl, .inl rfl, rfl, rfl⟩
  | access i =>
    subst hpc
    exact h.access hok
  | ret i ret =>
    refine ⟨trivial, h.quiet ?_ rfl fun _ _ _ ↦ trivial⟩
    rw [hpc]
    exact ⟨rfl, rfl, rfl, .inl rfl, rfl, rfl⟩

/-- Recycling is the only source of stale successors: in a run in which no entry is given back
while some loop has its address, no compare-exchange installs a stale successor. -/
theorem stepOk_of_unrecycled (capacity : Nat) {acts : List (Act ι α)} {s : State ι α}
    (hr : (system ι α capacity).RunBy Unrecycled acts s) :
    (system ι α capacity).RunBy StepOk acts s := by
  have hinv : (system ι α capacity).RunBy StepOk acts s ∧ Known s.queue s.threads := by
    refine hr.invariant
      (I := fun acts s ↦ (system ι α capacity).RunBy StepOk acts s ∧ Known s.queue s.threads)
      ⟨.init, ?_⟩ fun acts s a s' hi hok hn ↦ ?_
    · obtain ⟨free, hs⟩ := Sound.ofCapacity (ι := ι) (α := α) capacity
      exact ⟨[], free, _, hs, fun _ ↦ trivial⟩
    · obtain ⟨hstep, hknown⟩ := hi.2.step hok hn
      exact ⟨hi.1.step hstep hn, hknown⟩
  exact hinv.1

/-- A `push` has the address of a free entry while a `pop` gives back another one, and begins
another round. -/
theorem stepOk_of_unrecycled_retry :
    let acts : List (Act (Fin 2) Nat) := pushAlone 0 10 ++ pushAlone 0 11 ++
      .push 1 12 :: List.replicate 2 (.access 1) ++ popAlone 0 ++ List.replicate 8 (.access 1)
    ∃ s, s.queue.allocated = 3 ∧ (system (Fin 2) Nat 3).RunBy StepOk acts s := by
  have hrun : ∃ s, (system (Fin 2) Nat 3).RunBy Unrecycled (pushAlone 0 10 ++ pushAlone 0 11 ++
      .push 1 12 :: List.replicate 2 (.access 1) ++ popAlone 0 ++
        List.replicate 8 (.access 1)) s ∧ s.queue.allocated = 3 :=
    System.exists_runBy _ (by decide +kernel)
  obtain ⟨s, hr, hs⟩ := hrun
  exact ⟨s, hs, stepOk_of_unrecycled 3 hr⟩

end Crasy.LfQueue.Concurrent
