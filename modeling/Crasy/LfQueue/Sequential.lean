import Crasy.Base.Linked
import Crasy.LfQueue.Basic
import Crasy.LfQueue.Fifo

/-!
# Sequential calls of the lock-free queue

Library `LfQueue`. The functions of `include/crasy/lfqueue.hpp:78–162` for calls made one
after another. No other thread runs between a load and the compare-exchange that expects
the loaded value, so each compare-exchange loop succeeds in its first round and is
written without the loop; `Crasy.LfQueue.Threads` has the loops.
-/

namespace Crasy.LfQueue

open Crasy.Base

namespace Queue

variable {α : Type}

/-- `new_entry`; `include/crasy/lfqueue.hpp:85–96`. Takes the top of the free list, or
allocates when that list is empty. -/
def newEntry (q : Queue α) : Ptr × Queue α :=
  match q.free with
  | none => (q.allocated, q.alloc)
  | some entry => (entry, { q with free := q.next entry }.setNext entry none)

/-- `del_entry`; `include/crasy/lfqueue.hpp:78–83`. -/
def delEntry (q : Queue α) (entry : Ptr) : Queue α :=
  { q.setNext entry q.free with free := some entry }

/-- The loop of the capacity constructor: each new entry is linked before the last. -/
def reserve : Nat → Queue α → Ptr → Queue α
  | 0, q, entry => { q with free := some entry }
  | i + 1, q, entry => reserve i (q.alloc.setNext q.allocated (some entry)) q.allocated

/-- `lfqueue(std::size_t initial_capacity)`; `include/crasy/lfqueue.hpp:101–112`. -/
def ofCapacity : Nat → Queue α
  | 0 => empty
  | n + 1 => reserve n (alloc empty) 0

/-- The second half of `push`; `include/crasy/lfqueue.hpp:138–143`. The exchange makes the
entry the head, and the old head, or `tail_` for the first entry ever, is linked to it. -/
def publish (q : Queue α) (entry : Ptr) : Queue α :=
  match q.head with
  | none => { q with head := some entry, tail := some entry }
  | some head => { q with head := some entry }.setNext head (some entry)

/-- `push`; `include/crasy/lfqueue.hpp:134–144`. -/
def push (q : Queue α) (v : α) : Queue α :=
  let (entry, q) := q.newEntry
  (q.set entry ((q.entries entry).putData v)).publish entry

/-- `pop`; `include/crasy/lfqueue.hpp:146–162`. The compare-exchange moves `tail_` to the
successor; a popped entry without successor is put back emptied. -/
def pop (q : Queue α) : Option α × Queue α :=
  match q.tail with
  | none => (none, q)
  | some tail =>
    let next := q.next tail
    let (ret, entry) := (q.entries tail).takeData
    let q := { q with tail := next }.set tail entry
    (ret, match next with
      | none => { q with tail := some tail }
      | some _ => q.delEntry tail)

/-- The answers of the pops of a run of sequential calls, in order. -/
def results : Queue α → List (Op α) → List (Option α)
  | _, [] => []
  | q, .push v :: ops => results (q.push v) ops
  | q, .pop :: ops => q.pop.1 :: results q.pop.2 ops

/-! ### The shape of the heap between calls -/

/-- An entry holds a value. -/
def Stores (q : Queue α) (p : Ptr) (v : α) : Prop :=
  (q.entries p).hasValue = true ∧ (q.entries p).data = some v

/-- The chain holds the contents: a value in each entry, behind an emptied front entry
where there is one. -/
def Filled (q : Queue α) (chain : List Ptr) (c : Content α) : Prop :=
  match c.drained with
  | false => List.Forall₂ q.Stores chain c.values
  | true => ∃ front rest, chain = front :: rest ∧ (q.entries front).hasValue = false ∧
      List.Forall₂ q.Stores rest c.values

/-- The heap represents the contents: the chain from `tail_` to `head_` holds them, the
free list has no values, and every entry is in exactly one of the two lists or private
to the call in progress. -/
structure Represents (q : Queue α) (priv chain free : List Ptr) (c : Content α) : Prop where
  chain_linked : Linked q.next q.tail chain
  head_last : q.head = chain.getLast?
  free_linked : Linked q.next q.free free
  nodup : (priv ++ (chain ++ free)).Nodup
  owned : ∀ p, p ∈ priv ++ (chain ++ free) ↔ p < q.allocated
  free_empty : ∀ p ∈ free, (q.entries p).hasValue = false
  filled : q.Filled chain c

private theorem forall₂_stores_of_eq {q q' : Queue α} {ps : List Ptr} {vs : List α}
    (h : List.Forall₂ q.Stores ps vs)
    (he : ∀ p ∈ ps, (q'.entries p).hasValue = (q.entries p).hasValue ∧
      (q'.entries p).data = (q.entries p).data) : List.Forall₂ q'.Stores ps vs := by
  induction h with
  | nil => exact .nil
  | cons hs _ ih =>
    obtain ⟨hv, hd⟩ := he _ List.mem_cons_self
    refine .cons ⟨hv.trans hs.1, hd.trans hs.2⟩ ?_
    exact ih fun p hp ↦ he p (List.mem_cons_of_mem _ hp)

private theorem Filled.of_eq {q q' : Queue α} {chain : List Ptr} {c : Content α}
    (h : q.Filled chain c) (he : ∀ p ∈ chain, (q'.entries p).hasValue = (q.entries p).hasValue ∧
      (q'.entries p).data = (q.entries p).data) : q'.Filled chain c := by
  cases hd : c.drained with
  | false =>
    simp only [Filled, hd] at h ⊢
    exact forall₂_stores_of_eq h he
  | true =>
    simp only [Filled, hd] at h ⊢
    obtain ⟨front, rest, rfl, hf, hs⟩ := h
    refine ⟨front, rest, rfl, (he _ List.mem_cons_self).1.trans hf, ?_⟩
    exact forall₂_stores_of_eq hs fun p hp ↦ he p (List.mem_cons_of_mem _ hp)

private theorem Filled.snoc {q : Queue α} {chain : List Ptr} {c : Content α} {p : Ptr} {v : α}
    (h : q.Filled chain c) (hs : q.Stores p v) : q.Filled (chain ++ [p]) (c.push v) := by
  have hone : List.Forall₂ q.Stores [p] [v] := .cons hs .nil
  cases hd : c.drained with
  | false =>
    simp only [Filled, Content.push, hd] at h ⊢
    exact List.rel_append h hone
  | true =>
    simp only [Filled, Content.push, hd] at h ⊢
    obtain ⟨front, rest, rfl, hf, hr⟩ := h
    exact ⟨front, rest ++ [p], rfl, hf, List.rel_append hr hone⟩

namespace Represents

variable {q : Queue α} {priv chain free : List Ptr} {c : Content α}

private theorem private_not_mem {p : Ptr} (h : q.Represents priv chain free c) (hp : p ∈ priv) :
    p ∉ chain ∧ p ∉ free := by
  have hd := (List.nodup_append.mp h.nodup).2.2 p hp
  exact ⟨fun hm ↦ hd p (List.mem_append_left _ hm) rfl,
    fun hm ↦ hd p (List.mem_append_right _ hm) rfl⟩

private theorem set_private {p : Ptr} (h : q.Represents priv chain free c) (hp : p ∈ priv)
    (e : Entry α) : (q.set p e).Represents priv chain free c := by
  obtain ⟨hc, hf⟩ := h.private_not_mem hp
  refine ⟨?_, h.head_last, ?_, h.nodup, h.owned, ?_, ?_⟩
  · rw [next_set]
    exact h.chain_linked.update hc
  · rw [next_set]
    exact h.free_linked.update hf
  · intro r hr
    rw [set_entries_ne _ _ (ne_of_mem_of_not_mem hr hf)]
    exact h.free_empty r hr
  · apply h.filled.of_eq
    intro r hr
    rw [set_entries_ne _ _ (ne_of_mem_of_not_mem hr hc)]
    exact ⟨rfl, rfl⟩

private theorem perm_free (priv chain rest : List Ptr) (p : Ptr) :
    (priv ++ (chain ++ p :: rest)).Perm (p :: priv ++ (chain ++ rest)) := by
  rw [← List.append_assoc, List.cons_append, ← List.append_assoc]
  exact List.perm_middle

private theorem perm_front (priv rest free : List Ptr) (p : Ptr) :
    (priv ++ (p :: rest ++ free)).Perm (p :: priv ++ (rest ++ free)) := by
  rw [List.cons_append, List.cons_append]
  exact List.perm_middle

private theorem perm_back (priv chain free : List Ptr) (p : Ptr) :
    (p :: priv ++ (chain ++ free)).Perm (priv ++ (chain ++ [p] ++ free)) := by
  rw [List.append_assoc, List.singleton_append]
  exact (perm_free priv chain free p).symm

/-- `new_entry` hands out an entry of neither list, without successor or value. -/
theorem newEntry (h : q.Represents priv chain free c) :
    ∃ free', q.newEntry.2.Represents (q.newEntry.1 :: priv) chain free' c ∧
      q.newEntry.2.next q.newEntry.1 = none ∧
      (q.newEntry.2.entries q.newEntry.1).hasValue = false := by
  cases hq : q.free with
  | none =>
    have hnew : q.allocated ∉ priv ++ (chain ++ free) := by
      rw [h.owned]
      exact Nat.lt_irrefl _
    have hc : q.allocated ∉ chain := fun hm ↦ hnew (by simp [hm])
    have hf : q.allocated ∉ free := fun hm ↦ hnew (by simp [hm])
    have hold (p : Ptr) (hp : p ≠ q.allocated) : q.alloc.entries p = q.entries p :=
      set_entries_ne q Entry.new hp
    simp only [Queue.newEntry, hq]
    refine ⟨free, ⟨?_, h.head_last, ?_, ?_, ?_, ?_, ?_⟩, ?_, ?_⟩
    · exact (next_set q q.allocated Entry.new) ▸ h.chain_linked.update hc
    · exact (next_set q q.allocated Entry.new) ▸ h.free_linked.update hf
    · exact List.nodup_cons.mpr ⟨hnew, h.nodup⟩
    · intro p
      rw [List.cons_append, List.mem_cons, h.owned]
      exact or_comm.trans Nat.lt_succ_iff_lt_or_eq.symm
    · intro p hp
      rw [hold p (ne_of_mem_of_not_mem hp hf)]
      exact h.free_empty p hp
    · apply h.filled.of_eq
      intro p hp
      rw [hold p (ne_of_mem_of_not_mem hp hc)]
      exact ⟨rfl, rfl⟩
    · exact congrArg Entry.next (set_entries_self q q.allocated Entry.new)
    · exact congrArg Entry.hasValue (set_entries_self q q.allocated Entry.new)
  | some entry =>
    have hl := h.free_linked
    rw [hq] at hl
    obtain ⟨rest, rfl, hrest⟩ := hl.exists_cons
    have hperm := perm_free priv chain rest entry
    have hnd := hperm.nodup_iff.mp h.nodup
    have hout := (List.nodup_cons.mp hnd).1
    have hc : entry ∉ chain := fun hm ↦ hout (by simp [hm])
    have hf : entry ∉ rest := fun hm ↦ hout (by simp [hm])
    simp only [Queue.newEntry, hq]
    refine ⟨rest, ⟨?_, h.head_last, ?_, hnd, ?_, ?_, ?_⟩, ?_, ?_⟩
    · rw [next_setNext]
      exact h.chain_linked.update hc
    · rw [next_setNext]
      exact hrest.update hf
    · intro p
      rw [← hperm.mem_iff]
      exact h.owned p
    · intro p hp
      rw [setNext, set_entries_ne _ _ (ne_of_mem_of_not_mem hp hf)]
      exact h.free_empty p (List.mem_cons_of_mem _ hp)
    · apply h.filled.of_eq
      intro p hp
      rw [setNext, set_entries_ne _ _ (ne_of_mem_of_not_mem hp hc)]
      exact ⟨rfl, rfl⟩
    · rw [next_setNext, Function.update_self]
    · rw [setNext, set_entries_self]
      exact h.free_empty entry List.mem_cons_self

/-- `del_entry` puts a private entry without value on top of the free list. -/
theorem delEntry {p : Ptr} (h : q.Represents (p :: priv) chain free c)
    (hv : (q.entries p).hasValue = false) :
    (q.delEntry p).Represents priv chain (p :: free) c := by
  have hset := h.set_private List.mem_cons_self { q.entries p with next := q.free }
  have hperm := (perm_free priv chain free p).symm
  refine ⟨hset.chain_linked, h.head_last, ⟨rfl, ?_⟩, hperm.nodup_iff.mp h.nodup, ?_, ?_,
    hset.filled⟩
  · have hn : (q.delEntry p).next p = q.free := by
      change (q.setNext p q.free).next p = q.free
      rw [next_setNext, Function.update_self]
    rw [hn]
    exact hset.free_linked
  · intro r
    rw [← hperm.mem_iff]
    exact h.owned r
  · intro r hr
    rcases List.mem_cons.mp hr with rfl | hm
    · change ((q.setNext r q.free).entries r).hasValue = false
      rwa [setNext, set_entries_self]
    · exact hset.free_empty r hm

/-- Publishing a private entry with a value makes it the last of the chain. -/
theorem publish {p : Ptr} {v : α} (h : q.Represents (p :: priv) chain free c)
    (hn : q.next p = none) (hs : q.Stores p v) :
    (q.publish p).Represents priv (chain ++ [p]) free (c.push v) := by
  obtain ⟨hc, hf⟩ := h.private_not_mem List.mem_cons_self
  have hperm := perm_back priv chain free p
  have hnd := hperm.nodup_iff.mp h.nodup
  have hown (r : Ptr) : r ∈ priv ++ (chain ++ [p] ++ free) ↔ r < q.allocated := by
    rw [← hperm.mem_iff]
    exact h.owned r
  have hlast : some p = (chain ++ [p]).getLast? := by simp
  rcases List.eq_nil_or_concat chain with rfl | ⟨init, t, rfl⟩
  · have hq : q.head = none := h.head_last
    simp only [Queue.publish, hq]
    refine ⟨⟨rfl, ?_⟩, rfl, h.free_linked, hnd, hown, h.free_empty, h.filled.snoc hs⟩
    exact hn
  · rw [List.concat_eq_append] at *
    have hq : q.head = some t := by simpa using h.head_last
    have htf : t ∉ free := by
      intro hm
      have hd := (List.nodup_append.mp h.nodup).2.1
      exact (List.nodup_append.mp hd).2.2 t (by simp) t hm rfl
    have hti : t ∉ init := by
      have hd := (List.nodup_append.mp (List.nodup_append.mp h.nodup).2.1).1
      exact fun hm ↦ (List.nodup_append.mp hd).2.2 t hm t (by simp) rfl
    simp only [Queue.publish, hq]
    refine ⟨?_, hlast, ?_, hnd, hown, ?_, ?_⟩
    · rw [next_setNext]
      exact h.chain_linked.snoc hti hc hn
    · rw [next_setNext]
      exact h.free_linked.update htf
    · intro r hr
      rw [setNext, set_entries_ne _ _ (ne_of_mem_of_not_mem hr htf)]
      exact h.free_empty r hr
    · apply (h.filled.snoc hs).of_eq
      intro r _
      by_cases he : r = t
      · subst he
        rw [setNext, set_entries_self]
        exact ⟨rfl, rfl⟩
      · rw [setNext, set_entries_ne _ _ he]
        exact ⟨rfl, rfl⟩

/-- A push appends the value to the contents. -/
theorem push (h : q.Represents [] chain free c) (v : α) :
    ∃ chain' free', (q.push v).Represents [] chain' free' (c.push v) := by
  obtain ⟨free', hr, hn, _⟩ := h.newEntry
  have hset := hr.set_private List.mem_cons_self
    ((q.newEntry.2.entries q.newEntry.1).putData v)
  refine ⟨chain ++ [q.newEntry.1], free', hset.publish ?_ ?_⟩
  · rwa [next_set_of_next _ _ _ (by rfl)]
  · rw [Stores, set_entries_self]
    exact ⟨rfl, rfl⟩

end Represents

/-! ### Pops -/

private theorem takeData_empty (e : Entry α) :
    e.takeData.2.hasValue = false ∧ e.takeData.2.next = e.next := by
  unfold Entry.takeData
  split
  · exact ⟨rfl, rfl⟩
  · next h => exact ⟨by simpa using h, rfl⟩

private theorem Filled.front {q : Queue α} {t : Ptr} {rest : List Ptr} {c : Content α}
    (h : q.Filled (t :: rest) c) :
    (q.entries t).takeData.1 = c.pop.1 ∧
      c.pop.2.drained = rest.isEmpty ∧ List.Forall₂ q.Stores rest c.pop.2.values := by
  cases hd : c.drained with
  | true =>
    simp only [Filled, hd] at h
    obtain ⟨front, rest', he, hf, hs⟩ := h
    cases he
    have htake : (q.entries t).takeData.1 = none := by simp [Entry.takeData, hf]
    cases hv : c.values with
    | nil =>
      rw [hv, List.forall₂_nil_right_iff] at hs
      rw [Content.pop_nil hv, hs, hv]
      exact ⟨htake, hd, .nil⟩
    | cons v vs =>
      have hne : rest.isEmpty = false := by
        rw [hv] at hs
        cases hs
        rfl
      rw [Content.pop_drained hd (by simp [hv])]
      exact ⟨htake, hne.symm, hs⟩
  | false =>
    simp only [Filled, hd] at h
    cases hv : c.values with
    | nil =>
      rw [hv] at h
      cases h
    | cons v vs =>
      rw [hv] at h
      obtain ⟨hs, hr⟩ := List.forall₂_cons.mp h
      rw [Content.pop_cons hd hv]
      refine ⟨by simp [Entry.takeData, hs.1, hs.2], ?_, hr⟩
      cases hr <;> rfl

private theorem filled_of_forall₂ {q : Queue α} {chain : List Ptr} {c : Content α}
    (hd : c.drained = false) (h : List.Forall₂ q.Stores chain c.values) :
    q.Filled chain c := by
  simp only [Filled, hd]
  exact h

private theorem filled_of_front {q : Queue α} {front : Ptr} {rest : List Ptr} {c : Content α}
    (hd : c.drained = true) (hf : (q.entries front).hasValue = false)
    (h : List.Forall₂ q.Stores rest c.values) : q.Filled (front :: rest) c := by
  simp only [Filled, hd]
  exact ⟨front, rest, rfl, hf, h⟩

/-- A pop answers as the contents do, and leaves the contents they leave. -/
theorem Represents.pop {q : Queue α} {chain free : List Ptr} {c : Content α}
    (h : q.Represents [] chain free c) :
    q.pop.1 = c.pop.1 ∧ ∃ chain' free', q.pop.2.Represents [] chain' free' c.pop.2 := by
  have hlinked := h.chain_linked
  match chain, hlinked with
  | [], hl =>
    have ht : q.tail = none := hl
    have hvals : c.values = [] ∧ c.drained = false := by
      have hf := h.filled
      cases hd : c.drained with
      | false =>
        simp only [Filled, hd] at hf
        cases hv : c.values with
        | nil => exact ⟨rfl, rfl⟩
        | cons v vs =>
          rw [hv] at hf
          cases hf
      | true =>
        simp only [Filled, hd] at hf
        obtain ⟨front, rest, he, _⟩ := hf
        cases he
    rw [Content.pop_nil hvals.1]
    simp only [Queue.pop, ht]
    exact ⟨trivial, [], free, h⟩
  | [t], hl =>
    obtain ⟨htail, hnext⟩ := hl
    have hnext : q.next t = none := hnext
    obtain ⟨hret, hdr, hs⟩ := h.filled.front
    obtain ⟨hv, hlink⟩ := takeData_empty (q.entries t)
    have hsame : (q.set t (q.entries t).takeData.2).next = q.next := next_set_of_next _ _ _ hlink
    have htf : t ∉ free := by
      have hd := (List.nodup_append.mp h.nodup).2.1
      exact fun hm ↦ (List.nodup_append.mp hd).2.2 t List.mem_cons_self t hm rfl
    simp only [Queue.pop, htail, hnext]
    refine ⟨hret, [t], free, ⟨rfl, ?_⟩, h.head_last, ?_, h.nodup, h.owned, ?_, ?_⟩
    · change (q.set t (q.entries t).takeData.2).next t = none
      rw [hsame, hnext]
    · change Linked (q.set t (q.entries t).takeData.2).next q.free free
      rw [hsame]
      exact h.free_linked
    · intro r hr
      change ((q.set t _).entries r).hasValue = false
      rw [set_entries_ne _ _ (ne_of_mem_of_not_mem hr htf)]
      exact h.free_empty r hr
    · apply filled_of_front hdr
      · change ((q.set t _).entries t).hasValue = false
        rwa [set_entries_self]
      · rw [List.forall₂_nil_left_iff.mp hs]
        exact .nil
  | t :: u :: rest, hl =>
    obtain ⟨htail, hnext, hrest⟩ := hl
    obtain ⟨hret, hdr, hs⟩ := h.filled.front
    obtain ⟨hv, _⟩ := takeData_empty (q.entries t)
    have hperm := perm_front [] (u :: rest) free t
    -- the front entry becomes private to the call, and the chain starts behind it
    have hmoved : { q with tail := q.next t }.Represents [t] (u :: rest) free c.pop.2 := by
      refine ⟨⟨hnext, hrest⟩, ?_, h.free_linked, hperm.nodup_iff.mp h.nodup, ?_, h.free_empty,
        filled_of_forall₂ hdr hs⟩
      · rw [h.head_last, List.getLast?_cons_cons]
      · intro r
        rw [← hperm.mem_iff]
        exact h.owned r
    have hset := hmoved.set_private List.mem_cons_self (q.entries t).takeData.2
    simp only [Queue.pop, htail, hnext]
    rw [hnext] at hset
    refine ⟨hret, u :: rest, t :: free, hset.delEntry ?_⟩
    rwa [set_entries_self]

/-- Sequential calls answer as the contents do. -/
theorem Represents.results {q : Queue α} {chain free : List Ptr} {c : Content α}
    (h : q.Represents [] chain free c) (ops : List (Op α)) : q.results ops = c.results ops := by
  induction ops generalizing q chain free c with
  | nil => rfl
  | cons op ops ih =>
    cases op with
    | push v =>
      obtain ⟨chain', free', hr⟩ := h.push v
      exact ih hr
    | pop =>
      obtain ⟨hret, chain', free', hr⟩ := h.pop
      simp only [Queue.results, Content.results]
      rw [hret, ih hr]

/-! ### Construction -/

/-- A default-constructed queue has neither chain nor free list. -/
theorem represents_empty : (empty : Queue α).Represents [] [] [] .empty where
  chain_linked := rfl
  head_last := rfl
  free_linked := rfl
  nodup := List.nodup_nil
  owned p := by simp [empty]
  free_empty p hp := by cases hp
  filled := .nil

private theorem represents_reserve (n : Nat) (q : Queue α) (free : List Ptr) {entry : Ptr}
    (hfree : Linked q.next (some entry) free) (hown : ∀ p, p ∈ free ↔ p < q.allocated)
    (hnd : free.Nodup) (hempty : ∀ p ∈ free, (q.entries p).hasValue = false)
    (hhead : q.head = none) (htail : q.tail = none) :
    ∃ free', (reserve n q entry).Represents [] [] free' .empty := by
  induction n generalizing q free entry with
  | zero => exact ⟨free, htail, hhead, hfree, hnd, hown, hempty, .nil⟩
  | succ n ih =>
    have hnew : q.allocated ∉ free := by
      rw [hown]
      exact Nat.lt_irrefl _
    refine ih (q.alloc.setNext q.allocated (some entry)) (q.allocated :: free) ⟨rfl, ?_⟩ ?_
      (List.nodup_cons.mpr ⟨hnew, hnd⟩) ?_ hhead htail
    · rw [next_setNext, Function.update_self]
      refine Linked.update ?_ hnew
      exact (next_set q q.allocated Entry.new) ▸ hfree.update hnew
    · intro p
      rw [List.mem_cons, hown]
      exact or_comm.trans Nat.lt_succ_iff_lt_or_eq.symm
    · intro p hp
      rcases List.mem_cons.mp hp with rfl | hm
      · rw [setNext, set_entries_self]
        exact congrArg Entry.hasValue (set_entries_self q _ Entry.new)
      · rw [setNext, set_entries_ne _ _ (ne_of_mem_of_not_mem hm hnew)]
        refine (congrArg Entry.hasValue
          (set_entries_ne q Entry.new (ne_of_mem_of_not_mem hm hnew))).trans ?_
        exact hempty p hm

private theorem reserve_vacant (n : Nat) (q : Queue α) (entry : Ptr)
    (hq : ∀ p, (q.entries p).data = none ∧ (q.entries p).hasValue = false) (p : Ptr) :
    ((reserve n q entry).entries p).data = none ∧
      ((reserve n q entry).entries p).hasValue = false := by
  induction n generalizing q entry with
  | zero => exact hq p
  | succ n ih =>
    apply ih _ _
    intro r
    by_cases hr : r = q.allocated
    · subst hr
      rw [setNext, set_entries_self, alloc, set_entries_self]
      exact ⟨rfl, rfl⟩
    · rw [setNext, set_entries_ne _ _ hr, alloc, set_entries_ne _ _ hr]
      exact hq r

/-- A new queue holds no values. -/
theorem ofCapacity_vacant (n : Nat) (p : Ptr) :
    ((ofCapacity n : Queue α).entries p).data = none ∧
      ((ofCapacity n : Queue α).entries p).hasValue = false := by
  cases n with
  | zero => exact ⟨rfl, rfl⟩
  | succ n =>
    refine reserve_vacant n _ _ (fun r ↦ ?_) p
    by_cases hr : r = 0
    · subst hr
      exact ⟨rfl, rfl⟩
    · have hold : (alloc empty).entries r = (Entry.new : Entry α) :=
        set_entries_ne empty Entry.new hr
      rw [hold]
      exact ⟨rfl, rfl⟩

/-- The capacity constructor leaves all its entries on the free list. -/
theorem represents_ofCapacity (n : Nat) :
    ∃ free, (ofCapacity n : Queue α).Represents [] [] free .empty := by
  cases n with
  | zero => exact ⟨[], represents_empty⟩
  | succ n =>
    refine represents_reserve n _ [0] ⟨rfl, rfl⟩ ?_ (List.nodup_singleton 0) ?_ rfl rfl
    · intro p
      rw [List.mem_singleton]
      exact Nat.lt_one_iff.symm
    · intro p hp
      rw [List.mem_singleton.mp hp]
      rfl

/-- Sequential use is first-in-first-out exactly on the runs that never pop after a push
has refilled a queue that was popped empty. -/
theorem results_eq_fifo_iff (capacity : Nat) (ops : List (Op α)) :
    (ofCapacity capacity).results ops = Fifo.results [] ops ↔ NoPopAfterRefill ops := by
  obtain ⟨free, hr⟩ := @represents_ofCapacity α capacity
  rw [hr.results ops, results_eq_iff]

/-- Two values pushed and popped in turn: the second pop returns nothing, although its
value is stored. -/
theorem results_drain_refill :
    ¬∀ (capacity : Nat) (ops : List (Op Nat)),
      (ofCapacity capacity).results ops = Fifo.results [] ops := by
  intro h
  have hr := h 0 [.push 1, .pop, .push 2, .pop]
  revert hr
  decide

end Queue
end Crasy.LfQueue
