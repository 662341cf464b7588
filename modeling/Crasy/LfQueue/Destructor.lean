import Crasy.LfQueue.Sequential
import Mathlib.Data.List.ReduceOption
import Mathlib.Data.List.Infix
import Mathlib.Data.List.MinMax
import Mathlib.Data.List.Range

/-!
# The life of the entries under sequential use

Library `LfQueue`. Models the destructor, `include/crasy/lfqueue.hpp:26–30,114–127`, and
follows the entries from their allocation to their deletion: after any run of sequential calls
the chain and the free list share all of them, no more are allocated than the run needs, and
the destructor deletes each one once.
-/

namespace Crasy.LfQueue

open Crasy.Base

variable {α : Type}

/-- The value that an entry holds: the object, if the flag is set. -/
def Entry.value (e : Entry α) : Option α := if e.hasValue then e.data else none

/-- The values that a run pushes, in order. -/
def pushes : List (Op α) → List α
  | [] => []
  | .push v :: ops => v :: pushes ops
  | .pop :: ops => pushes ops

private theorem Content.values_append_pushes (c : Content α) (ops : List (Op α)) :
    c.values ++ pushes ops = (c.results ops).reduceOption ++ (c.run ops).values := by
  induction ops generalizing c with
  | nil => exact List.append_nil _
  | cons op ops ih =>
    cases op with
    | push v =>
      rw [pushes, results, run, ← ih, push_values, List.append_assoc]
      rfl
    | pop =>
      rw [pushes, results, run]
      cases hp : c.pop.1 with
      | none => rw [List.reduceOption_cons_of_none, ← ih, pop_none hp]
      | some v => rw [List.reduceOption_cons_of_some, List.cons_append, ← ih, pop_some hp]; rfl

namespace Queue

/-- The queue after a run of sequential calls. -/
def run : Queue α → List (Op α) → Queue α
  | q, [] => q
  | q, .push v :: ops => run (q.push v) ops
  | q, .pop :: ops => run q.pop.2 ops

/-- The value that an entry holds. -/
def value (q : Queue α) (p : Ptr) : Option α := (q.entries p).value

/-- The values that the pops of a run have returned. -/
def delivered (q : Queue α) (ops : List (Op α)) : List α := (q.results ops).reduceOption

/-- The values that a run has pushed and not returned. -/
def undelivered (q : Queue α) (ops : List (Op α)) : List α :=
  (pushes ops).drop (q.delivered ops).length

/-- The largest number of undelivered values at any time during a run. -/
def peak (q : Queue α) (ops : List (Op α)) : Nat :=
  (ops.inits.map fun before ↦ (q.undelivered before).length).foldr max 0

/-! ### The destructor -/

/-- A loop of the destructor, with the entries it deletes and the values that `~data_t`
destroys with them; `include/crasy/lfqueue.hpp:116–120`. -/
def deleteChain (q : Queue α) : Nat → Option Ptr → Option (List Ptr × List α)
  | _, none => some ([], [])
  | 0, some _ => none
  | fuel + 1, some entry =>
    (q.deleteChain fuel (q.next entry)).map fun (deleted, destroyed) ↦
      (entry :: deleted, (q.value entry).toList ++ destroyed)

/-- `~lfqueue()`: the chain from `tail_`, then the free list;
`include/crasy/lfqueue.hpp:114–127`. -/
def destroy (q : Queue α) (fuel : Nat) : Option (List Ptr × List α) :=
  (q.deleteChain fuel q.tail).bind fun (chain, values) ↦
    (q.deleteChain fuel q.free).map fun (free, values') ↦ (chain ++ free, values ++ values')

private theorem deleteChain_of_linked {q : Queue α} {root : Option Ptr} {ps : List Ptr}
    (h : Linked q.next root ps) {fuel : Nat} (hfuel : ps.length ≤ fuel) :
    q.deleteChain fuel root = some (ps, ps.filterMap q.value) := by
  induction ps generalizing root fuel with
  | nil =>
    cases h
    cases fuel <;> rfl
  | cons p rest ih =>
    obtain ⟨rfl, hrest⟩ := h
    cases fuel with
    | zero => cases hfuel
    | succ fuel =>
      rw [deleteChain, ih hrest (Nat.le_of_succ_le_succ hfuel), Option.map_some]
      cases hv : q.value p with
      | none => rw [List.filterMap_cons_none hv]; rfl
      | some v => rw [List.filterMap_cons_some hv]; rfl

/-! ### Flags that tell the truth -/

/-- Between calls the flag of every entry says whether its object is there. -/
def Truthful (q : Queue α) : Prop := ∀ p, (q.entries p).hasValue = (q.entries p).data.isSome

namespace Truthful

variable {q : Queue α}

private theorem set (h : q.Truthful) {p : Ptr} {e : Entry α} (he : e.hasValue = e.data.isSome) :
    (q.set p e).Truthful := by
  intro r
  by_cases hr : r = p
  · rw [hr, set_entries_self]
    exact he
  · rw [set_entries_ne _ _ hr]
    exact h r

private theorem setNext (h : q.Truthful) (p : Ptr) (n : Option Ptr) : (q.setNext p n).Truthful :=
  h.set (h p)

theorem newEntry (h : q.Truthful) : q.newEntry.2.Truthful := by
  unfold Queue.newEntry
  split
  · exact h.set rfl
  · exact setNext (q := { q with free := q.next _ }) h _ _

theorem push (h : q.Truthful) (v : α) : (q.push v).Truthful := by
  have hput : (q.newEntry.2.set q.newEntry.1
      ((q.newEntry.2.entries q.newEntry.1).putData v)).Truthful := h.newEntry.set rfl
  unfold Queue.push Queue.publish
  dsimp only
  split
  · exact hput
  · exact setNext (q := { q.newEntry.2.set _ _ with head := some _ }) hput _ _

theorem pop (h : q.Truthful) : q.pop.2.Truthful := by
  unfold Queue.pop
  split
  · exact h
  · next t _ =>
    have htake : (q.entries t).takeData.2.hasValue = (q.entries t).takeData.2.data.isSome := by
      unfold Entry.takeData
      split
      · rfl
      · exact h t
    have hset : (Queue.set { q with tail := q.next t } t (q.entries t).takeData.2).Truthful :=
      set (q := { q with tail := q.next t }) h htake
    dsimp only
    split
    · exact hset
    · exact hset.setNext t _

theorem run (h : q.Truthful) (ops : List (Op α)) : (q.run ops).Truthful := by
  induction ops generalizing q with
  | nil => exact h
  | cons op ops ih =>
    cases op with
    | push v => exact ih (h.push v)
    | pop => exact ih h.pop

end Truthful

/-! ### The entries between calls -/

/-- Runs keep the heap in shape. -/
theorem Represents.run {q : Queue α} {chain free : List Ptr} {c : Content α}
    (h : q.Represents [] chain free c) (ops : List (Op α)) :
    ∃ chain' free', (q.run ops).Represents [] chain' free' (c.run ops) := by
  induction ops generalizing q chain free c with
  | nil => exact ⟨chain, free, h⟩
  | cons op ops ih =>
    cases op with
    | push v =>
      obtain ⟨chain', free', hr⟩ := h.push v
      exact ih hr
    | pop =>
      obtain ⟨-, chain', free', hr⟩ := h.pop
      exact ih hr

private theorem Stores.value {q : Queue α} {p : Ptr} {v : α} (h : q.Stores p v) :
    q.value p = some v := by
  rw [Queue.value, Entry.value, if_pos h.1, h.2]

private theorem values_of_stores {q : Queue α} {ps : List Ptr} {vs : List α}
    (h : List.Forall₂ q.Stores ps vs) :
    ps.filterMap q.value = vs ∧ ∀ p ∈ ps, q.value p ≠ none := by
  induction h with
  | nil => exact ⟨rfl, fun p hp ↦ absurd hp List.not_mem_nil⟩
  | cons hs _ ih =>
    refine ⟨by rw [List.filterMap_cons_some hs.value, ih.1], fun p hp ↦ ?_⟩
    rcases List.mem_cons.mp hp with rfl | hp
    · rw [hs.value]
      exact Option.some_ne_none _
    · exact ih.2 p hp

private theorem Filled.values {q : Queue α} {chain : List Ptr} {c : Content α}
    (h : q.Filled chain c) :
    chain.filterMap q.value = c.values ∧
      (∀ p ∈ chain, q.value p = none → chain.head? = some p) ∧
      chain.length ≤ 1 + c.values.length := by
  cases hd : c.drained with
  | false =>
    simp only [Filled, hd] at h
    obtain ⟨hvals, hfull⟩ := values_of_stores h
    refine ⟨hvals, fun p hp hnone ↦ absurd hnone (hfull p hp), ?_⟩
    have := h.length_eq
    omega
  | true =>
    simp only [Filled, hd] at h
    obtain ⟨front, rest, rfl, hf, hs⟩ := h
    obtain ⟨hvals, hfull⟩ := values_of_stores hs
    have hfront : q.value front = none := by
      rw [Queue.value, Entry.value, hf]
      rfl
    refine ⟨?_, fun p hp hnone ↦ ?_, ?_⟩
    · rw [List.filterMap_cons_none hfront, hvals]
    · rcases List.mem_cons.mp hp with rfl | hp
      · rfl
      · exact absurd hnone (hfull p hp)
    · have := hs.length_eq
      rw [List.length_cons]
      omega

private theorem Represents.length_eq {q : Queue α} {chain free : List Ptr} {c : Content α}
    (h : q.Represents [] chain free c) : chain.length + free.length = q.allocated := by
  have hperm : (chain ++ free).Perm (List.range q.allocated) := by
    refine (List.perm_ext_iff_of_nodup h.nodup List.nodup_range).mpr fun p ↦ ?_
    rw [List.mem_range]
    exact h.owned p
  rw [← List.length_append, hperm.length_eq, List.length_range]

private theorem allocated_push (q : Queue α) (v : α) :
    (q.push v).allocated = q.allocated ∨ (q.push v).free = none := by
  have hpublish (q : Queue α) (entry : Ptr) : (q.publish entry).allocated = q.allocated ∧
      (q.publish entry).free = q.free := by
    unfold publish
    split <;> exact ⟨rfl, rfl⟩
  unfold push
  dsimp only
  rw [(hpublish _ _).1, (hpublish _ _).2]
  unfold newEntry
  split
  · next hfree => exact .inr hfree
  · exact .inl rfl

private theorem allocated_pop (q : Queue α) : q.pop.2.allocated = q.allocated := by
  unfold pop
  split
  · rfl
  · dsimp only
    split <;> rfl

/-- The capacity constructor allocates as many entries as it was told. -/
theorem allocated_ofCapacity (n : Nat) : (ofCapacity n : Queue α).allocated = n := by
  have hreserve (i : Nat) (q : Queue α) (entry : Ptr) :
      (reserve i q entry).allocated = q.allocated + i := by
    induction i generalizing q entry with
    | zero => rfl
    | succ i ih =>
      rw [reserve, ih]
      exact Nat.succ_add_eq_add_succ ..
  cases n with
  | zero => rfl
  | succ n =>
    rw [ofCapacity, hreserve]
    exact Nat.add_comm ..

/-! ### Whole runs -/

/-- The entries of a queue between two calls: a chain and a free list that are finite, without
cycle, disjoint and together everything allocated. Free entries are empty, the chain ends in
`head_`, only its first entry may be empty, and it holds the values in order. -/
structure Conserved (q : Queue α) (chain free : List Ptr) (values : List α) : Prop where
  chain_linked : Linked q.next q.tail chain
  free_linked : Linked q.next q.free free
  nodup : (chain ++ free).Nodup
  total : ∀ p, p ∈ chain ++ free ↔ p < q.allocated
  head_last : q.head = chain.getLast?
  free_empty : ∀ p ∈ free, (q.entries p).hasValue = false ∧ (q.entries p).data = none
  front_empty : ∀ p ∈ chain, q.value p = none → q.tail = some p
  held : chain.filterMap q.value = values

theorem run_append (q : Queue α) (ops ops' : List (Op α)) :
    q.run (ops ++ ops') = (q.run ops).run ops' := by
  induction ops generalizing q with
  | nil => rfl
  | cons op ops ih => cases op <;> exact ih _

private theorem Represents.undelivered {q : Queue α} {chain free : List Ptr}
    (h : q.Represents [] chain free .empty) (ops : List (Op α)) :
    pushes ops = q.delivered ops ++ q.undelivered ops ∧
      (Content.empty.run ops).values = q.undelivered ops := by
  have hvals : pushes ops = q.delivered ops ++ (Content.empty.run ops).values := by
    rw [delivered, h.results ops]
    exact Content.empty.values_append_pushes ops
  have hdrop : q.undelivered ops = (Content.empty.run ops).values := by
    rw [Queue.undelivered, hvals, List.drop_left]
  rw [hdrop]
  exact ⟨hvals, rfl⟩

/-- The heap of a run is conserved. -/
theorem Represents.conserved {q : Queue α} {chain free : List Ptr} {c : Content α}
    (h : q.Represents [] chain free c) (ht : q.Truthful) :
    q.Conserved chain free c.values := by
  obtain ⟨hvals, hfront, -⟩ := h.filled.values
  refine ⟨h.chain_linked, h.free_linked, h.nodup, h.owned, h.head_last, fun p hp ↦ ?_,
    fun p hp hnone ↦ ?_, hvals⟩
  · have hflag := h.free_empty p hp
    refine ⟨hflag, ?_⟩
    rw [ht p] at hflag
    simpa using hflag
  · have hhead := hfront p hp hnone
    cases chain with
    | nil => cases hp
    | cons r rest =>
      cases hhead
      exact h.chain_linked.1

/-- No more undelivered values than the peak at any time. -/
theorem length_undelivered_le_peak (q : Queue α) {before ops : List (Op α)}
    (h : before <+: ops) : (q.undelivered before).length ≤ q.peak ops :=
  List.le_max_of_le' 0 (List.mem_map_of_mem ((List.mem_inits before ops).mpr h)) le_rfl

/-- Entries beyond the initial capacity are allocated only while the chain takes up all. -/
theorem allocated_run_le {q : Queue α} {chain free : List Ptr}
    (h : q.Represents [] chain free .empty) (ops : List (Op α)) :
    (q.run ops).allocated ≤ max q.allocated (1 + q.peak ops) := by
  have hpeak : ∃ before, before <+: ops ∧
      (q.run ops).allocated ≤ max q.allocated (1 + (q.undelivered before).length) := by
    induction ops using List.reverseRecOn with
    | nil => exact ⟨[], List.prefix_rfl, Nat.le_max_left ..⟩
    | append_singleton ops op ih =>
      obtain ⟨before, hb, hle⟩ := ih
      have hb' := hb.trans (List.prefix_append ops [op])
      rw [run_append]
      cases op with
      | pop => exact ⟨before, hb', (allocated_pop _).trans_le hle⟩
      | push v =>
        rcases allocated_push (q.run ops) v with hsame | hfree
        · exact ⟨before, hb', hsame.trans_le hle⟩
        -- every entry is in the chain, and at most one of them is empty
        · refine ⟨ops ++ [.push v], List.prefix_rfl, ?_⟩
          obtain ⟨chain', free', hr⟩ := h.run (ops ++ [Op.push v])
          have hlen := hr.length_eq
          have hchain := hr.filled.values.2.2
          rw [(h.undelivered (ops ++ [Op.push v])).2] at hchain
          have hnil : free' = [] := by
            have hl := hr.free_linked
            rw [run_append] at hl
            change Linked _ ((q.run ops).push v).free free' at hl
            rw [hfree] at hl
            cases free' with
            | nil => rfl
            | cons p rest => cases hl.1
          rw [hnil, run_append] at hlen
          exact (Nat.le_of_eq hlen.symm).trans (hchain.trans (Nat.le_max_right ..))
  obtain ⟨before, hb, hle⟩ := hpeak
  have := q.length_undelivered_le_peak hb
  omega

/-- The destructor deletes the entries of the chain and of the free list, and destroys the
values of the chain. -/
theorem Conserved.destroy {q : Queue α} {chain free : List Ptr} {values : List α}
    (h : q.Conserved chain free values) {fuel : Nat} (hc : chain.length ≤ fuel)
    (hf : free.length ≤ fuel) : q.destroy fuel = some (chain ++ free, values) := by
  have hnone : free.filterMap q.value = [] := by
    rw [List.filterMap_eq_nil_iff]
    intro p hp
    rw [value, Entry.value, (h.free_empty p hp).1]
    rfl
  rw [Queue.destroy, deleteChain_of_linked h.chain_linked hc,
    deleteChain_of_linked h.free_linked hf, hnone, h.held]
  exact congrArg (fun vs ↦ some (chain ++ free, vs)) (List.append_nil values)

/-- After any run of sequential calls the entries are conserved, with the undelivered values in
the chain; no more of them are allocated than the initial capacity or one more than the peak of
undelivered values; and the destructor, whose loops end, deletes each of them once and destroys
each undelivered value once. -/
theorem entries_conserved (n : Nat) (ops : List (Op α)) (extra : Nat) :
    let q := (ofCapacity n).run ops
    let undelivered := (ofCapacity n).undelivered ops
    pushes ops = (ofCapacity n).delivered ops ++ undelivered ∧
      (∃ chain free, q.Conserved chain free undelivered) ∧
      q.allocated ≤ max n (1 + (ofCapacity n).peak ops) ∧
      ∃ deleted, q.destroy (q.allocated + extra) = some (deleted, undelivered) ∧
        deleted.Perm (List.range q.allocated) := by
  obtain ⟨free₀, h₀⟩ := @represents_ofCapacity α n
  have ht : ((ofCapacity n).run ops).Truthful := by
    refine Truthful.run (fun p ↦ ?_) ops
    obtain ⟨hdata, hflag⟩ := @ofCapacity_vacant α n p
    rw [hdata, hflag]
    rfl
  obtain ⟨hpushes, hvals⟩ := h₀.undelivered ops
  obtain ⟨chain, free, h⟩ := h₀.run ops
  have hc := h.conserved ht
  rw [hvals] at hc
  have hlen := h.length_eq
  have hle := allocated_run_le h₀ ops
  rw [allocated_ofCapacity] at hle
  refine ⟨hpushes, ⟨chain, free, hc⟩, hle, chain ++ free, hc.destroy ?_ ?_, ?_⟩
  · omega
  · omega
  · refine (List.perm_ext_iff_of_nodup hc.nodup List.nodup_range).mpr fun p ↦ ?_
    rw [List.mem_range]
    exact hc.total p

end Queue
end Crasy.LfQueue
