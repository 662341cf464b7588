import Crasy.Base.Ledger
import Crasy.LfQueue.Basic

/-!
# The ends and the slots of a shared queue

Library `LfQueue`. Two parts of the invariant of a queue in concurrent use: what `head_`
and `tail_` say about the order of the entries, and what the flag of an entry says about
its object. Both speak of what threads are about to do only as maps from threads to
entries.
-/

namespace Crasy.LfQueue.Concurrent

open Crasy.Base

variable {ι α : Type}

/-! ### The two ends of the queue -/

/-- `head_` is the last entry. `tail_` is the first one, or null while a thread is going to
store it. -/
structure Ends (head tail : Option Ptr) (pending : ι → Option Ptr) (order : List Ptr) :
    Prop where
  head_last : head = order.getLast?
  pending_first : ∀ i p, pending i = some p → order.head? = some p ∧ tail = none
  unique : ∀ i j p q, pending i = some p → pending j = some q → i = j
  tail_first : (∀ i, pending i = none) → tail = order.head?

namespace Ends

variable {head tail : Option Ptr} {pending : ι → Option Ptr} {order : List Ptr}

/-- Nobody is going to store `tail_` while it is set. -/
theorem pending_none {t : Ptr} (h : Ends head (some t) pending order) (i : ι) :
    pending i = none := by
  cases hi : pending i with
  | none => rfl
  | some p => cases (h.pending_first i p hi).2

/-- A set `tail_` is the first entry. -/
theorem first_of_tail {t : Ptr} (h : Ends head (some t) pending order) :
    ∃ rest, order = t :: rest := by
  have ht := h.tail_first h.pending_none
  cases order with
  | nil => cases ht
  | cons r rest =>
    cases ht
    exact ⟨rest, rfl⟩

/-- A further entry goes behind the last one. -/
theorem snoc {a e : Ptr} (h : Ends (some a) tail pending order) :
    Ends (some e) tail pending (order ++ [e]) := by
  have hhead : (order ++ [e]).head? = order.head? := by
    cases order with
    | nil => cases h.head_last
    | cons => rfl
  exact ⟨by simp, hhead ▸ h.pending_first, h.unique, hhead ▸ h.tail_first⟩

/-- `pop` moves `tail_` on to the successor. -/
theorem advance {t n : Ptr} {rest : List Ptr} (h : Ends head (some t) pending (t :: rest))
    (hn : rest.head? = some n) : Ends head (some n) pending rest := by
  refine ⟨?_, fun i p hi ↦ ?_, h.unique, fun _ ↦ hn.symm⟩
  · cases rest with
    | nil => cases hn
    | cons r rest => rw [h.head_last, List.getLast?_cons_cons]
  · rw [h.pending_none i] at hi
    cases hi

variable [DecidableEq ι] {i : ι}

/-- The first entry ever: `tail_` is still to be stored. -/
theorem first {e : Ptr} (h : Ends none tail pending order) :
    order = [] ∧ Ends (some e) tail (Function.update pending i (some e)) [e] := by
  have hnil : order = [] := List.getLast?_eq_none_iff.mp h.head_last.symm
  subst hnil
  have hnone (j : ι) : pending j = none := by
    cases hj : pending j with
    | none => rfl
    | some p => cases (h.pending_first j p hj).1
  have honly (j : ι) (p : Ptr) (hj : Function.update pending i (some e) j = some p) :
      j = i ∧ p = e := by
    rcases update_some_eq_some.mp hj with hj | ⟨-, hj⟩
    · exact hj
    · rw [hnone j] at hj
      cases hj
  refine ⟨rfl, rfl, fun j p hj ↦ ?_, fun j k p q hj hk ↦ ?_, fun hno ↦ ?_⟩
  · rw [(honly j p hj).2]
    exact ⟨rfl, h.tail_first hnone⟩
  · exact (honly j p hj).1.trans (honly k q hk).1.symm
  · have := hno i
    rw [Function.update_self] at this
    cases this

/-- The thread stores `tail_`. -/
theorem settle {p : Ptr} (h : Ends head tail pending order) (hi : pending i = some p) :
    Ends head (some p) (Function.update pending i none) order := by
  have hnone (j : ι) : Function.update pending i none j = none := by
    rw [Function.update_apply]
    split
    · rfl
    · next hji =>
      cases hj : pending j with
      | none => rfl
      | some q => exact absurd (h.unique j i q p hj hi) hji
  refine ⟨h.head_last, fun j q hj ↦ ?_, fun j k q r hj ↦ ?_,
    fun _ ↦ (h.pending_first i p hi).1.symm⟩
  all_goals
    rw [hnone j] at hj
    cases hj

/-- `pop` takes the first entry without a successor: `tail_` is null until it is put
back. -/
theorem seize {t : Ptr} (h : Ends head (some t) pending order) :
    Ends head none (Function.update pending i (some t)) order := by
  have honly (j : ι) (p : Ptr) (hj : Function.update pending i (some t) j = some p) :
      j = i ∧ p = t := by
    rcases update_some_eq_some.mp hj with hj | ⟨-, hj⟩
    · exact hj
    · rw [h.pending_none j] at hj
      cases hj
  obtain ⟨rest, rfl⟩ := h.first_of_tail
  refine ⟨h.head_last, fun j p hj ↦ ?_, fun j k p q hj hk ↦ ?_, fun hno ↦ ?_⟩
  · rw [(honly j p hj).2]
    exact ⟨rfl, rfl⟩
  · exact (honly j p hj).1.trans (honly k q hk).1.symm
  · have := hno i
    rw [Function.update_self] at this
    cases this

end Ends

/-! ### Objects and flags -/

/-- The flag tells whether the object is there, except in the middle of `put_data` and
`take_data`. Free entries and those that threads know to be clean have no object. -/
structure Slots (entries : Ptr → Entry α) (midway clean : ι → Option Ptr)
    (free : List Ptr) : Prop where
  settled : ∀ p, (∀ i, midway i ≠ some p) → (entries p).hasValue = (entries p).data.isSome
  half : ∀ i p, midway i = some p → (entries p).hasValue = false ∧ (entries p).data ≠ none
  clean_data : ∀ i p, clean i = some p → (entries p).data = none
  free_data : ∀ p ∈ free, (entries p).data = none

namespace Slots

variable {entries entries' : Ptr → Entry α} {midway clean : ι → Option Ptr} {free : List Ptr}

/-- Links do not matter. -/
theorem congr (h : Slots entries midway clean free)
    (he : ∀ p, (entries' p).hasValue = (entries p).hasValue ∧
      (entries' p).data = (entries p).data) : Slots entries' midway clean free where
  settled p hp := by rw [(he p).1, (he p).2, h.settled p hp]
  half i p hi := by
    rw [(he p).1, (he p).2]
    exact h.half i p hi
  clean_data i p hi := by rw [(he p).2, h.clean_data i p hi]
  free_data p hp := by rw [(he p).2, h.free_data p hp]

variable [DecidableEq ι] {i : ι} {p : Ptr}

/-- A thread changes an entry that no other thread knows anything of. -/
theorem set {e : Entry α} {m c : Option Ptr} (h : Slots entries midway clean free)
    (hother : ∀ j, j ≠ i → midway j ≠ some p ∧ clean j ≠ some p) (hfree : p ∉ free)
    (hi : ∀ r, midway i = some r → r = p)
    (hm : m = none ∧ e.hasValue = e.data.isSome ∨
      m = some p ∧ e.hasValue = false ∧ e.data ≠ none)
    (hc : ∀ r, c = some r → r = p ∧ e.data = none) :
    Slots (Function.update entries p e) (Function.update midway i m)
      (Function.update clean i c) free := by
  refine ⟨fun r hr ↦ ?_, fun j r hj ↦ ?_, fun j r hj ↦ ?_, fun r hr ↦ ?_⟩
  · by_cases hrp : r = p
    · subst hrp
      rw [Function.update_self]
      rcases hm with ⟨_, he⟩ | ⟨rfl, _⟩
      · exact he
      · exact absurd (Function.update_self ..) (hr i)
    · rw [Function.update_of_ne hrp]
      apply h.settled r
      intro j hj
      by_cases hji : j = i
      · subst hji
        exact hrp (hi r hj)
      · exact hr j (by rwa [Function.update_of_ne hji])
  · rw [Function.update_apply] at hj
    split at hj
    · rcases hm with ⟨rfl, _⟩ | ⟨rfl, he⟩
      · cases hj
      · cases hj
        rw [Function.update_self]
        exact he
    · next hji =>
      have hrp : r ≠ p := by
        rintro rfl
        exact (hother j hji).1 hj
      rw [Function.update_of_ne hrp]
      exact h.half j r hj
  · rw [Function.update_apply] at hj
    split at hj
    · obtain ⟨rfl, he⟩ := hc r hj
      rw [Function.update_self, he]
    · next hji =>
      have hrp : r ≠ p := by
        rintro rfl
        exact (hother j hji).2 hj
      rw [Function.update_of_ne hrp]
      exact h.clean_data j r hj
  · rw [Function.update_of_ne (ne_of_mem_of_not_mem hr hfree)]
    exact h.free_data r hr

/-- A thread may forget that an entry is clean. -/
theorem forget (h : Slots entries midway clean free) :
    Slots entries midway (Function.update clean i none) free where
  settled := h.settled
  half := h.half
  clean_data j r hj := h.clean_data j r (update_none_eq_some.mp hj).2
  free_data := h.free_data

/-- A free entry is clean. -/
theorem take (h : Slots entries midway clean (p :: free)) :
    Slots entries midway (Function.update clean i (some p)) free where
  settled := h.settled
  half := h.half
  clean_data j r hj := by
    rcases update_some_eq_some.mp hj with ⟨-, rfl⟩ | ⟨-, hj⟩
    · exact h.free_data r List.mem_cons_self
    · exact h.clean_data j r hj
  free_data r hr := h.free_data r (List.mem_cons_of_mem _ hr)

/-- A clean entry may become free. -/
theorem give (h : Slots entries midway clean free) (hi : clean i = some p) :
    Slots entries midway (Function.update clean i none) (p :: free) where
  settled := h.settled
  half := h.half
  clean_data := h.forget.clean_data
  free_data r hr := by
    rcases List.mem_cons.mp hr with rfl | hr
    · exact h.clean_data i r hi
    · exact h.free_data r hr

end Slots

end Crasy.LfQueue.Concurrent
