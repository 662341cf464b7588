import Crasy.Base.Tally
import Mathlib.Data.Finset.Option
import Mathlib.Data.List.Nodup

/-!
# Ledgers of resources

Library `Base`. Resources move between a common pool and the parties of a system, each
of which holds at most one of them outside the pool. The ledger says that none is lost
and none is in two places; every move keeps it.
-/

namespace Crasy.Base

section Update

variable {ι β : Type*} [DecidableEq ι] {f : ι → Option β} {i j : ι} {a b : β}

/-- Who has something after one party has received it. -/
theorem update_some_eq_some :
    Function.update f i (some a) j = some b ↔ j = i ∧ b = a ∨ j ≠ i ∧ f j = some b := by
  by_cases h : j = i
  · subst h
    simp [eq_comm]
  · simp [h]

/-- Who has something after one party has given up what it had. -/
theorem update_none_eq_some :
    Function.update f i none j = some b ↔ j ≠ i ∧ f j = some b := by
  by_cases h : j = i
  · subst h
    simp
  · simp [h]

end Update

variable {ι ρ : Type*} {live live' : ρ → Prop} {held : ι → Option ρ} {pool pool' : List ρ}

/-- Every live resource is in the pool once or with exactly one party, and no other
resource is anywhere. -/
structure Ledger (live : ρ → Prop) (held : ι → Option ρ) (pool : List ρ) : Prop where
  nodup : pool.Nodup
  apart : ∀ i p, held i = some p → p ∉ pool
  unique : ∀ i j p, held i = some p → held j = some p → i = j
  total : ∀ p, live p ↔ p ∈ pool ∨ ∃ i, held i = some p

namespace Ledger

/-- The order of the pool does not matter. -/
theorem perm (h : Ledger live held pool) (hp : pool.Perm pool') : Ledger live held pool' where
  nodup := hp.nodup_iff.mp h.nodup
  apart i p hi hm := h.apart i p hi (hp.mem_iff.mpr hm)
  unique := h.unique
  total p := by rw [h.total p, hp.mem_iff]

/-- A new resource enters the pool. -/
theorem grow {p : ρ} (h : Ledger live held pool) (hp : ¬live p)
    (hl : ∀ r, live' r ↔ r = p ∨ live r) : Ledger live' held (p :: pool) where
  nodup := List.nodup_cons.mpr ⟨fun hm ↦ hp ((h.total p).mpr (.inl hm)), h.nodup⟩
  apart i r hi hm := by
    rcases List.mem_cons.mp hm with rfl | hm
    · exact hp ((h.total _).mpr (.inr ⟨i, hi⟩))
    · exact h.apart i r hi hm
  unique := h.unique
  total r := by rw [hl, h.total, List.mem_cons, or_assoc]

/-- A resource leaves the pool for good. -/
theorem remove {p : ρ} (h : Ledger live held (p :: pool)) (hl : ∀ r, live' r ↔ r ≠ p ∧ live r) :
    Ledger live' held pool := by
  obtain ⟨hnot, hnodup⟩ := List.nodup_cons.mp h.nodup
  refine ⟨hnodup, fun i r hi hm ↦ h.apart i r hi (List.mem_cons_of_mem _ hm), h.unique,
    fun r ↦ ?_⟩
  rw [hl, h.total, List.mem_cons]
  constructor
  · rintro ⟨hne, (rfl | hm) | hi⟩
    · exact absurd rfl hne
    · exact .inl hm
    · exact .inr hi
  · rintro (hm | ⟨i, hi⟩)
    · exact ⟨ne_of_mem_of_not_mem hm hnot, .inl (.inr hm)⟩
    · refine ⟨?_, .inr ⟨i, hi⟩⟩
      rintro rfl
      exact h.apart i r hi List.mem_cons_self

/-- The same resources are where they were. -/
theorem congr {held' : ι → Option ρ} (h : Ledger live held pool) (hl : ∀ r, live' r ↔ live r)
    (hh : ∀ i, held' i = held i) : Ledger live' held' pool := by
  obtain rfl : held' = held := funext hh
  exact ⟨h.nodup, h.apart, h.unique, fun r ↦ (hl r).trans (h.total r)⟩

/-- There are no more resources than are in the pool and with the parties. -/
theorem le_length_add [Fintype ι] {n : Nat} {held : ι → Option Nat} {pool : List Nat}
    (h : Ledger (· < n) held pool) :
    n ≤ pool.length + tally (fun o : Option Nat ↦ o.toList.length) held := by
  have hsub : Finset.range n ⊆
      pool.toFinset ∪ Finset.univ.biUnion fun i ↦ (held i).toFinset := by
    intro p hp
    rw [Finset.mem_union, List.mem_toFinset, Finset.mem_biUnion]
    refine ((h.total p).mp (Finset.mem_range.mp hp)).imp_right fun ⟨i, hi⟩ ↦ ?_
    exact ⟨i, Finset.mem_univ i, Option.mem_toFinset.mpr hi⟩
  have hheld : (Finset.univ.biUnion fun i ↦ (held i).toFinset).card ≤
      tally (fun o : Option Nat ↦ o.toList.length) held := by
    refine Finset.card_biUnion_le.trans (Finset.sum_le_sum fun i _ ↦ ?_)
    cases held i <;> exact Nat.le_refl _
  calc n = (Finset.range n).card := (Finset.card_range n).symm
    _ ≤ _ := Finset.card_le_card hsub
    _ ≤ _ := Finset.card_union_le ..
    _ ≤ _ := Nat.add_le_add (List.toFinset_card_le pool) hheld

variable [DecidableEq ι] {i : ι} {p : ρ}

/-- A party without a resource takes one from the pool. -/
theorem take (h : Ledger live held (p :: pool)) (hi : held i = none) :
    Ledger live (Function.update held i (some p)) pool := by
  obtain ⟨hnot, hnodup⟩ := List.nodup_cons.mp h.nodup
  have hold (j : ι) (r : ρ) (hj : held j = some r) : r ≠ p := by
    rintro rfl
    exact h.apart j r hj List.mem_cons_self
  refine ⟨hnodup, fun j r hj hm ↦ ?_, fun j k r hj hk ↦ ?_, fun r ↦ ?_⟩
  · rcases update_some_eq_some.mp hj with ⟨-, rfl⟩ | ⟨-, hj⟩
    · exact hnot hm
    · exact h.apart j r hj (List.mem_cons_of_mem _ hm)
  · rcases update_some_eq_some.mp hj with ⟨hji, hr⟩ | ⟨-, hj⟩
    · rcases update_some_eq_some.mp hk with ⟨hki, -⟩ | ⟨-, hk⟩
      · exact hji.trans hki.symm
      · exact absurd hr (hold k r hk)
    · rcases update_some_eq_some.mp hk with ⟨-, hr⟩ | ⟨-, hk⟩
      · exact absurd hr (hold j r hj)
      · exact h.unique j k r hj hk
  · rw [h.total, List.mem_cons]
    constructor
    · rintro ((rfl | hm) | ⟨j, hj⟩)
      · exact .inr ⟨i, Function.update_self ..⟩
      · exact .inl hm
      · have hne : j ≠ i := by
          rintro rfl
          rw [hi] at hj
          cases hj
        exact .inr ⟨j, by rwa [Function.update_of_ne hne]⟩
    · rintro (hm | ⟨j, hj⟩)
      · exact .inl (.inr hm)
      · rcases update_some_eq_some.mp hj with ⟨-, rfl⟩ | ⟨-, hj⟩
        · exact .inl (.inl rfl)
        · exact .inr ⟨j, hj⟩

/-- A party returns its resource to the pool. -/
theorem give (h : Ledger live held pool) (hi : held i = some p) :
    Ledger live (Function.update held i none) (p :: pool) := by
  refine ⟨List.nodup_cons.mpr ⟨h.apart i p hi, h.nodup⟩, fun j r hj hm ↦ ?_,
    fun j k r hj hk ↦ ?_, fun r ↦ ?_⟩
  · obtain ⟨hne, hj⟩ := update_none_eq_some.mp hj
    rcases List.mem_cons.mp hm with rfl | hm
    · exact hne (h.unique j i r hj hi)
    · exact h.apart j r hj hm
  · exact h.unique j k r (update_none_eq_some.mp hj).2 (update_none_eq_some.mp hk).2
  · rw [h.total, List.mem_cons]
    constructor
    · rintro (hm | ⟨j, hj⟩)
      · exact .inl (.inr hm)
      · by_cases hji : j = i
        · subst hji
          rw [hi] at hj
          exact .inl (.inl (Option.some.inj hj).symm)
        · exact .inr ⟨j, by rwa [Function.update_of_ne hji]⟩
    · rintro ((rfl | hm) | ⟨j, hj⟩)
      · exact .inr ⟨i, hi⟩
      · exact .inl hm
      · exact .inr ⟨j, (update_none_eq_some.mp hj).2⟩

/-- A party uses its resource up. -/
theorem drop (h : Ledger live held pool) (hi : held i = some p)
    (hl : ∀ r, live' r ↔ r ≠ p ∧ live r) : Ledger live' (Function.update held i none) pool := by
  refine ⟨h.nodup, fun j r hj ↦ h.apart j r (update_none_eq_some.mp hj).2,
    fun j k r hj hk ↦ ?_, fun r ↦ ?_⟩
  · exact h.unique j k r (update_none_eq_some.mp hj).2 (update_none_eq_some.mp hk).2
  · rw [hl, h.total]
    constructor
    · rintro ⟨hne, hm | ⟨j, hj⟩⟩
      · exact .inl hm
      · refine .inr ⟨j, ?_⟩
        rwa [Function.update_of_ne]
        rintro rfl
        rw [hi] at hj
        exact hne (Option.some.inj hj).symm
    · rintro (hm | ⟨j, hj⟩)
      · refine ⟨?_, .inl hm⟩
        rintro rfl
        exact h.apart i r hi hm
      · obtain ⟨hji, hj⟩ := update_none_eq_some.mp hj
        refine ⟨?_, .inr ⟨j, hj⟩⟩
        rintro rfl
        exact hji (h.unique j i r hj hi)

end Ledger
end Crasy.Base
