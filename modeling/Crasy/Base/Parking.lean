import Mathlib.Logic.Function.Basic
import Mathlib.Data.List.Nodup

/-!
# Threads and the places that store their handles

Library `Base`. A thread runs, waits at a place, or is over. One stack holds the threads that run,
each called by the one below it. A place stores handles of threads that wait there, and of all of
them, unless it is a place that may lose some. When threads are destroyed, this holds on exactly if
none of them is left in a place.
-/

namespace Crasy.Base

/-- What a thread does. -/
inductive Status (π : Type*) where
  | running
  | waiting (p : π)
  | over
  deriving DecidableEq, Repr

variable {η π : Type*} {status : η → Option (Status π)} {stack : List η} {held : π → List η}
  {lossy : π → Prop}

/-- A stored handle is that of a thread that waits in the same place, and is stored once. A thread
that waits is stored, unless in a lossy place. -/
structure Parking (status : η → Option (Status π)) (stack : List η) (held : π → List η)
    (lossy : π → Prop) : Prop where
  running : ∀ t ∈ stack, status t = some .running
  nodup : stack.Nodup
  waits : ∀ p h, h ∈ held p → status h = some (.waiting p)
  once : ∀ p, (held p).Nodup
  kept : ∀ h p, status h = some (.waiting p) → ¬lossy p → h ∈ held p

namespace Parking

/-- A thread that does not wait is stored nowhere. -/
theorem not_mem (h : Parking status stack held lossy) {t : η}
    (ht : ∀ p, status t ≠ some (.waiting p)) (p : π) : t ∉ held p :=
  fun hm ↦ ht p (h.waits p t hm)

/-- A thread is stored in one place. -/
theorem eq_of_mem (h : Parking status stack held lossy) {t : η} {p r : π} (hp : t ∈ held p)
    (hr : t ∈ held r) : r = p := by
  have hwaits := h.waits p t hp
  rw [h.waits r t hr] at hwaits
  cases hwaits
  rfl

/-- A thread that does not run is not on the stack. -/
theorem not_mem_stack (h : Parking status stack held lossy) {t : η}
    (ht : status t ≠ some .running) : t ∉ stack :=
  fun hm ↦ ht (h.running t hm)

/-- A place keeps its handles from now on, if no thread waits there. -/
theorem keep {lossy' : π → Prop} (h : Parking status stack held lossy)
    (hkeep : ∀ p, ¬lossy' p → ¬lossy p ∨ ∀ t, status t ≠ some (.waiting p)) :
    Parking status stack held lossy' := by
  refine ⟨h.running, h.nodup, h.waits, h.once, fun t p ht hp ↦ ?_⟩
  rcases hkeep p hp with hold | hnone
  · exact h.kept t p ht hold
  · exact absurd ht (hnone t)

/-- Threads are destroyed that do not run, and with them places, which have lost what they stored.
-/
theorem destroy_iff {status' : η → Option (Status π)} {held' : π → List η} {lossy' : π → Prop}
    {D : η → Prop}
    (h : Parking status stack held lossy) (hrun : ∀ t, D t → status t ≠ some .running)
    (hgone : ∀ t, D t → status' t = none) (hleft : ∀ t, ¬D t → status' t = status t)
    (hheld : ∀ p, held' p = held p ∧ (lossy p → lossy' p) ∨ lossy' p ∧ held' p = []) :
    Parking status' stack held' lossy' ↔ ∀ t p, D t → t ∉ held' p := by
  have hsub (p : π) {t : η} (hm : t ∈ held' p) : t ∈ held p := by
    rcases hheld p with ⟨heq, -⟩ | ⟨-, heq⟩
    · rwa [heq] at hm
    · rw [heq] at hm
      cases hm
  constructor
  · intro h' t p hD hm
    have hwaits := h'.waits p t hm
    rw [hgone t hD] at hwaits
    cases hwaits
  · intro hnot
    refine ⟨fun t ht ↦ ?_, h.nodup, fun p t hm ↦ ?_, fun p ↦ ?_, fun t p ht hp ↦ ?_⟩
    · rw [hleft t fun hD ↦ hrun t hD (h.running t ht)]
      exact h.running t ht
    · rw [hleft t fun hD ↦ hnot t p hD hm]
      exact h.waits p t (hsub p hm)
    · rcases hheld p with ⟨heq, -⟩ | ⟨-, heq⟩ <;> rw [heq]
      · exact h.once p
      · exact List.nodup_nil
    · have hD : ¬D t := fun hD ↦ by
        rw [hgone t hD] at ht
        cases ht
      rw [hleft t hD] at ht
      obtain ⟨heq, hlossy⟩ := (hheld p).resolve_right fun hl ↦ hp hl.1
      rw [heq]
      exact h.kept t p ht fun hl ↦ hp (hlossy hl)

section Threads

variable [DecidableEq η] {t : η}

/-- A new thread runs, called by the last one that does. -/
theorem start (h : Parking status stack held lossy) (ht : status t = none) :
    Parking (Function.update status t (some .running)) (t :: stack) held lossy := by
  have hother {u : η} {x : Status π} (hu : status u = some x) : u ≠ t := by
    rintro rfl
    rw [ht] at hu
    cases hu
  refine ⟨fun u hu ↦ ?_, ?_, fun p u hm ↦ ?_, h.once, fun u p hu hp ↦ ?_⟩
  · rcases List.mem_cons.mp hu with rfl | hu
    · exact Function.update_self ..
    · rw [Function.update_of_ne (hother (h.running u hu))]
      exact h.running u hu
  · exact List.nodup_cons.mpr ⟨h.not_mem_stack (by simp [ht]), h.nodup⟩
  · rw [Function.update_of_ne (hother (h.waits p u hm))]
    exact h.waits p u hm
  · by_cases hut : u = t
    · subst hut
      simp at hu
    · rw [Function.update_of_ne hut] at hu
      exact h.kept u p hu hp

/-- The thread on top of the stack is over. -/
theorem finish (h : Parking status (t :: stack) held lossy) :
    Parking (Function.update status t (some .over)) stack held lossy := by
  obtain ⟨hnot, hnodup⟩ := List.nodup_cons.mp h.nodup
  have htop := h.running t List.mem_cons_self
  refine ⟨fun u hu ↦ ?_, hnodup, fun p u hm ↦ ?_, h.once, fun u p hu hp ↦ ?_⟩
  · have hne : u ≠ t := fun he ↦ hnot (he ▸ hu)
    rw [Function.update_of_ne hne]
    exact h.running u (List.mem_cons_of_mem _ hu)
  · have hwaits := h.waits p u hm
    have hne : u ≠ t := by
      rintro rfl
      rw [htop] at hwaits
      cases hwaits
    rw [Function.update_of_ne hne]
    exact hwaits
  · by_cases hut : u = t
    · subst hut
      simp at hu
    · rw [Function.update_of_ne hut] at hu
      exact h.kept u p hu hp

variable [DecidableEq π] {p q : π} {l : List η}

omit [DecidableEq η] in
/-- Each handle is stored once when one place has changed. -/
theorem once_update (h : Parking status stack held lossy) (hnodup : l.Nodup) (r : π) :
    (Function.update held p l r).Nodup := by
  by_cases hrp : r = p
  · subst hrp
    rwa [Function.update_self]
  · rw [Function.update_of_ne hrp]
    exact h.once r

/-- The thread on top of the stack begins to wait. Its place stores it, and what it stored before
unless it loses some. -/
theorem suspend (h : Parking status (t :: stack) held lossy) (hnodup : l.Nodup)
    (hl : ∀ u ∈ l, u = t ∨ u ∈ held p) (hkept : ¬lossy p → t ∈ l ∧ ∀ u ∈ held p, u ∈ l) :
    Parking (Function.update status t (some (.waiting p))) stack (Function.update held p l)
      lossy := by
  obtain ⟨hnot, hstack⟩ := List.nodup_cons.mp h.nodup
  have htop := h.running t List.mem_cons_self
  have hother {r : π} {u : η} (hm : u ∈ held r) : u ≠ t := by
    rintro rfl
    exact h.not_mem (by simp [htop]) r hm
  refine ⟨fun u hu ↦ ?_, hstack, fun r u hm ↦ ?_, h.once_update hnodup, fun u r hu hr ↦ ?_⟩
  · have hne : u ≠ t := fun he ↦ hnot (he ▸ hu)
    rw [Function.update_of_ne hne]
    exact h.running u (List.mem_cons_of_mem _ hu)
  · by_cases hrp : r = p
    · subst hrp
      rw [Function.update_self] at hm
      rcases hl u hm with rfl | hm
      · exact Function.update_self ..
      · rw [Function.update_of_ne (hother hm)]
        exact h.waits r u hm
    · rw [Function.update_of_ne hrp] at hm
      rw [Function.update_of_ne (hother hm)]
      exact h.waits r u hm
  · by_cases hut : u = t
    · subst hut
      rw [Function.update_self] at hu
      cases hu
      rw [Function.update_self]
      exact (hkept hr).1
    · rw [Function.update_of_ne hut] at hu
      by_cases hrp : r = p
      · subst hrp
        rw [Function.update_self]
        exact (hkept hr).2 u (h.kept u r hu hr)
      · rw [Function.update_of_ne hrp]
        exact h.kept u r hu hr

/-- A thread that waits in one place is taken from there, with at most other threads that the place
loses, and put last in another. -/
theorem move (h : Parking status stack held lossy) (ht : t ∈ held p) (hpq : q ≠ p)
    (hnodup : l.Nodup) (hl : ∀ u ∈ l, u ≠ t ∧ u ∈ held p)
    (hkept : ¬lossy p → ∀ u ∈ held p, u = t ∨ u ∈ l) :
    Parking (Function.update status t (some (.waiting q))) stack
      (Function.update (Function.update held p l) q (held q ++ [t])) lossy := by
  have hwait := h.waits p t ht
  refine ⟨fun u hu ↦ ?_, h.nodup, fun r u hm ↦ ?_, fun r ↦ ?_, fun u r hu hr ↦ ?_⟩
  · have hne : u ≠ t := fun he ↦ h.not_mem_stack (by simp [hwait]) (he ▸ hu)
    rw [Function.update_of_ne hne]
    exact h.running u hu
  · by_cases hrq : r = q
    · subst hrq
      rw [Function.update_self] at hm
      rcases List.mem_append.mp hm with hm | hm
      · have hne : u ≠ t := fun he ↦ hpq (h.eq_of_mem ht (he ▸ hm))
        rw [Function.update_of_ne hne]
        exact h.waits r u hm
      · rw [List.mem_singleton.mp hm]
        exact Function.update_self ..
    · rw [Function.update_of_ne hrq] at hm
      by_cases hrp : r = p
      · subst hrp
        rw [Function.update_self] at hm
        obtain ⟨hut, hm⟩ := hl u hm
        rw [Function.update_of_ne hut]
        exact h.waits r u hm
      · rw [Function.update_of_ne hrp] at hm
        have hne : u ≠ t := fun he ↦ hrp (h.eq_of_mem ht (he ▸ hm))
        rw [Function.update_of_ne hne]
        exact h.waits r u hm
  · by_cases hrq : r = q
    · subst hrq
      rw [Function.update_self, List.nodup_append]
      refine ⟨h.once r, List.nodup_singleton t, fun u hu v hv ↦ ?_⟩
      rw [List.mem_singleton.mp hv]
      exact fun he ↦ hpq (h.eq_of_mem ht (he ▸ hu))
    · rw [Function.update_of_ne hrq]
      exact h.once_update hnodup r
  · by_cases hut : u = t
    · subst hut
      rw [Function.update_self] at hu
      cases hu
      rw [Function.update_self]
      exact List.mem_append_right _ List.mem_cons_self
    · rw [Function.update_of_ne hut] at hu
      have hm := h.kept u r hu hr
      by_cases hrq : r = q
      · subst hrq
        rw [Function.update_self]
        exact List.mem_append_left _ hm
      · rw [Function.update_of_ne hrq]
        by_cases hrp : r = p
        · subst hrp
          rw [Function.update_self]
          exact (hkept hr u hm).resolve_left hut
        · rw [Function.update_of_ne hrp]
          exact hm

/-- With nothing running, the first thread of a place runs. -/
theorem resume (h : Parking status [] held lossy) (hl : held p = t :: l) :
    Parking (Function.update status t (some .running)) [t] (Function.update held p l) lossy := by
  have ht : t ∈ held p := hl ▸ List.mem_cons_self
  have honce := h.once p
  rw [hl] at honce
  obtain ⟨hnot, hnodup⟩ := List.nodup_cons.mp honce
  refine ⟨fun u hu ↦ ?_, List.nodup_singleton t, fun r u hm ↦ ?_, h.once_update hnodup,
    fun u r hu hr ↦ ?_⟩
  · rw [List.mem_singleton.mp hu]
    exact Function.update_self ..
  · by_cases hrp : r = p
    · subst hrp
      rw [Function.update_self] at hm
      have hne : u ≠ t := fun he ↦ hnot (he ▸ hm)
      rw [Function.update_of_ne hne]
      exact h.waits r u (hl ▸ List.mem_cons_of_mem _ hm)
    · rw [Function.update_of_ne hrp] at hm
      have hne : u ≠ t := fun he ↦ hrp (h.eq_of_mem ht (he ▸ hm))
      rw [Function.update_of_ne hne]
      exact h.waits r u hm
  · by_cases hut : u = t
    · subst hut
      simp at hu
    · rw [Function.update_of_ne hut] at hu
      have hm := h.kept u r hu hr
      by_cases hrp : r = p
      · subst hrp
        rw [Function.update_self]
        rw [hl] at hm
        exact (List.mem_cons.mp hm).resolve_left hut
      · rw [Function.update_of_ne hrp]
        exact hm

end Threads

end Parking
end Crasy.Base
