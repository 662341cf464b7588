import Mathlib.Logic.Function.Basic
import Mathlib.Data.List.Nodup

/-!
# Singly linked lists in a heap

Library `Base`. A heap gives each pointer its successor; `Linked` says which pointers
a null-terminated chain visits, `Path` which pointers can be reached. Both are framed:
a store to a pointer that is not visited changes neither.
-/

namespace Crasy.Base

variable {ρ : Type*} {next next' : ρ → Option ρ}

/-- The chain from `root` visits exactly these pointers, in this order, and then ends. -/
def Linked (next : ρ → Option ρ) : Option ρ → List ρ → Prop
  | root, [] => root = none
  | root, p :: rest => root = some p ∧ Linked next (next p) rest

/-- A pointer can be reached from `root` by following successors. -/
inductive Path (next : ρ → Option ρ) : Option ρ → ρ → Prop where
  | here (p : ρ) : Path next (some p) p
  | there {p q : ρ} : Path next (next p) q → Path next (some p) q

namespace Path

/-- A successor of a reachable pointer is reachable. -/
theorem snoc {root : Option ρ} {p q : ρ} (h : Path next root p) (hq : next p = some q) :
    Path next root q := by
  induction h with
  | here p =>
    apply Path.there
    rw [hq]
    exact .here q
  | there _ ih => exact .there (ih hq)

/-- What holds of the root and is handed on along successors holds of every reachable
pointer. -/
theorem invariant {P : ρ → Prop} {root : Option ρ} {p : ρ} (h : Path next root p)
    (hroot : ∀ q, root = some q → P q) (hnext : ∀ q r, P q → next q = some r → P r) : P p := by
  induction h with
  | here p => exact hroot p rfl
  | there _ ih => exact ih fun r hr ↦ hnext _ r (hroot _ rfl) hr

end Path

namespace Linked

/-- A chain whose root is not null visits the root first. -/
theorem exists_cons {p : ρ} {ps : List ρ} (h : Linked next (some p) ps) :
    ∃ rest, ps = p :: rest ∧ Linked next (next p) rest := by
  cases ps with
  | nil => cases h
  | cons q rest =>
    obtain ⟨hq, hrest⟩ := h
    cases hq
    exact ⟨rest, rfl, hrest⟩

/-- The visited pointers alone decide a chain. -/
theorem congr {root : Option ρ} {ps : List ρ} (h : Linked next root ps)
    (heq : ∀ p ∈ ps, next' p = next p) : Linked next' root ps := by
  induction ps generalizing root with
  | nil => exact h
  | cons p rest ih =>
    refine ⟨h.1, ?_⟩
    rw [heq p List.mem_cons_self]
    exact ih h.2 fun q hq ↦ heq q (List.mem_cons_of_mem _ hq)

/-- A store outside the chain keeps it. -/
theorem update [DecidableEq ρ] {root : Option ρ} {ps : List ρ} (h : Linked next root ps)
    {q : ρ} {n : Option ρ} (hq : q ∉ ps) : Linked (Function.update next q n) root ps := by
  apply h.congr
  intro p hp
  rw [Function.update_of_ne]
  rintro rfl
  exact hq hp

/-- The last pointer of a chain has no successor. -/
theorem next_last {root : Option ρ} {ps : List ρ} {p : ρ}
    (h : Linked next root (ps ++ [p])) : next p = none := by
  induction ps generalizing root with
  | nil => exact h.2
  | cons q rest ih => exact ih h.2

/-- Linking a fresh pointer behind the last one extends the chain by it. -/
theorem snoc [DecidableEq ρ] {root : Option ρ} {ps : List ρ} {p q : ρ}
    (h : Linked next root (ps ++ [p])) (hp : p ∉ ps) (hq : q ∉ ps ++ [p])
    (hn : next q = none) :
    Linked (Function.update next p (some q)) root (ps ++ [p] ++ [q]) := by
  induction ps generalizing root with
  | nil =>
    refine ⟨h.1, ?_⟩
    have hne : q ≠ p := by simpa using hq
    rw [Function.update_self]
    refine ⟨rfl, ?_⟩
    rw [Function.update_of_ne hne, hn]
    rfl
  | cons r rest ih =>
    have hne : r ≠ p := fun he ↦ hp (he ▸ List.mem_cons_self)
    refine ⟨h.1, ?_⟩
    rw [Function.update_of_ne hne]
    exact ih h.2 (fun hm ↦ hp (List.mem_cons_of_mem _ hm))
      (fun hm ↦ hq (List.mem_cons_of_mem _ hm))

/-- The pointers that can be reached from a chain's root are those it visits. -/
theorem path_iff {root : Option ρ} {ps : List ρ} (h : Linked next root ps) (q : ρ) :
    Path next root q ↔ q ∈ ps := by
  induction ps generalizing root with
  | nil =>
    cases h
    simp only [List.not_mem_nil, iff_false]
    intro hp
    cases hp
  | cons p rest ih =>
    obtain ⟨rfl, hrest⟩ := h
    rw [List.mem_cons, ← ih hrest]
    constructor
    · intro hp
      cases hp with
      | here => exact .inl rfl
      | there hp => exact .inr hp
    · rintro (rfl | hp)
      · exact .here _
      · exact .there hp

end Linked
end Crasy.Base
