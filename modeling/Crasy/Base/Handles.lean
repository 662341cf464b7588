import Mathlib.Data.Option.Basic
import Mathlib.Logic.Equiv.Basic

/-!
# Objects and the handles that own them

Library `Base`. Each handle object may point to one object, and an operation may run on it.
At most one handle points to an object; what is known of an object depends on whether one
does (`J`), and what is known of the operation that runs on its handle on the object (`O`).
Every way in which handles are made, moved and dropped keeps this.
-/

namespace Crasy.Base

/-- A handle object: what it points to, and the operation that runs on it. -/
structure Slot (φ ω : Type*) where
  target : Option φ
  op : ω
  deriving DecidableEq, Repr

/-- The object that a handle points to. -/
def held {η φ ω : Type*} (slots : η → Option (Slot φ ω)) (h : η) : Option φ :=
  (slots h).bind Slot.target

variable {η φ ω β : Type*} {J : β → Prop → Prop} {O : β → ω → Prop} {objs : φ → β}
  {slots : η → Option (Slot φ ω)}

/-- Each object has at most one handle, and what is known of both holds. -/
structure Custody (J : β → Prop → Prop) (O : β → ω → Prop) (objs : φ → β)
    (slots : η → Option (Slot φ ω)) : Prop where
  unique : ∀ f h k, held slots h = some f → held slots k = some f → h = k
  object : ∀ f, J (objs f) (∃ h, held slots h = some f)
  op : ∀ h f x, slots h = some ⟨some f, x⟩ → O (objs f) x

/-- A handle that exists points where its slot says. -/
theorem held_of_slot {h : η} {x : Option φ} {op : ω} (hs : slots h = some ⟨x, op⟩) :
    held slots h = x := by
  simp [held, hs]

namespace Custody

/-- What is known of an object that a handle points to. -/
theorem of_held (h : Custody J O objs slots) {k : η} {f : φ} (hk : held slots k = some f) :
    J (objs f) True := by
  have hobj := h.object f
  rwa [eq_true (⟨k, hk⟩ : ∃ k, held slots k = some f)] at hobj

/-- What is known of an object that no handle points to. -/
theorem of_not_held (h : Custody J O objs slots) {f : φ} (hf : ∀ k, held slots k ≠ some f) :
    J (objs f) False := by
  have hobj := h.object f
  rwa [eq_false (not_exists.mpr hf)] at hobj

/-- Nothing but the handle objects changes hands. -/
theorem rename {slots' : η → Option (Slot φ ω)} (h : Custody J O objs slots) (σ : Equiv.Perm η)
    (hh : ∀ k, held slots' k = held slots (σ k))
    (ho : ∀ k f x, slots' k = some ⟨some f, x⟩ → O (objs f) x) : Custody J O objs slots' := by
  refine ⟨fun f k l hk hl ↦ ?_, fun f ↦ ?_, ho⟩
  · rw [hh] at hk hl
    exact σ.injective (h.unique f _ _ hk hl)
  · have hiff : (∃ k, held slots' k = some f) ↔ ∃ k, held slots k = some f := by
      simp only [hh]
      exact (σ.surjective.exists (p := fun k ↦ held slots k = some f)).symm
    rw [propext hiff]
    exact h.object f

section Objects

variable [DecidableEq φ] {g : φ} {b : β}

/-- An object changes on its own. -/
theorem step (h : Custody J O objs slots) (hJ : ∀ owned, J (objs g) owned → J b owned)
    (hO : ∀ x, O (objs g) x → O b x) : Custody J O (Function.update objs g b) slots := by
  refine ⟨h.unique, fun f ↦ ?_, fun k f x hk ↦ ?_⟩
  · by_cases hf : f = g
    · subst hf
      rw [Function.update_self]
      exact hJ _ (h.object f)
    · rw [Function.update_of_ne hf]
      exact h.object f
  · by_cases hf : f = g
    · subst hf
      rw [Function.update_self]
      exact hO x (h.op k f x hk)
    · rw [Function.update_of_ne hf]
      exact h.op k f x hk

variable [DecidableEq η] {k : η} {op : ω}

omit [DecidableEq φ] in
private theorem held_update {f : φ} {y : Option (Slot φ ω)} (hk : held slots k ≠ some f)
    (hy : y.bind Slot.target ≠ some f) (l : η) :
    held (Function.update slots k y) l = some f ↔ held slots l = some f := by
  by_cases hl : l = k
  · subst hl
    simp only [held, Function.update_self]
    exact iff_of_false hy hk
  · simp [held, hl]

private theorem update {y : Option (Slot φ ω)} (h : Custody J O objs slots)
    (hk : ∀ f, f ≠ g → held slots k ≠ some f) (hy : ∀ f, f ≠ g → y.bind Slot.target ≠ some f)
    (honly : ∀ l, l ≠ k → held slots l ≠ some g)
    (hJ : J b (y.bind Slot.target = some g)) (hO : ∀ x, y = some ⟨some g, x⟩ → O b x) :
    Custody J O (Function.update objs g b) (Function.update slots k y) := by
  have hself (l : η) : held (Function.update slots k y) l = some g ↔
      l = k ∧ y.bind Slot.target = some g := by
    by_cases hl : l = k
    · subst hl
      simp [held]
    · have := honly l hl
      simp_all [held]
  refine ⟨fun f l m hl hm ↦ ?_, fun f ↦ ?_, fun l f x hl ↦ ?_⟩
  · by_cases hf : f = g
    · subst hf
      exact ((hself l).mp hl).1.trans ((hself m).mp hm).1.symm
    · rw [held_update (hk f hf) (hy f hf)] at hl hm
      exact h.unique f l m hl hm
  · by_cases hf : f = g
    · subst hf
      rw [Function.update_self]
      have hiff : (∃ l, held (Function.update slots k y) l = some f) ↔
          y.bind Slot.target = some f := by
        simp [hself]
      rwa [propext hiff]
    · rw [Function.update_of_ne hf]
      have hiff : (∃ l, held (Function.update slots k y) l = some f) ↔
          ∃ l, held slots l = some f := by
        simp only [held_update (hk f hf) (hy f hf)]
      rw [propext hiff]
      exact h.object f
  · by_cases hlk : l = k
    · subst hlk
      rw [Function.update_self] at hl
      have hf : f = g := by
        by_contra hf
        exact hy f hf (by rw [hl]; rfl)
      subst hf
      rw [Function.update_self]
      exact hO x hl
    · rw [Function.update_of_ne hlk] at hl
      have hf : f ≠ g := by
        rintro rfl
        exact honly l hlk (held_of_slot hl)
      rw [Function.update_of_ne hf]
      exact h.op l f x hl

/-- A handle works on its object. -/
theorem keep (h : Custody J O objs slots) (hk : held slots k = some g)
    (hJ : J (objs g) True → J b True) (hO : O b op) :
    Custody J O (Function.update objs g b) (Function.update slots k (some ⟨some g, op⟩)) := by
  refine h.update ?_ ?_ (fun l hl hg ↦ hl (h.unique g l k hg hk)) ?_ ?_
  · intro f hf he
    exact hf (Option.some.inj (he.symm.trans hk))
  · intro f hf he
    exact hf (Option.some.inj he).symm
  · rw [show ((some ⟨some g, op⟩ : Option (Slot φ ω)).bind Slot.target = some g) = True from
      eq_true rfl]
    exact hJ (h.of_held hk)
  · intro x hx
    cases hx
    exact hO

/-- A handle gives up its object, or vanishes. -/
theorem drop {y : Option (Slot φ ω)} (h : Custody J O objs slots) (hk : held slots k = some g)
    (hy : y.bind Slot.target = none) (hJ : J (objs g) True → J b False) :
    Custody J O (Function.update objs g b) (Function.update slots k y) := by
  refine h.update ?_ ?_ (fun l hl hg ↦ hl (h.unique g l k hg hk)) ?_ ?_
  · intro f hf he
    exact hf (Option.some.inj (he.symm.trans hk))
  · intro f _ he
    rw [hy] at he
    cases he
  · rw [hy, show ((none : Option φ) = some g) = False from eq_false (by simp)]
    exact hJ (h.of_held hk)
  · intro x hx
    rw [hx] at hy
    cases hy

/-- A new handle is made for an object that has none. -/
theorem attach (h : Custody J O objs slots) (hk : slots k = none)
    (hnone : ∀ l, held slots l ≠ some g) (hJ : J (objs g) False → J b True) (hO : O b op) :
    Custody J O (Function.update objs g b) (Function.update slots k (some ⟨some g, op⟩)) := by
  refine h.update ?_ ?_ (fun l _ ↦ hnone l) ?_ ?_
  · simp [held, hk]
  · intro f hf he
    exact hf (Option.some.inj he).symm
  · rw [show ((some ⟨some g, op⟩ : Option (Slot φ ω)).bind Slot.target = some g) = True from
      eq_true rfl]
    exact hJ (h.of_not_held hnone)
  · intro x hx
    cases hx
    exact hO

end Objects

section Slots

variable [DecidableEq η] {k : η}

/-- A handle that points nowhere appears, changes or vanishes. -/
theorem void {y : Option (Slot φ ω)} (h : Custody J O objs slots) (hk : held slots k = none)
    (hy : y.bind Slot.target = none) : Custody J O objs (Function.update slots k y) := by
  refine h.rename (Equiv.refl η) (fun l ↦ ?_) fun l f x hl ↦ ?_
  · by_cases hl : l = k
    · subst hl
      simp [held, hy, ← hk]
    · simp [held, hl]
  · by_cases hlk : l = k
    · subst hlk
      rw [Function.update_self] at hl
      rw [hl] at hy
      cases hy
    · rw [Function.update_of_ne hlk] at hl
      exact h.op l f x hl

/-- A new handle takes over what another points to. -/
theorem move {dst src : η} {x : Option φ} {op op' : ω} (h : Custody J O objs slots)
    (hdst : slots dst = none) (hsrc : slots src = some ⟨x, op⟩)
    (hO : ∀ f ∈ x, O (objs f) op') :
    Custody J O objs (Function.update (Function.update slots src (some ⟨none, op'⟩)) dst
      (some ⟨x, op'⟩)) := by
  have hne : src ≠ dst := by
    rintro rfl
    rw [hdst] at hsrc
    cases hsrc
  refine h.rename (Equiv.swap dst src) (fun l ↦ ?_) fun l f y hl ↦ ?_
  · by_cases hl : l = dst
    · subst hl
      simp [held, hsrc]
    · by_cases hl' : l = src
      · subst hl'
        simp [held, hdst, hne]
      · simp [held, hl, hl', Equiv.swap_apply_of_ne_of_ne]
  · by_cases hld : l = dst
    · subst hld
      rw [Function.update_self] at hl
      cases hl
      exact hO f rfl
    · rw [Function.update_of_ne hld] at hl
      by_cases hls : l = src
      · subst hls
        rw [Function.update_self] at hl
        cases hl
      · rw [Function.update_of_ne hls] at hl
        exact h.op l f y hl

/-- Two handles swap what they point to. -/
theorem swap {lhs rhs : η} {x y : Option φ} {op op' : ω} (h : Custody J O objs slots)
    (hlhs : slots lhs = some ⟨x, op⟩) (hrhs : slots rhs = some ⟨y, op'⟩)
    (hx : ∀ f ∈ x, O (objs f) op') (hy : ∀ f ∈ y, O (objs f) op) :
    Custody J O objs (Function.update (Function.update slots lhs (some ⟨y, op⟩)) rhs
      (some ⟨x, op'⟩)) := by
  refine h.rename (Equiv.swap lhs rhs) (fun l ↦ ?_) fun l f z hl ↦ ?_
  · by_cases hr : l = rhs
    · subst hr
      simp [held, hlhs]
    · by_cases hl : l = lhs
      · subst hl
        simp [held, hrhs, hr]
      · simp [held, hl, hr, Equiv.swap_apply_of_ne_of_ne]
  · by_cases hlr : l = rhs
    · subst hlr
      rw [Function.update_self] at hl
      cases hl
      exact hx f rfl
    · rw [Function.update_of_ne hlr] at hl
      by_cases hll : l = lhs
      · subst hll
        rw [Function.update_self] at hl
        cases hl
        exact hy f rfl
      · rw [Function.update_of_ne hll] at hl
        exact h.op l f z hl

end Slots

end Custody

end Crasy.Base
