import Mathlib.Data.Bool.Basic

/-!
# A lock and its holder

Library `Base`. A lock is a bit; which party holds it can be read off what the parties are
doing. A step of one party takes the lock, gives it back or leaves it as it is.
-/

namespace Crasy.Base

variable {ι : Type*} {holds holds' : ι → Prop} {locked locked' : Bool} {i : ι}

/-- The lock is set while a party holds it, and no two parties hold it. -/
structure HeldAlone (holds : ι → Prop) (locked : Bool) : Prop where
  alone : ∀ i j, holds i → holds j → i = j
  locked_iff : locked = true ↔ ∃ i, holds i

/-- What a step of one party does with the lock, with whether it holds the lock before and
after the step. -/
inductive LockMove : Bool → Bool → Prop → Prop → Prop where
  | keep {locked : Bool} {before after : Prop} : (after ↔ before) →
      LockMove locked locked before after
  | acquire {before after : Prop} : after → LockMove false true before after
  | release {locked : Bool} {before after : Prop} : before → ¬after →
      LockMove locked false before after

namespace HeldAlone

/-- Nobody holds a lock that is not set. -/
theorem not_holds (h : HeldAlone holds false) (i : ι) : ¬holds i :=
  fun hi ↦ Bool.false_ne_true (h.locked_iff.mpr ⟨i, hi⟩)

/-- A step of one party. -/
theorem move (h : HeldAlone holds locked) (i : ι)
    (hi : LockMove locked locked' (holds i) (holds' i))
    (hother : ∀ j, j ≠ i → (holds' j ↔ holds j)) : HeldAlone holds' locked' := by
  generalize hb : holds i = before at hi
  generalize ha : holds' i = after at hi
  cases hi with
  | keep hsame =>
    have hall (j : ι) : holds' j ↔ holds j := by
      by_cases hji : j = i
      · rw [hji, ha, hb]
        exact hsame
      · exact hother j hji
    refine ⟨fun j k hj hk ↦ h.alone j k ((hall j).mp hj) ((hall k).mp hk), ?_⟩
    rw [h.locked_iff]
    exact (exists_congr hall).symm
  | acquire hafter =>
    have honly (j : ι) (hj : holds' j) : j = i := by
      by_contra hji
      exact h.not_holds j ((hother j hji).mp hj)
    refine ⟨fun j k hj hk ↦ (honly j hj).trans (honly k hk).symm, ?_⟩
    simp only [true_iff]
    exact ⟨i, ha ▸ hafter⟩
  | release hbefore hafter =>
    have hnone (j : ι) : ¬holds' j := by
      intro hj
      by_cases hji : j = i
      · rw [hji, ha] at hj
        exact hafter hj
      · exact hji (h.alone j i ((hother j hji).mp hj) (hb ▸ hbefore))
    exact ⟨fun j _ hj ↦ absurd hj (hnone j), by simpa using hnone⟩

/-- A step after which everybody holds what they held. -/
theorem congr (h : HeldAlone holds locked) (hsame : ∀ j, holds' j ↔ holds j) :
    HeldAlone holds' locked := by
  rwa [show holds' = holds from funext fun j ↦ propext (hsame j)]

end HeldAlone
end Crasy.Base
