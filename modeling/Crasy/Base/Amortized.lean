import Crasy.Base.System
import Crasy.Base.Tally
import Mathlib.Algebra.BigOperators.Ring.Finset
import Mathlib.Algebra.Group.Action.Defs
import Mathlib.Tactic.Ring

/-!
# Amortised costs of runs

Library `Base`. The potential method for machines: when every step costs at most the
potential that it gives up and the credit that it earns, a whole run costs at most the
potential of the state it begins in and the credit of its steps; where no step earns
credit, the machine stops. For a system of many parties the potential is a tally over the
parties, and the step of one party may also raise the weight of each of the others.
-/

namespace Crasy.Base

namespace System

variable {σ α : Type*} (M : System σ α)

/-- Every step pays its cost from the potential and from its credit. -/
def Pays (potential : σ → Nat) (cost credit : σ → α → Nat) : Prop :=
  ∀ s a s', M.next s a = some s' → cost s a + potential s' ≤ potential s + credit s a

variable {M}

/-- What the steps after a state cost is paid by the potential of that state and by what
they earn. -/
theorem Pays.totalFrom_le {potential : σ → Nat} {cost credit : σ → α → Nat}
    (h : M.Pays potential cost credit) (s : σ) (acts : List α) :
    M.totalFrom cost s acts ≤ potential s + M.totalFrom credit s acts := by
  induction acts generalizing s with
  | nil => exact Nat.zero_le _
  | cons a rest ih =>
    simp only [totalFrom]
    cases hn : M.next s a with
    | none => exact Nat.zero_le _
    | some s' =>
      have hstep := h s a s' hn
      have hrest := ih s'
      dsimp only
      omega

/-- The total of a sum of weights. -/
theorem totalFrom_add (v w : σ → α → Nat) (s : σ) (acts : List α) :
    M.totalFrom (fun s a ↦ v s a + w s a) s acts = M.totalFrom v s acts + M.totalFrom w s acts := by
  induction acts generalizing s with
  | nil => rfl
  | cons a rest ih =>
    simp only [totalFrom]
    cases hn : M.next s a with
    | none => rfl
    | some s' =>
      simp only [ih]
      omega

/-- The total of a multiple of a weight. -/
theorem totalFrom_mul (k : Nat) (w : σ → α → Nat) (s : σ) (acts : List α) :
    M.totalFrom (fun s a ↦ k * w s a) s acts = k * M.totalFrom w s acts := by
  induction acts generalizing s with
  | nil => rfl
  | cons a rest ih =>
    simp only [totalFrom]
    cases hn : M.next s a with
    | none => rfl
    | some s' =>
      simp only [ih]
      ring

variable (M) in
/-- The same machine, begun in another state. -/
def beginningIn (s : σ) : System σ α := { M with init := s }

/-- While an invariant holds whose steps all give up potential, a run is no longer than the
potential that it begins with. -/
theorem RunBy.length_add_le {ok : σ → α → Prop} {I : σ → Prop} {acts : List α} {s s' : σ}
    (h : (M.beginningIn s).RunBy ok acts s') (potential : σ → Nat) (hI : I s)
    (hstep : ∀ s a s', I s → ok s a → M.next s a = some s' →
      I s' ∧ potential s' < potential s) :
    I s' ∧ acts.length + potential s' ≤ potential s := by
  refine h.invariant (I := fun acts s' ↦ I s' ∧ acts.length + potential s' ≤ potential s)
    ⟨hI, (Nat.zero_add _).le⟩ fun acts t a t' hi hok hn ↦ ?_
  obtain ⟨hkept, hless⟩ := hstep t a t' hi.1 hok hn
  refine ⟨hkept, ?_⟩
  rw [List.length_append, List.length_singleton]
  omega

end System

section Parties

variable {ι β : Type*} [Fintype ι] [DecidableEq ι]

/-- One party's step, after which the weight of each other party may have grown by `d`. -/
theorem tally_update_le {v w : β → ℕ} {d : ℕ} (h : ∀ b, w b ≤ v b + d) (f : ι → β) (i : ι)
    (b : β) :
    tally w (Function.update f i b) + v (f i) ≤ tally v f + w b + (Fintype.card ι - 1) * d := by
  have hrest : ∑ j ∈ Finset.univ.erase i, w (Function.update f i b j) ≤
      ∑ j ∈ Finset.univ.erase i, v (f j) + (Fintype.card ι - 1) * d := by
    calc ∑ j ∈ Finset.univ.erase i, w (Function.update f i b j)
        ≤ ∑ j ∈ Finset.univ.erase i, (v (f j) + d) := by
          apply Finset.sum_le_sum
          intro j hj
          rw [Function.update_of_ne (Finset.ne_of_mem_erase hj)]
          exact h (f j)
      _ = ∑ j ∈ Finset.univ.erase i, v (f j) + (Fintype.card ι - 1) * d := by
          rw [Finset.sum_add_distrib, Finset.sum_const, smul_eq_mul,
            Finset.card_erase_of_mem (Finset.mem_univ i), Finset.card_univ]
  simp only [tally]
  rw [← Finset.sum_erase_add Finset.univ _ (Finset.mem_univ i),
    ← Finset.sum_erase_add Finset.univ (fun j ↦ v (f j)) (Finset.mem_univ i),
    Function.update_self]
  omega

omit [DecidableEq ι] in
/-- Where one weight is never more than a multiple of another, neither is its tally. -/
theorem tally_le_mul {v w : β → ℕ} {k : ℕ} (h : ∀ b, v b ≤ k * w b) (f : ι → β) :
    tally v f ≤ k * tally w f := by
  simp only [tally, Finset.mul_sum]
  exact Finset.sum_le_sum fun i _ ↦ h (f i)

omit [DecidableEq ι] in
/-- Where each party weighs at most one, there are at least as many parties as the tally. -/
theorem tally_le_card {w : β → ℕ} (h : ∀ b, w b ≤ 1) (f : ι → β) :
    tally w f ≤ Fintype.card ι := by
  simpa [tally] using Finset.sum_le_sum fun i (_ : i ∈ Finset.univ) ↦ h (f i)

end Parties
end Crasy.Base
