import Mathlib.Data.Option.Basic

/-!
# Machines, runs and reachable states

Library `Base`. A machine has one initial state and, for each action, at most one
successor: every source of nondeterminism (the scheduler, the environment, a choice
the program leaves open) is an action. Runs may be restricted by a guard on the state
before each step, so that an invariant can be stated of exactly the runs that satisfy
the guard.
-/

namespace Crasy.Base

/-- A machine with states `σ` and actions `α`. -/
structure System (σ α : Type*) where
  init : σ
  next : σ → α → Option σ

namespace System

variable {σ α : Type*} (M : System σ α)

/-- States reached by runs whose every action satisfies `ok` in the state before it. -/
inductive ReachableBy (ok : σ → α → Prop) : σ → Prop where
  | init : ReachableBy ok M.init
  | step {s s' : σ} {a : α} :
      ReachableBy ok s → ok s a → M.next s a = some s' → ReachableBy ok s'

/-- States reached by any run. -/
def Reachable : σ → Prop := M.ReachableBy fun _ _ ↦ True

variable {M}

/-- A predicate that holds initially and is kept by every permitted step holds in
every state such runs reach. -/
theorem ReachableBy.invariant {ok : σ → α → Prop} {I : σ → Prop} {s : σ}
    (h : M.ReachableBy ok s) (h0 : I M.init)
    (hs : ∀ s a s', I s → ok s a → M.next s a = some s' → I s') : I s := by
  induction h with
  | init => exact h0
  | step _ hok hn ih => exact hs _ _ _ ih hok hn

/-- The invariant rule for unrestricted runs. -/
theorem Reachable.invariant {I : σ → Prop} {s : σ} (h : M.Reachable s) (h0 : I M.init)
    (hs : ∀ s a s', I s → M.next s a = some s' → I s') : I s :=
  ReachableBy.invariant h h0 fun s a s' hi _ hn ↦ hs s a s' hi hn

variable (M)

/-- Runs with their actions, each of which satisfies `ok` in the state before it. -/
inductive RunBy (ok : σ → α → Prop) : List α → σ → Prop where
  | init : RunBy ok [] M.init
  | step {acts : List α} {s s' : σ} {a : α} :
      RunBy ok acts s → ok s a → M.next s a = some s' → RunBy ok (acts ++ [a]) s'

variable {M}

/-- The invariant rule for predicates that also see the actions of the run. -/
theorem RunBy.invariant {ok : σ → α → Prop} {I : List α → σ → Prop} {acts : List α} {s : σ}
    (h : M.RunBy ok acts s) (h0 : I [] M.init)
    (hs : ∀ acts s a s', I acts s → ok s a → M.next s a = some s' → I (acts ++ [a]) s') :
    I acts s := by
  induction h with
  | init => exact h0
  | step _ hok hn ih => exact hs _ _ _ _ ih hok hn

/-- A run that is also a run of a weaker guard. -/
theorem RunBy.mono {ok ok' : σ → α → Prop} {acts : List α} {s : σ} (h : M.RunBy ok acts s)
    (himp : ∀ s a, ok s a → ok' s a) : M.RunBy ok' acts s := by
  induction h with
  | init => exact .init
  | step _ hok hn ih => exact ih.step (himp _ _ hok) hn

variable (M) in
/-- Any run with its actions. -/
abbrev Run : List α → σ → Prop := M.RunBy fun _ _ ↦ True

/-- A run ends in a reachable state. -/
theorem RunBy.reachable {ok : σ → α → Prop} {acts : List α} {s : σ} (h : M.RunBy ok acts s) :
    M.Reachable s := by
  induction h with
  | init => exact .init
  | step _ _ hn ih => exact ih.step trivial hn

/-- The last step of a run. -/
theorem RunBy.of_concat {ok : σ → α → Prop} {acts : List α} {a : α} {s' : σ}
    (h : M.RunBy ok (acts ++ [a]) s') :
    ∃ s, M.RunBy ok acts s ∧ ok s a ∧ M.next s a = some s' := by
  generalize hl : acts ++ [a] = l at h
  cases h with
  | init => simp at hl
  | @step before s _ b hr hok hn =>
    obtain ⟨hacts, ha⟩ := List.append_inj' hl rfl
    cases ha
    exact ⟨s, hacts ▸ hr, hok, hn⟩

/-- A list of actions leads to one state. -/
theorem RunBy.unique {ok ok' : σ → α → Prop} {acts : List α} {s t : σ} (h : M.RunBy ok acts s)
    (h' : M.RunBy ok' acts t) : s = t := by
  induction h generalizing t with
  | init =>
    generalize hl : ([] : List α) = l at h'
    cases h' with
    | init => rfl
    | step _ _ _ => simp at hl
  | @step acts s s' a _ _ hn ih =>
    obtain ⟨u, hr, _, hn'⟩ := h'.of_concat
    rw [ih hr, hn'] at hn
    exact (Option.some.inj hn).symm

/-- What a run has performed, at each point that it passes through, satisfies `P` exactly when each
of its steps is good, if good steps lead to `P` alone and the first other one leads out of it. `I`
holds of every run, and `J` as long as the steps are good. -/
theorem Run.histories_iff {good : σ → α → Prop} {P I J : List α → σ → Prop} {acts : List α}
    {s : σ} (h : M.Run acts s) (h0 : I [] M.init ∧ J [] M.init)
    (hI : ∀ acts s a s', I acts s → M.next s a = some s' → I (acts ++ [a]) s')
    (hJ : ∀ acts s a s', I acts s → J acts s → good s a → M.next s a = some s' →
      J (acts ++ [a]) s')
    (hP : ∀ acts s, I acts s → J acts s → P acts s)
    (hbad : ∀ acts s a s', I acts s → J acts s → ¬good s a → M.next s a = some s' →
      ¬P (acts ++ [a]) s') :
    (∀ before t, before <+: acts → M.Run before t → P before t) ↔ M.RunBy good acts s := by
  have hkept {acts : List α} {s : σ} (hr : M.RunBy good acts s) : I acts s ∧ J acts s :=
    hr.invariant (I := fun acts s ↦ I acts s ∧ J acts s) h0 fun acts s a s' hi hok hn ↦
      ⟨hI acts s a s' hi.1 hn, hJ acts s a s' hi.1 hi.2 hok hn⟩
  constructor
  · intro hp
    induction h with
    | init => exact .init
    | @step acts s s' a hr _ hn ih =>
      have hbefore : M.RunBy good acts s :=
        ih fun before t hb ht ↦ hp before t (hb.trans (List.prefix_append acts [a])) ht
      have hgood : good s a := by
        by_contra hnot
        obtain ⟨hi, hj⟩ := hkept hbefore
        exact hbad acts s a s' hi hj hnot hn (hp _ s' List.prefix_rfl (hr.step trivial hn))
      exact hbefore.step hgood hn
  · intro hr
    induction hr with
    | init =>
      intro before t hb ht
      rw [List.prefix_nil.mp hb] at ht
      rw [List.prefix_nil.mp hb, ht.unique (RunBy.init : M.Run [] M.init)]
      exact hP _ _ h0.1 h0.2
    | @step acts s s' a hr hgood hn ih =>
      intro before t hb ht
      have hbefore := hr.mono fun _ _ _ ↦ trivial
      rcases List.prefix_concat_iff.mp hb with rfl | hb
      · rw [ht.unique (hr.step hgood hn)]
        obtain ⟨hi, hj⟩ := hkept (hr.step hgood hn)
        exact hP _ s' hi hj
      · exact ih hbefore before t hb ht

/-- The states that a run passes through satisfy `P` exactly when each of its steps is good, if
good steps lead to `P` alone and the first other one leads out of it. -/
theorem Run.passes_iff {good : σ → α → Prop} {P I J : σ → Prop} {acts : List α} {s : σ}
    (h : M.Run acts s) (h0 : I M.init ∧ J M.init)
    (hI : ∀ s a s', I s → M.next s a = some s' → I s')
    (hJ : ∀ s a s', I s → J s → good s a → M.next s a = some s' → J s')
    (hP : ∀ s, I s → J s → P s)
    (hbad : ∀ s a s', I s → J s → ¬good s a → M.next s a = some s' → ¬P s') :
    (∀ before t, before <+: acts → M.Run before t → P t) ↔ M.RunBy good acts s :=
  h.histories_iff (P := fun _ ↦ P) (I := fun _ ↦ I) (J := fun _ ↦ J) h0 (fun _ ↦ hI)
    (fun _ ↦ hJ) (fun _ ↦ hP) fun _ ↦ hbad

variable (M)

/-- The sum of a weight over the steps of a list of actions, as far as they can be performed. -/
def totalFrom (weight : σ → α → Nat) : σ → List α → Nat
  | _, [] => 0
  | s, a :: rest =>
    match M.next s a with
    | some s' => weight s a + totalFrom weight s' rest
    | none => 0

/-- The sum of a weight over the steps of a run. -/
def total (weight : σ → α → Nat) (acts : List α) : Nat := M.totalFrom weight M.init acts

variable {M}

@[simp] theorem total_nil (weight : σ → α → Nat) : M.total weight [] = 0 := rfl

/-- What follows a run is summed from the state that the run ends in. -/
theorem RunBy.total_append {ok : σ → α → Prop} {acts : List α} {s : σ} (h : M.RunBy ok acts s)
    (weight : σ → α → Nat) (rest : List α) :
    M.total weight (acts ++ rest) = M.total weight acts + M.totalFrom weight s rest := by
  induction h generalizing rest with
  | init => exact (Nat.zero_add _).symm
  | @step acts s s' a _ _ hn ih =>
    rw [List.append_assoc, ih, ih, List.singleton_append]
    simp only [totalFrom, hn]
    omega

/-- The last step of a run adds its weight. -/
theorem RunBy.total_concat {ok : σ → α → Prop} {acts : List α} {s s' : σ} {a : α}
    (h : M.RunBy ok acts s) (hn : M.next s a = some s') (weight : σ → α → Nat) :
    M.total weight (acts ++ [a]) = M.total weight acts + weight s a := by
  rw [h.total_append]
  simp only [totalFrom, hn, Nat.add_zero]

variable (M)

/-- Perform a list of actions in order; `none` once an action is not enabled. -/
def exec : σ → List α → Option σ
  | s, [] => some s
  | s, a :: rest => (M.next s a).bind fun s' ↦ exec s' rest

/-- Perform a list of actions, each of which must also satisfy a decidable guard. -/
def execBy (ok : σ → α → Prop) [∀ s a, Decidable (ok s a)] : σ → List α → Option σ
  | s, [] => some s
  | s, a :: rest =>
    if ok s a then (M.next s a).bind fun s' ↦ execBy ok s' rest else none

variable {M}

private theorem reachableBy_of_execBy {ok : σ → α → Prop} [∀ s a, Decidable (ok s a)]
    {s s' : σ} {acts : List α} (hr : M.ReachableBy ok s)
    (h : M.execBy ok s acts = some s') : M.ReachableBy ok s' := by
  induction acts generalizing s with
  | nil =>
    cases h
    exact hr
  | cons a rest ih =>
    simp only [execBy] at h
    split at h
    · next hok =>
      obtain ⟨t, ht, hrest⟩ := Option.bind_eq_some_iff.mp h
      exact ih (hr.step hok ht) hrest
    · cases h

private theorem runBy_of_execBy {ok : σ → α → Prop} [∀ s a, Decidable (ok s a)]
    {s s' : σ} {before acts : List α} (hr : M.RunBy ok before s)
    (h : M.execBy ok s acts = some s') : M.RunBy ok (before ++ acts) s' := by
  induction acts generalizing s before with
  | nil =>
    cases h
    rwa [List.append_nil]
  | cons a rest ih =>
    simp only [execBy] at h
    split at h
    · next hok =>
      obtain ⟨t, ht, hrest⟩ := Option.bind_eq_some_iff.mp h
      rw [List.append_cons]
      exact ih (hr.step hok ht) hrest
    · cases h

private theorem reachable_of_exec {s s' : σ} {acts : List α} (hr : M.Reachable s)
    (h : M.exec s acts = some s') : M.Reachable s' := by
  induction acts generalizing s with
  | nil =>
    cases h
    exact hr
  | cons a rest ih =>
    obtain ⟨t, ht, hrest⟩ := Option.bind_eq_some_iff.mp h
    exact ih (hr.step trivial ht) hrest

/-- A schedule that can be performed from the initial state ends in a reachable state. -/
theorem Reachable.of_exec {s : σ} (acts : List α) (h : M.exec M.init acts = some s) :
    M.Reachable s := reachable_of_exec .init h

/-- A schedule that ends in a state with a checked property reaches such a state. -/
theorem exists_reachable {p : σ → Prop} (acts : List α)
    (h : ∃ s ∈ M.exec M.init acts, p s) : ∃ s, M.Reachable s ∧ p s := by
  obtain ⟨s, hs, hp⟩ := h
  exact ⟨s, .of_exec acts hs, hp⟩

/-- A schedule that keeps the guard and ends in a state with a checked property reaches
such a state by a guarded run. -/
theorem exists_reachableBy {ok : σ → α → Prop} [∀ s a, Decidable (ok s a)] {p : σ → Prop}
    (acts : List α) (h : ∃ s ∈ M.execBy ok M.init acts, p s) :
    ∃ s, M.ReachableBy ok s ∧ p s := by
  obtain ⟨s, hs, hp⟩ := h
  exact ⟨s, reachableBy_of_execBy .init hs, hp⟩

/-- A schedule that keeps the guard and ends in a state with a checked property is a guarded
run to such a state. -/
theorem exists_runBy {ok : σ → α → Prop} [∀ s a, Decidable (ok s a)] {p : σ → Prop}
    (acts : List α) (h : ∃ s ∈ M.execBy ok M.init acts, p s) : ∃ s, M.RunBy ok acts s ∧ p s := by
  obtain ⟨s, hs, hp⟩ := h
  exact ⟨s, runBy_of_execBy .init hs, hp⟩

end System
end Crasy.Base
