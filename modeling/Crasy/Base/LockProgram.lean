import Mathlib.Data.Set.Insert
import Mathlib.Logic.Function.Basic
import Mathlib.Logic.Relation

/-!
# Programs that take and release locks

Library `Base`. A program acquires locks, blocking or not, releases them and returns a
value. Its weakest precondition is over the set of locks the task holds, and demands that
the task holds nothing at a blocking acquisition. A step of a program keeps it, whatever
other tasks do between two steps, and no cycle of waiting tasks can then arise.
-/

namespace Crasy.Base

variable {ι μ α β : Type}

/-- A program over locks `μ` that returns a value. A blocking acquisition may suspend the
task, and tells the rest of the program whether it did; `choose` is an unspecified value. -/
inductive LockProgram (μ α : Type) where
  | done (a : α)
  | lock (m : μ) (suspended : Bool) (rest : Bool → LockProgram μ α)
  | tryLock (m : μ) (rest : Bool → LockProgram μ α)
  | unlock (m : μ) (rest : LockProgram μ α)
  | choose (rest : Nat → LockProgram μ α)

namespace LockProgram

/-- Run one program and go on with its value. -/
def bind : LockProgram μ α → (α → LockProgram μ β) → LockProgram μ β
  | done a, f => f a
  | lock m suspended rest, f => lock m suspended fun b ↦ (rest b).bind f
  | tryLock m rest, f => tryLock m fun b ↦ (rest b).bind f
  | unlock m rest, f => unlock m (rest.bind f)
  | choose rest, f => choose fun n ↦ (rest n).bind f

/-- What the held locks must be for the program to end in `Q`: it waits for a lock only
while it holds none, tries none that it holds, and releases only what it holds. -/
def Wp : LockProgram μ α → Set μ → (α → Set μ → Prop) → Prop
  | done a, H, Q => Q a H
  | lock m _ rest, H, Q => H = ∅ ∧ ∀ b, (rest b).Wp {m} Q
  | tryLock m rest, H, Q => m ∉ H ∧ (rest true).Wp (insert m H) Q ∧ (rest false).Wp H Q
  | unlock m rest, H, Q => m ∈ H ∧ rest.Wp (H \ {m}) Q
  | choose rest, H, Q => ∀ n, (rest n).Wp H Q

/-- The rule of consequence. -/
theorem Wp.mono {p : LockProgram μ α} {H : Set μ} {Q R : α → Set μ → Prop} (h : p.Wp H Q)
    (hQ : ∀ a G, Q a G → R a G) : p.Wp H R := by
  induction p generalizing H with
  | done a => exact hQ a H h
  | lock m suspended rest ih => exact ⟨h.1, fun b ↦ ih b (h.2 b)⟩
  | tryLock m rest ih => exact ⟨h.1, ih true h.2.1, ih false h.2.2⟩
  | unlock m rest ih => exact ⟨h.1, ih h.2⟩
  | choose rest ih => exact fun n ↦ ih n (h n)

/-- The rule of sequential composition. -/
theorem Wp.bind {p : LockProgram μ α} {f : α → LockProgram μ β} {H : Set μ}
    {Q : β → Set μ → Prop} (h : p.Wp H fun a G ↦ (f a).Wp G Q) : (p.bind f).Wp H Q := by
  induction p generalizing H with
  | done a => exact h
  | lock m suspended rest ih => exact ⟨h.1, fun b ↦ ih b (h.2 b)⟩
  | tryLock m rest ih => exact ⟨h.1, ih true h.2.1, ih false h.2.2⟩
  | unlock m rest ih => exact ⟨h.1, ih h.2⟩
  | choose rest ih => exact fun n ↦ ih n (h n)

/-- The lock that the program is suspended on. -/
def waiting : LockProgram μ α → Option μ
  | lock m true _ => some m
  | lock _ false _ | done _ | tryLock _ _ | unlock _ _ | choose _ => none

/-- A task that is suspended holds nothing. -/
theorem Wp.eq_empty_of_waiting {p : LockProgram μ α} {H : Set μ} {Q : α → Set μ → Prop}
    {m : μ} (h : p.Wp H Q) (hw : p.waiting = some m) : H = ∅ := by
  cases p with
  | lock n suspended rest => exact h.1
  | done _ | tryLock _ _ | unlock _ _ | choose _ => cases hw

/-! ### Whole runs -/

/-- What a program does to a lock. -/
inductive LockEvent (μ : Type) where
  | acquired (m : μ)
  | refused (m : μ)
  | released (m : μ)
  deriving DecidableEq, Repr

/-- What the locks and the scheduler answer: whether a blocking acquisition suspends the task,
which locks can be had by trying, and the unspecified value. -/
structure Answers (μ : Type) where
  suspends : Bool
  acquires : μ → Bool
  value : Nat

/-- A whole run of a program under some answers: what it does to the locks, and its value. -/
def run (env : Answers μ) : LockProgram μ α → List (LockEvent μ) × α
  | done a => ([], a)
  | lock m suspended rest =>
    let (trace, a) := (rest (suspended || env.suspends)).run env
    (.acquired m :: trace, a)
  | tryLock m rest =>
    let (trace, a) := (rest (env.acquires m)).run env
    ((if env.acquires m then LockEvent.acquired m else .refused m) :: trace, a)
  | unlock m rest =>
    let (trace, a) := rest.run env
    (.released m :: trace, a)
  | choose rest => (rest env.value).run env

/-- The run of two programs in sequence. -/
theorem run_bind (env : Answers μ) (p : LockProgram μ α) (f : α → LockProgram μ β) :
    (p.bind f).run env =
      ((p.run env).1 ++ ((f (p.run env).2).run env).1, ((f (p.run env).2).run env).2) := by
  induction p with
  | done a => rfl
  | lock m suspended rest ih => simp only [bind, run, ih, List.cons_append]
  | tryLock m rest ih => simp only [bind, run, ih, List.cons_append]
  | unlock m rest ih => simp only [bind, run, ih, List.cons_append]
  | choose rest ih => simp only [bind, run, ih]

/-- The locks held after one event. -/
def heldAfterEvent (H : Set μ) : LockEvent μ → Set μ
  | .acquired m => insert m H
  | .refused _ => H
  | .released m => H \ {m}

/-- The locks held after a trace. -/
def heldAfter (H : Set μ) (trace : List (LockEvent μ)) : Set μ := trace.foldl heldAfterEvent H

/-- A whole run ends in the postcondition. -/
theorem Wp.run {p : LockProgram μ α} {H : Set μ} {Q : α → Set μ → Prop} (h : p.Wp H Q)
    (env : Answers μ) : Q (p.run env).2 (heldAfter H (p.run env).1) := by
  induction p generalizing H with
  | done a => exact h
  | lock m suspended rest ih =>
    have hrest := ih (suspended || env.suspends) (h.2 (suspended || env.suspends))
    rw [h.1, heldAfter, LockProgram.run, List.foldl_cons, heldAfterEvent, insert_empty_eq]
    exact hrest
  | tryLock m rest ih =>
    rw [LockProgram.run, heldAfter, List.foldl_cons]
    cases hm : env.acquires m with
    | true => exact ih true h.2.1
    | false => exact ih false h.2.2
  | unlock m rest ih => exact ih h.2
  | choose rest ih => exact ih env.value (h env.value)

end LockProgram

/-- The locks a task holds. -/
def heldBy (owner : μ → Option ι) (t : ι) : Set μ := {m | owner m = some t}

@[simp] theorem mem_heldBy {owner : μ → Option ι} {t : ι} {m : μ} :
    m ∈ heldBy owner t ↔ owner m = some t := Iff.rfl

section Step

variable [DecidableEq μ] {owner owner' : μ → Option ι} {t u : ι} {m : μ}

/-- The next step of a task's program. A lock is taken only while it is free; an
acquisition may also be refused, which suspends a task that waits and fails one that
tries. -/
def LockProgram.step (owner : μ → Option ι) (t : ι) (acquires : Bool) (value : Nat) :
    LockProgram μ α → Option ((μ → Option ι) × LockProgram μ α)
  | .done _ => none
  | .lock m suspended rest =>
    if acquires then
      match owner m with
      | none => some (Function.update owner m (some t), rest suspended)
      | some _ => none
    else some (owner, .lock m true rest)
  | .tryLock m rest =>
    if acquires then
      match owner m with
      | none => some (Function.update owner m (some t), rest true)
      | some _ => none
    else some (owner, rest false)
  | .unlock m rest => some (Function.update owner m none, rest)
  | .choose rest => some (owner, rest value)

/-- Taking a free lock adds it to what the task holds. -/
theorem heldBy_acquire : heldBy (Function.update owner m (some t)) t =
    insert m (heldBy owner t) := by
  ext n
  by_cases hn : n = m
  · simp [hn]
  · simp [hn]

/-- Taking a free lock takes it from nobody. -/
theorem heldBy_acquire_of_ne (hm : owner m = none) (hu : u ≠ t) :
    heldBy (Function.update owner m (some t)) u = heldBy owner u := by
  ext n
  by_cases hn : n = m
  · simp [hn, hm, hu.symm]
  · simp [hn]

/-- Releasing a lock removes it from what the task holds. -/
theorem heldBy_release : heldBy (Function.update owner m none) t = heldBy owner t \ {m} := by
  ext n
  by_cases hn : n = m
  · simp [hn]
  · simp [hn]

/-- Releasing one's own lock takes nothing from another task. -/
theorem heldBy_release_of_ne (hm : owner m = some t) (hu : u ≠ t) :
    heldBy (Function.update owner m none) u = heldBy owner u := by
  ext n
  by_cases hn : n = m
  · simp [hn, hm, hu.symm]
  · simp [hn]

/-- A step keeps the precondition of the rest of the program, and what others hold. -/
theorem LockProgram.Wp.step {p p' : LockProgram μ α} {Q : α → Set μ → Prop}
    {acquires : Bool} {value : Nat} (h : p.Wp (heldBy owner t) Q)
    (hs : p.step owner t acquires value = some (owner', p')) :
    p'.Wp (heldBy owner' t) Q ∧ ∀ u, u ≠ t → heldBy owner' u = heldBy owner u := by
  cases p with
  | done a => cases hs
  | lock m suspended rest =>
    simp only [LockProgram.step] at hs
    split at hs
    · split at hs
      · next hm =>
        cases hs
        refine ⟨?_, fun u hu ↦ heldBy_acquire_of_ne hm hu⟩
        rw [heldBy_acquire, h.1, insert_empty_eq]
        exact h.2 suspended
      · cases hs
    · cases hs
      exact ⟨h, fun _ _ ↦ rfl⟩
  | tryLock m rest =>
    simp only [LockProgram.step] at hs
    split at hs
    · split at hs
      · next hm =>
        cases hs
        refine ⟨?_, fun u hu ↦ heldBy_acquire_of_ne hm hu⟩
        rw [heldBy_acquire]
        exact h.2.1
      · cases hs
    · cases hs
      exact ⟨h.2.2, fun _ _ ↦ rfl⟩
  | unlock m rest =>
    cases hs
    refine ⟨?_, fun u hu ↦ heldBy_release_of_ne h.1 hu⟩
    rw [heldBy_release]
    exact h.2
  | choose rest =>
    cases hs
    exact ⟨h value, fun _ _ ↦ rfl⟩

end Step

/-- Where nobody who is waited for waits, the waits-for relation has no cycle. -/
theorem not_transGen_self {r : ι → ι → Prop} (h : ∀ a b c, r a b → ¬r b c) (a : ι) :
    ¬Relation.TransGen r a a := by
  intro hc
  obtain ⟨b, hab, hba⟩ := Relation.TransGen.head'_iff.mp hc
  rcases hba.cases_head with rfl | ⟨c, hbc, -⟩
  · exact h b b b hab hab
  · exact h a b c hab hbc

end Crasy.Base
