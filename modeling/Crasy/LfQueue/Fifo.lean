import Mathlib.Data.List.Basic

/-!
# First-in-first-out queues, and queues that keep an emptied front

Library `LfQueue`. Two abstract queues and the runs of their operations. `Fifo` is the
textbook queue. `Content` is what `include/crasy/lfqueue.hpp:134–162` leaves of it: a
pop that takes the last value leaves that value's entry in front, and the next pop
spends itself on this entry. The runs of the two agree exactly when no pop follows a
push that refills a drained queue.
-/

namespace Crasy.LfQueue

variable {α : Type}

/-- The operations of a queue. -/
inductive Op (α : Type) where
  | push (v : α)
  | pop
  deriving DecidableEq, Repr

/-! ### The abstract queue -/

namespace Fifo

/-- Take the oldest value. -/
def pop : List α → Option α × List α
  | [] => (none, [])
  | v :: rest => (some v, rest)

/-- The values stored after a run of operations. -/
def content : List α → List (Op α) → List α
  | vs, [] => vs
  | vs, .push v :: ops => content (vs ++ [v]) ops
  | vs, .pop :: ops => content (pop vs).2 ops

/-- The answers of the pops of a run, in order. -/
def results : List α → List (Op α) → List (Option α)
  | _, [] => []
  | vs, .push v :: ops => results (vs ++ [v]) ops
  | vs, .pop :: ops => (pop vs).1 :: results (pop vs).2 ops

end Fifo

/-! ### The queue with a leftover front entry -/

/-- The values stored in order, and whether an emptied entry stands before them. -/
structure Content (α : Type) where
  drained : Bool
  values : List α
  deriving DecidableEq, Repr

namespace Content

/-- A queue nothing was pushed to. -/
def empty : Content α := { drained := false, values := [] }

/-- A push appends the value and keeps the front as it is. -/
def push (c : Content α) (v : α) : Content α := { c with values := c.values ++ [v] }

/-- A pop takes the front entry. When that is the emptied one it is removed and the pop
has nothing to return, although values may stand behind it. -/
def pop (c : Content α) : Option α × Content α :=
  match c.values with
  | [] => (none, c)
  | v :: rest =>
    if c.drained then (none, { c with drained := false })
    else (some v, { drained := rest.isEmpty, values := rest })

/-- The answers of the pops of a run, in order. -/
def results : Content α → List (Op α) → List (Option α)
  | _, [] => []
  | c, .push v :: ops => results (c.push v) ops
  | c, .pop :: ops => c.pop.1 :: results c.pop.2 ops

@[simp] theorem push_values (c : Content α) (v : α) :
    (c.push v).values = c.values ++ [v] := rfl

/-- An empty queue answers a pop with nothing and stays as it is. -/
theorem pop_nil {c : Content α} (h : c.values = []) : c.pop = (none, c) := by
  simp only [pop, h]

/-- Without a leftover front a pop is the abstract one. -/
theorem pop_cons {c : Content α} {v : α} {rest : List α} (hd : c.drained = false)
    (h : c.values = v :: rest) :
    c.pop = (some v, { drained := rest.isEmpty, values := rest }) := by
  simp [pop, h, hd]

/-- A leftover front costs one pop. -/
theorem pop_drained {c : Content α} (hd : c.drained = true) (h : c.values ≠ []) :
    c.pop = (none, { c with drained := false }) := by
  cases hv : c.values with
  | nil => exact absurd hv h
  | cons v rest => simp [pop, hv, hd]

/-- A pop never invents a value: what it returns was the oldest value stored. -/
theorem pop_some {c : Content α} {v : α} (h : c.pop.1 = some v) :
    c.values = v :: c.pop.2.values := by
  cases hv : c.values with
  | nil =>
    rw [pop_nil hv] at h
    cases h
  | cons w rest =>
    cases hd : c.drained with
    | true =>
      rw [pop_drained hd (by simp [hv])] at h
      cases h
    | false =>
      rw [pop_cons hd hv] at h ⊢
      cases h
      rfl

/-- Values stand behind an emptied front entry, which the next pop spends itself on. -/
def Refilled (c : Content α) : Prop := c.drained = true ∧ c.values ≠ []

instance (c : Content α) [DecidableEq α] : Decidable c.Refilled :=
  inferInstanceAs (Decidable (_ ∧ _))

/-- A pop that returns nothing has found the queue empty, unless it was refilled. -/
theorem values_of_pop_none {c : Content α} (hr : ¬c.Refilled) (h : c.pop.1 = none) :
    c.values = [] := by
  cases hv : c.values with
  | nil => rfl
  | cons w rest =>
    have hd : c.drained = false := by
      cases hd : c.drained with
      | false => rfl
      | true => exact absurd ⟨hd, by simp [hv]⟩ hr
    rw [pop_cons hd hv] at h
    cases h

/-- A pop returns a value exactly if one is stored and the queue was not refilled. -/
theorem pop_ne_none_iff (c : Content α) : c.pop.1 ≠ none ↔ c.values ≠ [] ∧ ¬c.Refilled := by
  cases hv : c.values with
  | nil => simp [pop_nil hv]
  | cons v rest =>
    have hne : c.values ≠ [] := by simp [hv]
    cases hd : c.drained with
    | true => simp [pop_drained hd hne, Refilled, hd, hv]
    | false => simp [pop_cons hd hv, Refilled, hd]

/-- A pop that returns nothing leaves the stored values. -/
theorem pop_none {c : Content α} (h : c.pop.1 = none) : c.pop.2.values = c.values := by
  cases hv : c.values with
  | nil => rw [pop_nil hv, hv]
  | cons w rest =>
    cases hd : c.drained with
    | true => rw [pop_drained hd (by simp [hv]), hv]
    | false =>
      rw [pop_cons hd hv] at h
      cases h

/-- A pop keeps no value that was not stored. -/
theorem pop_values_subset (c : Content α) : c.pop.2.values ⊆ c.values := by
  cases hp : c.pop.1 with
  | none => rw [pop_none hp]; exact List.Subset.refl _
  | some v => rw [pop_some hp]; exact List.subset_cons_self v _

end Content

/-! ### Where the two agree -/

/-- No pop comes after a push that refills a queue which was used and popped empty:
for every push of the run, if something was pushed before it and the abstract queue
is empty when it happens, then nothing is popped after it. -/
def NoPopAfterRefill (ops : List (Op α)) : Prop :=
  ∀ before v after, ops = before ++ .push v :: after →
    (∃ w, .push w ∈ before) → Fifo.content [] before = [] → .pop ∉ after

-- The condition for a run that continues from stored values; `used` records that
-- something was pushed before.
private def AgreesFrom (used : Prop) (vs : List α) (ops : List (Op α)) : Prop :=
  ∀ before v after, ops = before ++ .push v :: after →
    (used ∨ ∃ w, .push w ∈ before) → Fifo.content vs before = [] → .pop ∉ after

private theorem agreesFrom_push {used : Prop} {vs : List α} {v : α} {ops : List (Op α)}
    (h : AgreesFrom used vs (.push v :: ops)) : AgreesFrom True (vs ++ [v]) ops :=
  fun before w after he _ hc ↦ h (.push v :: before) w after (by rw [he]; rfl)
    (.inr ⟨v, List.mem_cons_self⟩) hc

private theorem agreesFrom_pop {used : Prop} {vs : List α} {ops : List (Op α)}
    (h : AgreesFrom used vs (.pop :: ops)) : AgreesFrom used (Fifo.pop vs).2 ops := by
  intro before w after he hu hc
  refine h (.pop :: before) w after (by rw [he]; rfl) ?_ hc
  exact hu.imp id fun ⟨w, hw⟩ ↦ ⟨w, List.mem_cons_of_mem _ hw⟩

private theorem results_of_agreesFrom {used : Prop} {c : Content α} {ops : List (Op α)}
    (hu : c.drained = true ∨ c.values ≠ [] → used)
    (hd : c.drained = true → c.values ≠ [] → .pop ∉ ops)
    (h : AgreesFrom used c.values ops) : c.results ops = Fifo.results c.values ops := by
  induction ops generalizing used c with
  | nil => rfl
  | cons op ops ih =>
    cases op with
    | push v =>
      refine ih (fun _ ↦ trivial) ?_ (agreesFrom_push h)
      intro hdr _
      -- either this push refills the drained queue, or an earlier one did
      by_cases hv : c.values = []
      · exact h [] v ops rfl (.inl (hu (.inl hdr))) hv
      · exact fun hm ↦ hd hdr hv (List.mem_cons_of_mem _ hm)
    | pop =>
      have hnext := agreesFrom_pop h
      simp only [Content.results, Fifo.results]
      cases hv : c.values with
      | nil =>
        rw [Content.pop_nil hv]
        rw [hv] at hnext
        simp only [Fifo.pop] at hnext ⊢
        rw [← hv] at hnext ⊢
        rw [ih hu (fun _ hne ↦ absurd hv hne) hnext]
      | cons v rest =>
        have hf : c.drained = false := by
          cases hdr : c.drained with
          | false => rfl
          | true => exact absurd List.mem_cons_self (hd hdr (by simp [hv]))
        have hused : used := hu (.inr (by simp [hv]))
        rw [Content.pop_cons hf hv]
        rw [hv] at hnext
        simp only [Fifo.pop] at hnext ⊢
        have hl : (Content.mk rest.isEmpty rest).drained = true →
            (Content.mk rest.isEmpty rest).values ≠ [] → .pop ∉ ops :=
          fun he hne ↦ absurd (List.isEmpty_iff.mp he) hne
        rw [ih (fun _ ↦ hused) hl hnext]

namespace Content

/-- The queue after a run of operations. -/
def run : Content α → List (Op α) → Content α
  | c, [] => c
  | c, .push v :: ops => run (c.push v) ops
  | c, .pop :: ops => run c.pop.2 ops

/-- Something was pushed: a value is stored, or the emptied front is left. -/
def Used (c : Content α) : Prop := c.drained = true ∨ c.values ≠ []

/-- Once used, a queue keeps a value or its emptied front. -/
theorem Used.pop {c : Content α} (h : c.Used) : c.pop.2.Used := by
  cases hv : c.values with
  | nil => rwa [pop_nil hv]
  | cons v rest =>
    cases hd : c.drained with
    | true =>
      rw [pop_drained hd (by simp [hv])]
      exact .inr (by simp [hv])
    | false =>
      rw [pop_cons hd hv]
      cases rest with
      | nil => exact .inl rfl
      | cons w rest => exact .inr (by simp)

private theorem used_push (c : Content α) (v : α) : (c.push v).Used := .inr (by simp)

/-- Runs keep a queue used. -/
theorem Used.run {c : Content α} (h : c.Used) (ops : List (Op α)) : (c.run ops).Used := by
  induction ops generalizing c with
  | nil => exact h
  | cons op ops ih =>
    cases op with
    | push v => exact ih (used_push c v)
    | pop => exact ih h.pop

/-- Runs with a push leave the queue used. -/
theorem used_run (c : Content α) {ops : List (Op α)} (h : ∃ v, .push v ∈ ops) :
    (c.run ops).Used := by
  induction ops generalizing c with
  | nil => simp at h
  | cons op ops ih =>
    cases op with
    | push v => exact (used_push c v).run ops
    | pop =>
      obtain ⟨v, hv⟩ := h
      exact ih c.pop.2 ⟨v, by simpa using hv⟩

/-- Where a pop gives the abstract answer, it leaves the abstract contents. -/
theorem pop_values {c : Content α} (h : c.pop.1 = (Fifo.pop c.values).1) :
    c.pop.2.values = (Fifo.pop c.values).2 := by
  cases hv : c.values with
  | nil => rw [pop_nil hv, hv, Fifo.pop]
  | cons v rest =>
    rw [hv] at h
    have hs := pop_some (h.trans rfl)
    rw [hv] at hs
    exact (List.cons.inj hs).2.symm

/-- A run whose answers are the abstract ones stores the abstract contents after each
prefix, and answers the rest as the abstract queue does. -/
theorem run_values {c : Content α} {before rest : List (Op α)}
    (h : c.results (before ++ rest) = Fifo.results c.values (before ++ rest)) :
    (c.run before).values = Fifo.content c.values before ∧
      (c.run before).results rest = Fifo.results (Fifo.content c.values before) rest := by
  induction before generalizing c with
  | nil => exact ⟨rfl, h⟩
  | cons op before ih =>
    cases op with
    | push v => exact ih h
    | pop =>
      have hc := List.cons.inj h
      rw [← pop_values hc.1] at hc
      have hi := ih hc.2
      rw [pop_values hc.1] at hi
      exact hi

private theorem results_ne {c : Content α} {ops : List (Op α)} (hd : c.drained = true)
    (hv : c.values ≠ []) (hp : .pop ∈ ops) : c.results ops ≠ Fifo.results c.values ops := by
  induction ops generalizing c with
  | nil => cases hp
  | cons op ops ih =>
    cases op with
    | push v => exact ih hd (by simp) (by simpa using hp)
    | pop =>
      intro he
      have h1 := (List.cons.inj he).1
      rw [pop_drained hd hv] at h1
      cases hc : c.values with
      | nil => exact hv hc
      | cons w rest =>
        rw [hc] at h1
        cases h1

end Content

/-- The queue with leftovers answers a whole run as a first-in-first-out queue exactly
when the run never pops after a refill. -/
theorem results_eq_iff (ops : List (Op α)) :
    Content.empty.results ops = Fifo.results [] ops ↔ NoPopAfterRefill ops := by
  constructor
  · intro h before v after he hu hc hm
    subst he
    obtain ⟨hvals, hrest⟩ := Content.run_values (c := .empty) h
    have hused := Content.used_run .empty hu
    have hnil : (Content.empty.run before).values = [] := hvals.trans hc
    have hd : (Content.empty.run before).drained = true := hused.resolve_right (by simp [hnil])
    rw [← hvals] at hrest
    exact Content.results_ne (c := (Content.empty.run before).push v) hd (by simp) hm hrest
  · intro h
    have hf : AgreesFrom False ([] : List α) ops := by
      intro before v after he hu hc
      exact h before v after he (hu.resolve_left id) hc
    exact results_of_agreesFrom (c := Content.empty) (by simp [Content.empty])
      (by simp [Content.empty]) hf

end Crasy.LfQueue
