import Crasy.Base.System
import Mathlib.Data.List.Nodup

/-!
# One-shot rendezvous between completions and awaiters

Library `Base`. An operation completes once: it stores an outcome and then finishes. At most
one coroutine awaits it: it asks whether the operation is ready, suspends on it if not, and
reads the outcome when it continues. Both sides meet at a cell, whose sections decide who hands
the coroutine to the scheduler. A cell that keeps the laws of `Rendezvous` makes every
coroutine continue once, with the outcome, in every interleaving of any number of operations.
-/

namespace Crasy.Base

/-- What the two sides have left at a cell. -/
inductive Mark (κ : Type*) where
  | empty
  | waiting (k : κ)
  | done
  | closed
  deriving DecidableEq, Repr

/-- A cell with the sections of the two sides. `suspend` and `finish` say which coroutine is
to be scheduled, within the section if `inside`, else in a step of its own. -/
structure Rendezvous (W κ ρ : Type*) where
  ready : W → Bool
  suspend : W → κ → W × Option κ
  store : W → ρ → W
  finish : W → Option (W × Option κ)
  read : W → Option ρ
  take : W → W
  inside : W → Bool
  mark : W → Mark κ
  ready_empty : ∀ w, mark w = .empty → ready w = false
  ready_done : ∀ w, mark w = .done → ready w = true
  suspend_empty : ∀ w k, mark w = .empty → (suspend w k).2 = none ∧
    mark (suspend w k).1 = .waiting k
  suspend_done : ∀ w k, mark w = .done → (suspend w k).2 = some k
  read_suspend : ∀ w k, read (suspend w k).1 = read w
  mark_store : ∀ w v, mark (store w v) = mark w
  read_store : ∀ w v, read w = none → read (store w v) = some v
  finish_empty : ∀ w, mark w = .empty → ∃ u, finish w = some (u, none) ∧ mark u = .done ∧
    read u = read w
  finish_waiting : ∀ w k, mark w = .waiting k → ∃ u, finish w = some (u, some k) ∧
    mark u = .done ∧ read u = read w

namespace Rendezvous

/-- Where a completion stands: `scheduling` is past `finish`, with a coroutine to schedule. -/
inductive Completer (κ : Type*) where
  | pending
  | stored
  | scheduling (k : κ)
  | finished
  deriving DecidableEq, Repr

/-- Where an awaiting coroutine stands: in front of `suspend`, past it and about to schedule
itself, suspended, or in front of the read of the outcome. -/
inductive Phase where
  | suspending
  | scheduling
  | suspended
  | resuming
  deriving DecidableEq, Repr

/-- An operation, the coroutine that awaits it, what it has completed with, and what was read
where a coroutine continued. -/
structure Op (W κ ρ : Type*) where
  cell : W
  completer : Completer κ
  awaiter : Option κ
  outcome : Option ρ
  results : List (Option ρ)
  deriving DecidableEq, Repr

/-- The operations, the operation that each coroutine awaits, and the coroutines that have been
scheduled and not yet been resumed. -/
structure State (W ι κ ρ : Type*) where
  ops : ι → Op W κ ρ
  coroutines : κ → Option (ι × Phase)
  queue : List κ

/-- The steps of the completions, of the awaiters and of the scheduler. -/
inductive Act (ι κ ρ : Type*) where
  | store (i : ι) (v : ρ)
  | finish (i : ι)
  | schedule (i : ι)
  | ready (k : κ) (i : ι)
  | suspend (k : κ)
  | scheduleSelf (k : κ)
  | run (k : κ)
  | read (k : κ)
  deriving DecidableEq, Repr

variable {W ι κ ρ : Type*} (R : Rendezvous W κ ρ)

/-- An operation that has not completed and that nobody awaits. -/
def Op.new (w : W) : Op W κ ρ :=
  { cell := w, completer := .pending, awaiter := none, outcome := none, results := [] }

/-- Operations at their cells, and no coroutine that awaits one. -/
def init (cells : ι → W) : State W ι κ ρ :=
  { ops := fun i ↦ .new (cells i), coroutines := fun _ ↦ none, queue := [] }

section Steps

variable [DecidableEq ι] [DecidableEq κ]

/-- Change one operation. -/
def State.setOp (s : State W ι κ ρ) (i : ι) (o : Op W κ ρ) : State W ι κ ρ :=
  { s with ops := Function.update s.ops i o }

/-- Change one operation, and the coroutine that awaits it. -/
def State.move (s : State W ι κ ρ) (i : ι) (o : Op W κ ρ) (k : κ) (x : Option (ι × Phase))
    (queue : List κ) : State W ι κ ρ :=
  { ops := Function.update s.ops i o, coroutines := Function.update s.coroutines k x,
    queue := queue }

/-- A completion schedules the coroutine it has taken. -/
def scheduleStep (s : State W ι κ ρ) (i : ι) : Option (State W ι κ ρ) :=
  match (s.ops i).completer with
  | .scheduling k =>
    some { s.setOp i { s.ops i with completer := .finished } with queue := s.queue ++ [k] }
  | _ => none

/-- A completion finishes. -/
def finishStep (s : State W ι κ ρ) (i : ι) : Option (State W ι κ ρ) :=
  match (s.ops i).completer, R.finish (s.ops i).cell with
  | .stored, some (u, none) => some (s.setOp i { s.ops i with cell := u, completer := .finished })
  | .stored, some (u, some k) =>
    let t := s.setOp i { s.ops i with cell := u, completer := .scheduling k }
    if R.inside (s.ops i).cell then scheduleStep t i else some t
  | _, _ => none

/-- A coroutine schedules itself. -/
def scheduleSelfStep (s : State W ι κ ρ) (k : κ) : Option (State W ι κ ρ) :=
  match s.coroutines k with
  | some (i, .scheduling) => some (s.move i (s.ops i) k (some (i, .suspended)) (s.queue ++ [k]))
  | _ => none

/-- A coroutine suspends on the operation it awaits. -/
def suspendStep (s : State W ι κ ρ) (k : κ) : Option (State W ι κ ρ) :=
  match s.coroutines k with
  | some (i, .suspending) =>
    match R.suspend (s.ops i).cell k with
    | (u, none) => some (s.move i { s.ops i with cell := u } k (some (i, .suspended)) s.queue)
    | (u, some _) =>
      let t := s.move i { s.ops i with cell := u } k (some (i, .scheduling)) s.queue
      if R.inside (s.ops i).cell then scheduleSelfStep t k else some t
  | _ => none

/-- One step. Each operation is awaited at most once. -/
def next (s : State W ι κ ρ) : Act ι κ ρ → Option (State W ι κ ρ)
  | .store i v =>
    match (s.ops i).completer with
    | .pending => some (s.setOp i { s.ops i with
        cell := R.store (s.ops i).cell v, completer := .stored, outcome := some v })
    | _ => none
  | .finish i => finishStep R s i
  | .schedule i => scheduleStep s i
  | .ready k i =>
    match s.coroutines k, (s.ops i).awaiter with
    | none, none => some (s.move i { s.ops i with awaiter := some k } k
        (some (i, if R.ready (s.ops i).cell then .resuming else .suspending)) s.queue)
    | _, _ => none
  | .suspend k => suspendStep R s k
  | .scheduleSelf k => scheduleSelfStep s k
  | .run k =>
    match s.coroutines k with
    | some (i, .suspended) =>
      if k ∈ s.queue then some (s.move i (s.ops i) k (some (i, .resuming)) (s.queue.erase k))
      else none
    | _ => none
  | .read k =>
    match s.coroutines k with
    | some (i, .resuming) => some (s.move i { s.ops i with
        cell := R.take (s.ops i).cell
        results := (s.ops i).results ++ [R.read (s.ops i).cell] } k none s.queue)
    | _ => none

/-- Operations at their cells and the coroutines that await them, under all interleavings. -/
def system (cells : ι → W) : System (State W ι κ ρ) (Act ι κ ρ) :=
  { init := init cells, next := next R }

end Steps

/-! ### The invariant -/

/-- Nobody has suspended at the cell, whatever the completion has done. -/
def Free (o : Op W κ ρ) : Prop :=
  match o.completer with
  | .pending | .stored => R.mark o.cell = .empty
  | .scheduling _ => False
  | .finished => R.mark o.cell = .done

/-- What a completion has left at the cell and what was read of it. -/
def Filled (o : Op W κ ρ) : Prop :=
  match o.completer with
  | .pending => o.outcome = none ∧ R.read o.cell = none ∧ o.results = []
  | .stored | .scheduling _ => ∃ v, o.outcome = some v ∧ R.read o.cell = some v ∧ o.results = []
  | .finished => ∃ v, o.outcome = some v ∧
      (o.results = [] ∧ R.read o.cell = some v ∨ o.results = [some v])

/-- What a coroutine finds at the operation it awaits: while it is suspended its handle is at
the cell, with the completion, or in the queue. -/
def Meets (o : Op W κ ρ) (k : κ) (queued : Prop) : Phase → Prop
  | .suspending => Free R o ∧ ¬queued
  | .scheduling | .resuming => o.completer = .finished ∧ ¬queued
  | .suspended =>
    match o.completer with
    | .pending | .stored => R.mark o.cell = .waiting k ∧ ¬queued
    | .scheduling j => j = k ∧ ¬queued
    | .finished => queued

/-- The operations and the coroutines agree on who awaits what, and on where the handle of each
suspended coroutine is. -/
structure Sound (s : State W ι κ ρ) : Prop where
  nodup : s.queue.Nodup
  idle : ∀ k, s.coroutines k = none → k ∉ s.queue
  meets : ∀ k i p, s.coroutines k = some (i, p) → (s.ops i).awaiter = some k ∧
    (s.ops i).results = [] ∧ Meets R (s.ops i) k (k ∈ s.queue) p
  unawaited : ∀ i, (s.ops i).awaiter = none → Free R (s.ops i) ∧ (s.ops i).results = []
  awaiting : ∀ i k, (s.ops i).awaiter = some k → (s.ops i).results = [] →
    ∃ p, s.coroutines k = some (i, p)
  filled : ∀ i, Filled R (s.ops i)

/-- A coroutine awaits an operation, or neither is part of a `co_await` yet. -/
def Awaits (s : State W ι κ ρ) (i : ι) (k : κ) : Prop :=
  (s.ops i).awaiter = none ∧ s.coroutines k = none ∨ ∃ p, s.coroutines k = some (i, p)

namespace Sound

variable {R} {s s' : State W ι κ ρ} {i : ι} {k : κ}

/-- No coroutine but the one that awaits an operation, or is about to, stands at it. -/
theorem not_at (h : Sound R s) (hown : Awaits s i k) {j : κ} {p : Phase} (hj : j ≠ k) :
    s.coroutines j ≠ some (i, p) := by
  intro hc
  have haw := (h.meets j i p hc).1
  rcases hown with ⟨hnone, -⟩ | ⟨p', hk⟩
  · rw [hnone] at haw
    cases haw
  · exact hj (Option.some.inj (haw.symm.trans (h.meets k i p' hk).1))

/-- A coroutine that awaits an operation, or is about to, has left every other one. -/
theorem results_ne_nil (h : Sound R s) (hown : Awaits s i k) {j : ι} (hj : j ≠ i)
    (haw : (s.ops j).awaiter = some k) : (s.ops j).results ≠ [] := by
  intro hr
  obtain ⟨p, hp⟩ := h.awaiting j k haw hr
  rcases hown with ⟨-, hnone⟩ | ⟨p', hk⟩
  · rw [hnone] at hp
    cases hp
  · rw [hk] at hp
    cases hp
    exact hj rfl

variable [DecidableEq ι] [DecidableEq κ]

/-- One operation changes together with the coroutine that awaits it. -/
theorem move {o : Op W κ ρ} {x : Option (ι × Phase)} {q : List κ} (h : Sound R s)
    (hown : Awaits s i k) (hq : ∀ j, j ≠ k → (j ∈ q ↔ j ∈ s.queue)) (hnodup : q.Nodup)
    (haw : o.awaiter = some k) (hfilled : Filled R o)
    (hx : (x = none ∧ k ∉ q ∧ o.results ≠ []) ∨
      ∃ p, x = some (i, p) ∧ o.results = [] ∧ Meets R o k (k ∈ q) p) :
    Sound R (s.move i o k x q) := by
  have hops (j : ι) (hj : j ≠ i) : (s.move i o k x q).ops j = s.ops j :=
    Function.update_of_ne hj ..
  have hself : (s.move i o k x q).ops i = o := Function.update_self ..
  have hco (j : κ) (hj : j ≠ k) : (s.move i o k x q).coroutines j = s.coroutines j :=
    Function.update_of_ne hj ..
  have hcoself : (s.move i o k x q).coroutines k = x := Function.update_self ..
  refine ⟨hnodup, fun j hj ↦ ?_, fun j l p hj ↦ ?_, fun l hl ↦ ?_, fun l j hl hr ↦ ?_,
    fun l ↦ ?_⟩
  · change j ∉ q
    by_cases hjk : j = k
    · subst hjk
      rw [hcoself] at hj
      rcases hx with ⟨-, hnotin, -⟩ | ⟨p, hx, -⟩
      · exact hnotin
      · rw [hx] at hj
        cases hj
    · rw [hco j hjk] at hj
      rw [hq j hjk]
      exact h.idle j hj
  · change _ ∧ _ ∧ Meets R _ j (j ∈ q) p
    by_cases hjk : j = k
    · subst hjk
      rw [hcoself] at hj
      rcases hx with ⟨hx, -⟩ | ⟨p', hx, hr, hm⟩
      · rw [hx] at hj
        cases hj
      · rw [hx] at hj
        cases hj
        rw [hself]
        exact ⟨haw, hr, hm⟩
    · rw [hco j hjk] at hj
      have hl : l ≠ i := by
        rintro rfl
        exact h.not_at hown hjk hj
      rw [hops l hl, propext (hq j hjk)]
      exact h.meets j l p hj
  · by_cases hli : l = i
    · subst hli
      rw [hself, haw] at hl
      cases hl
    · rw [hops l hli] at hl ⊢
      exact h.unawaited l hl
  · by_cases hli : l = i
    · subst hli
      rw [hself] at hl hr
      have hjk : k = j := Option.some.inj (haw.symm.trans hl)
      subst hjk
      rw [hcoself]
      rcases hx with ⟨-, -, hne⟩ | ⟨p, hx, -⟩
      · exact absurd hr hne
      · exact ⟨p, hx⟩
    · rw [hops l hli] at hl hr
      have hjk : j ≠ k := by
        rintro rfl
        exact h.results_ne_nil hown hli hl hr
      rw [hco j hjk]
      exact h.awaiting l j hl hr
  · by_cases hli : l = i
    · subst hli
      rw [hself]
      exact hfilled
    · rw [hops l hli]
      exact h.filled l

omit [DecidableEq κ] in
/-- An operation that nobody awaits changes. -/
theorem unmet {o : Op W κ ρ} (h : Sound R s) (hown : (s.ops i).awaiter = none)
    (haw : o.awaiter = none) (hfree : Free R o ∧ o.results = []) (hfilled : Filled R o) :
    Sound R (s.setOp i o) := by
  have hops (j : ι) (hj : j ≠ i) : (s.setOp i o).ops j = s.ops j := Function.update_of_ne hj ..
  have hself : (s.setOp i o).ops i = o := Function.update_self ..
  refine ⟨h.nodup, h.idle, fun j l p hj ↦ ?_, fun l hl ↦ ?_, fun l j hl hr ↦ ?_, fun l ↦ ?_⟩
  · have hl : l ≠ i := by
      rintro rfl
      have haw' := (h.meets j l p hj).1
      rw [hown] at haw'
      cases haw'
    rw [hops l hl]
    exact h.meets j l p hj
  · by_cases hli : l = i
    · subst hli
      rw [hself]
      exact hfree
    · rw [hops l hli] at hl ⊢
      exact h.unawaited l hl
  · have hli : l ≠ i := by
      rintro rfl
      rw [hself, haw] at hl
      cases hl
    rw [hops l hli] at hl hr
    exact h.awaiting l j hl hr
  · by_cases hli : l = i
    · subst hli
      rw [hself]
      exact hfilled
    · rw [hops l hli]
      exact h.filled l

/-- An operation changes on its side, for whichever coroutine awaits it. -/
theorem step {o : Op W κ ρ} (h : Sound R s) (haw : o.awaiter = (s.ops i).awaiter)
    (hold : (s.ops i).results = []) (hnew : o.results = []) (hfilled : Filled R o)
    (hfree : Free R (s.ops i) → Free R o)
    (hmeets : ∀ k p queued, Meets R (s.ops i) k queued p → Meets R o k queued p) :
    Sound R (s.setOp i o) := by
  cases hk : (s.ops i).awaiter with
  | none => exact h.unmet hk (haw.trans hk) ⟨hfree (h.unawaited i hk).1, hnew⟩ hfilled
  | some k =>
    obtain ⟨p, hp⟩ := h.awaiting i k hk hold
    have hmove := h.move (o := o) (x := some (i, p)) (q := s.queue) (.inr ⟨p, hp⟩)
      (fun _ _ ↦ Iff.rfl) h.nodup (haw.trans hk) hfilled
      (.inr ⟨p, rfl, hnew, hmeets k p _ (h.meets k i p hp).2.2⟩)
    have hsame : s.move i o k (some (i, p)) s.queue = s.setOp i o := by
      rw [State.move, ← hp, Function.update_eq_self]
      rfl
    rwa [hsame] at hmove

/-- An outcome is stored. -/
theorem store {v : ρ} (h : Sound R s) (hn : next R s (.store i v) = some s') : Sound R s' := by
  simp only [next] at hn
  split at hn
  · next hc =>
    cases hn
    have hfilled := h.filled i
    simp only [Filled, hc] at hfilled
    obtain ⟨-, hread, hres⟩ := hfilled
    refine h.step rfl hres hres ⟨v, rfl, R.read_store _ v hread, hres⟩ (fun hf ↦ ?_)
      fun k p queued hm ↦ ?_
    · simpa [Free, hc, R.mark_store] using hf
    · cases p with
      | suspending | suspended => simpa [Meets, Free, hc, R.mark_store] using hm
      | scheduling | resuming => simp [Meets, hc] at hm
  · cases hn

/-- A completion hands its coroutine to the scheduler. -/
theorem schedule (h : Sound R s) (hn : scheduleStep s i = some s') : Sound R s' := by
  unfold scheduleStep at hn
  split at hn
  · next k hc =>
    cases hn
    have hfilled := h.filled i
    simp only [Filled, hc] at hfilled
    obtain ⟨v, hout, hread, hres⟩ := hfilled
    have hk : ∃ j p, (s.ops i).awaiter = some j ∧ s.coroutines j = some (i, p) := by
      cases haw : (s.ops i).awaiter with
      | none =>
        have hfree := (h.unawaited i haw).1
        simp [Free, hc] at hfree
      | some j =>
        obtain ⟨p, hp⟩ := h.awaiting i j haw hres
        exact ⟨j, p, rfl, hp⟩
    obtain ⟨j, p, haw, hp⟩ := hk
    have hm := (h.meets j i p hp).2.2
    cases p with
    | suspending => simp [Meets, Free, hc] at hm
    | scheduling | resuming => simp [Meets, hc] at hm
    | suspended =>
      simp only [Meets, hc] at hm
      obtain ⟨rfl, hnot⟩ := hm
      have hmove := h.move (o := { s.ops i with completer := .finished })
        (x := some (i, .suspended)) (q := s.queue ++ [k]) (.inr ⟨_, hp⟩)
        (fun l hl ↦ by simp [hl]) (List.concat_eq_append ▸ h.nodup.concat hnot) haw
        ⟨v, hout, .inl ⟨hres, hread⟩⟩ (.inr ⟨_, rfl, hres, by simp [Meets]⟩)
      have hsame : s.move i { s.ops i with completer := .finished } k (some (i, .suspended))
          (s.queue ++ [k]) = { s.setOp i { s.ops i with completer := .finished } with
            queue := s.queue ++ [k] } := by
        rw [State.move, ← hp, Function.update_eq_self]
        rfl
      rwa [hsame] at hmove
  · cases hn

/-- A completion finishes: it finds nobody, or takes the coroutine that is suspended. -/
theorem finish (h : Sound R s) (hn : finishStep R s i = some s') : Sound R s' := by
  unfold finishStep at hn
  have hcases : (s.ops i).completer = .stored → R.mark (s.ops i).cell = .empty ∨
      ∃ k, R.mark (s.ops i).cell = .waiting k := by
    intro hc
    have hfilled := h.filled i
    simp only [Filled, hc] at hfilled
    obtain ⟨v, -, -, hres⟩ := hfilled
    cases haw : (s.ops i).awaiter with
    | none =>
      have hfree := (h.unawaited i haw).1
      simp only [Free, hc] at hfree
      exact .inl hfree
    | some k =>
      obtain ⟨p, hp⟩ := h.awaiting i k haw hres
      have hm := (h.meets k i p hp).2.2
      cases p with
      | suspending =>
        simp only [Meets, Free, hc] at hm
        exact .inl hm.1
      | scheduling | resuming => simp [Meets, hc] at hm
      | suspended =>
        simp only [Meets, hc] at hm
        exact .inr ⟨k, hm.1⟩
  split at hn
  · next u hc hfin =>
    cases hn
    have hfilled := h.filled i
    simp only [Filled, hc] at hfilled
    obtain ⟨v, hout, hread, hres⟩ := hfilled
    rcases hcases hc with hmark | ⟨k, hmark⟩
    · obtain ⟨w, hw, hdone, hsame⟩ := R.finish_empty _ hmark
      rw [hfin] at hw
      cases hw
      refine h.step rfl hres hres ⟨v, hout, .inl ⟨hres, hsame.trans hread⟩⟩ (fun _ ↦ hdone)
        fun k p queued hm ↦ ?_
      cases p with
      | suspending => exact ⟨hdone, hm.2⟩
      | scheduling | resuming => simp [Meets, hc] at hm
      | suspended => simp [Meets, hc, hmark] at hm
    · obtain ⟨w, hw, -⟩ := R.finish_waiting _ k hmark
      rw [hfin] at hw
      cases hw
  · next u k hc hfin =>
    have hfilled := h.filled i
    simp only [Filled, hc] at hfilled
    obtain ⟨v, hout, hread, hres⟩ := hfilled
    have ht : Sound R (s.setOp i { s.ops i with cell := u, completer := .scheduling k }) := by
      rcases hcases hc with hmark | ⟨j, hmark⟩
      · obtain ⟨w, hw, -⟩ := R.finish_empty _ hmark
        rw [hfin] at hw
        cases hw
      · obtain ⟨w, hw, hdone, hsame⟩ := R.finish_waiting _ j hmark
        rw [hfin] at hw
        cases hw
        refine h.step rfl hres hres ⟨v, hout, hsame.trans hread, hres⟩ (fun hf ↦ ?_)
          fun l p queued hm ↦ ?_
        · simp [Free, hc, hmark] at hf
        · cases p with
          | suspending => simp [Meets, Free, hc, hmark] at hm
          | scheduling | resuming => simp [Meets, hc] at hm
          | suspended => simpa [Meets, hc, hmark] using hm
    split at hn
    · exact ht.schedule hn
    · cases hn
      exact ht
  · cases hn

/-- A coroutine that has found the operation done hands itself to the scheduler. -/
theorem scheduleSelf (h : Sound R s) (hn : scheduleSelfStep s k = some s') : Sound R s' := by
  unfold scheduleSelfStep at hn
  split at hn
  · next i hk =>
    cases hn
    obtain ⟨haw, hres, hfin, hnot⟩ := h.meets k i .scheduling hk
    exact h.move (.inr ⟨_, hk⟩) (fun l hl ↦ by simp [hl])
      (List.concat_eq_append ▸ h.nodup.concat hnot) haw (h.filled i)
      (.inr ⟨_, rfl, hres, by simp [Meets, hfin]⟩)
  · cases hn

/-- A coroutine asks whether the operation is ready. -/
theorem ready (h : Sound R s) (hn : next R s (.ready k i) = some s') : Sound R s' := by
  simp only [next] at hn
  split at hn
  · next hk haw =>
    cases hn
    obtain ⟨hfree, hres⟩ := h.unawaited i haw
    have hnot := h.idle k hk
    refine h.move (.inl ⟨haw, hk⟩) (fun _ _ ↦ Iff.rfl) h.nodup rfl (h.filled i)
      (.inr ⟨_, rfl, hres, ?_⟩)
    cases hc : (s.ops i).completer with
    | pending | stored =>
      simp only [Free, hc] at hfree
      simp [R.ready_empty _ hfree, Meets, Free, hfree, hnot]
    | scheduling j => simp [Free, hc] at hfree
    | finished =>
      simp only [Free, hc] at hfree
      simp [R.ready_done _ hfree, Meets, hnot]
  · cases hn

/-- A coroutine suspends, or finds the operation done. -/
theorem suspend (h : Sound R s) (hn : suspendStep R s k = some s') : Sound R s' := by
  unfold suspendStep at hn
  split at hn
  · next i hk =>
    obtain ⟨haw, hres, hfree, hnot⟩ := h.meets k i .suspending hk
    have hread := R.read_suspend (s.ops i).cell k
    have hfilled {u : W} (hu : (R.suspend (s.ops i).cell k).1 = u) :
        Filled R { s.ops i with cell := u } := by
      subst hu
      have hold := h.filled i
      unfold Filled at hold ⊢
      rw [hread]
      exact hold
    split at hn
    · next u hs =>
      cases hn
      refine h.move (.inr ⟨_, hk⟩) (fun _ _ ↦ Iff.rfl) h.nodup haw (hfilled (by rw [hs]))
        (.inr ⟨_, rfl, hres, ?_⟩)
      cases hc : (s.ops i).completer with
      | pending | stored =>
        simp only [Free, hc] at hfree
        have hwait := (R.suspend_empty _ k hfree).2
        rw [hs] at hwait
        simp [Meets, hc, hwait, hnot]
      | scheduling j => simp [Free, hc] at hfree
      | finished =>
        simp only [Free, hc] at hfree
        have hself := R.suspend_done _ k hfree
        rw [hs] at hself
        cases hself
    · next u j hs =>
      have hfin : (s.ops i).completer = .finished := by
        cases hc : (s.ops i).completer with
        | pending | stored =>
          simp only [Free, hc] at hfree
          have hnone := (R.suspend_empty _ k hfree).1
          rw [hs] at hnone
          cases hnone
        | scheduling j => simp [Free, hc] at hfree
        | finished => rfl
      have ht : Sound R (s.move i { s.ops i with cell := u } k (some (i, .scheduling)) s.queue) :=
        h.move (.inr ⟨_, hk⟩) (fun _ _ ↦ Iff.rfl) h.nodup haw (hfilled (by rw [hs]))
          (.inr ⟨_, rfl, hres, hfin, hnot⟩)
      split at hn
      · exact ht.scheduleSelf hn
      · cases hn
        exact ht
  · cases hn

/-- The scheduler resumes a coroutine. -/
theorem run (h : Sound R s) (hn : next R s (.run k) = some s') : Sound R s' := by
  simp only [next] at hn
  split at hn
  · next i hk =>
    split at hn
    · next hin =>
      cases hn
      obtain ⟨haw, hres, hm⟩ := h.meets k i .suspended hk
      have hfin : (s.ops i).completer = .finished := by
        cases hc : (s.ops i).completer with
        | pending | stored | scheduling =>
          simp only [Meets, hc] at hm
          exact absurd hin hm.2
        | finished => rfl
      exact h.move (.inr ⟨_, hk⟩) (fun l hl ↦ List.mem_erase_of_ne hl) (h.nodup.erase k) haw
        (h.filled i) (.inr ⟨_, rfl, hres, hfin, h.nodup.not_mem_erase⟩)
    · cases hn
  · cases hn

/-- A coroutine continues with what it reads. -/
theorem read (h : Sound R s) (hn : next R s (.read k) = some s') : Sound R s' := by
  simp only [next] at hn
  split at hn
  · next i hk =>
    cases hn
    obtain ⟨haw, hres, hfin, hnot⟩ := h.meets k i .resuming hk
    have hfilled := h.filled i
    simp only [Filled, hfin] at hfilled
    obtain ⟨v, hout, ⟨-, hread⟩ | hone⟩ := hfilled
    · refine h.move (.inr ⟨_, hk⟩) (fun _ _ ↦ Iff.rfl) h.nodup haw ?_ (.inl ⟨rfl, hnot, by simp⟩)
      simp only [Filled, hfin]
      exact ⟨v, hout, .inr (by rw [hres, hread]; rfl)⟩
    · rw [hres] at hone
      cases hone
  · cases hn

/-- Every step keeps the agreement. -/
theorem next {a : Act ι κ ρ} (h : Sound R s) (hn : Rendezvous.next R s a = some s') :
    Sound R s' := by
  cases a with
  | store i v => exact h.store hn
  | finish i => exact h.finish hn
  | schedule i => exact h.schedule hn
  | ready k i => exact h.ready hn
  | suspend k => exact h.suspend hn
  | scheduleSelf k => exact h.scheduleSelf hn
  | run k => exact h.run hn
  | read k => exact h.read hn

omit [DecidableEq ι] [DecidableEq κ] in
/-- Fresh cells that nobody awaits. -/
theorem init {cells : ι → W} (hcells : ∀ i, R.mark (cells i) = .empty ∧ R.read (cells i) = none) :
    Sound R (Rendezvous.init cells : State W ι κ ρ) := by
  refine ⟨List.nodup_nil, fun k _ hk ↦ ?_, fun k i p hk ↦ ?_, fun i _ ↦ ⟨(hcells i).1, rfl⟩,
    fun i k hk ↦ ?_, fun i ↦ ⟨rfl, (hcells i).2, rfl⟩⟩
  · cases hk
  · cases hk
  · cases hk

end Sound

/-- What the two sides owe each other. A coroutine continues at most once past each operation,
with exactly the outcome, which is there when it is about to read it; a coroutine that is to be
resumed is suspended on an operation that has finished, and is to be resumed once; and no
completion finishes while its awaiter is suspended without scheduling it. -/
structure HandedOff (s : State W ι κ ρ) : Prop where
  once : ∀ i, (s.ops i).results.length ≤ 1
  exact : ∀ i, ∀ r ∈ (s.ops i).results, (∃ v, (s.ops i).outcome = some v) ∧ r = (s.ops i).outcome
  stored : ∀ k i, s.coroutines k = some (i, .resuming) →
    (∃ v, (s.ops i).outcome = some v) ∧ R.read (s.ops i).cell = (s.ops i).outcome
  nodup : s.queue.Nodup
  queued : ∀ k ∈ s.queue, ∃ i, s.coroutines k = some (i, .suspended) ∧
    (s.ops i).completer = .finished
  woken : ∀ k i, (s.ops i).completer = .finished → s.coroutines k = some (i, .suspended) →
    k ∈ s.queue

/-- Every run hands over each outcome. -/
theorem handedOff [DecidableEq ι] [DecidableEq κ] {cells : ι → W} {s : State W ι κ ρ}
    (hcells : ∀ i, R.mark (cells i) = .empty ∧ R.read (cells i) = none)
    (hr : (system R cells).Reachable s) : HandedOff R s := by
  have h : Sound R s := hr.invariant (Sound.init hcells) fun _ _ _ hi hn ↦ hi.next hn
  have hres (i : ι) : (s.ops i).results = [] ∨
      ∃ v, (s.ops i).outcome = some v ∧ (s.ops i).results = [some v] := by
    have hfilled := h.filled i
    cases hc : (s.ops i).completer with
    | pending =>
      simp only [Filled, hc] at hfilled
      exact .inl hfilled.2.2
    | stored | scheduling =>
      simp only [Filled, hc] at hfilled
      obtain ⟨-, -, -, hnil⟩ := hfilled
      exact .inl hnil
    | finished =>
      simp only [Filled, hc] at hfilled
      obtain ⟨v, hout, ⟨hnil, -⟩ | hone⟩ := hfilled
      · exact .inl hnil
      · exact .inr ⟨v, hout, hone⟩
  refine ⟨fun i ↦ ?_, fun i r hr ↦ ?_, fun k i hk ↦ ?_, h.nodup, fun k hk ↦ ?_,
    fun k i hfin hk ↦ ?_⟩
  · rcases hres i with hnil | ⟨v, -, hone⟩
    · simp [hnil]
    · simp [hone]
  · rcases hres i with hnil | ⟨v, hout, hone⟩
    · simp [hnil] at hr
    · rw [hone] at hr
      exact ⟨⟨v, hout⟩, (List.mem_singleton.mp hr).trans hout.symm⟩
  · obtain ⟨-, hnil, hfin, -⟩ := h.meets k i .resuming hk
    have hfilled := h.filled i
    simp only [Filled, hfin] at hfilled
    obtain ⟨v, hout, ⟨-, hread⟩ | hone⟩ := hfilled
    · exact ⟨⟨v, hout⟩, hread.trans hout.symm⟩
    · rw [hnil] at hone
      cases hone
  · cases hco : s.coroutines k with
    | none => exact absurd hk (h.idle k hco)
    | some ip =>
      obtain ⟨i, p⟩ := ip
      have hm := (h.meets k i p hco).2.2
      cases p with
      | suspending | scheduling | resuming => exact absurd hk hm.2
      | suspended =>
        refine ⟨i, rfl, ?_⟩
        cases hc : (s.ops i).completer with
        | pending | stored | scheduling =>
          simp only [Meets, hc] at hm
          exact absurd hk hm.2
        | finished => rfl
  · have hm := (h.meets k i .suspended hk).2.2
    simpa only [Meets, hfin] using hm

end Rendezvous

end Crasy.Base
