import Crasy.Base.Component
import Crasy.Executor.BlockingDrain
import Crasy.Executor.BlockingOrder
import Crasy.Spawn.BlockingOutcome

/-!
# Blocking tasks on the blocking pool

Library `Spawn`. Puts `Crasy.Spawn.BlockingJoinHandle` and `Crasy.Executor.Blocking` together, as
`spawn_blocking` does: the constructor of a `blocking_join_handle` hands the shared state to
`run_blocking` (`include/crasy/spawn_blocking.hpp:129–135`), and the worker that pops it runs
its `call()` to the end before it goes on (`src/executor.cpp:153–156`). Each of the two machines
is a component of this one. That `call()` is run once, by one worker, which the model of the
shared state takes for granted, is here a result about the pool, `called_once`.
-/

namespace Crasy.Spawn.Pool

open Crasy.Base

variable {ω κ φ η α ε ρ : Type}

/-- The pool, whose tasks are the shared states; the shared states and their handles; and the
handle that each caller constructs or has last constructed. -/
structure State (ω κ φ η α ε ρ : Type) where
  pool : Executor.Blocking.State ω κ φ
  shared : Blocking.State φ η α ε ρ
  constructs : κ → Option η

/-- A call of `spawn_blocking` enters `run_blocking`; a step of `run_blocking`; a step of a
worker; a step of the `call()` that a worker runs; an operation on handles; a spurious wakeup; a
step of the destructor. -/
inductive Act (ω κ φ η α ε ρ : Type) where
  | spawnBlocking (c : κ) (f : φ) (h : η)
  | runBlocking (c : κ) (wakes : Option ω)
  | worker (w : ω)
  | call (w : ω) (f : φ) (a : Blocking.CallAct α ε)
  | handle (a : Blocking.Act φ η α ε ρ)
  | spurious (w : ω)
  | destroy
  deriving DecidableEq

/-- The handles that an operation on handles works on. -/
def operands : Blocking.Act φ η α ε ρ → Option (List η)
  | .spawn _ _ | .call _ _ => none
  | .moveConstruct g h | .moveAssign g h => some [g, h]
  | .construct h | .awaitReady h | .awaitSuspend h _ | .resume h | .awaitResume h | .detach h
  | .destruct h | .delete h => some [h]

/-- What an action is for the pool. -/
def Act.pool : Act ω κ φ η α ε ρ → Option (Executor.Blocking.Act ω κ φ)
  | .spawnBlocking c f _ => some (.call c f)
  | .runBlocking c wakes => some (.caller c wakes)
  | .worker w => some (.worker w)
  | .spurious w => some (.spurious w)
  | .destroy => some .destroy
  | .call _ _ _ | .handle _ => none

/-- What an action is for the shared states and their handles. -/
def Act.shared : Act ω κ φ η α ε ρ → Option (Blocking.Act φ η α ε ρ)
  | .spawnBlocking _ f h => some (.spawn f h)
  | .call _ f a => some (.call f a)
  | .handle a => some a
  | .runBlocking _ _ | .worker _ | .spurious _ | .destroy => none

/-- An empty pool, and no shared state. -/
def init : State ω κ φ η α ε ρ :=
  { pool := Executor.Blocking.init, shared := Blocking.init, constructs := fun _ ↦ none }

/-- The `call()` that the worker runs, if it runs one, has returned. -/
def State.returned (s : State ω κ φ η α ε ρ) (w : ω) : Bool :=
  match s.pool.workers w with
  | .invoke f => match (s.shared.tasks f).call with | .finished => true | _ => false
  | _ => true

section Steps

variable [DecidableEq ω] [DecidableEq κ] [DecidableEq φ] [DecidableEq η] [DecidableEq ρ]
  [Fintype ω] [Fintype κ]

/-- The handle's constructor has returned. -/
def State.constructed (s : State ω κ φ η α ε ρ) (h : η) : Bool :=
  decide (∀ c, s.constructs c = some h → s.pool.callers c = .idle)

/-- A step of the pool alone. -/
def State.poolStep (s : State ω κ φ η α ε ρ) (a : Executor.Blocking.Act ω κ φ) :
    Option (State ω κ φ η α ε ρ) :=
  (Executor.Blocking.next s.pool a).map fun p ↦ { s with pool := p }

/-- A step of the shared states alone. -/
def State.sharedStep (s : State ω κ φ η α ε ρ) (a : Blocking.Act φ η α ε ρ) :
    Option (State ω κ φ η α ε ρ) :=
  (Blocking.next s.shared a).map fun b ↦ { s with shared := b }

/-- One step of the callers, the workers, the owners of the handles or the destructor. -/
def next (s : State ω κ φ η α ε ρ) : Act ω κ φ η α ε ρ → Option (State ω κ φ η α ε ρ)
  | .spawnBlocking c f h =>
    match Executor.Blocking.next s.pool (.call c f), Blocking.next s.shared (.spawn f h) with
    | some p, some b =>
      some { pool := p, shared := b, constructs := Function.update s.constructs c (some h) }
    | _, _ => none
  | .runBlocking c wakes => s.poolStep (.caller c wakes)
  | .worker w => if s.returned w then s.poolStep (.worker w) else none
  | .call w f a => if s.pool.workers w = .invoke f then s.sharedStep (.call f a) else none
  | .handle a =>
    if (operands a).any fun hs ↦ hs.all s.constructed then s.sharedStep a else none
  | .spurious w => s.poolStep (.spurious w)
  | .destroy => s.poolStep .destroy

variable (ω κ φ η α ε ρ) in
/-- Blocking tasks, their handles and the pool under all interleavings. -/
def system : System (State ω κ φ η α ε ρ) (Act ω κ φ η α ε ρ) := { init := init, next := next }

/-! ### The two components -/

variable (ω κ φ η α ε ρ) in
/-- The pool is a component. -/
theorem component_pool : (system ω κ φ η α ε ρ).Component (Executor.Blocking.system ω κ φ)
    State.pool Act.pool := by
  refine ⟨rfl, fun {s a s' b} hn hb ↦ ?_, fun {s a s'} hn hb ↦ ?_⟩
  · cases a with
    | spawnBlocking c f h =>
      cases hb
      simp only [system, next] at hn
      split at hn
      · next p b hp hs =>
        cases hn
        exact hp
      · cases hn
    | worker w =>
      cases hb
      simp only [system, next] at hn
      split at hn
      · obtain ⟨p, hp, rfl⟩ := Option.map_eq_some_iff.mp hn
        exact hp
      · cases hn
    | runBlocking c wakes | spurious w | destroy =>
      cases hb
      obtain ⟨p, hp, rfl⟩ := Option.map_eq_some_iff.mp hn
      exact hp
    | call w f a | handle a => cases hb
  · cases a with
    | call w f a | handle a =>
      simp only [system, next] at hn
      split at hn
      · obtain ⟨b, -, rfl⟩ := Option.map_eq_some_iff.mp hn
        rfl
      · cases hn
    | spawnBlocking c f h | runBlocking c wakes | worker w | spurious w | destroy => cases hb

variable (ω κ φ η α ε ρ) in
/-- The shared states and their handles are a component. -/
theorem component_shared : (system ω κ φ η α ε ρ).Component (Blocking.system φ η α ε ρ)
    State.shared Act.shared := by
  refine ⟨rfl, fun {s a s' b} hn hb ↦ ?_, fun {s a s'} hn hb ↦ ?_⟩
  · cases a with
    | spawnBlocking c f h =>
      cases hb
      simp only [system, next] at hn
      split at hn
      · next p b hp hs =>
        cases hn
        exact hs
      · cases hn
    | call w f a | handle a =>
      cases hb
      simp only [system, next] at hn
      split at hn
      · obtain ⟨b, hs, rfl⟩ := Option.map_eq_some_iff.mp hn
        exact hs
      · cases hn
    | runBlocking c wakes | worker w | spurious w | destroy => cases hb
  · cases a with
    | worker w =>
      simp only [system, next] at hn
      split at hn
      · obtain ⟨p, -, rfl⟩ := Option.map_eq_some_iff.mp hn
        rfl
      · cases hn
    | runBlocking c wakes | spurious w | destroy =>
      obtain ⟨p, -, rfl⟩ := Option.map_eq_some_iff.mp hn
      rfl
    | spawnBlocking c f h | call w f a | handle a => cases hb

end Steps

/-! ### Every shared state runs through the pool once -/

section Tied

variable {p p' : Executor.Blocking.State ω κ φ} {b b' : Blocking.State φ η α ε ρ}

/-- What the pool and the shared states say of each other: every state that was submitted is in
the pool once; one that was invoked has run its `call()`; and every `call()` that has begun was
invoked or is run by a worker. -/
structure Tied [DecidableEq φ] [Fintype ω] [Fintype κ] (p : Executor.Blocking.State ω κ φ)
    (b : Blocking.State φ η α ε ρ) : Prop where
  absent : ∀ f, (b.tasks f).call = .absent → p.account f = 0
  once : ∀ f, (b.tasks f).call ≠ .absent → p.account f = 1
  invoked : ∀ f ∈ p.invoked, (b.tasks f).call = .finished
  begun : ∀ f, (b.tasks f).call ≠ .absent → (b.tasks f).call ≠ .queued →
    f ∈ p.invoked ∨ ∃ w, p.workers w = .invoke f

variable [DecidableEq ω] [DecidableEq κ] [DecidableEq φ] [Fintype ω]

/-- A worker keeps the task that it is about to invoke until its own next step. -/
theorem invoke_next {a : Executor.Blocking.Act ω κ φ} {w : ω} {f : φ}
    (hn : Executor.Blocking.next p a = some p') (hw : p.workers w = .invoke f)
    (ha : a ≠ .worker w) : p'.workers w = .invoke f := by
  cases a with
  | call c g =>
    simp only [Executor.Blocking.next] at hn
    split at hn <;> cases hn
    exact hw
  | caller c wakes =>
    cases Executor.Blocking.callerStep_moves hn with
    | push | fetchAdd | tryLock | unlock | notify => exact hw
    | @wake v _ hb =>
      have hne : w ≠ v := by
        rintro rfl
        rw [hw] at hb
        cases hb
      exact (Function.update_of_ne hne ..).trans hw
  | worker v =>
    have hne : w ≠ v := fun hv ↦ ha (by rw [hv])
    cases Executor.Blocking.workerStep_moves hn <;> exact (Function.update_of_ne hne ..).trans hw
  | spurious v =>
    simp only [Executor.Blocking.next] at hn
    split at hn
    · next hb =>
      cases hn
      have hne : w ≠ v := by
        rintro rfl
        rw [hw] at hb
        cases hb
      exact (Function.update_of_ne hne ..).trans hw
    · cases hn
  | destroy =>
    obtain ⟨-, -, -, -, hworkers⟩ := Executor.Blocking.destructorStep_cases hn
    rcases hworkers w with hsame | ⟨hb, -⟩
    · exact hsame.trans hw
    · rw [hw] at hb
      cases hb

/-- What a step invokes was about to be invoked by the worker that makes it. -/
theorem mem_invoked_next {a : Executor.Blocking.Act ω κ φ} {f : φ}
    (hn : Executor.Blocking.next p a = some p') :
    f ∈ p'.invoked ↔ f ∈ p.invoked ∨ ∃ w, a = .worker w ∧ p.workers w = .invoke f := by
  rw [(Executor.Blocking.Hands.next hn).invoked, List.mem_append]
  refine or_congr_right ⟨fun h ↦ ?_, fun ⟨w, ha, hw⟩ ↦ ?_⟩
  · cases a with
    | worker w =>
      rw [Executor.Blocking.invocations, map_snd_emitted, Executor.Blocking.State.invoking] at h
      split at h
      · next g hw =>
        rw [Option.toList_some, List.mem_singleton] at h
        exact ⟨w, rfl, h ▸ hw⟩
      · cases h
    | call c g | caller c wakes | spurious w | destroy => cases h
  · rw [ha, Executor.Blocking.invocations, map_snd_emitted, Executor.Blocking.State.invoking, hw]
    exact List.mem_singleton_self f

variable [Fintype κ]

/-- A step of the pool that submits nothing. -/
theorem Tied.poolStep {a : Executor.Blocking.Act ω κ φ} (h : Tied p b)
    (hn : Executor.Blocking.next p a = some p') (ha : a.submits = none)
    (hret : ∀ w f, a = .worker w → p.workers w = .invoke f → (b.tasks f).call = .finished) :
    Tied p' b := by
  have haccount (f : φ) : p'.account f = p.account f := by
    rw [Executor.Blocking.account_next hn, ha]
    rfl
  refine ⟨fun f hf ↦ (haccount f).trans (h.absent f hf),
    fun f hf ↦ (haccount f).trans (h.once f hf), fun f hf ↦ ?_, fun f hne hq ↦ ?_⟩
  · rcases (mem_invoked_next hn).mp hf with hf | ⟨w, haw, hw⟩
    · exact h.invoked f hf
    · exact hret w f haw hw
  · rcases h.begun f hne hq with hf | ⟨w, hw⟩
    · exact .inl ((mem_invoked_next hn).mpr (.inl hf))
    · by_cases haw : a = .worker w
      · exact .inl ((mem_invoked_next hn).mpr (.inr ⟨w, haw, hw⟩))
      · exact .inr ⟨w, invoke_next hn hw haw⟩

omit [DecidableEq ω] [DecidableEq κ] in
private theorem Tied.of_call_eq (h : Tied p b) (hc : ∀ f, (b'.tasks f).call = (b.tasks f).call) :
    Tied p b' := by
  constructor
  · intro f
    rw [hc]
    exact h.absent f
  · intro f
    rw [hc]
    exact h.once f
  · intro f hf
    rw [hc]
    exact h.invoked f hf
  · intro f
    rw [hc]
    exact h.begun f

omit [DecidableEq ω] [DecidableEq κ] [Fintype ω] [Fintype κ] in
private theorem set_call [DecidableEq η] {f : φ} {t : Blocking.Task α ε ρ} {h : η}
    {x : Option (Slot φ (Blocking.HandleOp ρ))} (ht : t.call = (b.tasks f).call) (g : φ) :
    ((b.set f t h x).tasks g).call = (b.tasks g).call := by
  by_cases hg : g = f
  · subst hg
    simpa [Blocking.State.set] using ht
  · simp [Blocking.State.set, hg]

omit [DecidableEq ω] [DecidableEq κ] [Fintype ω] [Fintype κ] in
private theorem detach_call [DecidableEq η] {f : φ} {h : η} {op : Blocking.HandleOp ρ}
    {rest : Option (Slot φ (Blocking.HandleOp ρ))} (g : φ) :
    ((Blocking.detach b h f op rest).tasks g).call = (b.tasks g).call := by
  unfold Blocking.detach
  rcases (b.tasks f).base.detach_cases with ⟨hd, -⟩ | ⟨hd, -⟩
  · rw [hd]
    refine set_call ?_ g
    rfl
  · rw [hd]
    refine set_call ?_ g
    rfl

omit [DecidableEq ω] [DecidableEq κ] [Fintype ω] [Fintype κ] in
private theorem call_eq_of_operands [DecidableEq η] [DecidableEq ρ] {a : Blocking.Act φ η α ε ρ}
    (hn : Blocking.next b a = some b') (ha : operands a ≠ none) (f : φ) :
    (b'.tasks f).call = (b.tasks f).call := by
  cases a with
  | spawn g h | call g c => exact absurd rfl ha
  | construct h | moveConstruct g h | moveAssign g h =>
    simp only [Blocking.next] at hn
    split at hn <;> cases hn
    rfl
  | awaitReady h =>
    simp only [Blocking.next] at hn
    split at hn
    · split at hn
      · cases hn
      · cases hn
        refine set_call ?_ f
        rfl
    · cases hn
  | resume h =>
    simp only [Blocking.next] at hn
    split at hn
    · split at hn
      · cases hn
        refine set_call ?_ f
        rfl
      · cases hn
    · cases hn
  | awaitSuspend h k | awaitResume h =>
    simp only [Blocking.next] at hn
    split at hn
    · cases hn
      refine set_call ?_ f
      rfl
    · cases hn
  | detach h =>
    simp only [Blocking.next] at hn
    split at hn
    · cases hn
      exact detach_call f
    · cases hn
  | destruct h =>
    simp only [Blocking.next] at hn
    split at hn
    · cases hn
      exact detach_call f
    · cases hn
      rfl
    · cases hn
  | delete h =>
    simp only [Blocking.next] at hn
    split at hn
    · cases hn
      refine set_call ?_ f
      rfl
    · cases hn
      refine set_call ?_ f
      rfl
    · cases hn

/-- `spawn_blocking` submits a new shared state. -/
theorem Tied.spawn [DecidableEq η] [DecidableEq ρ] {c : κ} {f : φ} {k : η} (h : Tied p b)
    (hp : Executor.Blocking.next p (.call c f) = some p')
    (hb : Blocking.next b (.spawn f k) = some b') : Tied p' b' := by
  simp only [Blocking.next] at hb
  split at hb
  · next habsent hnone =>
    cases hb
    have hself : ((b.set f { b.tasks f with call := .queued } k (some ⟨some f, .idle⟩)).tasks
        f).call = .queued := by
      simp [Blocking.State.set]
    have hother {g : φ} (hg : g ≠ f) : (b.set f { b.tasks f with call := .queued } k
        (some ⟨some f, .idle⟩)).tasks g = b.tasks g := by
      simp [Blocking.State.set, hg]
    have haccount (g : φ) : p'.account g = p.account g + [f].count g :=
      Executor.Blocking.account_next hp
    have hkept {w : ω} {g : φ} (hw : p.workers w = .invoke g) : p'.workers w = .invoke g :=
      invoke_next hp hw (by simp)
    have hinvoked (g : φ) : g ∈ p'.invoked ↔ g ∈ p.invoked := by
      simp [mem_invoked_next hp]
    refine ⟨fun g hg ↦ ?_, fun g hg ↦ ?_, fun g hg ↦ ?_, fun g hg hq ↦ ?_⟩
    · by_cases hgf : g = f
      · rw [hgf, hself] at hg
        cases hg
      · rw [hother hgf] at hg
        simp [haccount, h.absent g hg, Ne.symm hgf]
    · by_cases hgf : g = f
      · simp [haccount, hgf, h.absent f habsent]
      · rw [hother hgf] at hg
        simp [haccount, h.once g hg, Ne.symm hgf]
    · have hfin := h.invoked g ((hinvoked g).mp hg)
      rwa [hother]
      rintro rfl
      rw [habsent] at hfin
      cases hfin
    · have hgf : g ≠ f := by
        rintro rfl
        exact hq hself
      rw [hother hgf] at hg hq
      exact (h.begun g hg hq).imp (hinvoked g).mpr (Exists.imp fun _ ↦ hkept)
  · cases hb

omit [DecidableEq ω] [DecidableEq κ] in
/-- A worker runs the `call()` of the state that it has popped. -/
theorem Tied.call [DecidableEq η] [DecidableEq ρ] {w : ω} {f : φ} {a : Blocking.CallAct α ε}
    (h : Tied p b) (hw : p.workers w = .invoke f)
    (hb : Blocking.next b (.call f a) = some b') : Tied p b' := by
  obtain ⟨t, ht, rfl⟩ := Option.map_eq_some_iff.mp hb
  have hfront : (b.tasks f).call ≠ .finished ∧ (b.tasks f).call ≠ .absent ∧
      t.call ≠ .absent := by
    unfold Blocking.Task.callStep at ht
    split at ht <;> cases ht <;> next hc => simp [hc]
  obtain ⟨hnot, hne, hne'⟩ := hfront
  have hcall {g : φ} (hg : g ≠ f) :
      ((Function.update b.tasks f t) g).call = (b.tasks g).call := by
    rw [Function.update_of_ne hg]
  refine ⟨fun g hg ↦ ?_, fun g hg ↦ ?_, fun g hg ↦ ?_, fun g hg hq ↦ ?_⟩
  · by_cases hgf : g = f
    · subst hgf
      simp only [Function.update_self] at hg
      exact absurd hg hne'
    · exact h.absent g ((hcall hgf).symm.trans hg)
  · by_cases hgf : g = f
    · exact hgf ▸ h.once f hne
    · exact h.once g fun he ↦ hg ((hcall hgf).trans he)
  · have hfin := h.invoked g hg
    have hgf : g ≠ f := by
      rintro rfl
      exact hnot hfin
    exact (hcall hgf).trans hfin
  · by_cases hgf : g = f
    · exact .inr ⟨w, hgf ▸ hw⟩
    · exact h.begun g (fun he ↦ hg ((hcall hgf).trans he)) fun he ↦ hq ((hcall hgf).trans he)

end Tied

/-! ### What becomes of the tasks -/

section Runs

variable [DecidableEq ω] [DecidableEq κ] [DecidableEq φ] [DecidableEq η] [DecidableEq ρ]
  [Fintype ω] [Fintype κ] {s s' : State ω κ φ η α ε ρ} {acts : List (Act ω κ φ η α ε ρ)}

/-- Every step keeps the pool and the shared states tied. -/
theorem Tied.next {a : Act ω κ φ η α ε ρ} (h : Tied s.pool s.shared)
    (hn : (system ω κ φ η α ε ρ).next s a = some s') : Tied s'.pool s'.shared := by
  cases a with
  | spawnBlocking c f k =>
    exact h.spawn ((component_pool ω κ φ η α ε ρ).moves hn rfl)
      ((component_shared ω κ φ η α ε ρ).moves hn rfl)
  | call w f a =>
    simp only [system, Pool.next] at hn
    split at hn
    · next hw =>
      obtain ⟨b, hb, rfl⟩ := Option.map_eq_some_iff.mp hn
      exact h.call hw hb
    · cases hn
  | handle a =>
    simp only [system, Pool.next] at hn
    split at hn
    · next hops =>
      obtain ⟨b, hb, rfl⟩ := Option.map_eq_some_iff.mp hn
      refine h.of_call_eq fun f ↦ call_eq_of_operands hb (fun he ↦ ?_) f
      rw [he] at hops
      cases hops
    · cases hn
  | worker w =>
    simp only [system, Pool.next] at hn
    split at hn
    · next hret =>
      obtain ⟨p, hp, rfl⟩ := Option.map_eq_some_iff.mp hn
      refine h.poolStep hp rfl fun v f hv hf ↦ ?_
      cases hv
      simp only [State.returned, hf] at hret
      split at hret
      · assumption
      · cases hret
    · cases hn
  | runBlocking c wakes | spurious w | destroy =>
    obtain ⟨p, hp, rfl⟩ := Option.map_eq_some_iff.mp hn
    exact h.poolStep hp rfl fun v f hv ↦ by cases hv

/-- Every run keeps them tied. -/
theorem tied_of_run {ok : State ω κ φ η α ε ρ → Act ω κ φ η α ε ρ → Prop}
    (hr : (system ω κ φ η α ε ρ).RunBy ok acts s) : Tied s.pool s.shared := by
  refine hr.invariant (I := fun _ s ↦ Tied s.pool s.shared) ?_ fun _ _ _ _ h _ hn ↦ h.next hn
  constructor <;> simp [system, init, Executor.Blocking.init, Blocking.init, Blocking.Task.new,
    Executor.Blocking.State.account, tally, LfQueue.Content.empty,
    Executor.Blocking.CallerPc.pushing, Executor.Blocking.WorkerPc.carrying]

/-- In every run a shared state is invoked once at most, and by one worker. -/
theorem called_once {ok : State ω κ φ η α ε ρ → Act ω κ φ η α ε ρ → Prop}
    (hr : (system ω κ φ η α ε ρ).RunBy ok acts s) (f : φ) : s.pool.invoked.count f ≤ 1 ∧
      ∀ w, s.pool.workers w = .invoke f → f ∉ s.pool.invoked ∧
        ∀ v, s.pool.workers v = .invoke f → v = w := by
  have htied := tied_of_run hr
  have hle : s.pool.account f ≤ 1 := by
    by_cases hf : (s.shared.tasks f).call = .absent
    · rw [htied.absent f hf]
      exact Nat.zero_le 1
    · exact (htied.once f hf).le
  simp only [Executor.Blocking.State.account] at hle
  have hcarrying {w : ω} (hw : s.pool.workers w = .invoke f) :
      0 < (s.pool.workers w).carrying f := by
    simp [hw, Executor.Blocking.WorkerPc.carrying]
  refine ⟨by omega, fun w hw ↦ ⟨fun hmem ↦ ?_, fun v hv ↦ ?_⟩⟩
  · have hpos := tally_pos.mpr ⟨w, hcarrying hw⟩
    have hcount := List.count_pos_iff.mpr hmem
    omega
  · exact eq_of_tally_le_one (by omega) (hcarrying hv) (hcarrying hw)

/-- The pool's part in a step satisfies `ok`. -/
def PoolOk (ok : Executor.Blocking.State ω κ φ → Executor.Blocking.Act ω κ φ → Prop)
    (s : State ω κ φ η α ε ρ) (a : Act ω κ φ η α ε ρ) : Prop := ∀ b ∈ a.pool, ok s.pool b

/-- What has become of every call of `spawn_blocking`: its `call()` was run once, and is over;
the shared state is marked, with the value that the callable has returned; the coroutine that
was suspended on it was scheduled once; and it was deleted once unless a handle still has it. -/
structure Completed (acts : List (Act ω κ φ η α ε ρ)) (s : State ω κ φ η α ε ρ) (f : φ) :
    Prop where
  invoked : s.pool.invoked.count f = 1
  called : (s.shared.tasks f).call = .finished
  marked : (s.shared.tasks f).base.state = .done
  stored : ∃ o, Blocking.outcome f (acts.filterMap Act.shared) = some o ∧
    (s.shared.tasks f).base.ret = o.toOption
  resumed : (s.shared.tasks f).scheduled = (s.shared.tasks f).awaiter.toList
  released : (∀ h, held s.shared.handles h ≠ some f) → (s.shared.tasks f).deleted = 1
  kept : ∀ h, held s.shared.handles h = some f → (s.shared.tasks f).deleted = 0

/-- While the pool has nothing to do, every task is completed. -/
theorem completed_of_resting {ok : State ω κ φ η α ε ρ → Act ω κ φ η α ε ρ → Prop}
    (hr : (system ω κ φ η α ε ρ).RunBy ok acts s) (hv : s.pool.tasks.values = [])
    (hc : ∀ c, s.pool.callers c = .idle) (hw : ∀ w, (s.pool.workers w).task = none) (f : φ)
    (hf : (s.shared.tasks f).call ≠ .absent) : Completed acts s f := by
  have htied := tied_of_run hr
  have hshared : Blocking.Sound s.shared ∧
      Blocking.Recorded (acts.filterMap Act.shared) s.shared := by
    have hrun : (Blocking.system φ η α ε ρ).Run (acts.filterMap Act.shared) s.shared :=
      (component_shared ω κ φ η α ε ρ).runBy hr fun _ _ _ _ _ ↦ trivial
    exact hrun.invariant (I := fun acts b ↦ Blocking.Sound b ∧ Blocking.Recorded acts b)
      ⟨Blocking.sound_init, .init φ η α ε ρ⟩ fun _ _ _ _ h _ hn ↦ ⟨h.1.next hn, h.2.next h.1 hn⟩
  have hcount : s.pool.invoked.count f = 1 := by
    have hpush : tally (Executor.Blocking.CallerPc.pushing f) s.pool.callers = 0 :=
      tally_eq_zero.mpr fun c ↦ by rw [hc c]; rfl
    have hcarry : tally (Executor.Blocking.WorkerPc.carrying f) s.pool.workers = 0 := by
      refine tally_eq_zero.mpr fun w ↦ ?_
      have hnone := hw w
      cases hpc : s.pool.workers w <;>
        simp_all [Executor.Blocking.WorkerPc.task, Executor.Blocking.WorkerPc.carrying]
    have hone := htied.once f hf
    simpa [Executor.Blocking.State.account, hv, hpush, hcarry] using hone
  have hfin : (s.shared.tasks f).call = .finished :=
    htied.invoked f (List.count_pos_iff.mp (by omega))
  have hsettled : (s.shared.tasks f).call.settled = true := by rw [hfin]; rfl
  have htask := hshared.1.object f
  have hdone := htask.done_iff.mpr hsettled
  refine ⟨hcount, hfin, hdone, (hshared.2.task f).stored hsettled, ?_, fun hnone ↦ ?_,
    fun h hh ↦ (htask.live ⟨h, hh⟩).1⟩
  · have hnone : (s.shared.tasks f).base.suspended = none := by
      by_contra hne
      exact htask.early hne hdone
    have honce := htask.once
    simpa [hfin, Blocking.CallPc.susp, hnone] using honce
  · rcases htask.orphan (not_exists.mpr hnone) hf with ⟨-, hdel⟩ | ⟨hone, -⟩
    · simp [Blocking.Task.deletes, hfin] at hdel
    · exact hone

/-- Every call of `spawn_blocking` is completed once the destructor has joined the blocking
workers, if the pool is drained. -/
theorem completed_of_joined
    (hr : (system ω κ φ η α ε ρ).RunBy (PoolOk Executor.Blocking.DrainOk) acts s)
    (hj : s.pool.destructor = .joined) (f : φ) (hf : (s.shared.tasks f).call ≠ .absent) :
    Completed acts s f := by
  have hpool : (Executor.Blocking.system ω κ φ).RunBy (Executor.Blocking.Decided True)
      (acts.filterMap Act.pool) s.pool := by
    refine (component_pool ω κ φ η α ε ρ).runBy hr fun s a b hok hb ↦ ?_
    obtain ⟨horderly, hdrain⟩ := hok b hb
    exact ⟨horderly, fun ha hs ↦ iff_true_intro (hdrain ha hs)⟩
  obtain ⟨hstaged, -⟩ := Executor.Blocking.drainable_iff hpool
  refine completed_of_resting hr ((Executor.Blocking.values_eq_nil_iff hpool hj).mpr trivial)
    (hstaged.callers (by simp [hj])) (fun w ↦ ?_) f hf
  rw [hstaged.joined hj w]
  rfl

/-- Every call of `spawn_blocking` is completed whenever all blocking workers are blocked and no
`run_blocking` is in progress, if no wakeup was lost. -/
theorem completed_of_blocked [Nonempty ω]
    (hr : (system ω κ φ η α ε ρ).RunBy (PoolOk Executor.Blocking.StepOk) acts s)
    (hw : ∀ w, s.pool.workers w = .blocked) (hc : ∀ c, s.pool.callers c = .idle) (f : φ)
    (hf : (s.shared.tasks f).call ≠ .absent) : Completed acts s f := by
  have hpool : Executor.Blocking.Counted s.pool ∧ Executor.Blocking.Watched s.pool := by
    have hrun : (Executor.Blocking.system ω κ φ).RunBy Executor.Blocking.StepOk
        (acts.filterMap Act.pool) s.pool :=
      (component_pool ω κ φ η α ε ρ).runBy hr fun _ _ b hok hb ↦ hok b hb
    refine hrun.invariant
      (I := fun _ p ↦ Executor.Blocking.Counted p ∧ Executor.Blocking.Watched p)
      ⟨?_, fun hne ↦ absurd rfl hne⟩ fun _ _ _ _ h hok hn ↦ ⟨h.1.step hn, h.2.step h.1 hok hn⟩
    simp [Executor.Blocking.Counted, Executor.Blocking.State.pending, tally,
      Executor.Blocking.system, Executor.Blocking.init, LfQueue.Content.empty,
      Executor.Blocking.CallerPc.adding, Executor.Blocking.WorkerPc.discounting]
  have hv : s.pool.tasks.values = [] := by
    by_contra hne
    rcases hpool.2 hne fun w ↦ .inr (hw w) with ⟨c, hearly⟩ | ⟨-, c, hlate⟩
    · simp [hc c, Executor.Blocking.CallerPc.Early] at hearly
    · simp [hc c, Executor.Blocking.CallerPc.Late] at hlate
  refine completed_of_resting hr hv hc (fun w ↦ ?_) f hf
  rw [hw w]
  rfl

instance (ok : Executor.Blocking.State ω κ φ → Executor.Blocking.Act ω κ φ → Prop)
    [∀ p b, Decidable (ok p b)] (s : State ω κ φ η α ε ρ) (a : Act ω κ φ η α ε ρ) :
    Decidable (PoolOk ok s a) := inferInstanceAs (Decidable (∀ b ∈ a.pool, ok s.pool b))

end Runs

/-- A blocking task is submitted and awaited; the worker pops it, runs its `call()`, which
schedules the coroutine, and goes on. -/
def awaitedOnPool (w : ω) (c : κ) (f : φ) (h : η) (k : ρ) (v : α) :
    List (Act ω κ φ η α ε ρ) :=
  .spawnBlocking c f h :: List.replicate 5 (.runBlocking c none) ++
    [.handle (.awaitReady h), .handle (.awaitSuspend h k), .worker w, .worker w, .call w f .run,
      .call w f (.returns (.ok v)), .call w f .step, .call w f .step, .call w f .step, .worker w]

/-- The pool is destroyed, and then the handle. -/
theorem completed_of_joined_awaited :
    ∃ acts s, (system (Fin 1) (Fin 1) (Fin 1) (Fin 1) Nat Nat Nat).RunBy
      (PoolOk Executor.Blocking.DrainOk) acts s ∧ (s.shared.tasks 0).scheduled = [3] ∧
      (s.shared.tasks 0).base.ret = some 7 ∧ Completed acts s 0 := by
  have hrun : ∃ s, (system (Fin 1) (Fin 1) (Fin 1) (Fin 1) Nat Nat Nat).RunBy
      (PoolOk Executor.Blocking.DrainOk) (awaitedOnPool 0 0 0 0 3 7 ++
        (List.replicate 5 .destroy ++ List.replicate 4 (.worker 0) ++
          [.destroy, .handle (.resume 0), .handle (.awaitResume 0), .handle (.destruct 0),
            .handle (.delete 0)])) s ∧
      s.pool.destructor = .joined ∧ (s.shared.tasks 0).call ≠ .absent ∧
      (s.shared.tasks 0).scheduled = [3] ∧ (s.shared.tasks 0).base.ret = some 7 :=
    System.exists_runBy _ (by decide)
  obtain ⟨s, hr, hj, hf, hk, hv⟩ := hrun
  exact ⟨_, s, hr, hk, hv, completed_of_joined hr hj 0 hf⟩

/-- The worker blocks again. -/
theorem completed_of_blocked_awaited :
    ∃ acts s, (system (Fin 1) (Fin 1) (Fin 1) (Fin 1) Nat Nat Nat).RunBy
      (PoolOk Executor.Blocking.StepOk) acts s ∧ (s.shared.tasks 0).scheduled = [3] ∧
      (s.shared.tasks 0).base.ret = some 7 ∧ Completed acts s 0 := by
  have hrun : ∃ s, (system (Fin 1) (Fin 1) (Fin 1) (Fin 1) Nat Nat Nat).RunBy
      (PoolOk Executor.Blocking.StepOk)
      (awaitedOnPool 0 0 0 0 3 7 ++ List.replicate 4 (.worker 0)) s ∧
      (∀ w, s.pool.workers w = .blocked) ∧ (∀ c, s.pool.callers c = .idle) ∧
      (s.shared.tasks 0).call ≠ .absent ∧ (s.shared.tasks 0).scheduled = [3] ∧
      (s.shared.tasks 0).base.ret = some 7 :=
    System.exists_runBy _ (by decide)
  obtain ⟨s, hr, hw, hc, hf, hk, hv⟩ := hrun
  exact ⟨_, s, hr, hk, hv, completed_of_blocked hr hw hc 0 hf⟩

end Crasy.Spawn.Pool
