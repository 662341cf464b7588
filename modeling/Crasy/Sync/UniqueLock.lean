import Crasy.Base.System
import Mathlib.Data.Fintype.Basic
import Mathlib.Logic.Equiv.Basic

/-!
# Guards that can be unlocked and moved

Library `Sync`. Models `include/crasy/unique_lock.hpp:15–68` over any correct mutexes: each has at
most one holder, `try_lock` succeeds and `lock` completes only while it has none. Every operation
runs to its end in one step. Which guard holds a mutex is kept beside the guards' own fields: it
is the one through which the mutex was acquired, or the one that this guard was moved to.
-/

namespace Crasy.Sync.UniqueLock

open Crasy.Base

variable {γ μ : Type}

/-- `mtx_` and `locked_`; `include/crasy/unique_lock.hpp:56–57`. -/
structure Guard (μ : Type) where
  mtx : Option μ
  locked : Bool
  deriving DecidableEq, Repr

namespace Guard

/-- `unique_lock(Mutex&)`; `include/crasy/unique_lock.hpp:54`. -/
def ofMutex (m : μ) : Guard μ := { mtx := some m, locked := false }

/-- What the move constructor leaves of its argument; `include/crasy/unique_lock.hpp:22–25`. -/
def movedFrom (x : Guard μ) : Guard μ := { x with mtx := none }

/-- The mutex that the destructor unlocks; `include/crasy/unique_lock.hpp:27–29`. -/
def destructs (x : Guard μ) : Option μ := if x.locked then x.mtx else none

end Guard

/-- Who holds a mutex: a guard, or nobody, or a guard that was destroyed without unlocking it. -/
inductive Holder (γ : Type) where
  | nobody
  | guard (g : γ)
  | lost
  deriving DecidableEq, Repr

/-- The holder under new names of the guards. -/
def Holder.map (f : γ → γ) : Holder γ → Holder γ
  | .nobody => .nobody
  | .guard g => .guard (f g)
  | .lost => .lost

/-- The holder once a guard is gone. -/
def Holder.abandon [DecidableEq γ] (g : γ) : Holder γ → Holder γ
  | .nobody => .nobody
  | .guard h => if h = g then .lost else .guard h
  | .lost => .lost

/-- The guards that exist, the holder of each mutex, and how often it was acquired through guards
and unlocked. -/
structure State (γ μ : Type) where
  guards : γ → Option (Guard μ)
  holder : μ → Holder γ
  acquired : μ → Nat
  unlocked : μ → Nat

/-- The operations on guards. -/
inductive Act (γ μ : Type) where
  | lockUnique (g : γ) (m : μ)
  | moveConstruct (dst src : γ)
  | moveAssign (lhs rhs : γ)
  | tryLock (g : γ)
  | lock (g : γ)
  | unlock (g : γ)
  | destruct (g : γ)
  deriving DecidableEq, Repr

/-- Free mutexes and no guard. -/
def init : State γ μ :=
  { guards := fun _ ↦ none, holder := fun _ ↦ .nobody, acquired := fun _ ↦ 0,
    unlocked := fun _ ↦ 0 }

section Steps

variable [DecidableEq γ] [DecidableEq μ]

/-- Change one guard. -/
def State.setGuard (s : State γ μ) (g : γ) (x : Option (Guard μ)) : State γ μ :=
  { s with guards := Function.update s.guards g x }

/-- A free mutex is acquired through a guard. -/
def State.acquire (s : State γ μ) (g : γ) (m : μ) : State γ μ :=
  { s with
    holder := Function.update s.holder m (.guard g)
    acquired := Function.update s.acquired m (s.acquired m + 1) }

/-- A mutex is unlocked. -/
def State.release (s : State γ μ) (m : μ) : State γ μ :=
  { s with
    holder := Function.update s.holder m .nobody
    unlocked := Function.update s.unlocked m (s.unlocked m + 1) }

/-- `lock_unique`; `include/crasy/unique_lock.hpp:64–68`. -/
def lockUnique (s : State γ μ) (g : γ) (m : μ) : Option (State γ μ) :=
  match s.guards g, s.holder m with
  | none, .nobody => some ((s.acquire g m).setGuard g (some (.ofMutex m)))
  | _, _ => none

/-- The move constructor. The new guard takes the name of the old one in what it holds. -/
def moveConstruct (s : State γ μ) (dst src : γ) : Option (State γ μ) :=
  match s.guards dst, s.guards src with
  | none, some x =>
    some (({ s with holder := fun m ↦ (s.holder m).map (Equiv.swap dst src) }.setGuard
      src (some x.movedFrom)).setGuard dst (some x))
  | _, _ => none

/-- The move assignment, which swaps; `include/crasy/unique_lock.hpp:33–37`. -/
def moveAssign (s : State γ μ) (lhs rhs : γ) : Option (State γ μ) :=
  match s.guards lhs, s.guards rhs with
  | some x, some y =>
    some (({ s with holder := fun m ↦ (s.holder m).map (Equiv.swap lhs rhs) }.setGuard
      lhs (some y)).setGuard rhs (some x))
  | _, _ => none

/-- `try_lock`; `include/crasy/unique_lock.hpp:39`. -/
def tryLock (s : State γ μ) (g : γ) : Option (State γ μ) :=
  match s.guards g with
  | some ⟨some m, _⟩ =>
    match s.holder m with
    | .nobody => some ((s.acquire g m).setGuard g (some ⟨some m, true⟩))
    | .guard _ | .lost => some (s.setGuard g (some ⟨some m, false⟩))
  | _ => none

/-- `co_await lock()`; `include/crasy/unique_lock.hpp:41–44`. -/
def lock (s : State γ μ) (g : γ) : Option (State γ μ) :=
  match s.guards g with
  | some ⟨some m, _⟩ =>
    match s.holder m with
    | .nobody => some ((s.acquire g m).setGuard g (some ⟨some m, true⟩))
    | .guard _ | .lost => none
  | _ => none

/-- `unlock`, by a guard that holds its mutex; `include/crasy/unique_lock.hpp:46–49`. -/
def unlock (s : State γ μ) (g : γ) : Option (State γ μ) :=
  match s.guards g with
  | some ⟨some m, _⟩ =>
    if s.holder m = .guard g then some ((s.release m).setGuard g (some ⟨some m, false⟩)) else none
  | _ => none

/-- The destructor. A mutex that the guard holds and does not unlock is lost. -/
def destruct (s : State γ μ) (g : γ) : Option (State γ μ) :=
  match s.guards g with
  | some x =>
    match x.destructs with
    | some m => some ((s.release m).setGuard g none)
    | none =>
      some ({ s with holder := fun m ↦ (s.holder m).abandon g }.setGuard g none)
  | none => none

/-- One operation. -/
def next (s : State γ μ) : Act γ μ → Option (State γ μ)
  | .lockUnique g m => lockUnique s g m
  | .moveConstruct dst src => moveConstruct s dst src
  | .moveAssign lhs rhs => moveAssign s lhs rhs
  | .tryLock g => tryLock s g
  | .lock g => lock s g
  | .unlock g => unlock s g
  | .destruct g => destruct s g

/-- Any operations on guards, from some state on. -/
def system (s₀ : State γ μ) : System (State γ μ) (Act γ μ) := { init := s₀, next := next }

end Steps

/-! ### What guards and mutexes say of each other -/

/-- A guard that holds a mutex exists and points to it, one that says it holds its mutex does, and
a mutex that is held was acquired once more than unlocked. -/
structure Sound (s : State γ μ) : Prop where
  points : ∀ m g, s.holder m = .guard g → ∃ x, s.guards g = some x ∧ x.mtx = some m
  holds : ∀ g x m, s.guards g = some x → x.mtx = some m → x.locked = true → s.holder m = .guard g
  counted : ∀ m, s.acquired m = s.unlocked m + (match s.holder m with | .nobody => 0 | _ => 1)

/-- Every guard owns what it says it owns, and a mutex that no guard holds was unlocked as often as
it was acquired. -/
structure Lawful (s : State γ μ) : Prop where
  truthful : ∀ g x m, s.guards g = some x → x.mtx = some m →
    (x.locked = true ↔ s.holder m = .guard g)
  matched : ∀ m, (∀ g, s.holder m ≠ .guard g) → s.acquired m = s.unlocked m

/-- The guard holds a mutex. -/
def Owns (s : State γ μ) (g : γ) : Prop := ∃ m, s.holder m = .guard g

/-- The operations that keep `locked_` true: not `lock_unique`, and `try_lock` only by guards that
do not hold their mutex. -/
def KeepsLocked (s : State γ μ) : Act γ μ → Prop
  | .lockUnique _ _ => False
  | .tryLock g => ¬Owns s g
  | .moveConstruct _ _ | .moveAssign _ _ | .lock _ | .unlock _ | .destruct _ => True

/-- Every guard that holds a mutex says so, and no mutex is lost. -/
structure Honest (s : State γ μ) : Prop where
  tells : ∀ g x m, s.guards g = some x → s.holder m = .guard g → x.locked = true
  kept : ∀ m, s.holder m ≠ .lost

private theorem Sound.lawful_iff_honest {s : State γ μ} (h : Sound s) : Lawful s ↔ Honest s := by
  constructor
  · intro hl
    refine ⟨fun g x m hx hm ↦ ?_, fun m hm ↦ ?_⟩
    · obtain ⟨y, hy, hmtx⟩ := h.points m g hm
      rw [hx] at hy
      cases hy
      exact (hl.truthful g x m hx hmtx).mpr hm
    · have hcount := h.counted m
      rw [hl.matched m (by simp [hm]), hm] at hcount
      simp at hcount
  · intro hh
    refine ⟨fun g x m hx hmtx ↦ ⟨h.holds g x m hx hmtx, hh.tells g x m hx⟩, fun m hno ↦ ?_⟩
    have hcount := h.counted m
    cases hm : s.holder m with
    | nobody => simpa [hm] using hcount
    | guard g => exact absurd hm (hno g)
    | lost => exact absurd hm (hh.kept m)

/-! ### Guards under new names -/

/-- The same state with other names for the guards. -/
def State.rename (s : State γ μ) (σ : Equiv.Perm γ) : State γ μ :=
  { s with guards := fun g ↦ s.guards (σ.symm g), holder := fun m ↦ (s.holder m).map σ }

private theorem map_eq_guard {σ : Equiv.Perm γ} {h : Holder γ} {g : γ} :
    h.map σ = .guard g ↔ h = .guard (σ.symm g) := by
  cases h with
  | guard k => simp [Holder.map, Equiv.eq_symm_apply]
  | nobody | lost => simp [Holder.map]

private theorem Sound.rename {s : State γ μ} (h : Sound s) (σ : Equiv.Perm γ) :
    Sound (s.rename σ) := by
  refine ⟨fun m g hm ↦ h.points m _ (map_eq_guard.mp hm), fun g x m hx hmtx hl ↦ ?_, fun m ↦ ?_⟩
  · exact map_eq_guard.mpr (h.holds _ x m hx hmtx hl)
  · have hcount := h.counted m
    simp only [State.rename]
    cases hm : s.holder m <;> simpa [hm, Holder.map] using hcount

private theorem Honest.rename {s : State γ μ} (h : Honest s) (σ : Equiv.Perm γ) :
    Honest (s.rename σ) := by
  refine ⟨fun g x m hx hm ↦ h.tells _ x m hx (map_eq_guard.mp hm), fun m hm ↦ h.kept m ?_⟩
  simp only [State.rename] at hm
  cases hh : s.holder m with
  | lost => rfl
  | nobody | guard => simp [hh, Holder.map] at hm

/-! ### The operations -/

section Steps

variable {s s' : State γ μ} {g : γ} {m : μ} {x : Guard μ} {y : Option (Guard μ)}

private theorem Sound.eq_of_holder {m' : μ} (h : Sound s) (hg : s.guards g = some x)
    (hm : x.mtx = some m) (hm' : s.holder m' = .guard g) : m' = m := by
  obtain ⟨z, hz, hmtx⟩ := h.points m' g hm'
  rw [hg] at hz
  cases hz
  rw [hm] at hmtx
  exact (Option.some.inj hmtx).symm

private theorem Sound.holder_of_owns {m : μ} {b : Bool} (h : Sound s)
    (hg : s.guards g = some ⟨some m, b⟩)
    (ho : Owns s g) : s.holder m = .guard g := by
  obtain ⟨m', hm'⟩ := ho
  rwa [h.eq_of_holder hg rfl hm'] at hm'

private theorem Sound.not_owns {m : μ} {b : Bool} (h : Sound s) (hg : s.guards g = some ⟨some m, b⟩)
    (hm : s.holder m = .nobody) : ¬Owns s g := by
  intro ho
  rw [h.holder_of_owns hg ho] at hm
  cases hm

variable [DecidableEq γ]

@[simp] theorem State.setGuard_self (s : State γ μ) (g : γ) (y : Option (Guard μ)) :
    (s.setGuard g y).guards g = y := Function.update_self ..

@[simp] theorem State.setGuard_of_ne (s : State γ μ) {g k : γ} (y : Option (Guard μ))
    (h : k ≠ g) : (s.setGuard g y).guards k = s.guards k := Function.update_of_ne h ..

@[simp] theorem State.setGuard_holder (s : State γ μ) (g : γ) (y : Option (Guard μ)) :
    (s.setGuard g y).holder = s.holder := rfl

private theorem Sound.setGuard (h : Sound s) (hno : ¬Owns s g)
    (hy : ∀ x, y = some x → x.mtx = none ∨ x.locked = false) : Sound (s.setGuard g y) := by
  refine ⟨fun m k hk ↦ ?_, fun k x m hx hmtx hl ↦ ?_, h.counted⟩
  · have hkg : k ≠ g := by
      rintro rfl
      exact hno ⟨m, hk⟩
    obtain ⟨x, hx, hmtx⟩ := h.points m k hk
    exact ⟨x, by rwa [State.setGuard_of_ne _ _ hkg], hmtx⟩
  · by_cases hkg : k = g
    · subst hkg
      rw [State.setGuard_self] at hx
      rcases hy x hx with hnull | hunlocked
      · rw [hnull] at hmtx
        cases hmtx
      · rw [hunlocked] at hl
        cases hl
    · rw [State.setGuard_of_ne _ _ hkg] at hx
      exact h.holds k x m hx hmtx hl

private theorem Honest.setGuard (h : Honest s) (hno : ¬Owns s g) : Honest (s.setGuard g y) := by
  refine ⟨fun k x m hx hm ↦ ?_, h.kept⟩
  have hkg : k ≠ g := by
    rintro rfl
    exact hno ⟨m, hm⟩
  rw [State.setGuard_of_ne _ _ hkg] at hx
  exact h.tells k x m hx hm

/-- A moved guard says what it said. -/
theorem moveConstruct_spec {dst src : γ} (h : Sound s) (hn : moveConstruct s dst src = some s') :
    Sound s' ∧ (Honest s → Honest s') := by
  simp only [moveConstruct] at hn
  split at hn
  · next x hdst hsrc =>
    cases hn
    have hne : dst ≠ src := by
      rintro rfl
      rw [hdst] at hsrc
      cases hsrc
    -- the guards swap their names, and the old one is left without a mutex
    have heq : (({ s with holder := fun m ↦ (s.holder m).map (Equiv.swap dst src) }.setGuard
        src (some x.movedFrom)).setGuard dst (some x)) =
        (s.rename (Equiv.swap dst src)).setGuard src (some x.movedFrom) := by
      refine congrArg (fun guards ↦ State.mk guards _ s.acquired s.unlocked) (funext fun k ↦ ?_)
      by_cases hkd : k = dst
      · subst hkd
        simp [State.rename, State.setGuard, hne, hsrc]
      · by_cases hks : k = src
        · subst hks
          simp [State.setGuard, hkd]
        · simp [State.rename, State.setGuard, hkd, hks, Equiv.swap_apply_of_ne_of_ne hkd hks]
    have hno : ¬Owns (s.rename (Equiv.swap dst src)) src := by
      rintro ⟨m, hm⟩
      obtain ⟨z, hz, -⟩ := h.points m _ (map_eq_guard.mp hm)
      simp [hdst] at hz
    rw [heq]
    refine ⟨(h.rename _).setGuard hno fun z hz ↦ ?_, fun hh ↦ (hh.rename _).setGuard hno⟩
    cases hz
    exact .inl rfl
  · cases hn

/-- Guards that are swapped say what they said. -/
theorem moveAssign_spec {lhs rhs : γ} (h : Sound s) (hn : moveAssign s lhs rhs = some s') :
    Sound s' ∧ (Honest s → Honest s') := by
  simp only [moveAssign] at hn
  split at hn
  · next x y hlhs hrhs =>
    cases hn
    have heq : (({ s with holder := fun m ↦ (s.holder m).map (Equiv.swap lhs rhs) }.setGuard
        lhs (some y)).setGuard rhs (some x)) = s.rename (Equiv.swap lhs rhs) := by
      refine congrArg (fun guards ↦ State.mk guards _ s.acquired s.unlocked) (funext fun k ↦ ?_)
      by_cases hkr : k = rhs
      · subst hkr
        simp [State.setGuard, hlhs]
      · by_cases hkl : k = lhs
        · subst hkl
          simp [State.setGuard, hkr, hrhs]
        · simp [State.setGuard, hkl, hkr, Equiv.swap_apply_of_ne_of_ne hkl hkr]
    rw [heq]
    exact ⟨h.rename _, fun hh ↦ hh.rename _⟩
  · cases hn

private theorem Sound.setUnlocked {b : Bool} (h : Sound s) (hg : s.guards g = some ⟨some m, b⟩) :
    Sound (s.setGuard g (some ⟨some m, false⟩)) := by
  refine ⟨fun m' k hk ↦ ?_, fun k z m' hz hmtx hl ↦ ?_, h.counted⟩
  · obtain ⟨z, hz, hmtx⟩ := h.points m' k hk
    by_cases hkg : k = g
    · subst hkg
      rw [hg] at hz
      cases hz
      exact ⟨_, State.setGuard_self .., hmtx⟩
    · exact ⟨z, (State.setGuard_of_ne _ _ hkg).trans hz, hmtx⟩
  · by_cases hkg : k = g
    · subst hkg
      rw [State.setGuard_self] at hz
      cases hz
      cases hl
    · exact h.holds k z m' ((State.setGuard_of_ne _ _ hkg).symm.trans hz) hmtx hl

private theorem Sound.abandon (h : Sound s) : Sound (State.setGuard
    { s with holder := fun m ↦ (s.holder m).abandon g } g none) := by
  have hold {m : μ} {k : γ} :
      (s.holder m).abandon g = .guard k ↔ s.holder m = .guard k ∧ k ≠ g := by
    cases hm : s.holder m with
    | nobody | lost => simp [Holder.abandon]
    | guard l =>
      by_cases hl : l = g
      · subst hl
        simp [Holder.abandon, eq_comm]
      · simp only [Holder.abandon, if_neg hl, Holder.guard.injEq]
        exact ⟨fun he ↦ ⟨he, he ▸ hl⟩, And.left⟩
  refine ⟨fun m k hk ↦ ?_, fun k x m hx hmtx hl ↦ ?_, fun m ↦ ?_⟩
  · obtain ⟨hm, hkg⟩ := hold.mp hk
    obtain ⟨x, hx, hmtx⟩ := h.points m k hm
    exact ⟨x, (State.setGuard_of_ne _ _ hkg).trans hx, hmtx⟩
  · by_cases hkg : k = g
    · subst hkg
      rw [State.setGuard_self] at hx
      cases hx
    · rw [State.setGuard_of_ne _ _ hkg] at hx
      exact hold.mpr ⟨h.holds k x m hx hmtx hl, hkg⟩
  · have hcount := h.counted m
    simp only [State.setGuard]
    cases hm : s.holder m with
    | nobody | lost => simpa [hm, Holder.abandon] using hcount
    | guard l => by_cases hl : l = g <;> simpa [hm, Holder.abandon, hl] using hcount

variable [DecidableEq μ]

/-- A free mutex is acquired through a guard that holds no other one and then points to it. -/
theorem Sound.acquire (h : Sound s) (hm : s.holder m = .nobody) (hno : ¬Owns s g)
    (hx : x.mtx = some m) : Sound ((s.acquire g m).setGuard g (some x)) := by
  refine ⟨fun m' k hk ↦ ?_, fun k z m' hz hmtx hl ↦ ?_, fun m' ↦ ?_⟩
  · by_cases hmm : m' = m
    · subst hmm
      have hkg : g = k := by simpa [State.acquire] using hk
      subst hkg
      exact ⟨x, State.setGuard_self .., hx⟩
    · have hold : s.holder m' = .guard k := by simpa [State.acquire, hmm] using hk
      have hkg : k ≠ g := by
        rintro rfl
        exact hno ⟨m', hold⟩
      obtain ⟨z, hz, hmtx⟩ := h.points m' k hold
      exact ⟨z, (State.setGuard_of_ne _ _ hkg).trans hz, hmtx⟩
  · by_cases hkg : k = g
    · subst hkg
      rw [State.setGuard_self] at hz
      cases hz
      rw [hx] at hmtx
      cases hmtx
      simp [State.acquire]
    · have hold := h.holds k z m' ((State.setGuard_of_ne _ _ hkg).symm.trans hz) hmtx hl
      have hmm : m' ≠ m := by
        rintro rfl
        rw [hm] at hold
        cases hold
      simpa [State.acquire, hmm] using hold
  · have hcount := h.counted m'
    by_cases hmm : m' = m
    · subst hmm
      rw [hm] at hcount
      simpa [State.acquire, State.setGuard] using hcount
    · simpa [State.acquire, State.setGuard, hmm] using hcount

/-- A guard through which a mutex was acquired says so. -/
theorem Honest.acquire (h : Honest s) (hno : ¬Owns s g) (hx : x.locked = true) :
    Honest ((s.acquire g m).setGuard g (some x)) := by
  refine ⟨fun k z m' hz hk ↦ ?_, fun m' hm' ↦ ?_⟩
  · by_cases hkg : k = g
    · subst hkg
      rw [State.setGuard_self] at hz
      cases hz
      exact hx
    · have hmm : m' ≠ m := by
        rintro rfl
        exact hkg (by simpa [State.acquire, eq_comm] using hk)
      exact h.tells k z m' ((State.setGuard_of_ne _ _ hkg).symm.trans hz)
        (by simpa [State.acquire, hmm] using hk)
  · by_cases hmm : m' = m
    · subst hmm
      simp [State.acquire] at hm'
    · exact h.kept m' (by simpa [State.acquire, hmm] using hm')

/-- A guard unlocks the mutex that it holds, and does not say any more that it holds it. -/
theorem Sound.release (h : Sound s) (hg : s.guards g = some x) (hx : x.mtx = some m)
    (hm : s.holder m = .guard g) (hy : ∀ x, y = some x → x.locked = false) :
    Sound ((s.release m).setGuard g y) := by
  refine ⟨fun m' k hk ↦ ?_, fun k z m' hz hmtx hl ↦ ?_, fun m' ↦ ?_⟩
  · by_cases hmm : m' = m
    · subst hmm
      simp [State.release] at hk
    · have hold : s.holder m' = .guard k := by simpa [State.release, hmm] using hk
      have hkg : k ≠ g := by
        rintro rfl
        exact hmm (h.eq_of_holder hg hx hold)
      obtain ⟨z, hz, hmtx⟩ := h.points m' k hold
      exact ⟨z, (State.setGuard_of_ne _ _ hkg).trans hz, hmtx⟩
  · by_cases hkg : k = g
    · subst hkg
      rw [State.setGuard_self] at hz
      rw [hy z hz] at hl
      cases hl
    · have hold := h.holds k z m' ((State.setGuard_of_ne _ _ hkg).symm.trans hz) hmtx hl
      have hmm : m' ≠ m := by
        rintro rfl
        rw [hm] at hold
        cases hold
        exact hkg rfl
      simpa [State.release, hmm] using hold
  · have hcount := h.counted m'
    by_cases hmm : m' = m
    · subst hmm
      rw [hm] at hcount
      simpa [State.release, State.setGuard] using hcount
    · simpa [State.release, State.setGuard, hmm] using hcount

/-- Unlocking a mutex leaves the other guards honest. -/
theorem Honest.release (h : Honest s) (hs : Sound s) (hg : s.guards g = some x)
    (hx : x.mtx = some m) : Honest ((s.release m).setGuard g y) := by
  refine ⟨fun k z m' hz hk ↦ ?_, fun m' hm' ↦ ?_⟩
  · by_cases hmm : m' = m
    · subst hmm
      simp [State.release] at hk
    · have hold : s.holder m' = .guard k := by simpa [State.release, hmm] using hk
      have hkg : k ≠ g := by
        rintro rfl
        exact hmm (hs.eq_of_holder hg hx hold)
      exact h.tells k z m' ((State.setGuard_of_ne _ _ hkg).symm.trans hz) hold
  · by_cases hmm : m' = m
    · subst hmm
      simp [State.release] at hm'
    · exact h.kept m' (by simpa [State.release, hmm] using hm')

/-- `lock_unique` makes a guard that hides what it holds. -/
theorem lockUnique_spec (h : Sound s) (hn : lockUnique s g m = some s') :
    Sound s' ∧ ¬Honest s' := by
  simp only [lockUnique] at hn
  split at hn
  · next hg hm =>
    cases hn
    have hno : ¬Owns s g := by
      rintro ⟨n, hn⟩
      obtain ⟨x, hx, -⟩ := h.points n g hn
      rw [hg] at hx
      cases hx
    refine ⟨h.acquire hm hno rfl, fun hh ↦ ?_⟩
    have htells := hh.tells g (.ofMutex m) m (State.setGuard_self ..) (by simp [State.acquire])
    cases htells
  · cases hn

/-- `try_lock` says what has become of the attempt, also when the guard holds the mutex already. -/
theorem tryLock_spec (h : Sound s) (hn : tryLock s g = some s') :
    Sound s' ∧ (Honest s → ¬Owns s g → Honest s') ∧ (Owns s g → ¬Honest s') := by
  simp only [tryLock] at hn
  split at hn
  · next m b hg =>
    have hfailed : Sound (s.setGuard g (some ⟨some m, false⟩)) ∧
        (Honest s → ¬Owns s g → Honest (s.setGuard g (some ⟨some m, false⟩))) ∧
        (Owns s g → ¬Honest (s.setGuard g (some ⟨some m, false⟩))) := by
      refine ⟨h.setUnlocked hg, fun hh hno ↦ hh.setGuard hno, fun ho hh ↦ ?_⟩
      have htells := hh.tells g _ m (State.setGuard_self ..) (h.holder_of_owns hg ho)
      cases htells
    split at hn
    · next hm =>
      cases hn
      have hno : ¬Owns s g := h.not_owns hg hm
      exact ⟨h.acquire hm hno rfl, fun hh _ ↦ hh.acquire hno rfl, fun ho ↦ absurd ho hno⟩
    · cases hn
      exact hfailed
    · cases hn
      exact hfailed
  · cases hn

/-- `lock` completes while nobody holds the mutex. -/
theorem lock_spec (h : Sound s) (hn : lock s g = some s') : Sound s' ∧ (Honest s → Honest s') := by
  simp only [lock] at hn
  split at hn
  · next m b hg =>
    split at hn
    · next hm =>
      cases hn
      have hno : ¬Owns s g := h.not_owns hg hm
      exact ⟨h.acquire hm hno rfl, fun hh ↦ hh.acquire hno rfl⟩
    all_goals cases hn
  · cases hn

/-- `unlock` gives back what the guard holds. -/
theorem unlock_spec (h : Sound s) (hn : unlock s g = some s') :
    Sound s' ∧ (Honest s → Honest s') := by
  simp only [unlock] at hn
  split at hn
  · next m b hg =>
    split at hn
    · next hm =>
      cases hn
      refine ⟨h.release hg rfl hm fun x hx ↦ ?_, fun hh ↦ hh.release h hg rfl⟩
      cases hx
      rfl
    · cases hn
  · cases hn

/-- The destructor unlocks what the guard says it holds. -/
theorem destruct_spec (h : Sound s) (hn : destruct s g = some s') :
    Sound s' ∧ (Honest s → Honest s') := by
  simp only [destruct] at hn
  split at hn
  · next x hg =>
    split at hn
    · next m hm =>
      cases hn
      obtain ⟨hl, hmtx⟩ : x.locked = true ∧ x.mtx = some m := by
        simpa [Guard.destructs] using hm
      have hheld := h.holds g x m hg hmtx hl
      refine ⟨h.release hg hmtx hheld fun z hz ↦ ?_, fun hh ↦ hh.release h hg hmtx⟩
      cases hz
    · next hnone =>
      cases hn
      refine ⟨h.abandon, fun hh ↦ ?_⟩
      -- an honest guard that unlocks nothing holds nothing
      have hno : ¬Owns s g := by
        rintro ⟨m, hm⟩
        obtain ⟨z, hz, hmtx⟩ := h.points m g hm
        rw [hg] at hz
        cases hz
        have hl := hh.tells g x m hg hm
        simp [Guard.destructs, hl, hmtx] at hnone
      have hsame (m : μ) : (s.holder m).abandon g = s.holder m := by
        cases hm : s.holder m with
        | nobody | lost => rfl
        | guard k =>
          have hkg : k ≠ g := by
            rintro rfl
            exact hno ⟨m, hm⟩
          exact if_neg hkg
      simp only [hsame]
      exact hh.setGuard hno
  · cases hn

/-- Every operation. -/
theorem next_spec {a : Act γ μ} (h : Sound s) (hn : next s a = some s') :
    Sound s' ∧ (Honest s → KeepsLocked s a → Honest s') ∧ (¬KeepsLocked s a → ¬Honest s') := by
  have hkeeps {a : Act γ μ} (hk : KeepsLocked s a) (hspec : Sound s' ∧ (Honest s → Honest s')) :
      Sound s' ∧ (Honest s → KeepsLocked s a → Honest s') ∧ (¬KeepsLocked s a → ¬Honest s') :=
    ⟨hspec.1, fun hh _ ↦ hspec.2 hh, fun hnot ↦ absurd hk hnot⟩
  cases a with
  | lockUnique g m =>
    obtain ⟨hs, hbad⟩ := lockUnique_spec h hn
    exact ⟨hs, fun _ hk ↦ hk.elim, fun _ ↦ hbad⟩
  | tryLock g =>
    obtain ⟨hs, hgood, hbad⟩ := tryLock_spec h hn
    exact ⟨hs, hgood, fun hnot ↦ hbad (not_not.mp hnot)⟩
  | moveConstruct dst src => exact hkeeps trivial (moveConstruct_spec h hn)
  | moveAssign lhs rhs => exact hkeeps trivial (moveAssign_spec h hn)
  | lock g => exact hkeeps trivial (lock_spec h hn)
  | unlock g => exact hkeeps trivial (unlock_spec h hn)
  | destruct g => exact hkeeps trivial (destruct_spec h hn)

end Steps

/-! ### Runs -/

theorem sound_init : Sound (init : State γ μ) := by
  refine ⟨fun m g hm ↦ ?_, fun g x m hx ↦ ?_, fun _ ↦ rfl⟩
  · cases hm
  · cases hx

variable [DecidableEq γ] [DecidableEq μ]

/-- From any state on, the guards own what they say they own, and release what they acquire,
exactly when they do so at first, no guard is obtained from `lock_unique`, and no guard that holds
its mutex calls `try_lock`. -/
theorem lawful_guards_iff {s₀ s : State γ μ} {acts : List (Act γ μ)}
    (h₀ : (system init).Reachable s₀) (hr : (system s₀).Run acts s) :
    (∀ before t, before <+: acts → (system s₀).Run before t → Lawful t) ↔
      Lawful s₀ ∧ (system s₀).RunBy KeepsLocked acts s := by
  have hs₀ : Sound s₀ := h₀.invariant sound_init fun _ _ _ hs hn ↦ (next_spec hs hn).1
  by_cases hl : Lawful s₀
  · rw [and_iff_right hl]
    exact hr.passes_iff ⟨hs₀, hs₀.lawful_iff_honest.mp hl⟩ (fun _ _ _ hs hn ↦ (next_spec hs hn).1)
      (fun _ _ _ hs hh hk hn ↦ (next_spec hs hn).2.1 hh hk)
      (fun _ hs hh ↦ hs.lawful_iff_honest.mpr hh)
      fun _ _ _ hs _ hnot hn hlaw ↦
        (next_spec hs hn).2.2 hnot ((next_spec hs hn).1.lawful_iff_honest.mp hlaw)
  · exact ⟨fun h ↦ absurd (h [] s₀ List.nil_prefix .init) hl, fun h ↦ absurd h.1 hl⟩

/-- Where nobody holds a mutex and no guard says that it does, all is well. -/
theorem lawful_of_nobody {s : State γ μ} (h : (system init).Reachable s)
    (hm : ∀ m, s.holder m = .nobody) : Lawful s := by
  have hs : Sound s := h.invariant sound_init fun _ _ _ hs hn ↦ (next_spec hs hn).1
  refine hs.lawful_iff_honest.mpr ⟨fun g x m _ hg ↦ ?_, fun m hl ↦ ?_⟩
  · rw [hm m] at hg
    cases hg
  · rw [hm m] at hl
    cases hl

instance [Fintype μ] (s : State γ μ) (g : γ) : Decidable (Owns s g) :=
  inferInstanceAs (Decidable (∃ m, s.holder m = .guard g))

instance [Fintype μ] (s : State γ μ) (a : Act γ μ) : Decidable (KeepsLocked s a) :=
  match a with
  | .lockUnique _ _ => isFalse id
  | .tryLock g => inferInstanceAs (Decidable ¬Owns s g)
  | .moveConstruct _ _ | .moveAssign _ _ | .lock _ | .unlock _ | .destruct _ => isTrue trivial

/-- A guard is locked, moved and unlocked, and the new guard locks the mutex once more until it is
destroyed. -/
def lockAndMove : List (Act (Fin 2) (Fin 1)) :=
  [.lock 0, .moveConstruct 1 0, .unlock 1, .tryLock 1, .destruct 1]

/-- A guard that was unlocked after `lock_unique` owns from then on what it says it owns. -/
theorem lawful_guards_moved : ∃ s₀ s : State (Fin 2) (Fin 1),
    (system init).Reachable s₀ ∧ s.acquired 0 = 3 ∧ s.unlocked 0 = 3 ∧
      ∀ before t, before <+: lockAndMove → (system s₀).Run before t → Lawful t := by
  have hstart : ∃ s₀, (system (init : State (Fin 2) (Fin 1))).Reachable s₀ ∧
      (∀ m, s₀.holder m = .nobody) ∧
      ∃ s ∈ (system s₀).execBy KeepsLocked s₀ lockAndMove, s.acquired 0 = 3 ∧ s.unlocked 0 = 3 :=
    System.exists_reachable [.lockUnique 0 0, .unlock 0] (by decide)
  obtain ⟨s₀, h₀, hm, hrun⟩ := hstart
  obtain ⟨s, hr, ha, hu⟩ := System.exists_runBy (M := system s₀) lockAndMove hrun
  exact ⟨s₀, s, h₀, ha, hu, (lawful_guards_iff h₀ (hr.mono fun _ _ _ ↦ trivial)).mpr
    ⟨lawful_of_nobody h₀ hm, hr⟩⟩

/-- The guard from `lock_unique` is destroyed, and its mutex stays locked for good. And a guard
that holds its mutex and says so calls `try_lock`, and says so no more. -/
theorem guard_forgets :
    (∃ s : State (Fin 1) (Fin 1), (system init).Reachable s ∧ (∀ g, s.guards g = none) ∧
      s.acquired 0 = 1 ∧ s.unlocked 0 = 0 ∧ ¬Lawful s) ∧
    ∃ s s' : State (Fin 1) (Fin 1), (system init).Reachable s ∧
      s.guards 0 = some ⟨some 0, true⟩ ∧ s.holder 0 = .guard 0 ∧
      next s (.tryLock 0) = some s' ∧ ¬Lawful s' := by
  have hlost : ∃ s : State (Fin 1) (Fin 1), (system init).Reachable s ∧ (∀ g, s.guards g = none) ∧
      (∀ m, s.holder m = .lost) ∧ s.acquired 0 = 1 ∧ s.unlocked 0 = 0 :=
    System.exists_reachable [.lockUnique 0 0, .destruct 0] (by decide)
  have hdenied : ∃ s : State (Fin 1) (Fin 1), (system init).Reachable s ∧
      s.guards 0 = some ⟨some 0, true⟩ ∧ s.holder 0 = .guard 0 ∧
      ∃ s' ∈ next s (.tryLock 0), s'.guards 0 = some ⟨some 0, false⟩ ∧ s'.holder 0 = .guard 0 :=
    System.exists_reachable [.lockUnique 0 0, .unlock 0, .lock 0] (by decide)
  obtain ⟨s, hr, hg, hm, ha, hu⟩ := hlost
  obtain ⟨t, hr', htells, hheld, t', hn, hdeny, hheld'⟩ := hdenied
  refine ⟨⟨s, hr, hg, ha, hu, fun hl ↦ ?_⟩, ⟨t, t', hr', htells, hheld, hn, fun hl ↦ ?_⟩⟩
  · have hcount := hl.matched 0 (by simp [hm])
    rw [ha, hu] at hcount
    cases hcount
  · have hlocked := (hl.truthful 0 _ 0 hdeny rfl).mpr hheld'
    cases hlocked

end Crasy.Sync.UniqueLock
