import Crasy.Base.System

/-!
# What the steps of a run emit

Library `Base`. Steps may emit events; a run emits those of its steps in order. Where
events carry the party that emits them, the events of one party are a projection. What
was so at some moment of a run is remembered as a moment from which on all steps are quiet.
-/

namespace Crasy.Base

namespace System

variable {σ α β : Type*} (M : System σ α)

/-- The events of a list of actions from a state, as far as they can be performed. -/
def eventsFrom (emit : σ → α → List β) : σ → List α → List β
  | _, [] => []
  | s, a :: rest =>
    match M.next s a with
    | some s' => emit s a ++ eventsFrom emit s' rest
    | none => []

/-- The events of a run. -/
def events (emit : σ → α → List β) (acts : List α) : List β := M.eventsFrom emit M.init acts

variable {M}

@[simp] theorem events_nil (emit : σ → α → List β) : M.events emit [] = [] := rfl

/-- What follows a run is emitted from the state that the run ends in. -/
theorem RunBy.events_append {ok : σ → α → Prop} {acts : List α} {s : σ} (h : M.RunBy ok acts s)
    (emit : σ → α → List β) (rest : List α) :
    M.events emit (acts ++ rest) = M.events emit acts ++ M.eventsFrom emit s rest := by
  induction h generalizing rest with
  | init => rfl
  | @step acts s s' a _ _ hn ih =>
    rw [List.append_assoc, ih, ih, List.singleton_append]
    simp only [eventsFrom, hn, List.append_nil, List.append_assoc]

/-- The last step of a run adds its events. -/
theorem RunBy.events_concat {ok : σ → α → Prop} {acts : List α} {s s' : σ} {a : α}
    (h : M.RunBy ok acts s) (hn : M.next s a = some s') (emit : σ → α → List β) :
    M.events emit (acts ++ [a]) = M.events emit acts ++ emit s a := by
  rw [h.events_append]
  simp only [eventsFrom, hn, List.append_nil]

/-- The invariant rule for predicates of the actions of a run, for a proof that also needs
the run itself. -/
theorem RunBy.invariant_of_run {ok : σ → α → Prop} {I : List α → σ → Prop} {acts : List α}
    {s : σ} (h : M.RunBy ok acts s) (h0 : I [] M.init)
    (hs : ∀ acts s a s', M.RunBy ok acts s → I acts s → ok s a → M.next s a = some s' →
      I (acts ++ [a]) s') : I acts s := by
  induction h with
  | init => exact h0
  | step hr hok hn ih => exact hs _ _ _ _ hr ih hok hn

/-- Where each step puts values at the end of a line and takes others from its front, a run takes
the values in the order in which it has put them, but for those still in the line. -/
theorem RunBy.events_line {ok : σ → α → Prop} {I : σ → Prop} {line : σ → List β}
    {puts takes : σ → α → List β} {acts : List α} {s : σ} (h : M.RunBy ok acts s)
    (h0 : I M.init ∧ line M.init = [])
    (hs : ∀ s a s', I s → ok s a → M.next s a = some s' →
      I s' ∧ line s ++ puts s a = takes s a ++ line s') :
    I s ∧ M.events puts acts = M.events takes acts ++ line s := by
  refine h.invariant_of_run
    (I := fun acts s ↦ I s ∧ M.events puts acts = M.events takes acts ++ line s)
    ⟨h0.1, h0.2.symm⟩ fun acts s a s' hr hi hok hn ↦ ?_
  obtain ⟨hkept, hline⟩ := hs s a s' hi.1 hok hn
  refine ⟨hkept, ?_⟩
  rw [hr.events_concat hn, hr.events_concat hn, hi.2, List.append_assoc, hline,
    List.append_assoc]

variable (M) in
/-- The run has passed through a moment with `P`, and all its actions since then are quiet. -/
def Since (ok : σ → α → Prop) (P : List α → σ → Prop) (quiet : α → Prop) (acts : List α) : Prop :=
  ∃ before rest t, acts = before ++ rest ∧ M.RunBy ok before t ∧ P before t ∧ ∀ a ∈ rest, quiet a

/-- The moment is now, before a quiet step. -/
theorem RunBy.since {ok : σ → α → Prop} {P : List α → σ → Prop} {quiet : α → Prop}
    {acts : List α} {s : σ} {a : α} (h : M.RunBy ok acts s) (hp : P acts s) (ha : quiet a) :
    M.Since ok P quiet (acts ++ [a]) := by
  refine ⟨acts, [a], s, rfl, h, hp, fun b hb ↦ ?_⟩
  rwa [List.mem_singleton.mp hb]

/-- A further quiet step. -/
theorem Since.concat {ok : σ → α → Prop} {P : List α → σ → Prop} {quiet : α → Prop}
    {acts : List α} {a : α} (h : M.Since ok P quiet acts) (ha : quiet a) :
    M.Since ok P quiet (acts ++ [a]) := by
  obtain ⟨before, rest, t, rfl, hr, hp, hquiet⟩ := h
  refine ⟨before, rest ++ [a], t, List.append_assoc .., hr, hp, fun b hb ↦ ?_⟩
  rcases List.mem_append.mp hb with hb | hb
  · exact hquiet b hb
  · rwa [List.mem_singleton.mp hb]

end System

section Parties

variable {ι β : Type*}

/-- A value that a party emits, if it is there. -/
def emitted (i : ι) (value : Option β) : List (ι × β) := value.toList.map (Prod.mk i)

@[simp] theorem emitted_none (i : ι) : emitted i (none : Option β) = [] := rfl

@[simp] theorem emitted_some (i : ι) (v : β) : emitted i (some v) = [(i, v)] := rfl

@[simp] theorem map_snd_emitted (i : ι) (value : Option β) :
    (emitted i value).map Prod.snd = value.toList := by
  cases value <;> rfl

variable [DecidableEq ι]

/-- The events of one party. -/
def eventsOf (i : ι) (log : List (ι × β)) : List β :=
  log.filterMap fun e ↦ if e.1 = i then some e.2 else none

@[simp] theorem eventsOf_nil (i : ι) : eventsOf i ([] : List (ι × β)) = [] := rfl

@[simp] theorem eventsOf_append (i : ι) (log log' : List (ι × β)) :
    eventsOf i (log ++ log') = eventsOf i log ++ eventsOf i log' := List.filterMap_append

@[simp] theorem eventsOf_emitted_self (i : ι) (value : Option β) :
    eventsOf i (emitted i value) = value.toList := by
  cases value <;> simp [eventsOf]

theorem eventsOf_emitted_of_ne {i j : ι} (h : i ≠ j) (value : Option β) :
    eventsOf j (emitted i value) = [] := by
  cases value <;> simp [eventsOf, h]

/-- A log of one party only is that party's. -/
theorem eventsOf_of_forall {i : ι} (h : ∀ j, j = i) (log : List (ι × β)) :
    eventsOf i log = log.map Prod.snd := by
  induction log with
  | nil => rfl
  | cons e rest ih =>
    rw [List.map_cons, ← ih]
    exact List.filterMap_cons_some (if_pos (h e.1))

/-- Every party gives out, in order, what it held and what it gets, but for what it still
holds. -/
def PassesOn (hold hold' : ι → Option β) (gets gives : List (ι × β)) : Prop :=
  ∀ i, (hold i).toList ++ eventsOf i gets = eventsOf i gives ++ (hold' i).toList

/-- One party gets or gives a value, the others keep theirs. -/
theorem PassesOn.of_party {hold hold' : ι → Option β} (i : ι) (get give : Option β)
    (hi : (hold i).toList ++ get.toList = give.toList ++ (hold' i).toList)
    (hne : ∀ j, j ≠ i → hold' j = hold j) :
    PassesOn hold hold' (emitted i get) (emitted i give) := by
  intro j
  by_cases hji : j = i
  · subst hji
    rwa [eventsOf_emitted_self, eventsOf_emitted_self]
  · rw [eventsOf_emitted_of_ne (Ne.symm hji), eventsOf_emitted_of_ne (Ne.symm hji), hne j hji,
      List.append_nil, List.nil_append]

/-- Nobody gets or gives a value. -/
theorem PassesOn.refl {hold hold' : ι → Option β} (h : ∀ i, hold' i = hold i) :
    PassesOn hold hold' [] [] := by
  intro i
  rw [h i]
  exact List.append_nil _

/-- Two stretches of a run in which values are passed on are one. -/
theorem PassesOn.append {hold hold' hold'' : ι → Option β} {gets gives gets' gives' : List (ι × β)}
    (h : PassesOn hold hold' gets gives) (h' : PassesOn hold' hold'' gets' gives') :
    PassesOn hold hold'' (gets ++ gets') (gives ++ gives') := by
  intro i
  rw [eventsOf_append, eventsOf_append, ← List.append_assoc, h i, List.append_assoc, h' i,
    List.append_assoc]

end Parties
end Crasy.Base
