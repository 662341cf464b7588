import Crasy.Base.Events

/-!
# Machines that contain or simulate machines

Library `Base`. A machine may contain another one as a component: each of its steps is a step of
the component on its part of the state, or leaves that part alone. Every run of the whole is then
a run of each component, and what is known of the component's runs is known of its part. More
generally a machine may be related to one that performs the events that it emits.
-/

namespace Crasy.Base.System

variable {σ α τ β : Type*}

/-- `M` contains `N`, as the part `part` of its state; `act` is what an action of `M` is for `N`,
if it is one. -/
structure Component (M : System σ α) (N : System τ β) (part : σ → τ) (act : α → Option β) :
    Prop where
  init : part M.init = N.init
  moves : ∀ {s a s' b}, M.next s a = some s' → act a = some b →
    N.next (part s) b = some (part s')
  stays : ∀ {s a s'}, M.next s a = some s' → act a = none → part s' = part s

/-- A run of the whole is a run of the component. -/
theorem Component.runBy {M : System σ α} {N : System τ β} {part : σ → τ} {act : α → Option β}
    {ok : σ → α → Prop} {ok' : τ → β → Prop} {acts : List α} {s : σ}
    (h : Component M N part act) (hr : M.RunBy ok acts s)
    (hok : ∀ s a b, ok s a → act a = some b → ok' (part s) b) :
    N.RunBy ok' (acts.filterMap act) (part s) := by
  induction hr with
  | init =>
    rw [h.init]
    exact .init
  | @step acts s s' a _ hs hn ih =>
    rw [List.filterMap_append]
    cases ha : act a with
    | none =>
      rw [h.stays hn ha, List.filterMap_cons_none ha]
      simpa using ih
    | some b =>
      rw [List.filterMap_cons_some ha]
      exact ih.step (hok s a b hs ha) (h.moves hn ha)

/-- Perform an action, if there is one. -/
def advance (N : System τ β) (t : τ) : Option β → Option τ
  | some b => N.next t b
  | none => some t

/-- Where related states stay related as one machine takes a step and the other performs its
event, the events of a run are a run of the other machine. -/
theorem RunBy.simulates {M : System σ α} {N : System τ β} {R : σ → τ → Prop}
    {emit : σ → α → Option β} {ok : σ → α → Prop} {acts : List α} {s : σ}
    (h : M.RunBy ok acts s) (h0 : R M.init N.init)
    (hs : ∀ s t a s', R s t → ok s a → M.next s a = some s' →
      ∃ t', N.advance t (emit s a) = some t' ∧ R s' t') :
    ∃ t, N.Run (M.events (fun s a ↦ (emit s a).toList) acts) t ∧ R s t := by
  induction h with
  | init => exact ⟨N.init, .init, h0⟩
  | @step acts s s' a hr hok hn ih =>
    obtain ⟨t, hrun, hrel⟩ := ih
    obtain ⟨t', ht, hrel'⟩ := hs s t a s' hrel hok hn
    refine ⟨t', ?_, hrel'⟩
    rw [hr.events_concat hn]
    cases he : emit s a with
    | none =>
      rw [he] at ht
      cases ht
      rwa [Option.toList_none, List.append_nil]
    | some b =>
      rw [he] at ht
      exact hrun.step trivial ht

/-- A run that performs an event, if there is one, after others. -/
theorem RunBy.advance_of_append {N : System τ β} {ok : τ → β → Prop} {acts : List β} {t' : τ}
    {event : Option β} (h : N.RunBy ok (acts ++ event.toList) t') :
    ∃ t, N.RunBy ok acts t ∧ N.advance t event = some t' := by
  cases event with
  | none =>
    rw [Option.toList_none, List.append_nil] at h
    exact ⟨t', h, rfl⟩
  | some b =>
    obtain ⟨t, ht, _, hn⟩ := h.of_concat
    exact ⟨t, ht, hn⟩

/-- Where, besides, the other machine refuses the event of a step that is not good, the events of
a run are a run of the other machine exactly if the steps are good. -/
theorem Run.simulates_iff {M : System σ α} {N : System τ β} {R : σ → τ → Prop}
    {emit : σ → α → Option β} {good : σ → α → Prop} {acts : List α} {s : σ}
    (h : M.Run acts s) (h0 : R M.init N.init)
    (hs : ∀ s t a s', R s t → good s a → M.next s a = some s' →
      ∃ t', N.advance t (emit s a) = some t' ∧ R s' t')
    (hbad : ∀ s t a s', R s t → ¬good s a → M.next s a = some s' →
      N.advance t (emit s a) = none) :
    (∃ t, N.Run (M.events (fun s a ↦ (emit s a).toList) acts) t) ↔ M.RunBy good acts s := by
  refine ⟨?_, fun hr ↦ (hr.simulates h0 hs).imp fun _ ↦ And.left⟩
  induction h with
  | init => exact fun _ ↦ .init
  | @step acts s s' a hr _ hn ih =>
    rintro ⟨t', ht'⟩
    rw [hr.events_concat hn] at ht'
    obtain ⟨t, ht, hadvance⟩ := ht'.advance_of_append
    have hgood := ih ⟨t, ht⟩
    obtain ⟨u, hu, hrel⟩ := hgood.simulates h0 hs
    rw [ht.unique hu] at hadvance
    refine hgood.step ?_ hn
    by_contra hnot
    rw [hbad s u a s' hrel hnot hn] at hadvance
    cases hadvance

end Crasy.Base.System
