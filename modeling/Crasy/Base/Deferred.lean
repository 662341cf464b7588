import Crasy.Base.Ledger
import Crasy.Base.Linked

/-!
# Chains with deferred links

Library `Base`. In a queue whose producers first swing the end pointer and only then
store the link from the old last element, the stored successors lag behind the order of
the queue. A deferred chain has an intended successor map, and each link that is not yet
stored is owed by exactly one party.
-/

namespace Crasy.Base

variable {ι ρ : Type*} {next next' after : ρ → Option ρ} {links : ι → Option (ρ × ρ)}
  {ps : List ρ}

/-- The chain visits `ps` along `after`. A successor is stored unless some party owes
it, in which case the element's stored successor is null. -/
structure Deferred (next after : ρ → Option ρ) (links : ι → Option (ρ × ρ)) (ps : List ρ) :
    Prop where
  chain : Linked after ps.head? ps
  stored : ∀ a ∈ ps, (∀ i b, links i ≠ some (a, b)) → next a = after a
  owed : ∀ i a b, links i = some (a, b) → a ∈ ps ∧ after a = some b ∧ next a = none
  unique : ∀ i j a b, links i = some (a, b) → links j = some (a, b) → i = j

namespace Deferred

/-- A stored successor is the intended one. -/
theorem after_of_next {a b : ρ} (h : Deferred next after links ps) (ha : a ∈ ps)
    (hn : next a = some b) : after a = some b := by
  rw [← h.stored a ha ?_, hn]
  intro i c hi
  rw [(h.owed i a c hi).2.2] at hn
  cases hn

/-- The intended successor is stored or owed. -/
theorem next_or_owed {a b : ρ} (h : Deferred next after links ps) (ha : a ∈ ps)
    (hb : after a = some b) : next a = some b ∨ ∃ i, links i = some (a, b) := by
  by_cases hex : ∃ i c, links i = some (a, c)
  · obtain ⟨i, c, hi⟩ := hex
    have hc := (h.owed i a c hi).2.1
    rw [hb] at hc
    cases hc
    exact .inr ⟨i, hi⟩
  · push Not at hex
    exact .inl ((h.stored a ha hex).trans hb)

/-- Only the chain's own successors matter. -/
theorem congr (h : Deferred next after links ps) (heq : ∀ p ∈ ps, next' p = next p) :
    Deferred next' after links ps where
  chain := h.chain
  stored a ha hno := (heq a ha).trans (h.stored a ha hno)
  owed i a b hi := by
    obtain ⟨ha, hb, hn⟩ := h.owed i a b hi
    exact ⟨ha, hb, (heq a ha).trans hn⟩
  unique := h.unique

/-- The empty chain, where nobody owes a link. -/
theorem nil (h : ∀ i, links i = none) : Deferred next after links [] where
  chain := rfl
  stored a ha := absurd ha List.not_mem_nil
  owed i a b hi := by simp [h i] at hi
  unique i j a b hi := by simp [h i] at hi

/-- A first element without successor starts a chain. -/
theorem single {e : ρ} (hl : ∀ i, links i = none) (hn : next e = none) :
    Deferred next (fun _ ↦ none) links [e] where
  chain := ⟨rfl, rfl⟩
  stored a ha _ := by rw [List.mem_singleton.mp ha, hn]
  owed i a b hi := by simp [hl i] at hi
  unique i j a b hi := by simp [hl i] at hi

/-- The successor of an element comes after the first one. -/
theorem mem_tail_of_after {a b : ρ} (h : Deferred next after links ps) (ha : a ∈ ps)
    (hb : after a = some b) : b ∈ ps.tail := by
  have hgen : ∀ (qs : List ρ) (root : Option ρ), Linked after root qs → a ∈ qs → b ∈ qs.tail := by
    intro qs
    induction qs with
    | nil => intro _ _ hm; cases hm
    | cons q rest ih =>
      intro root hq hm
      rcases List.mem_cons.mp hm with rfl | hm
      · have hrest := hq.2
        rw [hb] at hrest
        obtain ⟨rest', rfl, _⟩ := hrest.exists_cons
        exact List.mem_cons_self
      · exact List.mem_of_mem_tail (ih _ hq.2 hm)
  exact hgen ps _ h.chain ha

/-- The last element has no successor, stored or owed. -/
theorem last {a : ρ} (h : Deferred next after links (ps ++ [a])) :
    after a = none ∧ next a = none ∧ ∀ i b, links i ≠ some (a, b) := by
  have hn : after a = none := h.chain.next_last
  have hno (i : ι) (b : ρ) : links i ≠ some (a, b) := by
    intro hi
    have := (h.owed i a b hi).2.1
    rw [hn] at this
    cases this
  exact ⟨hn, (h.stored a (by simp) hno).trans hn, hno⟩

/-- A property that the first element has, and that is handed on along every stored
successor and holds of every owed one, holds of the whole chain. -/
theorem forall_mem {P : ρ → Prop} (h : Deferred next after links ps)
    (hhead : ∀ p, ps.head? = some p → P p) (hnext : ∀ a b, P a → next a = some b → P b)
    (howed : ∀ i a b, links i = some (a, b) → P b) : ∀ p ∈ ps, P p := by
  have hgen : ∀ (qs : List ρ) (root : Option ρ), (∀ q ∈ qs, q ∈ ps) → Linked after root qs →
      (∀ p, root = some p → P p) → ∀ p ∈ qs, P p := by
    intro qs
    induction qs with
    | nil => intro _ _ _ _ p hp; cases hp
    | cons q rest ih =>
      intro root hsub hq hroot p hp
      have hPq := hroot q hq.1
      rcases List.mem_cons.mp hp with rfl | hp
      · exact hPq
      refine ih (after q) (fun r hr ↦ hsub r (List.mem_cons_of_mem _ hr)) hq.2 ?_ p hp
      intro b hb
      rcases h.next_or_owed (hsub q List.mem_cons_self) hb with hn | ⟨i, hi⟩
      · exact hnext q b hPq hn
      · exact howed i q b hi
  exact hgen ps _ (fun _ hq ↦ hq) h.chain hhead

/-- The first element leaves a chain once its successor is stored. -/
theorem tail {t n : ρ} {rest : List ρ} (h : Deferred next after links (t :: rest))
    (hn : next t = some n) : Deferred next after links rest ∧ rest.head? = some n := by
  have hrest : Linked after (some n) rest := by
    rw [← h.after_of_next List.mem_cons_self hn]
    exact h.chain.2
  have hhead : rest.head? = some n := by
    obtain ⟨rest', rfl, _⟩ := hrest.exists_cons
    rfl
  refine ⟨⟨hhead ▸ hrest, fun a ha ↦ h.stored a (List.mem_cons_of_mem _ ha), ?_, h.unique⟩, hhead⟩
  intro i a b hi
  obtain ⟨ha, hb, hnull⟩ := h.owed i a b hi
  rcases List.mem_cons.mp ha with rfl | ha
  · rw [hn] at hnull
    cases hnull
  · exact ⟨ha, hb, hnull⟩

variable [DecidableEq ρ]

/-- A store outside the chain keeps it. -/
theorem update {p : ρ} {n : Option ρ} (h : Deferred next after links ps) (hp : p ∉ ps) :
    Deferred (Function.update next p n) after links ps :=
  h.congr fun _ hq ↦ Function.update_of_ne (ne_of_mem_of_not_mem hq hp) ..

variable [DecidableEq ι] {i : ι} {a b : ρ}

/-- A party without a debt appends an element and owes the link to it. -/
theorem snoc {e : ρ} (h : Deferred next after links (ps ++ [a])) (ha : a ∉ ps)
    (he : e ∉ ps ++ [a]) (hn : next e = none) (hi : links i = none) :
    Deferred next (Function.update (Function.update after e none) a (some e))
      (Function.update links i (some (a, e))) (ps ++ [a] ++ [e]) := by
  obtain ⟨_, hlast, hno⟩ := h.last
  have hea : e ≠ a := fun heq ↦ he (by simp [heq])
  have hold (c : ρ) (hc : c ∈ ps ++ [a]) (hca : c ≠ a) :
      Function.update (Function.update after e none) a (some e) c = after c := by
    rw [Function.update_of_ne hca, Function.update_of_ne (ne_of_mem_of_not_mem hc he)]
  refine ⟨?_, fun c hc hfree ↦ ?_, fun j c d hj ↦ ?_, fun j k c d hj hk ↦ ?_⟩
  · have hroot : (ps ++ [a] ++ [e]).head? = (ps ++ [a]).head? := by
      cases ps <;> rfl
    rw [hroot]
    exact Linked.snoc (h.chain.update he) ha he (Function.update_self ..)
  · have hca : c ≠ a := by
      rintro rfl
      exact hfree i e (Function.update_self ..)
    rcases List.mem_append.mp hc with hc | hc
    · rw [hold c hc hca]
      apply h.stored c hc
      intro j d hj
      apply hfree j d
      rwa [Function.update_of_ne]
      rintro rfl
      rw [hi] at hj
      cases hj
    · rw [List.mem_singleton.mp hc, Function.update_of_ne hea, Function.update_self, hn]
  · rcases update_some_eq_some.mp hj with ⟨-, hcd⟩ | ⟨-, hj'⟩
    · cases hcd
      exact ⟨by simp, Function.update_self .., hlast⟩
    · obtain ⟨hc, hd, hnull⟩ := h.owed j c d hj'
      have hca : c ≠ a := by
        rintro rfl
        exact hno j d hj'
      exact ⟨List.mem_append_left _ hc, (hold c hc hca).trans hd, hnull⟩
  · rcases update_some_eq_some.mp hj with ⟨hji, hcd⟩ | ⟨-, hj'⟩
    · rcases update_some_eq_some.mp hk with ⟨hki, -⟩ | ⟨-, hk'⟩
      · exact hji.trans hki.symm
      · cases hcd
        exact absurd hk' (hno k e)
    · rcases update_some_eq_some.mp hk with ⟨-, hcd⟩ | ⟨-, hk'⟩
      · cases hcd
        exact absurd hj' (hno j e)
      · exact h.unique j k c d hj' hk'

/-- A party stores the link it owes. -/
theorem settle (h : Deferred next after links ps) (hi : links i = some (a, b)) :
    Deferred (Function.update next a (some b)) after (Function.update links i none) ps := by
  obtain ⟨_, hb, _⟩ := h.owed i a b hi
  have hother (j : ι) (c d : ρ) (hj : Function.update links i none j = some (c, d)) :
      links j = some (c, d) ∧ c ≠ a := by
    obtain ⟨hji, hj⟩ := update_none_eq_some.mp hj
    refine ⟨hj, ?_⟩
    rintro rfl
    have hd := (h.owed j c d hj).2.1
    rw [hb] at hd
    cases hd
    exact hji (h.unique j i c b hj hi)
  refine ⟨h.chain, fun c hc hfree ↦ ?_, fun j c d hj ↦ ?_, fun j k c d hj hk ↦ ?_⟩
  · by_cases hca : c = a
    · rw [hca, Function.update_self, hb]
    · rw [Function.update_of_ne hca]
      apply h.stored c hc
      intro j d hj
      apply hfree j d
      rwa [Function.update_of_ne]
      rintro rfl
      rw [hi] at hj
      cases hj
      exact hca rfl
  · obtain ⟨hj, hca⟩ := hother j c d hj
    obtain ⟨hc, hd, hnull⟩ := h.owed j c d hj
    exact ⟨hc, hd, by rwa [Function.update_of_ne hca]⟩
  · exact h.unique j k c d (hother j c d hj).1 (hother k c d hk).1

end Deferred
end Crasy.Base
