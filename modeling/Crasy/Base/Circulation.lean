import Crasy.Base.Ledger
import Mathlib.Data.List.Perm.Basic

/-!
# Handles of suspended parties

Library `Base`. A party that waits has given out one handle to itself. Handles go from a queue
into the hands of the parties, or of calls that they have left behind, and from there to the
scheduler, which makes the party go on. The circulation of handles says that every waiting
party's handle is in exactly one of these places, and no other handle is in any.
-/

namespace Crasy.Base

variable {ι δ : Type*}

section Calls

variable {f : δ → Option ι} {calls : List δ} {k : Nat} {x : δ}

/-- What the calls hold without one of them. -/
theorem filterMap_eraseIdx_perm (h : calls[k]? = some x) :
    (calls.filterMap f).Perm ((f x).toList ++ (calls.eraseIdx k).filterMap f) := by
  obtain ⟨hlt, rfl⟩ := List.getElem?_eq_some_iff.mp h
  have hperm := (List.getElem_cons_eraseIdx_perm hlt).symm.filterMap f
  rw [List.filterMap_cons] at hperm
  cases hx : f calls[k] <;> simpa [hx] using hperm

/-- What the calls hold when one of them goes on. -/
theorem filterMap_set_perm (h : calls[k]? = some x) (y : δ) :
    ((calls.set k y).filterMap f).Perm ((f y).toList ++ (calls.eraseIdx k).filterMap f) := by
  have hperm := (List.set_perm_cons_eraseIdx (List.getElem?_eq_some_iff.mp h).1 y).filterMap f
  rw [List.filterMap_cons] at hperm
  cases hy : f y <;> simpa [hy] using hperm

end Calls

/-- The handles of exactly the waiting parties are in the queue, in the hands of a party or of a
call, or ready, each once. -/
def Circulating {π : Type*} (waits : π → Prop) (hand : π → Option ι) (parties : ι → π)
    (queue : List ι) (f : δ → Option ι) (calls : List δ) (ready : List ι) : Prop :=
  Ledger (fun i ↦ waits (parties i)) (fun i ↦ hand (parties i))
    (queue ++ calls.filterMap f ++ ready)

namespace Circulating

variable {π : Type*} {waits : π → Prop} {hand : π → Option ι} {parties : ι → π} {queue : List ι}
  {f : δ → Option ι} {calls calls' : List δ} {ready : List ι} {i t : ι} {k : Nat} {b : π}

/-- Nobody waits. -/
theorem empty (hw : ∀ i, ¬waits (parties i)) (hh : ∀ i, hand (parties i) = none) :
    Circulating waits hand parties [] f [] [] where
  nodup := List.nodup_nil
  apart i p hi := by rw [hh i] at hi; cases hi
  unique i _ p hi := by rw [hh i] at hi; cases hi
  total t := iff_of_false (hw t) fun ht ↦ by
    rcases ht with hm | ⟨i, hi⟩
    · cases hm
    · rw [hh i] at hi
      cases hi

/-- Calls go on without taking or giving a handle. -/
theorem of_calls (h : Circulating waits hand parties queue f calls ready)
    (hc : (calls.filterMap f).Perm (calls'.filterMap f)) :
    Circulating waits hand parties queue f calls' ready :=
  Ledger.perm h ((hc.append_left queue).append_right ready)

/-- A call takes the first handle of the queue. -/
theorem take_call (h : Circulating waits hand parties (t :: queue) f calls ready)
    (hc : (calls'.filterMap f).Perm (t :: calls.filterMap f)) :
    Circulating waits hand parties queue f calls' ready := by
  refine Ledger.perm h (List.Perm.append_right ready ?_)
  exact List.perm_middle.symm.trans (hc.symm.append_left queue)

/-- A call gives its handle to the scheduler. -/
theorem schedule_call (h : Circulating waits hand parties queue f calls ready)
    (hc : (calls.filterMap f).Perm (t :: calls'.filterMap f)) :
    Circulating waits hand parties queue f calls' (ready ++ [t]) := by
  refine Ledger.perm h ?_
  calc (queue ++ calls.filterMap f ++ ready).Perm (queue ++ (t :: calls'.filterMap f) ++ ready) :=
        (hc.append_left queue).append_right ready
    _ = queue ++ (t :: (calls'.filterMap f ++ ready)) := by
        rw [List.append_assoc, List.cons_append]
    _ |>.Perm (t :: (queue ++ (calls'.filterMap f ++ ready))) := List.perm_middle
    _ = t :: (queue ++ calls'.filterMap f ++ ready) := by rw [List.append_assoc]
    _ |>.Perm (queue ++ calls'.filterMap f ++ ready ++ [t]) := (List.perm_append_singleton ..).symm
    _ = queue ++ calls'.filterMap f ++ (ready ++ [t]) := List.append_assoc ..

/-- A ready handle is that of a waiting party. -/
theorem waits_of_ready (h : Circulating waits hand parties queue f calls ready)
    (ht : ready[k]? = some t) : waits (parties t) :=
  (h.total t).mpr (.inl (List.mem_append_right _ (List.mem_of_getElem? ht)))

section Update

variable [DecidableEq ι]

private theorem waits_update (hw : waits b ↔ waits (parties i)) (r : ι) :
    waits (Function.update parties i b r) ↔ waits (parties r) := by
  by_cases hr : r = i
  · subst hr
    rwa [Function.update_self]
  · rw [Function.update_of_ne hr]

/-- A party moves on without beginning or ceasing to wait and without moving a handle. -/
theorem keep (h : Circulating waits hand parties queue f calls ready)
    (hw : waits b ↔ waits (parties i)) (hh : hand b = hand (parties i)) :
    Circulating waits hand (Function.update parties i b) queue f calls ready := by
  refine Ledger.congr h (waits_update hw) fun j ↦ ?_
  rw [Function.apply_update fun _ ↦ hand, hh, Function.update_eq_self]

/-- A party begins to wait, and its handle is queued. -/
theorem suspend (h : Circulating waits hand parties queue f calls ready)
    (ht : ¬waits (parties i)) (hw : waits b) (hh : hand b = hand (parties i)) :
    Circulating waits hand (Function.update parties i b) (queue ++ [i]) f calls ready := by
  have hgrown : Ledger (fun r ↦ waits (Function.update parties i b r))
      (fun j ↦ hand (parties j)) (i :: (queue ++ calls.filterMap f ++ ready)) := by
    refine Ledger.grow h ht fun r ↦ ?_
    by_cases hr : r = i
    · subst hr
      rw [Function.update_self]
      exact iff_of_true hw (.inl rfl)
    · rw [Function.update_of_ne hr]
      exact (or_iff_right hr).symm
  refine (hgrown.congr (fun _ ↦ Iff.rfl) fun j ↦ ?_).perm ?_
  · rw [Function.apply_update fun _ ↦ hand, hh, Function.update_eq_self]
  · rw [List.append_assoc, List.append_assoc, List.append_assoc]
    exact List.perm_middle.symm

/-- A waiting party goes on when the scheduler takes its handle. -/
theorem resume (h : Circulating waits hand parties queue f calls ready) (hk : ready[k]? = some i)
    (hw : ¬waits b) (hh : hand b = hand (parties i)) :
    Circulating waits hand (Function.update parties i b) queue f calls (ready.eraseIdx k) := by
  have hperm : (queue ++ calls.filterMap f ++ ready).Perm
      (i :: (queue ++ calls.filterMap f ++ ready.eraseIdx k)) := by
    obtain ⟨hlt, rfl⟩ := List.getElem?_eq_some_iff.mp hk
    exact ((List.getElem_cons_eraseIdx_perm hlt).symm.append_left _).trans List.perm_middle
  have hremoved : Ledger (fun r ↦ waits (Function.update parties i b r))
      (fun j ↦ hand (parties j)) (queue ++ calls.filterMap f ++ ready.eraseIdx k) := by
    refine Ledger.remove (Ledger.perm h hperm) fun r ↦ ?_
    by_cases hr : r = i
    · subst hr
      rw [Function.update_self]
      exact iff_of_false hw fun hn ↦ hn.1 rfl
    · rw [Function.update_of_ne hr]
      exact (and_iff_right hr).symm
  refine hremoved.congr (fun _ ↦ Iff.rfl) fun j ↦ ?_
  rw [Function.apply_update fun _ ↦ hand, hh, Function.update_eq_self]

/-- A party takes the first handle of the queue. -/
theorem take (h : Circulating waits hand parties (t :: queue) f calls ready)
    (hi : hand (parties i) = none) (hb : hand b = some t) (hw : waits b ↔ waits (parties i)) :
    Circulating waits hand (Function.update parties i b) queue f calls ready := by
  refine (Ledger.take h hi).congr (waits_update hw) fun j ↦ ?_
  rw [Function.apply_update fun _ ↦ hand, hb]

/-- A party gives its handle to the scheduler. -/
theorem schedule (h : Circulating waits hand parties queue f calls ready)
    (hi : hand (parties i) = some t) (hb : hand b = none) (hw : waits b ↔ waits (parties i)) :
    Circulating waits hand (Function.update parties i b) queue f calls (ready ++ [t]) := by
  refine ((Ledger.give h hi).congr (waits_update hw) fun j ↦ ?_).perm ?_
  · rw [Function.apply_update fun _ ↦ hand, hb]
  · rw [← List.append_assoc]
    exact (List.perm_append_singleton ..).symm

end Update

end Circulating
end Crasy.Base
