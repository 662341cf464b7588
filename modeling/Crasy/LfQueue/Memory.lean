import Crasy.Base.Amortized
import Crasy.LfQueue.Destructor
import Crasy.LfQueue.Order
import Mathlib.Data.List.Infix

/-!
# The memory of a shared queue

Library `LfQueue`. Entries go back to the allocator only in the destructor, so a queue never
shrinks. On the runs of `Crasy.LfQueue.Order` it does not grow beyond its backlog either:
`new_entry` allocates only after it has found `free_` null, and then every entry is in the
queue or with a thread.
-/

namespace Crasy.LfQueue.Concurrent

open Crasy.Base

variable {ι α : Type}

/-- The thread has found `free_` null. -/
def Pc.allocating : Pc α → Nat
  | .alloc _ => 1
  | _ => 0

/-- The thread has an entry of its own. -/
def Pc.holding (pc : Pc α) : Nat := pc.held.toList.length

private theorem holding_add_allocating_le (pc : Pc α) : pc.holding + pc.allocating ≤ 1 := by
  cases pc with
  | exchangeValue tail next | moveData tail next =>
    cases next <;> exact Nat.le_of_ble_eq_true rfl
  | _ => exact Nat.le_of_ble_eq_true rfl

/-- An access allocates, or leaves the number of entries alone; a thread decides to allocate
when it has no entry and finds `free_` null. -/
theorem allocated_advance (q : Queue α) (pc : Pc α) :
    (advance q pc).1.allocated + (advance q pc).2.allocating ≤ q.allocated + pc.allocating ∨
      q.free = none ∧ pc.holding + pc.allocating = 0 ∧
        (advance q pc).1.allocated = q.allocated ∧ (advance q pc).2.allocating = 1 := by
  have hround (v : α) : (newEntryRound v q.free).allocating = 0 ∨
      q.free = none ∧ (newEntryRound v q.free).allocating = 1 := by
    cases hf : q.free with
    | none => exact .inr ⟨rfl, rfl⟩
    | some entry => exact .inl rfl
  cases pc with
  | alloc v => exact .inl (Nat.le_refl _)
  | loadFree v =>
    rcases hround v with h | ⟨hf, h⟩
    · exact .inl (Nat.add_le_add_left h.le _)
    · exact .inr ⟨hf, rfl, rfl, h⟩
  | casFree v entry next =>
    simp only [advance]
    split
    · exact .inl (Nat.le_refl _)
    · rcases hround v with h | ⟨hf, h⟩
      · exact .inl (Nat.add_le_add_left h.le _)
      · exact .inr ⟨hf, rfl, rfl, h⟩
  | exchangeHead entry =>
    refine .inl ?_
    simp only [advance]
    cases q.head <;> exact Nat.le_refl _
  | loadTail =>
    refine .inl ?_
    simp only [advance]
    cases q.tail <;> exact Nat.le_refl _
  | casTail tail next =>
    refine .inl ?_
    simp only [advance]
    split <;> exact Nat.le_refl _
  | exchangeValue tail next =>
    refine .inl ?_
    simp only [advance]
    split
    · exact Nat.le_refl _
    · cases next <;> exact Nat.le_refl _
  | moveData tail next =>
    refine .inl ?_
    cases next <;> exact Nat.le_refl _
  | delCas entry next ret =>
    refine .inl ?_
    simp only [advance]
    split <;> exact Nat.le_refl _
  | _ => exact .inl (Nat.le_refl _)

variable [Fintype ι] [DecidableEq ι]

/-- The entries that there are, and those that threads have decided to allocate. -/
def State.demand (s : State ι α) : Nat := s.queue.allocated + tally Pc.allocating s.threads

omit [DecidableEq ι] in
/-- With `free_` null, all entries are in the order or with a thread. -/
theorem Sound.allocated_le {q : Queue α} {threads : ι → Pc α} {order free : List Ptr}
    {after : Ptr → Option Ptr} (h : Sound q threads order free after) (hfree : q.free = none) :
    q.allocated ≤ order.length + tally Pc.holding threads := by
  have hnil : free = [] := by
    cases free with
    | nil => rfl
    | cons p rest =>
      have := h.free_linked.1
      rw [hfree] at this
      cases this
  have hcount := h.ledger.le_length_add
  rwa [hnil, List.append_nil] at hcount

/-- The demand grows only with `free_` null, and then not beyond the order and one entry for
each thread. -/
theorem demand_next {s s' : State ι α} {a : Act ι α} {order free : List Ptr}
    {after : Ptr → Option Ptr} (h : Sound s.queue s.threads order free after)
    (hn : next s a = some s') : s'.demand ≤ max s.demand (order.length + Fintype.card ι) := by
  obtain ⟨i, pc', hmoves, hthreads⟩ := next_moves hn
  have hsum := tally_update Pc.allocating s.threads i pc'
  rw [← hthreads] at hsum
  have hall := tally_le_card holding_add_allocating_le s'.threads
  have hown := tally_update (fun pc ↦ pc.holding + pc.allocating) s.threads i pc'
  rw [← hthreads, tally_add Pc.holding Pc.allocating s.threads] at hown
  simp only [State.demand]
  generalize hpc : s.threads i = pc at hmoves hsum hown
  generalize s'.queue = q' at hmoves
  cases hmoves with
  | push | pop | ret =>
    simp only [Pc.allocating] at hsum
    omega
  | access =>
    rcases allocated_advance s.queue pc with hle | ⟨hfree, hnone, hsame, hone⟩
    · omega
    · have hcount := h.allocated_le hfree
      omega

/-- At each point of the run the values put in and not taken are at most so many. -/
def Backlog (capacity bound : Nat) (acts : List (Act ι α)) : Prop :=
  ∀ before, before <+: acts → ((system ι α capacity).events puts before).length ≤
    ((system ι α capacity).events takes before).length + bound

omit [Fintype ι] in
/-- The order has one entry for each value of the backlog, and may have an emptied one. -/
theorem History.length_order_le {capacity bound : Nat} {acts : List (Act ι α)} {s : State ι α}
    (h : History capacity acts s) (hback : Backlog capacity bound acts) :
    ∃ order free after, Sound s.queue s.threads order free after ∧
      order.length ≤ bound + 1 := by
  obtain ⟨order, free, after, hs, hf, hvalues⟩ := h.order
  refine ⟨order, free, after, hs, (hf.length_le hs).trans ?_⟩
  have hlength := congrArg List.length hvalues
  rw [List.length_append, List.length_map, List.length_map] at hlength
  have hnow := hback acts List.prefix_rfl
  omega

/-- A queue whose backlog never exceeds a bound never has more entries than its initial
capacity, or than the bound, an emptied first entry and one for each thread. -/
theorem memory_bounded (capacity bound : Nat) {acts : List (Act ι α)} {s : State ι α}
    (hr : (system ι α capacity).RunBy StepOk acts s) (hback : Backlog capacity bound acts) :
    s.queue.allocated ≤ max capacity (bound + 1 + Fintype.card ι) := by
  have hinv : History capacity acts s ∧ (Backlog capacity bound acts →
      s.demand ≤ max capacity (bound + 1 + Fintype.card ι)) := by
    refine hr.invariant_of_run (I := fun acts s ↦ History capacity acts s ∧
      (Backlog capacity bound acts → s.demand ≤ max capacity (bound + 1 + Fintype.card ι)))
      ⟨.init, fun _ ↦ ?_⟩ fun acts s a s' hr hi hok hn ↦ ⟨hi.1.step hr hok hn, fun hback ↦ ?_⟩
    · have hnone : tally Pc.allocating (system ι α capacity).init.threads = 0 :=
        tally_eq_zero.mpr fun _ ↦ rfl
      have hcapacity : (system ι α capacity).init.queue.allocated = capacity :=
        Queue.allocated_ofCapacity capacity
      rw [State.demand, hnone, hcapacity]
      exact Nat.le_max_left ..
    · have hbefore : Backlog capacity bound acts := fun before hb ↦
        hback before (hb.trans (List.prefix_append ..))
      obtain ⟨order, free, after, hs, hle⟩ := hi.1.length_order_le hbefore
      have hstep := demand_next hs hn
      have hdemand := hi.2 hbefore
      omega
  exact (Nat.le_add_right ..).trans (hinv.2 hback)

/-- One thread takes the only free entry, another allocates one, and a value is popped. -/
def pushPushPop {κ : Type} (i j : κ) : List (Act κ Nat) :=
  pushAlone i 10 ++ .push j 11 :: List.replicate 7 (.access j) ++ popAlone i

/-- Of two values that were in the queue at once, one is left. -/
theorem memory_bounded_pushPushPop :
    ∃ s, (system (Fin 2) Nat 1).RunBy StepOk (pushPushPop 0 1) s ∧
      s.queue.allocated ≤ max 1 (2 + 1 + Fintype.card (Fin 2)) := by
  have hrun : ∃ s, (system (Fin 2) Nat 1).RunBy StepOk (pushPushPop 0 1) s ∧ True :=
    System.exists_runBy _ (by decide +kernel)
  obtain ⟨s, hr, -⟩ := hrun
  have hback : ∀ before ∈ (pushPushPop (0 : Fin 2) 1).inits,
      ((system (Fin 2) Nat 1).events puts before).length ≤
        ((system (Fin 2) Nat 1).events takes before).length + 2 := by decide +kernel
  exact ⟨s, hr, memory_bounded 1 2 hr fun before hb ↦ hback before ((List.mem_inits ..).mpr hb)⟩

end Crasy.LfQueue.Concurrent
