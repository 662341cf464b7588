import Crasy.Base.Amortized
import Crasy.LfQueue.Threads

/-!
# The queue is lock-free

Library `LfQueue`. Counts the atomic accesses of the machine in `Crasy.LfQueue.Threads`.
The loops of `include/crasy/lfqueue.hpp:78–96,148–154` go round again only after a failed
compare-exchange, and a compare-exchange fails only if the word has changed since its
round loaded it. Nothing is assumed of the entries: the bounds hold in every state, and
for stale compare-exchanges as well.
-/

namespace Crasy.LfQueue.Concurrent

open Crasy.Base

variable {ι α : Type}

/-- The two words that retry loops compare and exchange. -/
inductive Word where
  | free
  | tail
  deriving DecidableEq, Repr

/-- The contents of a word. -/
def word (q : Queue α) : Word → Option Ptr
  | .free => q.free
  | .tail => q.tail

/-- The word that the round of a retry loop is about, and the value that it has loaded. -/
def Pc.loaded : Pc α → Option (Word × Option Ptr)
  | .loadNext _ entry | .casFree _ entry _ => some (.free, some entry)
  | .loadTailNext tail | .casTail tail _ => some (.tail, some tail)
  | .delStore _ next _ | .delCas _ next _ => some (.free, next)
  | _ => none

/-- The next access is a compare-exchange. -/
def Pc.compares : Pc α → Bool
  | .casFree .. | .casTail .. | .delCas .. => true
  | _ => false

/-- The thread is in a call of `push` or `pop`. -/
def Pc.running : Pc α → Nat
  | .idle | .finished _ => 0
  | _ => 1

/-- The round has loaded a value that the word no longer has. -/
def stale (q : Queue α) (pc : Pc α) : Nat :=
  match pc.loaded with
  | some (w, value) => if word q w = value then 0 else 1
  | none => 0

/-- The next access is a compare-exchange that fails. -/
def retries (q : Queue α) (pc : Pc α) : Nat := if pc.compares then stale q pc else 0

/-- One of the two words has changed. -/
def changed (q q' : Queue α) : Nat := if q'.free = q.free ∧ q'.tail = q.tail then 0 else 1

/-- The accesses left to a call in which no compare-exchange fails. -/
def Pc.remaining : Pc α → Nat
  | .loadFree _ => 9
  | .loadNext .. => 8
  | .casFree .. => 7
  | .alloc _ | .clearNext .. => 6
  | .loadValue .. => 5
  | .construct .. => 4
  | .setValue _ => 3
  | .exchangeHead _ => 2
  | .storeTail _ | .storeNext .. => 1
  | .loadTail => 8
  | .loadTailNext _ => 7
  | .casTail .. => 6
  | .exchangeValue .. => 5
  | .moveData .. => 4
  | .delLoad .. => 3
  | .delStore .. => 2
  | .restoreTail .. | .delCas .. => 1
  | .idle | .finished _ => 0

/-- The changes of the two words that a call may still make. -/
def Pc.changesLeft : Pc α → Nat
  | .loadFree _ | .loadNext .. | .casFree .. | .loadTail | .loadTailNext _ | .casTail .. => 2
  | .alloc _ | .clearNext .. | .loadValue .. | .construct .. | .setValue _ | .exchangeHead _
  | .storeTail _ | .exchangeValue .. | .moveData .. | .restoreTail .. | .delLoad ..
  | .delStore .. | .delCas .. => 1
  | .storeNext .. | .idle | .finished _ => 0

/-! ### What one access does -/

private theorem stale_of_loaded_none {q : Queue α} {pc : Pc α} (h : pc.loaded = none) :
    stale q pc = 0 := by
  rw [stale, h]

private theorem stale_le_running (q : Queue α) (pc : Pc α) : stale q pc ≤ 1 * pc.running := by
  cases pc with
  | loadNext | casFree | loadTailNext | casTail | delStore | delCas =>
    simp only [stale, Pc.loaded, Pc.running]
    split <;> omega
  | _ => exact Nat.zero_le _

theorem remaining_le (pc : Pc α) : pc.remaining ≤ 9 * pc.running := by
  cases pc <;> exact Nat.le_of_ble_eq_true rfl

private theorem changesLeft_le (pc : Pc α) : pc.changesLeft ≤ 2 * pc.running := by
  cases pc <;> exact Nat.le_of_ble_eq_true rfl

private theorem stale_le (q q' : Queue α) (pc : Pc α) :
    stale q' pc ≤ stale q pc + changed q q' := by
  by_cases h : q'.free = q.free ∧ q'.tail = q.tail
  · have hword (w : Word) : word q' w = word q w := by
      cases w
      · exact h.1
      · exact h.2
    simp only [stale, hword]
    exact Nat.le_add_right _ _
  · have hone : stale q' pc ≤ 1 := by
      rw [stale]
      split
      · split <;> omega
      · omega
    rw [changed, if_neg h]
    omega

private theorem stale_newEntryRound (q : Queue α) (v : α) :
    stale q (newEntryRound v q.free) = 0 := by
  cases hf : q.free with
  | none => rfl
  | some entry => simp [newEntryRound, stale, Pc.loaded, word, hf]

/-- A thread's own access leaves its round no more stale, and a failed compare-exchange
begins a fresh one. -/
theorem stale_advance (q : Queue α) (pc : Pc α) :
    retries q pc + stale (advance q pc).1 (advance q pc).2 ≤ stale q pc := by
  cases pc with
  | loadFree v =>
    rw [advance, stale_newEntryRound]
    exact Nat.zero_le _
  | casFree v entry next =>
    by_cases hf : q.free = some entry
    · simp [retries, Pc.compares, stale, Pc.loaded, advance, word, hf]
    · rw [advance, if_neg hf, stale_newEntryRound]
      exact Nat.le_refl _
  | loadTail =>
    rw [advance]
    cases ht : q.tail with
    | none => exact Nat.zero_le _
    | some tail => simp [retries, Pc.compares, stale, Pc.loaded, word, ht]
  | casTail tail next =>
    rw [advance]
    split
    · next ht => simp [retries, Pc.compares, stale, Pc.loaded, word, ht]
    · exact Nat.le_refl _
  | exchangeValue tail next =>
    have hnone : (advance q (.exchangeValue tail next)).2.loaded = none := by
      rw [advance]
      dsimp only
      split
      · rfl
      · cases next <;> rfl
    rw [stale_of_loaded_none hnone]
    exact Nat.le_refl _
  | moveData tail next =>
    have hnone : (advance q (.moveData tail next)).2.loaded = none := by
      cases next <;> rfl
    rw [stale_of_loaded_none hnone]
    exact Nat.le_refl _
  | exchangeHead entry =>
    have hnone : (advance q (.exchangeHead entry)).2.loaded = none := by
      rw [advance]
      cases q.head <;> rfl
    rw [stale_of_loaded_none hnone]
    exact Nat.le_refl _
  | delLoad entry ret => simp [retries, Pc.compares, advance, stale, Pc.loaded, word]
  | delCas entry next ret =>
    by_cases hf : q.free = next
    · simp [retries, Pc.compares, stale, Pc.loaded, advance, word, hf]
    · simp [retries, Pc.compares, stale, Pc.loaded, advance, word, hf]
  | loadNext | loadTailNext | delStore => exact Nat.le_of_eq (Nat.zero_add _)
  | _ => exact Nat.le_refl _

/-- An access uses up one of the accesses left; a failed compare-exchange gives back at
most three. -/
theorem remaining_advance (q : Queue α) (pc : Pc α) :
    pc.running + (advance q pc).2.remaining ≤ pc.remaining + 3 * retries q pc := by
  have hround (v : α) : (newEntryRound v q.free).remaining ≤ 8 := by
    cases q.free <;> exact Nat.le_of_ble_eq_true rfl
  have htake (tail : Ptr) (next : Option Ptr) (ret : Option α) :
      (afterTake tail next ret).remaining ≤ 3 := by
    cases next <;> exact Nat.le_of_ble_eq_true rfl
  cases pc with
  | loadFree v => exact Nat.add_le_add_left (hround v) 1
  | casFree v entry next =>
    by_cases hf : q.free = some entry
    · simp [advance, if_pos hf, Pc.running, Pc.remaining]
    · have hfail : retries q (.casFree v entry next) = 1 := by
        simp [retries, Pc.compares, stale, Pc.loaded, word, hf]
      rw [advance, if_neg hf, hfail]
      exact (Nat.add_le_add_left (hround v) 1).trans (Nat.le_of_ble_eq_true rfl)
  | loadTail =>
    rw [advance]
    cases q.tail <;> exact Nat.le_add_right_of_le (Nat.le_of_ble_eq_true rfl)
  | casTail tail next =>
    by_cases ht : q.tail = some tail
    · simp [advance, if_pos ht, Pc.running, Pc.remaining]
    · simp [advance, ht, Pc.running, Pc.remaining, retries, Pc.compares, stale, Pc.loaded, word]
  | exchangeValue tail next =>
    rw [advance]
    dsimp only
    split
    · exact Nat.le_add_right _ _
    · exact Nat.le_add_right_of_le ((Nat.add_le_add_left (htake tail next none) 1).trans
        (Nat.le_of_ble_eq_true rfl))
  | moveData tail next =>
    exact Nat.le_add_right_of_le (Nat.add_le_add_left (htake tail next _) 1)
  | exchangeHead entry =>
    rw [advance]
    cases q.head <;> exact Nat.le_add_right _ _
  | delCas entry next ret =>
    by_cases hf : q.free = next
    · simp [advance, if_pos hf, Pc.running, Pc.remaining]
    · simp [advance, hf, Pc.running, Pc.remaining, retries, Pc.compares, stale, Pc.loaded, word]
  | _ => exact Nat.le_add_right _ _

private theorem changed_quiet {q q' : Queue α} {n m : Nat} (hf : q'.free = q.free)
    (ht : q'.tail = q.tail) (h : n ≤ m) : changed q q' + n ≤ m := by
  rwa [changed, if_pos ⟨hf, ht⟩, Nat.zero_add]

private theorem changed_once {q q' : Queue α} {n m : Nat} (h : n + 1 ≤ m) :
    changed q q' + n ≤ m := by
  have hone : changed q q' ≤ 1 := by
    rw [changed]
    split <;> omega
  omega

/-- An access that changes a word uses up one of the changes left. -/
theorem changesLeft_advance (q : Queue α) (pc : Pc α) :
    changed q (advance q pc).1 + (advance q pc).2.changesLeft ≤ pc.changesLeft := by
  have hround (v : α) : (newEntryRound v q.free).changesLeft ≤ 2 := by
    cases q.free <;> exact Nat.le_of_ble_eq_true rfl
  have htake (tail : Ptr) (next : Option Ptr) (ret : Option α) :
      (afterTake tail next ret).changesLeft = 1 := by
    cases next <;> rfl
  cases pc with
  | loadFree v => exact changed_quiet rfl rfl (hround v)
  | casFree v entry next =>
    rw [advance]
    split
    · exact changed_once (Nat.le_refl 2)
    · exact changed_quiet rfl rfl (hround v)
  | loadTail =>
    refine changed_quiet rfl rfl ?_
    rw [advance]
    cases q.tail <;> exact Nat.le_of_ble_eq_true rfl
  | casTail tail next =>
    rw [advance]
    split
    · exact changed_once (Nat.le_refl 2)
    · exact changed_quiet rfl rfl (Nat.le_refl 2)
  | exchangeValue tail next =>
    refine changed_quiet rfl rfl ?_
    rw [advance]
    dsimp only
    split
    · exact Nat.le_refl 1
    · exact (htake tail next none).le
  | moveData tail next => exact changed_quiet rfl rfl (htake tail next _).le
  | exchangeHead entry =>
    refine changed_quiet rfl rfl ?_
    rw [advance]
    cases q.head <;> exact Nat.le_of_ble_eq_true rfl
  | delCas entry next ret =>
    rw [advance]
    split
    · exact changed_once (Nat.le_refl 1)
    · exact changed_quiet rfl rfl (Nat.le_refl 1)
  | storeTail | restoreTail => exact changed_once (Nat.le_refl 1)
  | _ => exact changed_quiet rfl rfl (Nat.le_of_ble_eq_true rfl)

/-- No access begins a call. -/
theorem running_advance (q : Queue α) (pc : Pc α) : (advance q pc).2.running ≤ pc.running := by
  cases pc with
  | idle | finished => exact Nat.le_refl _
  | _ =>
    have hone (pc : Pc α) : pc.running ≤ 1 := by
      cases pc <;> exact Nat.le_of_ble_eq_true rfl
    exact hone _

/-! ### What one step does -/

section Steps

variable [DecidableEq ι]

/-- Accesses of running calls. -/
def accesses (s : State ι α) : Act ι α → Nat
  | .access i => (s.threads i).running
  | _ => 0

/-- Failed compare-exchanges. -/
def failures (s : State ι α) : Act ι α → Nat
  | .access i => retries s.queue (s.threads i)
  | _ => 0

/-- Changes of `free_` and `tail_`. -/
def wordChanges (s : State ι α) : Act ι α → Nat
  | .access i => changed s.queue (advance s.queue (s.threads i)).1
  | _ => 0

/-- Calls of `push` and `pop` that begin. -/
def calls (_ : State ι α) : Act ι α → Nat
  | .push .. | .pop _ => 1
  | _ => 0

/-- Calls of `push` and `pop` whose last access this is. -/
def completions (s : State ι α) : Act ι α → Nat
  | .access i => (s.threads i).running - (advance s.queue (s.threads i)).2.running
  | _ => 0

variable [Fintype ι]

/-- The accesses left to all calls in flight. -/
def State.remaining (s : State ι α) : Nat := tally Pc.remaining s.threads

/-- The changes of the two words that the calls in flight may still make. -/
def State.changesLeft (s : State ι α) : Nat := tally Pc.changesLeft s.threads

/-- The rounds that have loaded a value which is no longer there. -/
def State.staleRounds (s : State ι α) : Nat := tally (stale s.queue) s.threads

/-- The calls in flight. -/
def State.inFlight (s : State ι α) : Nat := tally Pc.running s.threads

variable (capacity : Nat)

/-- Every access is one of those that a call has from its beginning, or is paid by a failed
compare-exchange. -/
theorem remaining_pays : (system ι α capacity).Pays State.remaining accesses
    (fun s a ↦ 9 * calls s a + 3 * failures s a) := by
  intro s a s' hn
  obtain ⟨i, pc', hmoves, hthreads⟩ := next_moves hn
  have hsum := tally_update Pc.remaining s.threads i pc'
  rw [← hthreads] at hsum
  simp only [State.remaining]
  generalize hpc : s.threads i = pc at hmoves hsum
  generalize s'.queue = q' at hmoves
  cases hmoves with
  | push | pop =>
    simp only [accesses, calls, Pc.remaining] at hsum ⊢
    omega
  | access =>
    have hstep := remaining_advance s.queue pc
    simp only [accesses, calls, failures, hpc]
    omega
  | ret =>
    simp only [accesses, Pc.remaining] at hsum ⊢
    omega

/-- Only as many words change as the calls may change. -/
theorem changesLeft_pays : (system ι α capacity).Pays State.changesLeft wordChanges
    (fun s a ↦ 2 * calls s a) := by
  intro s a s' hn
  obtain ⟨i, pc', hmoves, hthreads⟩ := next_moves hn
  have hsum := tally_update Pc.changesLeft s.threads i pc'
  rw [← hthreads] at hsum
  simp only [State.changesLeft]
  generalize hpc : s.threads i = pc at hmoves hsum
  generalize s'.queue = q' at hmoves
  cases hmoves with
  | push | pop =>
    simp only [wordChanges, calls, Pc.changesLeft] at hsum ⊢
    omega
  | access =>
    have hstep := changesLeft_advance s.queue pc
    simp only [wordChanges, calls, hpc]
    omega
  | ret =>
    simp only [wordChanges, Pc.changesLeft] at hsum ⊢
    omega

/-- A compare-exchange fails because another thread has changed the word: each change fails
at most one compare-exchange of each other thread. -/
theorem staleRounds_pays : (system ι α capacity).Pays State.staleRounds failures
    (fun s a ↦ (Fintype.card ι - 1) * wordChanges s a) := by
  intro s a s' hn
  obtain ⟨i, pc', hmoves, hthreads⟩ := next_moves hn
  have hsum := tally_update_le (stale_le s.queue s'.queue) s.threads i pc'
  rw [← hthreads] at hsum
  simp only [State.staleRounds]
  have hquiet {q : Queue α} : changed q q = 0 := if_pos ⟨rfl, rfl⟩
  generalize hpc : s.threads i = pc at hmoves hsum
  generalize hq : s'.queue = q' at hmoves hsum
  cases hmoves with
  | push | pop | ret =>
    rw [hquiet, stale_of_loaded_none rfl, stale_of_loaded_none rfl] at hsum
    simp only [failures, wordChanges]
    omega
  | access =>
    have hstep := stale_advance s.queue pc
    simp only [failures, wordChanges, hpc]
    omega

omit [DecidableEq ι] in
private theorem inFlight_le (s : State ι α) : s.inFlight ≤ Fintype.card ι := by
  refine tally_le_card (fun pc ↦ ?_) s.threads
  cases pc <;> exact Nat.le_of_ble_eq_true rfl

private theorem inFlight_pays :
    (system ι α capacity).Pays (fun s ↦ Fintype.card ι - s.inFlight) calls completions := by
  intro s a s' hn
  obtain ⟨i, pc', hmoves, hthreads⟩ := next_moves hn
  have hsum := tally_update Pc.running s.threads i pc'
  rw [← hthreads] at hsum
  have hbefore := inFlight_le s
  have hafter := inFlight_le s'
  simp only [State.inFlight] at hbefore hafter ⊢
  generalize hpc : s.threads i = pc at hmoves hsum
  generalize s'.queue = q' at hmoves
  cases hmoves with
  | push | pop =>
    simp only [calls, completions, Pc.running] at hsum ⊢
    omega
  | access =>
    have hstep := running_advance s.queue pc
    simp only [calls, completions, hpc]
    omega
  | ret =>
    simp only [calls, completions, Pc.running] at hsum ⊢
    omega

/-! ### Whole runs -/

/-- What the accesses after a state cost, by the calls in flight there and those that begin. -/
theorem totalFrom_accesses_le (s : State ι α) (acts : List (Act ι α)) :
    (system ι α capacity).totalFrom accesses s acts ≤ s.remaining +
      9 * (system ι α capacity).totalFrom calls s acts +
      3 * (system ι α capacity).totalFrom failures s acts := by
  have h := (remaining_pays capacity).totalFrom_le s acts
  rwa [System.totalFrom_add, System.totalFrom_mul, System.totalFrom_mul, ← Nat.add_assoc] at h

/-- What the failures after a state cost, by the calls in flight there and those that begin. -/
theorem totalFrom_failures_le (s : State ι α) (acts : List (Act ι α)) :
    (system ι α capacity).totalFrom failures s acts ≤ s.staleRounds +
      (Fintype.card ι - 1) *
        (s.changesLeft + 2 * (system ι α capacity).totalFrom calls s acts) := by
  have hfail := (staleRounds_pays capacity).totalFrom_le s acts
  have hchange := (changesLeft_pays capacity).totalFrom_le s acts
  rw [System.totalFrom_mul] at hfail hchange
  exact hfail.trans (Nat.add_le_add_left (Nat.mul_le_mul_left _ hchange) _)

/-- Failed compare-exchanges are paid by the calls of the other threads. Whatever the
interleaving, the calls of a run fail on average at most twice for each other thread, and
take on average at most nine accesses and six for each other thread. -/
theorem amortised_cost (acts : List (Act ι α)) :
    (system ι α capacity).total failures acts ≤
        2 * (Fintype.card ι - 1) * (system ι α capacity).total calls acts ∧
      (system ι α capacity).total accesses acts ≤
        (9 + 6 * (Fintype.card ι - 1)) * (system ι α capacity).total calls acts := by
  have hzero (w : Pc α → Nat) (hw : w .idle = 0) :
      tally w (system ι α capacity).init.threads = 0 := tally_eq_zero.mpr fun _ ↦ hw
  have hfail := totalFrom_failures_le capacity (system ι α capacity).init acts
  have haccess := totalFrom_accesses_le capacity (system ι α capacity).init acts
  rw [State.staleRounds, hzero _ rfl, State.changesLeft, hzero _ rfl, Nat.zero_add,
    Nat.zero_add] at hfail
  rw [State.remaining, hzero _ rfl, Nat.zero_add] at haccess
  simp only [System.total]
  constructor
  · calc _ ≤ _ := hfail
      _ = _ := by ring
  · calc _ ≤ _ := haccess
      _ ≤ _ := Nat.add_le_add_left (Nat.mul_le_mul_left 3 hfail) _
      _ = _ := by ring

/-- The queue is lock-free. Whatever the state and the interleaving, the accesses that
running calls make are bounded by the number of threads and of the calls that complete
meanwhile: among any `6 * (n + 1) * n + 1` accesses of `n` threads some call completes. -/
theorem accesses_complete (s : State ι α) (acts : List (Act ι α)) :
    (system ι α capacity).totalFrom accesses s acts ≤
      6 * (Fintype.card ι + 1) *
        (Fintype.card ι + (system ι α capacity).totalFrom completions s acts) := by
  have hfail := totalFrom_failures_le capacity s acts
  have haccess := totalFrom_accesses_le capacity s acts
  have hcalls := (inFlight_pays capacity).totalFrom_le s acts
  have hremaining : s.remaining ≤ 9 * s.inFlight := tally_le_mul remaining_le s.threads
  have hstale : s.staleRounds ≤ 1 * s.inFlight := tally_le_mul (stale_le_running _) s.threads
  have hleft : s.changesLeft ≤ 2 * s.inFlight := tally_le_mul changesLeft_le s.threads
  have hfew := inFlight_le s
  set M := system ι α capacity
  set begun := M.totalFrom calls s acts
  set total := Fintype.card ι + M.totalFrom completions s acts
  -- the calls in flight and those that begin are among `total`
  have hall : s.inFlight + begun ≤ total := by omega
  have hother : s.changesLeft + 2 * begun ≤ 2 * total := by omega
  have hfailed : M.totalFrom failures s acts ≤ total + (Fintype.card ι - 1) * (2 * total) :=
    hfail.trans (Nat.add_le_add (by omega) (Nat.mul_le_mul_left _ hother))
  have hcost : M.totalFrom accesses s acts ≤
      9 * total + 3 * (total + (Fintype.card ι - 1) * (2 * total)) := by omega
  rcases Nat.eq_zero_or_pos (Fintype.card ι) with hn | hn
  · have hnone : M.totalFrom accesses s acts = 0 := by
      have := Fintype.card_eq_zero_iff.mp hn
      cases acts with
      | nil => rfl
      | cons a rest => cases a <;> exact isEmptyElim ‹ι›
    rw [hnone]
    exact Nat.zero_le _
  · calc M.totalFrom accesses s acts
        ≤ (12 + 6 * (Fintype.card ι - 1)) * total := hcost.trans_eq (by ring)
      _ = 6 * (Fintype.card ι + 1) * total := by
          congr 1
          omega

end Steps
end Crasy.LfQueue.Concurrent
