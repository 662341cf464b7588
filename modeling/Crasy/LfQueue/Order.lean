import Crasy.Base.Events
import Crasy.LfQueue.Ownership

/-!
# The order of the values in a shared queue

Library `LfQueue`. `push` puts its value into the queue when it exchanges `head_`, `pop`
takes one when its compare-exchange of `tail_` succeeds. On the runs of
`Crasy.LfQueue.Threads` in which no compare-exchange installs a stale successor the values
are taken in the order in which they were put in, by whatever number of threads, and each
call hands on its own value.
-/

namespace Crasy.LfQueue.Concurrent

open Crasy.Base

variable {ι α : Type}

/-- The value that the access of a `push` puts into the queue. -/
def putIn (q : Queue α) : Pc α → Option α
  | .exchangeHead entry => (q.entries entry).data
  | _ => none

/-- The value that the access of a `pop` takes from the queue. -/
def takenOut (q : Queue α) : Pc α → Option α
  | .casTail tail _ => if q.tail = some tail then (q.entries tail).data else none
  | _ => none

/-- The value that a `push` has not yet put into the queue. -/
def offered (q : Queue α) : Pc α → Option α
  | .loadFree v | .alloc v | .loadNext v _ | .casFree v _ _ | .clearNext v _ | .loadValue v _
  | .construct v _ => some v
  | .setValue entry | .exchangeHead entry => (q.entries entry).data
  | _ => none

/-- The value that a `pop` has taken and not yet returned. -/
def inHand (q : Queue α) : Pc α → Option α
  | .exchangeValue tail _ | .moveData tail _ => (q.entries tail).data
  | .restoreTail _ ret | .delLoad _ ret | .delStore _ _ ret | .delCas _ _ ret
  | .finished ret => ret
  | _ => none

/-- The entry that stays first in the order although its value is taken. -/
def Pc.seized : Pc α → Option Ptr
  | .exchangeValue tail none | .moveData tail none => some tail
  | _ => none

/-- The arguments of `push`. -/
def pushes (_ : State ι α) : Act ι α → List (ι × α)
  | .push i v => [(i, v)]
  | _ => []

/-- The values put into the queue, with the thread whose `push` does it. -/
def puts (s : State ι α) : Act ι α → List (ι × α)
  | .access i => emitted i (putIn s.queue (s.threads i))
  | _ => []

/-- The values taken from the queue, with the thread whose `pop` does it. -/
def takes (s : State ι α) : Act ι α → List (ι × α)
  | .access i => emitted i (takenOut s.queue (s.threads i))
  | _ => []

/-- The values that `pop` returns. -/
def returns (s : State ι α) : Act ι α → List (ι × α)
  | .ret i =>
    match s.threads i with
    | .finished ret => emitted i ret
    | _ => []
  | _ => []

/-! ### The contents of the queue -/

open Classical in
/-- The value of an entry of the order, unless it is taken. -/
noncomputable def untaken (q : Queue α) (threads : ι → Pc α) (p : Ptr) : Option α :=
  if ∃ i, (threads i).seized = some p then none else (q.entries p).data

/-- The values in the queue. -/
noncomputable def contents (q : Queue α) (threads : ι → Pc α) (order : List Ptr) : List α :=
  order.filterMap (untaken q threads)

theorem contents_cons (q : Queue α) (threads : ι → Pc α) (p : Ptr) (ps : List Ptr) :
    contents q threads (p :: ps) = (untaken q threads p).toList ++ contents q threads ps := by
  rw [contents, List.filterMap_cons]
  cases untaken q threads p <;> rfl

private theorem contents_snoc (q : Queue α) (threads : ι → Pc α) (ps : List Ptr) (p : Ptr) :
    contents q threads (ps ++ [p]) = contents q threads ps ++ (untaken q threads p).toList := by
  rw [contents, List.filterMap_append]
  exact congrArg _ ((contents_cons q threads p []).trans (List.append_nil _))

/-- A thread that begins or ends a call leaves the values as they are. -/
theorem contents_update [DecidableEq ι] (q : Queue α) {threads : ι → Pc α} {i : ι} {pc : Pc α}
    (hs : pc.seized = (threads i).seized) (ps : List Ptr) :
    contents q (Function.update threads i pc) ps = contents q threads ps := by
  have hseized (j : ι) : (Function.update threads i pc j).seized = (threads j).seized := by
    by_cases hji : j = i
    · rw [hji, Function.update_self, hs]
    · rw [Function.update_of_ne hji]
  refine List.filterMap_congr fun p _ ↦ ?_
  rw [untaken, untaken]
  congr 1
  exact propext (exists_congr fun j ↦ by rw [hseized j])

private theorem Pc.pending_of_seized {pc : Pc α} {p : Ptr} (h : pc.seized = some p) :
    pc.pending = some p := by
  cases pc with
  | exchangeValue tail next | moveData tail next =>
    cases next with
    | none => exact h
    | some n => cases h
  | _ => cases h

/-- An access changes the object of an entry only if the thread owns it. -/
theorem data_advance {q : Queue α} {pc : Pc α} {p : Ptr} (hown : ¬pc.Owns p)
    (hp : p < q.allocated) : ((advance q pc).1.entries p).data = (q.entries p).data := by
  have hset {t : Ptr} {e : Entry α} (he : t = p → e.data = (q.entries p).data) :
      ((q.set t e).entries p).data = (q.entries p).data := by
    by_cases ht : p = t
    · subst ht
      rw [Queue.set_entries_self, he rfl]
    · rw [Queue.set_entries_ne _ _ ht]
  cases pc with
  | alloc v => exact hset fun ht ↦ absurd ht (Nat.ne_of_gt hp)
  | construct v entry => exact hset fun ht ↦ absurd (.inl (by rw [ht]; rfl)) hown
  | moveData tail next =>
    refine hset fun ht ↦ absurd ?_ hown
    exact Pc.owns_of_midway (by rw [ht]; rfl)
  | clearNext | setValue | storeNext | exchangeValue | delStore =>
    exact hset fun ht ↦ by rw [ht]
  | casFree | casTail | delCas =>
    simp only [advance]
    split <;> rfl
  | _ => rfl

/-- A `push` has its value until it puts it into the queue. -/
theorem offered_advance (q : Queue α) (pc : Pc α) : (offered q pc).toList =
    (putIn q pc).toList ++ (offered (advance q pc).1 (advance q pc).2).toList := by
  cases pc with
  | loadFree v =>
    simp only [advance]
    cases q.free <;> rfl
  | casFree v entry next =>
    simp only [advance]
    split
    · rfl
    · cases q.free <;> rfl
  | loadTail =>
    simp only [advance]
    cases q.tail <;> rfl
  | casTail tail next =>
    simp only [advance]
    split <;> rfl
  | construct v entry => simp [offered, putIn, advance]
  | setValue entry => simp [offered, putIn, advance]
  | exchangeHead entry =>
    simp only [offered, putIn, advance]
    cases q.head <;> simp
  | exchangeValue tail next =>
    simp only [advance]
    split
    · rfl
    · cases next <;> rfl
  | moveData tail next => cases next <;> rfl
  | delCas entry next ret =>
    simp only [advance]
    split <;> rfl
  | _ => rfl

private theorem inHand_afterTake (q : Queue α) (tail : Ptr) (next : Option Ptr) (ret : Option α) :
    inHand q (afterTake tail next ret) = ret := by
  cases next <;> rfl

namespace Sound

variable {q : Queue α} {threads : ι → Pc α} {order free : List Ptr}
  {after : Ptr → Option Ptr} {i j : ι} (h : Sound q threads order free after)
include h

/-- What a thread has to offer does not depend on the accesses of the others. -/
theorem offered_other (hji : j ≠ i) :
    offered (advance q (threads i)).1 (threads j) = offered q (threads j) := by
  have hdata {p : Ptr} (hp : (threads j).held = some p) :
      ((advance q (threads i)).1.entries p).data = (q.entries p).data :=
    data_advance (fun hi ↦ hji (h.owns_unique (.inl hp) hi)) (h.owns_allocated (.inl hp))
  cases hj : threads j with
  | setValue | exchangeHead => exact hdata (by rw [hj]; rfl)
  | _ => rfl

/-- What a thread has in hand does not depend on the accesses of the others. -/
theorem inHand_other (hji : j ≠ i) :
    inHand (advance q (threads i)).1 (threads j) = inHand q (threads j) := by
  have hdata {p : Ptr} (hp : (threads j).Owns p) :
      ((advance q (threads i)).1.entries p).data = (q.entries p).data :=
    data_advance (fun hi ↦ hji (h.owns_unique hp hi)) (h.owns_allocated hp)
  cases hj : threads j with
  | exchangeValue tail next | moveData tail next =>
    exact hdata (Pc.owns_of_popping (by rw [hj]; rfl))
  | _ => rfl

/-- A `pop` has its value from when it takes it from the queue. -/
theorem inHand_advance (i : ι) : (inHand q (threads i)).toList ++
    (takenOut q (threads i)).toList =
      (inHand (advance q (threads i)).1 (advance q (threads i)).2).toList := by
  cases hi : threads i with
  | loadFree v =>
    simp only [advance]
    cases q.free <;> rfl
  | casFree v entry next =>
    simp only [advance]
    split
    · rfl
    · cases q.free <;> rfl
  | loadTail =>
    simp only [advance]
    cases q.tail <;> rfl
  | casTail tail next =>
    simp only [advance, takenOut]
    split <;> simp [inHand]
  | exchangeHead entry =>
    simp only [advance]
    cases q.head <;> rfl
  | exchangeValue tail next =>
    have hflag := h.settled (i := i) (p := tail) (Pc.owns_of_popping (by rw [hi]; rfl))
      (by rw [hi]; rfl)
    simp only [advance]
    split
    · simp [inHand, takenOut]
    · next hno =>
      rw [Bool.not_eq_true, hflag, Option.isSome_eq_false_iff, Option.isNone_iff_eq_none] at hno
      rw [inHand_afterTake]
      simp [inHand, takenOut, hno]
  | moveData tail next =>
    simp only [advance]
    rw [inHand_afterTake]
    simp [inHand, takenOut]
  | delCas entry next ret =>
    simp only [advance]
    split <;> simp [inHand, takenOut]
  | _ => simp [inHand, takenOut, advance]

omit h in
/-- An entry that a thread has seized was seized before, or at `tail_` in this access. -/
theorem seized_advance {pc : Pc α} {p : Ptr} (hs : (advance q pc).2.seized = some p) :
    pc.seized = some p ∨ ∃ n, pc = .casTail p n ∧ q.tail = some p := by
  have hafter (tail : Ptr) (next : Option Ptr) (ret : Option α) :
      (afterTake tail next ret).seized ≠ some p := by
    cases next <;> exact fun hs ↦ nomatch hs
  cases pc with
  | loadFree v =>
    simp only [advance] at hs
    cases hf : q.free <;> simp [hf, newEntryRound, Pc.seized] at hs
  | casFree v entry next =>
    simp only [advance] at hs
    split at hs
    · cases hs
    · cases hf : q.free <;> simp [hf, newEntryRound, Pc.seized] at hs
  | loadTail =>
    simp only [advance] at hs
    cases ht : q.tail <;> simp [ht, Pc.seized] at hs
  | casTail tail next =>
    simp only [advance] at hs
    split at hs
    · next ht =>
      cases next with
      | none =>
        cases hs
        exact .inr ⟨none, rfl, ht⟩
      | some n => cases hs
    · cases hs
  | exchangeHead entry =>
    simp only [advance] at hs
    cases hq : q.head <;> simp [hq, Pc.seized] at hs
  | exchangeValue tail next =>
    simp only [advance] at hs
    split at hs
    · exact .inl (by cases next <;> exact hs)
    · exact absurd hs (hafter tail next none)
  | moveData tail next => exact absurd hs (hafter tail next _)
  | delCas entry next ret =>
    simp only [advance] at hs
    split at hs <;> cases hs
  | _ => cases hs

omit h in
private theorem untaken_eq {p : Ptr} (hother : ∀ j, j ≠ i → (threads j).seized ≠ some p) :
    untaken q threads p = if (threads i).seized = some p then none else (q.entries p).data := by
  rw [untaken]
  congr 1
  refine propext ⟨fun ⟨j, hj⟩ ↦ ?_, fun hi ↦ ⟨i, hi⟩⟩
  by_cases hji : j = i
  · exact hji ▸ hj
  · exact absurd hj (hother j hji)

section Access

variable [DecidableEq ι]

/-- An access leaves the values of the order as they are, but for the one that it takes. -/
theorem untaken_advance {p : Ptr} (hp : p ∈ order)
    (hcas : ∀ n, threads i = .casTail p n → q.tail ≠ some p) :
    untaken (advance q (threads i)).1 (Function.update threads i (advance q (threads i)).2) p =
      untaken q threads p := by
  by_cases hother : ∃ j, j ≠ i ∧ (threads j).seized = some p
  · obtain ⟨j, hji, hj⟩ := hother
    rw [untaken, untaken, if_pos ⟨j, by rwa [Function.update_of_ne hji]⟩, if_pos ⟨j, hj⟩]
  · push Not at hother
    rw [untaken_eq hother, untaken_eq (i := i) fun j hji ↦ by
      rw [Function.update_of_ne hji]
      exact hother j hji]
    rw [Function.update_self]
    by_cases hown : (threads i).Owns p
    · -- the thread will put the entry back, or stores the first entry ever
      have hpend := hown.resolve_left fun hheld ↦ (h.not_mem_of_held hheld).1 hp
      cases hi : threads i with
      | storeTail entry => rfl
      | restoreTail tail ret => rfl
      | exchangeValue tail next =>
        have hflag := h.settled hown (by rw [hi]; rfl)
        rw [hi] at hpend
        cases next with
        | some n => cases hpend
        | none =>
          cases hpend
          simp only [advance]
          split
          · simp [Pc.seized]
          · next hno =>
            rw [Bool.not_eq_true, hflag, Option.isSome_eq_false_iff,
              Option.isNone_iff_eq_none] at hno
            simp [afterTake, Pc.seized, hno]
      | moveData tail next =>
        rw [hi] at hpend
        cases next with
        | some n => cases hpend
        | none =>
          cases hpend
          simp [advance, afterTake, Pc.seized]
      | _ =>
        rw [hi] at hpend
        cases hpend
    · have hbefore : (threads i).seized ≠ some p :=
        fun hs ↦ hown (.inr (Pc.pending_of_seized hs))
      have hafter : (advance q (threads i)).2.seized ≠ some p := by
        intro hs
        rcases seized_advance hs with hs | ⟨n, hi, ht⟩
        · exact hbefore hs
        · exact hcas n hi ht
      rw [if_neg hbefore, if_neg hafter, data_advance hown (h.order_allocated hp)]

private theorem contents_advance_of_ne {ps : List Ptr} (hps : ∀ p ∈ ps, p ∈ order)
    (hcas : ∀ p ∈ ps, ∀ n, threads i = .casTail p n → q.tail ≠ some p) :
    contents (advance q (threads i)).1 (Function.update threads i (advance q (threads i)).2) ps =
      contents q threads ps :=
  List.filterMap_congr fun p hp ↦ h.untaken_advance (hps p hp) (hcas p hp)

/-- `push` puts its value behind the others. -/
theorem contents_exchangeHead {entry : Ptr} (hi : threads i = .exchangeHead entry) :
    contents (advance q (threads i)).1 (Function.update threads i (advance q (threads i)).2)
        (order ++ [entry]) = contents q threads order ++ (putIn q (threads i)).toList := by
  have hheld : (threads i).held = some entry := by rw [hi]; rfl
  have hold := h.contents_advance_of_ne (i := i) (fun _ hp ↦ hp) fun p _ n hn ↦ by
    rw [hi] at hn
    cases hn
  have hnew : untaken (advance q (threads i)).1
      (Function.update threads i (advance q (threads i)).2) entry = (q.entries entry).data := by
    have hother (j : ι) (hji : j ≠ i) :
        (Function.update threads i (advance q (threads i)).2 j).seized ≠ some entry := by
      rw [Function.update_of_ne hji]
      exact fun hj ↦ hji (h.owns_unique (.inr (Pc.pending_of_seized hj)) (.inl hheld))
    rw [untaken_eq hother, Function.update_self, hi, if_neg]
    · rfl
    · simp only [advance]
      cases q.head <;> simp [Pc.seized]
  have hput : putIn q (threads i) = (q.entries entry).data := by rw [hi]; rfl
  rw [contents_snoc, hold, hput, hnew]

/-- `pop` takes the first value. -/
theorem contents_casTail {tail : Ptr} {next : Option Ptr} (hi : threads i = .casTail tail next)
    (ht : q.tail = some tail) :
    contents q threads order = (q.entries tail).data.toList ++
      contents (advance q (threads i)).1 (Function.update threads i (advance q (threads i)).2)
        (nextOrder q order (threads i)) := by
  have hends : Ends q.head (some tail) (Pc.pending ∘ threads) order := ht ▸ h.ends
  obtain ⟨rest, rfl⟩ := hends.first_of_tail
  have hfree (j : ι) : (threads j).seized ≠ some tail := fun hj ↦ by
    have := hends.pending_none j
    rw [Function.comp_apply, Pc.pending_of_seized hj] at this
    cases this
  have hfirst : untaken q threads tail = (q.entries tail).data := by
    rw [untaken_eq (i := i) fun j _ ↦ hfree j, if_neg (hfree i)]
  have hlater : ∀ p ∈ rest, p ∈ tail :: rest := fun _ ↦ List.mem_cons_of_mem _
  have hrest := h.contents_advance_of_ne (i := i) hlater fun p hp n hn ↦ by
    rw [hi] at hn
    cases hn
    exact absurd hp (List.nodup_cons.mp h.nodup_order).1
  rw [contents_cons, hfirst]
  cases next with
  | some n =>
    rw [hi] at hrest ⊢
    rw [nextOrder, if_pos ht, List.tail_cons, hrest]
  | none =>
    have hlast : untaken (advance q (threads i)).1
        (Function.update threads i (advance q (threads i)).2) tail = none := by
      rw [untaken, if_pos]
      refine ⟨i, ?_⟩
      rw [Function.update_self, hi, advance, if_pos ht]
      rfl
    have hsame : nextOrder q (tail :: rest) (.casTail tail none) = tail :: rest := rfl
    rw [hi] at hrest hlast ⊢
    rw [hsame, contents_cons, hlast, hrest]
    rfl

/-- The values of the queue after an access: a `push` puts one behind them, a `pop` takes the
first one. -/
theorem contents_advance (i : ι) :
    contents q threads order ++ (putIn q (threads i)).toList =
      (takenOut q (threads i)).toList ++
        contents (advance q (threads i)).1 (Function.update threads i (advance q (threads i)).2)
          (nextOrder q order (threads i)) := by
  have hquiet (hput : putIn q (threads i) = none) (htake : takenOut q (threads i) = none)
      (hsame : nextOrder q order (threads i) = order)
      (hcas : ∀ p n, threads i = .casTail p n → q.tail ≠ some p) :
      contents q threads order ++ (putIn q (threads i)).toList =
        (takenOut q (threads i)).toList ++
          contents (advance q (threads i)).1
            (Function.update threads i (advance q (threads i)).2)
            (nextOrder q order (threads i)) := by
    rw [hput, htake, hsame, h.contents_advance_of_ne (fun _ hp ↦ hp) fun p _ ↦ hcas p]
    simp
  cases hi : threads i with
  | exchangeHead entry =>
    have hput := h.contents_exchangeHead hi
    rw [hi] at hput
    exact hput.symm
  | casTail tail next =>
    by_cases ht : q.tail = some tail
    · have htake := h.contents_casTail hi ht
      rw [hi] at htake
      simp only [putIn, takenOut, if_pos ht, Option.toList_none, List.append_nil]
      exact htake
    · refine hi ▸ hquiet (by rw [hi]; rfl) ?_ ?_ fun p n hn ↦ ?_
      · rw [hi, takenOut, if_neg ht]
      · rw [hi]
        cases next with
        | none => rfl
        | some n => rw [nextOrder, if_neg ht]
      · rw [hi] at hn
        cases hn
        exact ht
  | _ =>
    refine hi ▸ hquiet (by rw [hi]; rfl) (by rw [hi]; rfl) (by rw [hi]; rfl) fun p n hn ↦ ?_
    rw [hi] at hn
    cases hn

end Access

/-- Between calls the chain from `tail_` holds the values of the queue. -/
theorem contents_at_rest (hidle : ∀ i, threads i = .idle) :
    Linked q.next q.tail order ∧
      contents q threads order = order.filterMap fun p ↦ (q.entries p).data := by
  constructor
  · have hpend (i : ι) : (Pc.pending ∘ threads) i = none := by
      rw [Function.comp_apply, hidle i]
      rfl
    rw [h.ends.tail_first hpend]
    refine h.chain.chain.congr fun p hp ↦ h.chain.stored p hp fun i b hi ↦ ?_
    rw [Function.comp_apply, hidle i] at hi
    cases hi
  · refine List.filterMap_congr fun p _ ↦ ?_
    rw [untaken, if_neg]
    rintro ⟨i, hi⟩
    rw [hidle i] at hi
    cases hi

end Sound

/-! ### Which entries are full -/

/-- Only the first entry of the order can be empty, and a `push` brings a full one. -/
structure Filled (q : Queue α) (threads : ι → Pc α) (order : List Ptr) : Prop where
  behind : ∀ p ∈ order.tail, (q.entries p).data ≠ none
  arriving : ∀ i p, threads i = .exchangeHead p → (q.entries p).data ≠ none

namespace Filled

variable {q : Queue α} {threads : ι → Pc α} {order free : List Ptr}
  {after : Ptr → Option Ptr} {i : ι}

private theorem not_owns (hs : Sound q threads order free after) {p : Ptr} (hp : p ∈ order.tail) :
    ¬(threads i).Owns p := by
  rintro (hi | hi)
  · exact (hs.not_mem_of_held hi).1 (List.mem_of_mem_tail hp)
  · have hfirst := (hs.ends.pending_first i p hi).1
    have hnodup := hs.nodup_order
    cases order with
    | nil => cases hp
    | cons r rest =>
      cases hfirst
      exact (List.nodup_cons.mp hnodup).1 hp

/-- Each entry of the order but an empty first one has a value in the queue. -/
theorem length_le (h : Filled q threads order) (hs : Sound q threads order free after) :
    order.length ≤ (contents q threads order).length + 1 := by
  have hfull : ∀ ps : List Ptr, (∀ p ∈ ps, p ∈ order.tail) →
      (contents q threads ps).length = ps.length := by
    intro ps hps
    induction ps with
    | nil => rfl
    | cons p ps ih =>
      have hp := hps p List.mem_cons_self
      have hsome : (untaken q threads p).toList.length = 1 := by
        rw [untaken, if_neg]
        · cases hd : (q.entries p).data with
          | none => exact absurd hd (h.behind p hp)
          | some v => rfl
        · rintro ⟨j, hj⟩
          exact not_owns hs hp (.inr (Pc.pending_of_seized hj))
      rw [contents_cons, List.length_append, hsome,
        ih fun r hr ↦ hps r (List.mem_cons_of_mem _ hr), List.length_cons, Nat.add_comm]
  cases order with
  | nil => exact Nat.zero_le _
  | cons r rest =>
    have hrest := hfull rest fun _ hp ↦ hp
    rw [contents_cons, List.length_append, List.length_cons]
    omega

variable [DecidableEq ι]

/-- A thread begins or ends a call. -/
theorem quiet {pc : Pc α} (h : Filled q threads order) (hpc : ∀ p, pc ≠ .exchangeHead p) :
    Filled q (Function.update threads i pc) order where
  behind := h.behind
  arriving j p hj := by
    by_cases hji : j = i
    · rw [hji, Function.update_self] at hj
      exact absurd hj (hpc p)
    · rw [Function.update_of_ne hji] at hj
      exact h.arriving j p hj

/-- Only `put_data` leads to the exchange of `head_`. -/
theorem setValue_of_advance {pc : Pc α} {p : Ptr} (h : (advance q pc).2 = .exchangeHead p) :
    pc = .setValue p := by
  cases pc with
  | setValue entry =>
    cases h
    rfl
  | loadFree v =>
    simp only [advance] at h
    cases hf : q.free <;> simp [hf, newEntryRound] at h
  | casFree v entry next =>
    simp only [advance] at h
    split at h
    · cases h
    · cases hf : q.free <;> simp [hf, newEntryRound] at h
  | exchangeHead entry =>
    simp only [advance] at h
    cases hq : q.head <;> simp [hq] at h
  | loadTail =>
    simp only [advance] at h
    cases ht : q.tail <;> simp [ht] at h
  | casTail tail next | delCas entry next ret =>
    simp only [advance] at h
    split at h <;> cases h
  | exchangeValue tail next =>
    simp only [advance] at h
    split at h
    · cases h
    · cases next <;> cases h
  | moveData tail next => cases next <;> cases h
  | _ => cases h

/-- Every access keeps the entries full. -/
theorem step (h : Filled q threads order) (hs : Sound q threads order free after) (i : ι) :
    Filled (advance q (threads i)).1 (Function.update threads i (advance q (threads i)).2)
      (nextOrder q order (threads i)) := by
  have hkeep {p : Ptr} (hp : p ∈ order.tail) :
      ((advance q (threads i)).1.entries p).data ≠ none := by
    rw [data_advance (not_owns hs hp) (hs.order_allocated (List.mem_of_mem_tail hp))]
    exact h.behind p hp
  constructor
  · intro p hp
    cases hi : threads i with
    | exchangeHead entry =>
      rw [hi] at hp hkeep
      have hmem : p ∈ order.tail ∨ p = entry := by
        rw [nextOrder] at hp
        cases order with
        | nil => cases hp
        | cons r rest => simpa using hp
      rcases hmem with hp | rfl
      · exact hkeep hp
      · exact h.arriving i p hi
    | casTail tail next =>
      have hp' : p ∈ order.tail := by
        rw [hi] at hp
        cases next with
        | none => exact hp
        | some n =>
          rw [nextOrder] at hp
          split at hp
          · exact List.mem_of_mem_tail hp
          · exact hp
      exact hi ▸ hkeep hp'
    | _ =>
      rw [hi] at hp
      exact hi ▸ hkeep hp
  · intro j p hj
    by_cases hji : j = i
    · subst hji
      rw [Function.update_self] at hj
      have hset := setValue_of_advance hj
      have hhalf := hs.slots.half j p (by rw [Function.comp_apply, hset]; rfl)
      rw [hset]
      simpa [advance] using hhalf.2
    · rw [Function.update_of_ne hji] at hj
      have hheld : (threads j).held = some p := by rw [hj]; rfl
      rw [data_advance (fun hi ↦ hji (hs.owns_unique (.inl hheld) hi))
        (hs.owns_allocated (.inl hheld))]
      exact h.arriving j p hj

end Filled

/-! ### Runs -/

section Runs

variable [DecidableEq ι]

/-- What a run has done with the values, and where they are now. -/
structure History (capacity : Nat) (acts : List (Act ι α)) (s : State ι α) : Prop where
  order : ∃ order free after, Sound s.queue s.threads order free after ∧
    Filled s.queue s.threads order ∧
      ((system ι α capacity).events puts acts).map Prod.snd =
        ((system ι α capacity).events takes acts).map Prod.snd ++
          contents s.queue s.threads order
  producer : PassesOn (fun _ ↦ none) (fun i ↦ offered s.queue (s.threads i))
    ((system ι α capacity).events pushes acts) ((system ι α capacity).events puts acts)
  consumer : PassesOn (fun _ ↦ none) (fun i ↦ inHand s.queue (s.threads i))
    ((system ι α capacity).events takes acts) ((system ι α capacity).events returns acts)

namespace History

variable {capacity : Nat} {acts : List (Act ι α)} {s s' : State ι α}

/-- A new queue is empty. -/
theorem init : History capacity ([] : List (Act ι α)) (system ι α capacity).init := by
  obtain ⟨free, hs⟩ := Sound.ofCapacity (ι := ι) (α := α) capacity
  exact ⟨⟨[], free, _, hs, ⟨nofun, nofun⟩, rfl⟩, fun _ ↦ rfl, fun _ ↦ rfl⟩

/-- What one step does with the values. -/
structure Hands (q q' : Queue α) (threads threads' : ι → Pc α) (order : List Ptr)
    (pushed put taken returned : List (ι × α)) : Prop where
  order : ∃ order' free' after', Sound q' threads' order' free' after' ∧
    Filled q' threads' order' ∧ contents q threads order ++ put.map Prod.snd =
      taken.map Prod.snd ++ contents q' threads' order'
  producer : PassesOn (fun i ↦ offered q (threads i)) (fun i ↦ offered q' (threads' i)) pushed put
  consumer : PassesOn (fun i ↦ inHand q (threads i)) (fun i ↦ inHand q' (threads' i))
    taken returned

variable {q : Queue α} {threads : ι → Pc α} {order free : List Ptr} {after : Ptr → Option Ptr}
  {i : ι}

/-- A thread begins or ends a call: the queue stays as it is. -/
theorem Hands.quiet {pc : Pc α} (pushed returned : Option α)
    (hs : Sound q threads order free after) (hf : Filled q threads order)
    (hkeeps : pc.Keeps (threads i)) (hseized : pc.seized = (threads i).seized)
    (hpc : ∀ p, pc ≠ .exchangeHead p)
    (hoffered : (offered q (threads i)).toList ++ pushed.toList = (offered q pc).toList)
    (hinHand : (inHand q (threads i)).toList = returned.toList ++ (inHand q pc).toList) :
    Hands q q threads (Function.update threads i pc) order (emitted i pushed) [] []
      (emitted i returned) := by
  have hother (f : Pc α → Option α) (j : ι) (hji : j ≠ i) :
      f (Function.update threads i pc j) = f (threads j) := by
    rw [Function.update_of_ne hji]
  refine ⟨⟨order, free, after, hs.quiet hkeeps, hf.quiet hpc, ?_⟩,
    .of_party i pushed none ?_ (hother (offered q)),
    .of_party i none returned ?_ (hother (inHand q))⟩
  · rw [contents_update q hseized]
    exact List.append_nil _
  · rw [Function.update_self]
    exact hoffered
  · rw [Function.update_self, Option.toList_none, List.append_nil]
    exact hinHand

/-- A thread in a call makes its next access. -/
theorem Hands.access (hs : Sound q threads order free after) (hf : Filled q threads order)
    (hok : AccessOk q (threads i)) :
    Hands q (advance q (threads i)).1 threads
      (Function.update threads i (advance q (threads i)).2) order []
      (emitted i (putIn q (threads i))) (emitted i (takenOut q (threads i))) [] := by
  obtain ⟨after', hs'⟩ := hs.step hok
  refine ⟨⟨_, _, after', hs', hf.step hs i, ?_⟩,
    .of_party i none (putIn q (threads i)) ?_ fun j hji ↦ ?_,
    .of_party i (takenOut q (threads i)) none ?_ fun j hji ↦ ?_⟩
  · rw [map_snd_emitted, map_snd_emitted]
    exact hs.contents_advance i
  · rw [Function.update_self, Option.toList_none, List.append_nil]
    exact offered_advance q (threads i)
  · rw [Function.update_of_ne hji]
    exact hs.offered_other hji
  · rw [Function.update_self]
    exact hs.inHand_advance i
  · rw [Function.update_of_ne hji]
    exact hs.inHand_other hji

/-- Every step that installs no stale successor hands the values on. -/
theorem Hands.step {a : Act ι α} (hs : Sound s.queue s.threads order free after)
    (hf : Filled s.queue s.threads order) (hok : StepOk s a) (hn : next s a = some s') :
    Hands s.queue s'.queue s.threads s'.threads order (pushes s a) (puts s a) (takes s a)
      (returns s a) := by
  obtain ⟨i, pc', hmoves, hthreads⟩ := next_moves hn
  rw [hthreads]
  generalize hpc : s.threads i = pc at hmoves
  generalize s'.queue = q' at hmoves
  cases hmoves with
  | push i v =>
    refine .quiet (some v) none hs hf ?_ ?_ nofun ?_ ?_ <;> rw [hpc]
    · exact ⟨rfl, rfl, rfl, .inl rfl, rfl, rfl⟩
    all_goals rfl
  | pop i =>
    refine .quiet none none hs hf ?_ ?_ nofun ?_ ?_ <;> rw [hpc]
    · exact ⟨rfl, rfl, rfl, .inl rfl, rfl, rfl⟩
    all_goals rfl
  | access i =>
    subst hpc
    exact .access hs hf hok
  | ret i ret =>
    have hreturns : returns s (.ret i) = emitted i ret := by rw [returns, hpc]
    rw [hreturns]
    refine .quiet none ret hs hf ?_ ?_ nofun ?_ ?_ <;> rw [hpc]
    · exact ⟨rfl, rfl, rfl, .inl rfl, rfl, rfl⟩
    · rfl
    · rfl
    · exact (List.append_nil _).symm

/-- Every step that installs no stale successor keeps the history. -/
theorem step {a : Act ι α} (h : History capacity acts s)
    (hr : (system ι α capacity).RunBy StepOk acts s) (hok : StepOk s a)
    (hn : (system ι α capacity).next s a = some s') : History capacity (acts ++ [a]) s' := by
  obtain ⟨order, free, after, hs, hf, hvalues⟩ := h.order
  obtain ⟨⟨order', free', after', hs', hf', hcontents⟩, hproducer, hconsumer⟩ :=
    Hands.step hs hf hok hn
  constructor
  · refine ⟨order', free', after', hs', hf', ?_⟩
    rw [hr.events_concat hn, hr.events_concat hn, List.map_append, List.map_append, hvalues,
      List.append_assoc, hcontents, List.append_assoc]
  · rw [hr.events_concat hn, hr.events_concat hn]
    exact h.producer.append hproducer
  · rw [hr.events_concat hn, hr.events_concat hn]
    exact h.consumer.append hconsumer

end History

/-- What holds of a queue that any number of threads share. The values are taken in the order
in which they were put in. Each thread puts in what it pushes and returns what it takes, in
order, but for the value of the call that it is in; and between calls the chain holds what is
put in and not taken. -/
structure FifoOrder (capacity : Nat) (acts : List (Act ι α)) (s : State ι α) : Prop where
  fifo : ((system ι α capacity).events takes acts).map Prod.snd <+:
    ((system ι α capacity).events puts acts).map Prod.snd
  pushed : ∀ i, eventsOf i ((system ι α capacity).events pushes acts) =
    eventsOf i ((system ι α capacity).events puts acts) ++
      (offered s.queue (s.threads i)).toList
  popped : ∀ i, eventsOf i ((system ι α capacity).events takes acts) =
    eventsOf i ((system ι α capacity).events returns acts) ++
      (inHand s.queue (s.threads i)).toList
  at_rest : (∀ i, s.threads i = .idle) → ∃ chain, Linked s.queue.next s.queue.tail chain ∧
    ((system ι α capacity).events puts acts).map Prod.snd =
      ((system ι α capacity).events takes acts).map Prod.snd ++
        chain.filterMap fun p ↦ (s.queue.entries p).data

/-- On runs in which no compare-exchange installs a stale successor, the queue is first in,
first out for any number of threads. -/
theorem fifo_order (capacity : Nat) {acts : List (Act ι α)} {s : State ι α}
    (hr : (system ι α capacity).RunBy StepOk acts s) : FifoOrder capacity acts s := by
  have h : History capacity acts s :=
    hr.invariant_of_run .init fun _ _ _ _ hr h hok hn ↦ h.step hr hok hn
  obtain ⟨order, free, after, hs, -, hvalues⟩ := h.order
  refine ⟨?_, h.producer, h.consumer, fun hidle ↦ ⟨order, ?_⟩⟩
  · rw [hvalues]
    exact List.prefix_append ..
  · obtain ⟨hlinked, hcontents⟩ := hs.contents_at_rest hidle
    exact ⟨hlinked, hcontents ▸ hvalues⟩

/-- Two threads push, one of them pops twice and another once. -/
theorem fifo_order_interleaved :
    let acts : List (Act (Fin 3) Nat) := pushAlone 0 10 ++ .pop 2 :: .access 2 ::
      pushAlone 1 11 ++ popAlone 1 ++ List.replicate 9 (.access 2)
    ∃ s, (system (Fin 3) Nat 3).RunBy StepOk acts s ∧
      (system (Fin 3) Nat 3).events takes acts = [(1, 10), (2, 11)] ∧ FifoOrder 3 acts s := by
  have hrun : ∃ s, (system (Fin 3) Nat 3).RunBy StepOk (pushAlone 0 10 ++ .pop 2 :: .access 2 ::
      pushAlone 1 11 ++ popAlone 1 ++ List.replicate 9 (.access 2)) s ∧ True :=
    System.exists_runBy _ (by decide +kernel)
  obtain ⟨s, hr, -⟩ := hrun
  exact ⟨s, hr, by decide +kernel, fifo_order 3 hr⟩

end Runs

end Crasy.LfQueue.Concurrent
