import Mathlib.Logic.Function.Basic

/-!
# The lock-free queue: entries and the three atomic words

Library `LfQueue`. Models the data of `include/crasy/lfqueue.hpp:18–76`. Entries are
never returned to the allocator before the destructor, so the heap is a total map
together with the number of entries allocated so far; a pointer is an entry's number.
-/

namespace Crasy.LfQueue

/-- A pointer to an allocated `entry_t`. -/
abbrev Ptr := Nat

/-- `entry_t` with its `data_t`; `include/crasy/lfqueue.hpp:18–24,69–72`. The union
member is `none` while it holds no constructed object. -/
structure Entry (α : Type) where
  data : Option α
  hasValue : Bool
  next : Option Ptr
  deriving DecidableEq, Repr

namespace Entry

variable {α : Type}

/-- A default-constructed entry: no value and a null successor. -/
def new : Entry α := { data := none, hasValue := false, next := none }

/-- `data_t::put_data`; `include/crasy/lfqueue.hpp:33–38`. Constructing over an
engaged member destroys the old object first; either way the new one replaces it. -/
def putData (e : Entry α) (v : α) : Entry α := { e with data := some v, hasValue := true }

/-- `data_t::take_data`; `include/crasy/lfqueue.hpp:41–53`. The object is moved out
only when the exchanged flag was set. -/
def takeData (e : Entry α) : Option α × Entry α :=
  if e.hasValue then (e.data, { e with data := none, hasValue := false }) else (none, e)

end Entry

/-- `entry_t` with the `data_t` of a reference type; `include/crasy/lfqueue.hpp:56–72`. The
pointer is null while the entry holds no reference, and a null pointer converts to an empty
option (`include/crasy/option.hpp:220`). -/
structure RefEntry (α : Type) where
  data : Option α
  next : Option Ptr
  deriving DecidableEq, Repr

namespace RefEntry

variable {α : Type}

/-- `data_t<U&>::put_data`; `include/crasy/lfqueue.hpp:60–62`. -/
def putData (e : RefEntry α) (v : α) : RefEntry α := { e with data := some v }

/-- `data_t<U&>::take_data`; `include/crasy/lfqueue.hpp:64–66`. -/
def takeData (e : RefEntry α) : Option α × RefEntry α := (e.data, { e with data := none })

/-- The entry of the generic queue with the same contents. -/
def toEntry (e : RefEntry α) : Entry α :=
  { data := e.data, hasValue := e.data.isSome, next := e.next }

/-- Filling an entry of references is filling the generic one. -/
theorem toEntry_putData (e : RefEntry α) (v : α) :
    (e.putData v).toEntry = e.toEntry.putData v := rfl

/-- Emptying an entry of references is emptying the generic one, with the same answer. -/
theorem toEntry_takeData (e : RefEntry α) :
    e.takeData.1 = e.toEntry.takeData.1 ∧ e.takeData.2.toEntry = e.toEntry.takeData.2 := by
  obtain ⟨data, next⟩ := e
  cases data <;> exact ⟨rfl, rfl⟩

end RefEntry

/-- The queue object and the entries it has allocated. -/
structure Queue (α : Type) where
  entries : Ptr → Entry α
  allocated : Nat
  head : Option Ptr
  tail : Option Ptr
  free : Option Ptr

namespace Queue

variable {α : Type}

/-- Replace one entry. -/
def set (q : Queue α) (p : Ptr) (e : Entry α) : Queue α :=
  { q with entries := Function.update q.entries p e }

/-- `entry->next.store(n)`. -/
def setNext (q : Queue α) (p : Ptr) (n : Option Ptr) : Queue α :=
  q.set p { q.entries p with next := n }

/-- The successor of every entry, as the list lemmas read it. -/
def next (q : Queue α) (p : Ptr) : Option Ptr := (q.entries p).next

/-- `new entry_t`: the allocator returns an entry never returned before. -/
def alloc (q : Queue α) : Queue α :=
  { q.set q.allocated Entry.new with allocated := q.allocated + 1 }

/-- The default constructor. -/
def empty : Queue α :=
  { entries := fun _ ↦ Entry.new, allocated := 0, head := none, tail := none, free := none }

@[simp] theorem set_allocated (q : Queue α) (p : Ptr) (e : Entry α) :
    (q.set p e).allocated = q.allocated := rfl

@[simp] theorem set_entries_self (q : Queue α) (p : Ptr) (e : Entry α) :
    (q.set p e).entries p = e := Function.update_self ..

@[simp] theorem set_entries_ne (q : Queue α) {p r : Ptr} (e : Entry α) (h : r ≠ p) :
    (q.set p e).entries r = q.entries r := Function.update_of_ne h ..

/-- Replacing an entry updates its successor and no other. -/
theorem next_set (q : Queue α) (p : Ptr) (e : Entry α) :
    (q.set p e).next = Function.update q.next p e.next := by
  funext r
  by_cases h : r = p
  · subst r
    simp [next]
  · simp [next, h]

/-- A store to `next` is an update of the successor map. -/
@[simp] theorem next_setNext (q : Queue α) (p : Ptr) (n : Option Ptr) :
    (q.setNext p n).next = Function.update q.next p n := next_set ..

/-- Replacing an entry without touching its link keeps all successors. -/
theorem next_set_of_next (q : Queue α) (p : Ptr) (e : Entry α) (h : e.next = q.next p) :
    (q.set p e).next = q.next := by
  rw [next_set, h, Function.update_eq_self]

end Queue
end Crasy.LfQueue
