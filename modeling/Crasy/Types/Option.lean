import Crasy.Base.System

/-!
# Options of values and of references

Library `Types`. Models `include/crasy/option.hpp:17–138,182–277`: `option<T>` over `std::optional`
and `option<T&>` over a pointer, and two families of them under the same operations, one built of
references and the other of the values they refer to. The referents are not modified, so that
`deref` is one function throughout; `τ` names the types `T` and `α` has the values of all of them,
and `map` may lead from values to references and back, and to other types.
-/

namespace Crasy.Types

open Crasy.Base

variable {τ α β π ρ κ : Type}

/-- `std::bad_optional_access`. -/
inductive BadOptionalAccess where
  | bad
  deriving DecidableEq, Repr

/-- `option<T>`; `include/crasy/option.hpp:20`. -/
structure ValueOption (α : Type) where
  opt : Option α
  deriving DecidableEq, Repr

/-- `option<T&>`, where `none` is the null pointer; `include/crasy/option.hpp:185`. -/
structure RefOption (π : Type) where
  opt : Option π
  deriving DecidableEq, Repr

/-! ### The two specialisations -/

namespace RefOption

/-- The default constructor. -/
def new : RefOption π := { opt := none }

/-- `has_value`; `include/crasy/option.hpp:227`. -/
def hasValue (o : RefOption π) : Bool := o.opt.isSome

/-- `value`; `include/crasy/option.hpp:235–238`. -/
def value (o : RefOption π) : Except BadOptionalAccess π :=
  match o.opt with
  | none => .error .bad
  | some p => .ok p

/-- `value_or`; `include/crasy/option.hpp:240–247`. -/
def valueOr (o : RefOption π) (default : π) : π :=
  match o.opt with
  | none => default
  | some p => p

/-- `emplace`; `include/crasy/option.hpp:249–252`. -/
def emplace (_ : RefOption π) (p : π) : RefOption π := { opt := some p }

/-- `reset`; `include/crasy/option.hpp:275`. -/
def reset (_ : RefOption π) : RefOption π := new

/-- `swap`; `include/crasy/option.hpp:277`. -/
def swap (o o' : RefOption π) : RefOption π × RefOption π := (o', o)

/-- What `map` leaves of its source, which it sets anew when it is engaged;
`include/crasy/option.hpp:191`. -/
def mapSource (o : RefOption π) : RefOption π :=
  match o.opt with
  | none => o
  | some p => o.emplace p

end RefOption

namespace ValueOption

/-- The default constructor. -/
def new : ValueOption α := { opt := none }

/-- `has_value`; `include/crasy/option.hpp:67`. -/
def hasValue (o : ValueOption α) : Bool := o.opt.isSome

/-- `value`; `include/crasy/option.hpp:85–93`. -/
def value (o : ValueOption α) : Except BadOptionalAccess α :=
  match o.opt with
  | none => .error .bad
  | some v => .ok v

/-- `value_or`; `include/crasy/option.hpp:95–103`. -/
def valueOr (o : ValueOption α) (default : α) : α := o.opt.getD default

/-- `emplace`; `include/crasy/option.hpp:109–112`. -/
def emplace (_ : ValueOption α) (v : α) : ValueOption α := { opt := some v }

/-- `reset`; `include/crasy/option.hpp:107`. -/
def reset (_ : ValueOption α) : ValueOption α := new

/-- `swap`; `include/crasy/option.hpp:105`. -/
def swap (o o' : ValueOption α) : ValueOption α × ValueOption α := (o', o)

/-- What an `option<T>&` makes of its content when it is converted to `T` through `operator bool`,
as it can be where `bool` converts to `T`, which it does to every arithmetic type;
`include/crasy/option.hpp:65`. -/
def throughBool (ofBool : Bool → α) (opt : Option α) : α := ofBool opt.isSome

/-- Construction from an lvalue of the same type. If it is not const and converts to `T`, overload
resolution prefers `option(U&&)` to the copy constructor, and the result holds what the conversion
makes of the source; `include/crasy/option.hpp:40,51–52`. -/
def copy (o : ValueOption α) (isConst : Bool) (conversion : Option (Option α → α)) :
    ValueOption α :=
  match isConst, conversion with
  | false, some convert => { opt := some (convert o.opt) }
  | _, _ => o

/-- `map` with a function that returns a value, and what it leaves of the source;
`include/crasy/option.hpp:22–28`. -/
def map (o : ValueOption α) (mapFunc : α → β) : ValueOption β × ValueOption α :=
  match o.opt with
  | none => (new, o)
  | some v => (new.emplace (mapFunc v), o)

/-- `map` with a function that returns a reference; `include/crasy/option.hpp:22–28`. -/
def mapRef (o : ValueOption α) (mapFunc : α → π) : RefOption π × ValueOption α :=
  match o.opt with
  | none => (.new, o)
  | some v => (RefOption.new.emplace (mapFunc v), o)

end ValueOption

namespace RefOption

/-- `map` with a function that returns a value. Only the type of the function is used;
`include/crasy/option.hpp:187–193`. -/
def map (o : RefOption π) (_mapFunc : π → β) : ValueOption β × RefOption π := (.new, o.mapSource)

/-- `map` with a function that returns a reference; `include/crasy/option.hpp:187–193`. -/
def mapRef (o : RefOption π) (_mapFunc : π → ρ) : RefOption ρ × RefOption π := (new, o.mapSource)

/-- The source keeps its reference. -/
@[simp] theorem mapSource_eq (o : RefOption π) : o.mapSource = o := by
  obtain ⟨_ | p⟩ := o <;> rfl

end RefOption

/-! ### Objects of either specialisation -/

/-- An object of a family, `option<T>` or `option<T&>`. -/
inductive Obj (τ α π : Type) where
  | val (t : τ) (o : ValueOption α)
  | ref (t : τ) (o : RefOption π)
  deriving DecidableEq, Repr

/-- A function that `map` applies to a value or to a reference, with the type of its result or of
what that refers to. One that returns references sees no more of its argument than the value. -/
inductive MapFunc (τ : Type) (deref : π → α) where
  | toValue (t : τ) (f : α → α)
  | toRef (t : τ) (onValue : α → π) (onRef : π → π)
      (same : ∀ p, deref (onRef p) = deref (onValue (deref p)))

/-- What the function makes of a value. -/
def MapFunc.apply {deref : π → α} : MapFunc τ deref → α → α
  | .toValue _ f, v => f v
  | .toRef _ onValue _ _, v => deref (onValue v)

namespace Obj

variable (deref : π → α)

/-- `has_value`. -/
def hasValue : Obj τ α π → Bool
  | .val _ o => o.hasValue
  | .ref _ o => o.hasValue

/-- `value`, read through the reference. -/
def value : Obj τ α π → Except BadOptionalAccess α
  | .val _ o => o.value
  | .ref _ o => o.value.map deref

/-- `value_or`, read through the reference. -/
def valueOr (default : π) : Obj τ α π → α
  | .val _ o => o.valueOr (deref default)
  | .ref _ o => deref (o.valueOr default)

/-- Construction from an lvalue of the same type. For `option<T&>` that is the copy constructor;
`include/crasy/option.hpp:205`. -/
def copy (conversion : τ → Option (Option α → α)) (isConst : Bool) : Obj τ α π → Obj τ α π
  | .val t o => .val t (o.copy isConst (conversion t))
  | .ref t o => .ref t o

/-- `emplace` with what a reference refers to. -/
def emplace (p : π) : Obj τ α π → Obj τ α π
  | .val t o => .val t (o.emplace (deref p))
  | .ref t o => .ref t (o.emplace p)

/-- `reset`. -/
def reset : Obj τ α π → Obj τ α π
  | .val t o => .val t o.reset
  | .ref t o => .ref t o.reset

section Typed

variable [DecidableEq τ]

/-- Both objects are of one type. -/
def sameType : Obj τ α π → Obj τ α π → Bool
  | .val t _, .val t' _ | .ref t _, .ref t' _ => t = t'
  | .val _ _, .ref _ _ | .ref _ _, .val _ _ => false

/-- `swap`, of objects of one type. -/
def swap (x y : Obj τ α π) : Option (Obj τ α π × Obj τ α π) :=
  if x.sameType y then
    match x, y with
    | .val t o, .val t' o' => some (.val t (o.swap o').1, .val t' (o.swap o').2)
    | .ref t o, .ref t' o' => some (.ref t (o.swap o').1, .ref t' (o.swap o').2)
    | .val _ _, .ref _ _ | .ref _ _, .val _ _ => none
  else none

end Typed

variable {deref} in
/-- `map`, and what it leaves of the source. -/
def map (f : MapFunc τ deref) : Obj τ α π → Obj τ α π × Obj τ α π
  | .val t o =>
    match f with
    | .toValue u f => (.val u (o.map f).1, .val t (o.map f).2)
    | .toRef u onValue _ _ => (.ref u (o.mapRef onValue).1, .val t (o.mapRef onValue).2)
  | .ref t o =>
    match f with
    | .toValue u f => (.val u (o.map (f ∘ deref)).1, .ref t (o.map (f ∘ deref)).2)
    | .toRef u _ onRef _ => (.ref u (o.mapRef onRef).1, .ref t (o.mapRef onRef).2)

/-- What the object holds, read through the reference. -/
def content : Obj τ α π → Option α
  | .val _ o => o.opt
  | .ref _ o => o.opt.map deref

/-- What `value` makes of a content. -/
def valueOf : Option α → Except BadOptionalAccess α
  | none => .error .bad
  | some v => .ok v

/-- What an object shows of its content. -/
structure Shows (x : Obj τ α π) (c : Option α) : Prop where
  hasValue : x.hasValue = c.isSome
  value : x.value deref = valueOf c
  valueOr : ∀ p, x.valueOr deref p = c.getD (deref p)

variable {deref}

/-- An object shows what it holds, and nothing else. -/
theorem shows_iff {x : Obj τ α π} {c : Option α} : x.Shows deref c ↔ x.content deref = c := by
  constructor
  · intro h
    have hv := h.value
    cases x with
    | val t o => obtain ⟨_ | v⟩ := o <;> cases c <;> cases hv <;> rfl
    | ref t o => obtain ⟨_ | p⟩ := o <;> cases c <;> cases hv <;> rfl
  · rintro rfl
    cases x with
    | val t o => obtain ⟨_ | v⟩ := o <;> exact ⟨rfl, rfl, fun p ↦ rfl⟩
    | ref t o => obtain ⟨_ | p⟩ := o <;> exact ⟨rfl, rfl, fun p ↦ rfl⟩

@[simp] private theorem content_emplace (x : Obj τ α π) (p : π) :
    (x.emplace deref p).content deref = some (deref p) := by
  cases x <;> rfl

@[simp] private theorem content_reset (x : Obj τ α π) : x.reset.content deref = none := by
  cases x <;> rfl

private theorem content_swap [DecidableEq τ] {x y x' y' : Obj τ α π}
    (h : x.swap y = some (x', y')) :
    x'.content deref = y.content deref ∧ y'.content deref = x.content deref := by
  simp only [swap] at h
  split at h
  · cases x <;> cases y <;> cases h <;> exact ⟨rfl, rfl⟩
  · cases h

/-- The object is an `option<T&>` with a reference. -/
def Engaged : Obj τ α π → Prop
  | .val _ _ => False
  | .ref _ o => o.hasValue = true

/-- The object is an `option<T>` that converts to `T`, and it does not hold what it converts to. -/
def Converts (conversion : τ → Option (Option α → α)) : Obj τ α π → Prop
  | .val t o => ∃ convert, conversion t = some convert ∧ o.opt ≠ some (convert o.opt)
  | .ref _ _ => False

variable {conversion : τ → Option (Option α → α)}

private theorem content_copy {x : Obj τ α π} {isConst : Bool}
    (h : isConst = false → ¬x.Converts conversion) :
    (x.copy conversion isConst).content deref = x.content deref := by
  cases x with
  | ref t o => rfl
  | val t o =>
    cases isConst with
    | true => rfl
    | false =>
      cases hc : conversion t with
      | none => simp [copy, ValueOption.copy, hc, content]
      | some convert =>
        have hholds : o.opt = some (convert o.opt) := by
          by_contra hne
          exact h rfl ⟨convert, hc, hne⟩
        simp [copy, ValueOption.copy, hc, content, ← hholds]

private theorem content_copy_of_converts {x : Obj τ α π} (h : x.Converts conversion) :
    (x.copy conversion false).content deref ≠ x.content deref := by
  cases x with
  | ref t o => exact h.elim
  | val t o =>
    obtain ⟨convert, hc, hne⟩ := h
    simpa [copy, ValueOption.copy, hc, content] using hne.symm

private theorem map_source (x : Obj τ α π) (f : MapFunc τ deref) : (x.map f).2 = x := by
  cases x with
  | val t o => obtain ⟨_ | v⟩ := o <;> cases f <;> rfl
  | ref t o => cases f <;> simp [map, RefOption.map, RefOption.mapRef]

private theorem content_map {x : Obj τ α π} (f : MapFunc τ deref) (h : ¬x.Engaged) :
    (x.map f).1.content deref = (x.content deref).map f.apply := by
  cases x with
  | val t o => obtain ⟨_ | v⟩ := o <;> cases f <;> rfl
  | ref t o =>
    obtain ⟨_ | p⟩ := o
    · cases f <;> rfl
    · exact absurd rfl h

private theorem content_map_of_engaged {x : Obj τ α π} (f : MapFunc τ deref) (h : x.Engaged) :
    (x.map f).1.content deref = none := by
  cases x with
  | val t o => exact h.elim
  | ref t o => cases f <;> rfl

private theorem content_of_engaged {x : Obj τ α π} (h : x.Engaged) : x.content deref ≠ none := by
  cases x with
  | val t o => exact h.elim
  | ref t o =>
    obtain ⟨_ | p⟩ := o
    · cases h
    · exact Option.some_ne_none _

end Obj

/-! ### Families -/

/-- The operations on a family. `copy` constructs an object from an lvalue, which is const or not,
and `assign` is the copy assignment. -/
inductive Act (κ τ : Type) (deref : π → α) where
  | construct (k : κ) (t : τ) (p : Option π)
  | copy (dst src : κ) (isConst : Bool)
  | assign (dst src : κ)
  | emplace (k : κ) (p : π)
  | reset (k : κ)
  | swap (a b : κ)
  | map (dst src : κ) (f : MapFunc τ deref)

section Steps

variable [DecidableEq κ] [DecidableEq τ] {deref : π → α}

/-- One operation on a family of objects, which are constructed by `make`. -/
def step (conversion : τ → Option (Option α → α)) (make : τ → Option π → Obj τ α π)
    (objs : κ → Option (Obj τ α π)) : Act κ τ deref → Option (κ → Option (Obj τ α π))
  | .construct k t p =>
    match objs k with
    | none => some (Function.update objs k (some (make t p)))
    | some _ => none
  | .copy dst src isConst =>
    match objs dst, objs src with
    | none, some x => some (Function.update objs dst (some (x.copy conversion isConst)))
    | _, _ => none
  | .assign dst src =>
    match objs dst, objs src with
    | some y, some x => if y.sameType x then some (Function.update objs dst (some x)) else none
    | _, _ => none
  | .emplace k p => (objs k).map fun x ↦ Function.update objs k (some (x.emplace deref p))
  | .reset k => (objs k).map fun x ↦ Function.update objs k (some x.reset)
  | .swap a b =>
    match objs a, objs b with
    | some x, some y => (x.swap y).map fun (x', y') ↦
        Function.update (Function.update objs a (some x')) b (some y')
    | _, _ => none
  | .map dst src f =>
    match objs dst, objs src with
    | none, some x => some (Function.update (Function.update objs src (some (x.map f).2)) dst
        (some (x.map f).1))
    | _, _ => none

/-- What an operation should do to the contents of a family. -/
def contentStep (contents : κ → Option (Option α)) : Act κ τ deref → κ → Option (Option α)
  | .construct k _ p => Function.update contents k (some (p.map deref))
  | .copy dst src _ | .assign dst src => Function.update contents dst (contents src)
  | .emplace k p => Function.update contents k (some (some (deref p)))
  | .reset k => Function.update contents k (some none)
  | .swap a b => Function.update (Function.update contents a (contents b)) b (contents a)
  | .map dst src f => Function.update contents dst ((contents src).map (Option.map f.apply))

/-- The contents of the objects of a family. -/
def contentsOf (deref : π → α) (objs : κ → Option (Obj τ α π)) (k : κ) : Option (Option α) :=
  (objs k).map (Obj.content deref)

/-- `map` is called on an engaged `option<T&>`, or an `option<T>` is constructed from one that is
not const and not what it converts to. -/
def Strays (conversion : τ → Option (Option α → α)) (objs : κ → Option (Obj τ α π)) :
    Act κ τ deref → Prop
  | .map _ src _ => ∃ x, objs src = some x ∧ x.Engaged
  | .copy _ src isConst => isConst = false ∧ ∃ x, objs src = some x ∧ x.Converts conversion
  | .construct _ _ _ | .assign _ _ | .emplace _ _ | .reset _ | .swap _ _ => False

omit [DecidableEq τ] in
private theorem contentsOf_update (objs : κ → Option (Obj τ α π)) (k : κ) (x : Obj τ α π) :
    contentsOf deref (Function.update objs k (some x)) =
      Function.update (contentsOf deref objs) k (some (x.content deref)) := by
  funext l
  by_cases hl : l = k
  · subst hl
    simp [contentsOf]
  · simp [contentsOf, hl]

variable {conversion : τ → Option (Option α → α)} {make : τ → Option π → Obj τ α π}
  {objs objs' : κ → Option (Obj τ α π)} {a : Act κ τ deref}

/-- An operation does to the contents what it should, unless it strays. -/
theorem contentsOf_step (hmake : ∀ t p, (make t p).content deref = p.map deref)
    (hn : step conversion make objs a = some objs') (hok : ¬Strays conversion objs a) :
    contentsOf deref objs' = contentStep (contentsOf deref objs) a := by
  have hcontents {k : κ} {x : Obj τ α π} (hk : objs k = some x) :
      contentsOf deref objs k = some (x.content deref) := by simp [contentsOf, hk]
  cases a with
  | construct k t p =>
    simp only [step] at hn
    split at hn
    · cases hn
      rw [contentsOf_update, hmake]
      rfl
    · cases hn
  | copy dst src isConst =>
    simp only [step] at hn
    split at hn
    · next x _ hx =>
      cases hn
      have hnot (hc : isConst = false) : ¬x.Converts conversion := fun he ↦ hok ⟨hc, x, hx, he⟩
      rw [contentsOf_update, Obj.content_copy hnot, contentStep, hcontents hx]
    · cases hn
  | assign dst src =>
    simp only [step] at hn
    split at hn
    · next y x _ hx =>
      split at hn
      · cases hn
        rw [contentsOf_update, contentStep, hcontents hx]
      · cases hn
    · cases hn
  | emplace k p =>
    obtain ⟨x, -, rfl⟩ := Option.map_eq_some_iff.mp hn
    rw [contentsOf_update, Obj.content_emplace]
    rfl
  | reset k =>
    obtain ⟨x, -, rfl⟩ := Option.map_eq_some_iff.mp hn
    rw [contentsOf_update, Obj.content_reset]
    rfl
  | swap a b =>
    simp only [step] at hn
    split at hn
    · next x y hx hy =>
      obtain ⟨⟨x', y'⟩, hswap, rfl⟩ := Option.map_eq_some_iff.mp hn
      obtain ⟨hx', hy'⟩ : x'.content deref = y.content deref ∧ y'.content deref = x.content deref :=
        Obj.content_swap hswap
      rw [contentsOf_update, contentsOf_update, hx', hy', contentStep, hcontents hx, hcontents hy]
    · cases hn
  | map dst src f =>
    simp only [step] at hn
    split at hn
    · next x hdst hsrc =>
      cases hn
      have hnot : ¬x.Engaged := fun he ↦ hok ⟨x, hsrc, he⟩
      have hcs := hcontents hsrc
      rw [contentsOf_update, contentsOf_update, x.map_source, Obj.content_map f hnot, contentStep,
        hcs, ← hcs, Function.update_eq_self, hcs]
      rfl
    · cases hn

/-- Whatever the contents were thought to be, they are not so after an operation that strays. -/
theorem contentsOf_step_ne {contents : κ → Option (Option α)}
    (hn : step conversion make objs a = some objs') (hbad : Strays conversion objs a) :
    contentsOf deref objs' ≠ contentStep contents a := by
  intro he
  cases a with
  | map dst src f =>
    obtain ⟨x, hx, heng⟩ := hbad
    simp only [step] at hn
    split at hn
    · next z hdst hsrc =>
      rw [hx] at hsrc
      cases hsrc
      cases hn
      have hne : src ≠ dst := by
        rintro rfl
        rw [hdst] at hx
        cases hx
      have hd := congrFun he dst
      have hs := congrFun he src
      rw [contentsOf_update, contentsOf_update, Function.update_self, contentStep,
        Function.update_self, Obj.content_map_of_engaged f heng] at hd
      rw [contentsOf_update, contentsOf_update, Function.update_of_ne hne, Function.update_self,
        contentStep, Function.update_of_ne hne, x.map_source] at hs
      -- an empty result has an empty source
      rw [← hs] at hd
      have hnone : x.content deref = none := by
        cases hc : x.content deref with
        | none => rfl
        | some v => simp [hc] at hd
      exact Obj.content_of_engaged heng hnone
    · cases hn
  | copy dst src isConst =>
    obtain ⟨rfl, x, hx, hconv⟩ := hbad
    simp only [step] at hn
    split at hn
    · next z hdst hsrc =>
      rw [hx] at hsrc
      cases hsrc
      cases hn
      have hne : src ≠ dst := by
        rintro rfl
        rw [hdst] at hx
        cases hx
      have hd := congrFun he dst
      have hs := congrFun he src
      rw [contentsOf_update, Function.update_self, contentStep, Function.update_self] at hd
      rw [contentsOf_update, Function.update_of_ne hne, contentStep, Function.update_of_ne hne,
        contentsOf, hx] at hs
      -- the copy would have the content of its source
      rw [← hs] at hd
      exact Obj.content_copy_of_converts hconv (Option.some.inj hd)
    · cases hn
  | construct | assign | emplace | reset | swap => exact hbad.elim

end Steps

/-! ### Two families in parallel -/

/-- A family built of references, one built of their referents, and what both should hold. -/
structure State (κ τ α π : Type) where
  refs : κ → Option (Obj τ α π)
  vals : κ → Option (Obj τ α π)
  contents : κ → Option (Option α)

/-- A reference or null as an `option<T&>`. -/
def makeRef (t : τ) (p : Option π) : Obj τ α π := .ref t ⟨p⟩

/-- A copy of the referent as an `option<T>`. -/
def makeVal (deref : π → α) (t : τ) (p : Option π) : Obj τ α π := .val t ⟨p.map deref⟩

section Runs

variable [DecidableEq κ] [DecidableEq τ]

/-- One operation on both families. -/
def next (conversion : τ → Option (Option α → α)) (deref : π → α) (s : State κ τ α π)
    (a : Act κ τ deref) : Option (State κ τ α π) :=
  match step conversion makeRef s.refs a, step conversion (makeVal deref) s.vals a with
  | some refs, some vals =>
    some { refs := refs, vals := vals, contents := contentStep s.contents a }
  | _, _ => none

/-- Families without objects, and any operations on them. `conversion` has, for each type `T`, the
implicit conversion of an `option<T>&` to `T`, if there is one. -/
def system (κ : Type) [DecidableEq κ] (conversion : τ → Option (Option α → α)) (deref : π → α) :
    System (State κ τ α π) (Act κ τ deref) where
  init := { refs := fun _ ↦ none, vals := fun _ ↦ none, contents := fun _ ↦ none }
  next := next conversion deref

/-- Corresponding objects of the two families show the same, which is what they should hold. -/
def Agree (deref : π → α) (s : State κ τ α π) : Prop :=
  ∀ k, match s.contents k with
    | none => s.refs k = none ∧ s.vals k = none
    | some c => (∃ x, s.refs k = some x ∧ x.Shows deref c) ∧
        ∃ y, s.vals k = some y ∧ y.Shows deref c

omit [DecidableEq κ] [DecidableEq τ] in
/-- Agreement is about the contents. -/
theorem agree_iff_contents {deref : π → α} {s : State κ τ α π} : Agree deref s ↔
    contentsOf deref s.refs = s.contents ∧ contentsOf deref s.vals = s.contents := by
  have hone (objs : κ → Option (Obj τ α π)) (k : κ) (c : Option α) :
      (∃ x, objs k = some x ∧ x.Shows deref c) ↔ contentsOf deref objs k = some c := by
    simp only [contentsOf, Option.map_eq_some_iff, Obj.shows_iff]
  rw [funext_iff, funext_iff, ← forall_and]
  refine forall_congr' fun k ↦ ?_
  cases hc : s.contents k with
  | none => simp [contentsOf]
  | some c => exact and_congr (hone s.refs k c) (hone s.vals k c)

/-- In neither family is `map` called on an engaged `option<T&>`, or an `option<T>` constructed from
one that is not const and not what it converts to. -/
def Straight (conversion : τ → Option (Option α → α)) {deref : π → α} (s : State κ τ α π)
    (a : Act κ τ deref) : Prop :=
  ¬Strays conversion s.refs a ∧ ¬Strays conversion s.vals a

/-- A family of references and a family of values agree after every operation, and `map` does to
both what it should, exactly when `map` is not called on an engaged `option<T&>` and no `option<T>`
is constructed from one that is not const and not what it converts to. -/
theorem agree_iff {conversion : τ → Option (Option α → α)} {deref : π → α}
    {acts : List (Act κ τ deref)} {s : State κ τ α π}
    (hr : (system κ conversion deref).Run acts s) :
    (∀ before t, before <+: acts → (system κ conversion deref).Run before t → Agree deref t) ↔
      (system κ conversion deref).RunBy (Straight conversion) acts s := by
  have hstep {s s' : State κ τ α π} {a : Act κ τ deref}
      (hn : next conversion deref s a = some s') :
      step conversion makeRef s.refs a = some s'.refs ∧
        step conversion (makeVal deref) s.vals a = some s'.vals ∧
        s'.contents = contentStep s.contents a := by
    simp only [next] at hn
    split at hn
    · next refs vals hrefs hvals =>
      cases hn
      exact ⟨hrefs, hvals, rfl⟩
    · cases hn
  refine hr.passes_iff (I := fun _ ↦ True) (J := Agree deref) ⟨trivial, fun k ↦ ⟨rfl, rfl⟩⟩
    (fun _ _ _ _ _ ↦ trivial) (fun s a s' _ h hok hn ↦ ?_) (fun _ _ h ↦ h)
    fun s a s' _ _ hbad hn h ↦ hbad ?_
  · obtain ⟨hrefs, hvals, hc⟩ := hstep hn
    obtain ⟨hr, hv⟩ := agree_iff_contents.mp h
    refine agree_iff_contents.mpr ⟨?_, ?_⟩
    · rw [contentsOf_step (fun _ _ ↦ rfl) hrefs hok.1, hr, hc]
    · rw [contentsOf_step (fun _ _ ↦ rfl) hvals hok.2, hv, hc]
  · obtain ⟨hrefs, hvals, hc⟩ := hstep hn
    obtain ⟨hr, hv⟩ := agree_iff_contents.mp h
    exact ⟨fun hm ↦ contentsOf_step_ne hrefs hm (hr.trans hc),
      fun hm ↦ contentsOf_step_ne hvals hm (hv.trans hc)⟩

instance (x : Obj τ α π) : Decidable x.Engaged :=
  match x with
  | .val _ _ => isFalse id
  | .ref _ o => inferInstanceAs (Decidable (o.hasValue = true))

instance [DecidableEq α] (conversion : τ → Option (Option α → α)) (x : Obj τ α π) :
    Decidable (x.Converts conversion) :=
  match x with
  | .val t o =>
    inferInstanceAs (Decidable (∃ convert ∈ conversion t, o.opt ≠ some (convert o.opt)))
  | .ref _ _ => isFalse id

instance [DecidableEq α] (conversion : τ → Option (Option α → α)) {deref : π → α}
    (objs : κ → Option (Obj τ α π)) (a : Act κ τ deref) : Decidable (Strays conversion objs a) :=
  match a with
  | .map _ src _ => inferInstanceAs (Decidable (∃ x ∈ objs src, x.Engaged))
  | .copy _ src _ =>
    inferInstanceAs (Decidable (_ ∧ ∃ x ∈ objs src, x.Converts conversion))
  | .construct _ _ _ | .assign _ _ | .emplace _ _ | .reset _ | .swap _ _ => isFalse id

instance [DecidableEq α] (conversion : τ → Option (Option α → α)) {deref : π → α}
    (s : State κ τ α π) (a : Act κ τ deref) : Decidable (Straight conversion s a) :=
  inferInstanceAs (Decidable (_ ∧ _))

end Runs

/-- Two types: a class, which is not an arithmetic type, and `int`. -/
inductive ClassOrInt where
  | class_
  | int
  deriving DecidableEq, Repr

/-- `bool` converts to `int`. -/
def toInt : ClassOrInt → Option (Option Nat → Nat)
  | .class_ => none
  | .int => some (ValueOption.throughBool Bool.toNat)

/-- An object is copied, one of them is emptied, copied as const and mapped. -/
def emptied : List (Act (Fin 4) ClassOrInt (fun p : Nat ↦ p + 10)) :=
  [.construct 0 .class_ (some 1), .copy 1 0 false, .emplace 1 5, .swap 0 1, .reset 0,
    .copy 2 0 true, .map 3 0 (.toValue .int (· * 2))]

/-- Families that agree after every operation. -/
theorem agree_emptied : ∃ s, (system (Fin 4) toInt (fun p : Nat ↦ p + 10)).Run emptied s ∧
    s.contents 1 = some (some 11) ∧ s.contents 3 = some none ∧
      ∀ before t, before <+: emptied →
        (system (Fin 4) toInt fun p : Nat ↦ p + 10).Run before t → Agree (fun p ↦ p + 10) t := by
  have hrun : ∃ s, (system (Fin 4) toInt (fun p : Nat ↦ p + 10)).RunBy (Straight toInt) emptied s ∧
      s.contents 1 = some (some 11) ∧ s.contents 3 = some none :=
    System.exists_runBy emptied (by decide)
  obtain ⟨s, hr, h1, h3⟩ := hrun
  have hall : (system (Fin 4) toInt (fun p : Nat ↦ p + 10)).Run emptied s :=
    hr.mono fun _ _ _ ↦ trivial
  exact ⟨s, hall, h1, h3, (agree_iff hall).mpr hr⟩

/-- The identity, which returns the reference it is given. -/
def identity : MapFunc ClassOrInt (id : Nat → Nat) := .toRef .int id id fun _ ↦ rfl

/-- `map` of an `option<int&>` with the identity is empty, and that of the `option<int>` is not; and
the copy of an empty `option<int>` is not empty, while that of the `option<int&>` is. -/
theorem map_identity_empty :
    (∃ s, (system (Fin 2) toInt (id : Nat → Nat)).Reachable s ∧
      s.refs 1 = some (.ref .int ⟨none⟩) ∧ s.vals 1 = some (.ref .int ⟨some 5⟩)) ∧
    (∃ s, (system (Fin 2) toInt (id : Nat → Nat)).Reachable s ∧
      s.refs 1 = some (.ref .int ⟨none⟩) ∧ s.vals 1 = some (.val .int ⟨some 0⟩)) ∧
    ¬∀ s, (system (Fin 2) toInt (id : Nat → Nat)).Reachable s → Agree id s := by
  have hmap : ∃ s, (system (Fin 2) toInt (id : Nat → Nat)).Reachable s ∧
      s.refs 1 = some (.ref .int ⟨none⟩) ∧ s.vals 1 = some (.ref .int ⟨some 5⟩) :=
    System.exists_reachable [.construct 0 .int (some 5), .map 1 0 identity] (by decide)
  have hcopy : ∃ s, (system (Fin 2) toInt (id : Nat → Nat)).Reachable s ∧
      s.refs 1 = some (.ref .int ⟨none⟩) ∧ s.vals 1 = some (.val .int ⟨some 0⟩) :=
    System.exists_reachable [.construct 0 .int none, .copy 1 0 false] (by decide)
  refine ⟨hmap, hcopy, fun h ↦ ?_⟩
  obtain ⟨s, hr, href, hval⟩ := hmap
  obtain ⟨hrefs, hvals⟩ := agree_iff_contents.mp (h s hr)
  have hsame : contentsOf id s.refs 1 = contentsOf id s.vals 1 := by rw [hrefs, hvals]
  rw [contentsOf, contentsOf, href, hval] at hsame
  cases hsame

end Crasy.Types
