import Crasy.Future.Forest

/-!
# Awaiting futures is direct-style evaluation

Library `Future`. Running a coroutine keeps the forest of frames, by induction on its body;
so do all steps of the machine. In a settled state the root has the outcome and the actions
of its direct evaluation.
-/

namespace Crasy.Future

open Crasy.Base

variable {ν ε κ : Type}

/-- Every unfinished coroutine but the root is owned by one that has yet to consume it. -/
def Covered (s : State ν ε κ) (running : Nat → Option (List Nat)) : Prop :=
  ∀ f < s.fresh, f ≠ 0 → (s.frames f).done = false → ∃ g, f ∈ owns s running g

/-- What the worker does while coroutine `f` is on top of its stack: the invariant is kept,
with results for new coroutines, and the actions of other coroutines stay as they were. -/
structure Extends (s s' : State ν ε κ) (out out' : Nat → List κ × Except ε ν)
    (running running' : Nat → Option (List Nat)) (f : Nat) : Prop where
  out : ∀ g < s.fresh, out' g = out g
  inv : Inv s' out' running'
  fresh : s.fresh ≤ s'.fresh
  log : ∀ g, g ≠ f → g < s.fresh → (s'.frames g).log = (s.frames g).log
  covered : Covered s running → Covered s' running'

section Steps

variable {s s' s'' : State ν ε κ} {out out' out'' : Nat → List κ × Except ε ν}
  {running running' running'' : Nat → Option (List Nat)} {f : Nat}

/-- A step that drops no unfinished child. -/
theorem Covered.of_step (h : Covered s running) (hfresh : s'.fresh = s.fresh)
    (hdone : ∀ x, (s'.frames x).done = false → (s.frames x).done = false)
    (howns : ∀ g x, x ∈ owns s running g → (s'.frames x).done = false →
      ∃ k, x ∈ owns s' running' k) : Covered s' running' := by
  intro x hx h0 hd
  obtain ⟨g, hg⟩ := h x (hfresh ▸ hx) h0 (hdone x hd)
  exact howns g x hg hd

/-- One step after another, where the second may be of a coroutine begun in the first. -/
theorem Extends.trans {g : Nat} (h : Extends s s' out out' running running' f)
    (h' : Extends s' s'' out' out'' running' running'' g) (hg : g = f ∨ s.fresh ≤ g) :
    Extends s s'' out out'' running running'' f := by
  refine ⟨fun x hx ↦ ?_, h'.inv, h.fresh.trans h'.fresh, fun x hx hlt ↦ ?_,
    fun hc ↦ h'.covered (h.covered hc)⟩
  · rw [h'.out x (hx.trans_le h.fresh), h.out x hx]
  · rw [h'.log x (by omega) (hlt.trans_le h.fresh), h.log x hx hlt]

/-- A coroutine suspends on a child that has not finished, and keeps its children. -/
theorem Extends.of_suspend {c : Nat} {code : Code ν ε κ}
    (hinv : Inv (s.suspend f c code) out (Function.update running f none))
    (hkeep : ∀ x ∈ owns s running f, x ∈ code.children) :
    Extends s (s.suspend f c code) out out running (Function.update running f none) f := by
  have hview (g : Nat) (hg : g ≠ f) :
      ((s.suspend f c code).frames g).log = (s.frames g).log ∧
        ((s.suspend f c code).frames g).code = (s.frames g).code := by
    rw [State.suspend, State.set_of_ne hg]
    by_cases hgc : g = c
    · rw [hgc, State.set_self]
      exact ⟨rfl, rfl⟩
    · rw [State.set_of_ne hgc]
      exact ⟨rfl, rfl⟩
  have hdone (g : Nat) : ((s.suspend f c code).frames g).done = (s.frames g).done := by
    rw [State.suspend]
    by_cases hg : g = f
    · rw [hg, State.set_self]
    · rw [State.set_of_ne hg]
      by_cases hgc : g = c
      · rw [hgc, State.set_self]
      · rw [State.set_of_ne hgc]
  refine ⟨fun _ _ ↦ rfl, hinv, le_rfl, fun g hg _ ↦ (hview g hg).1, fun hc ↦
    hc.of_step rfl (fun x hx ↦ hdone x ▸ hx) fun g x hx _ ↦ ⟨g, ?_⟩⟩
  by_cases hgf : g = f
  · subst hgf
    simpa [owns, State.suspend] using hkeep x hx
  · rwa [owns, Function.update_of_ne hgf, (hview g hgf).2, ← owns]

/-- A coroutine consumes a finished child and keeps the others. -/
theorem Extends.of_consume {c : Nat} {l : List Nat} {fr : Frame ν ε κ}
    (hinv : Inv (s.set c fr) out (Function.update running f (some l)))
    (hdone : (s.frames c).done = true) (hfr : fr = { s.frames c with ex := none })
    (hkeep : ∀ x ∈ owns s running f, x = c ∨ x ∈ l) :
    Extends s (s.set c fr) out out running (Function.update running f (some l)) f := by
  have hview (g : Nat) : ((s.set c fr).frames g).log = (s.frames g).log ∧
      ((s.set c fr).frames g).code = (s.frames g).code ∧
      ((s.set c fr).frames g).done = (s.frames g).done := by
    by_cases hgc : g = c
    · rw [hgc, State.set_self, hfr]
      exact ⟨rfl, rfl, rfl⟩
    · rw [State.set_of_ne hgc]
      exact ⟨rfl, rfl, rfl⟩
  refine ⟨fun _ _ ↦ rfl, hinv, le_rfl, fun g _ _ ↦ (hview g).1, fun hc ↦
    hc.of_step rfl (fun x hx ↦ (hview x).2.2 ▸ hx) fun g x hx hd ↦ ⟨g, ?_⟩⟩
  by_cases hgf : g = f
  · subst hgf
    rw [owns, Function.update_self, Option.getD_some]
    apply (hkeep x hx).resolve_left
    intro hxc
    rw [(hview x).2.2, hxc, hdone] at hd
    cases hd
  · rwa [owns, Function.update_of_ne hgf, (hview g).2.1, ← owns]

namespace Inv

/-- A change of the running coroutine's own frame that keeps its children. -/
theorem extends_set {fr : Frame ν ε κ} {l : Option (List Nat)} (h : Inv s out running)
    (hinv : Inv (s.set f fr) out (Function.update running f l)) (hrun : running f ≠ none)
    (hkeep : ∀ x ∈ owns s running f, x ∈ l.getD fr.code.children) :
    Extends s (s.set f fr) out out running (Function.update running f l) f := by
  refine ⟨fun _ _ ↦ rfl, hinv, le_rfl, fun g hg _ ↦ by rw [State.set_of_ne hg], fun hc ↦
    hc.of_step rfl (fun x hx ↦ ?_) fun g x hx _ ↦ ⟨g, ?_⟩⟩
  · by_cases hxf : x = f
    · exact hxf ▸ (h.frame f).unfinished hrun
    · rwa [State.set_of_ne hxf] at hx
  · by_cases hgf : g = f
    · subst hgf
      rw [owns_set_self]
      exact hkeep x hx
    · rwa [owns_set_of_ne hgf]

/-- The end of a coroutine that has consumed its children. -/
theorem extends_finish {o : Except ε ν} (h : Inv s out running) (hrun : running f = some [])
    (hout : out f = ((s.frames f).log, o)) :
    Extends s ((s.store f o).finalSuspend f) out out running (Function.update running f none)
      f := by
  have hinv := h.finish hrun hout
  obtain ⟨value, ex, hframes, hfresh, -⟩ :=
    finish_eq s f o ((h.frame f).unset ((h.frame f).unfinished (by simp [hrun])))
  have hother (g : Nat) (hg : g ≠ f) :
      ((s.store f o).finalSuspend f).frames g = s.frames g := by
    rw [hframes, Function.update_of_ne hg]
  refine ⟨fun _ _ ↦ rfl, hinv, hfresh.ge, fun g hg _ ↦ by rw [hother g hg], fun hc ↦
    hc.of_step hfresh (fun x hx ↦ ?_) fun g x hx _ ↦ ⟨g, ?_⟩⟩
  · have hxf : x ≠ f := by
      rintro rfl
      rw [hframes, Function.update_self] at hx
      cases hx
    rwa [hother x hxf] at hx
  · have hgf : g ≠ f := by
      rintro rfl
      simp [owns, hrun] at hx
    rwa [owns, Function.update_of_ne hgf, hother g hgf, ← owns]

/-- A child comes onto the stack, and the coroutine that starts it owns it. -/
theorem extends_adopt {r : List κ × Except ε ν} {l : List Nat} (h : Inv s out running)
    (hrun : running f = some l) :
    Extends s s.alloc out (Function.update out s.fresh r) running (Function.update
      (Function.update running s.fresh (some [])) f (some (s.fresh :: l))) f := by
  have hne : running f ≠ none := by simp [hrun]
  have hlt := h.lt_fresh hne
  have howns : owns s running f = l := by simp [owns, hrun]
  have hkeep (g : Nat) (hg : g ≠ s.fresh) : s.alloc.frames g = s.frames g :=
    Function.update_of_ne hg ..
  have hbound (c : Nat) (hc : c ∈ l) : c < s.fresh := ((h.frame f).owned c (howns ▸ hc)).2
  have hself : s.alloc.set f (s.alloc.frames f) = s.alloc := by simp [State.set]
  have hadopt := (h.alloc (r := r)).of_running (s.alloc.frames f) (f := f)
    (l := some (s.fresh :: l)) (by rw [Function.update_of_ne hlt.ne]; exact hne) rfl
    (by rw [hkeep f hlt.ne]; exact (h.frame f).unfinished hne) rfl rfl rfl ?_ ?_
    (fun hl ↦ by cases hl)
  · rw [hself] at hadopt
    refine ⟨fun g hg ↦ Function.update_of_ne hg.ne .., hadopt, Nat.le_succ _,
      fun g _ hg ↦ by rw [hkeep g hg.ne], fun hc x hx h0 hd ↦ ?_⟩
    by_cases hxs : x = s.fresh
    · exact ⟨f, by simp [owns, hxs]⟩
    · rw [hkeep x hxs] at hd
      obtain ⟨g, hg⟩ := hc x (by simp only [State.alloc] at hx; omega) h0 hd
      refine ⟨g, ?_⟩
      by_cases hgf : g = f
      · subst hgf
        rw [howns] at hg
        simp [owns, hg]
      · have hgs : g ≠ s.fresh := by
          rintro rfl
          exact absurd ((h.frame _).owned x hg) (by omega)
        rwa [owns, Function.update_of_ne hgf, Function.update_of_ne hgs, hkeep g hgs, ← owns]
  · intro c hc
    rcases List.mem_cons.mp hc with rfl | hc
    · refine .inr ⟨hlt, Nat.lt_succ_self _, fun g hg ↦ ?_, by simp [State.alloc, Frame.new]⟩
      by_cases hgs : g = s.fresh
      · subst hgs
        simp [owns] at hg
      · rw [owns, Function.update_of_ne hgs, hkeep g hgs] at hg
        exact Nat.lt_irrefl _ ((h.frame g).owned _ hg).2
    · left
      rw [owns, Function.update_of_ne hlt.ne, hrun]
      exact hc
  · exact List.nodup_cons.mpr ⟨fun hc ↦ Nat.lt_irrefl _ (hbound _ hc),
      howns ▸ (h.frame f).nodup⟩

end Inv

end Steps

/-- A coroutine that begins has all of its actions before it. -/
theorem Body.alloc_out (b : Body ν ε κ 0) (s : State ν ε κ) (out : Nat → List κ × Except ε ν) :
    Function.update out s.fresh (b.eval Fin.elim0) s.fresh =
      ((s.alloc.frames s.fresh).log ++ (b.eval fun i ↦
        (Function.update out s.fresh (b.eval Fin.elim0) (Fin.elim0 i)).2).1,
        (b.eval fun i ↦ (Function.update out s.fresh (b.eval Fin.elim0) (Fin.elim0 i)).2).2) := by
  have hnew : s.alloc.frames s.fresh = { Frame.new with code := .running } :=
    Function.update_self ..
  have henv := b.eval_zero fun i ↦
    (Function.update out s.fresh (b.eval Fin.elim0) (Fin.elim0 i)).2
  rw [henv, hnew, Function.update_self]
  rfl

/-- The children that are left when one of them is awaited. -/
theorem mem_ofFn_succAbove {n : Nat} {children : Fin (n + 1) → Nat}
    (hnd : Function.Injective children) (i : Fin (n + 1)) :
    (∀ x ∈ List.ofFn fun j ↦ children (i.succAbove j), x ∈ List.ofFn children) ∧
    (∀ x ∈ List.ofFn children,
      x = children i ∨ x ∈ List.ofFn fun j ↦ children (i.succAbove j)) ∧
    children i ∉ List.ofFn fun j ↦ children (i.succAbove j) := by
  refine ⟨fun x hx ↦ ?_, fun x hx ↦ ?_, fun hx ↦ ?_⟩
  · obtain ⟨j, rfl⟩ := List.mem_ofFn.mp hx
    exact List.mem_ofFn.mpr ⟨i.succAbove j, rfl⟩
  · obtain ⟨k, rfl⟩ := List.mem_ofFn.mp hx
    by_cases hk : k = i
    · exact .inl (hk ▸ rfl)
    · obtain ⟨j, rfl⟩ := Fin.exists_succAbove_eq hk
      exact .inr (List.mem_ofFn.mpr ⟨j, rfl⟩)
  · obtain ⟨j, hj⟩ := List.mem_ofFn.mp hx
    exact Fin.succAbove_ne i j (hnd hj)

/-- A child has come onto the stack and left it, and so has the coroutine that started it. -/
theorem update_child_idem {running : Nat → Option (List Nat)} {c f : Nat} {l l' : List Nat}
    (hcf : c ≠ f) (hc : running c = none) :
    Function.update (Function.update (Function.update (Function.update running c (some l))
      f (some l')) c none) f none = Function.update running f none := by
  funext g
  by_cases hgf : g = f
  · simp [hgf]
  · by_cases hgc : g = c
    · simp [hgc, hcf, hc]
    · simp [hgf, hgc]

/-- Running a coroutine until it suspends or ends keeps the invariant. A child that it starts
at once comes into the next frame. -/
theorem Body.extends_exec {n : Nat} (b : Body ν ε κ n) {f : Nat} {children : Fin n → Nat}
    {s : State ν ε κ} {out : Nat → List κ × Except ε ν} {running : Nat → Option (List Nat)}
    (h : Inv s out running) (hrun : running f = some (List.ofFn children))
    (hout : out f = ((s.frames f).log ++ (b.eval fun i ↦ (out (children i)).2).1,
      (b.eval fun i ↦ (out (children i)).2).2)) :
    ∃ out', Extends s (b.exec f children s) out out' running (Function.update running f none) f ∧
      ∀ child rest, b = .start child rest →
        s.fresh < (b.exec f children s).fresh ∧ out' s.fresh = child.eval Fin.elim0 := by
  induction b generalizing f s out running with
  | ret v =>
    exact ⟨out, h.extends_finish (by simpa using hrun) (by simpa [eval] using hout),
      fun _ _ hb ↦ by cases hb⟩
  | throw e =>
    exact ⟨out, h.extends_finish (by simpa using hrun) (by simpa [eval] using hout),
      fun _ _ hb ↦ by cases hb⟩
  | emit a rest ih =>
    obtain ⟨hne, howns, hnd, hdf⟩ := h.on_stack hrun
    have hstep := h.extends_set (h.of_running
      { s.frames f with log := (s.frames f).log ++ [a] }
      (l := some (List.ofFn children)) hne rfl hdf rfl rfl rfl
      (fun c hc ↦ .inl (howns ▸ hc)) (List.nodup_ofFn.mpr hnd) fun hl ↦ by cases hl) hne
      (fun x hx ↦ howns ▸ hx)
    rw [Function.update_eq_self_iff.mpr hrun.symm] at hstep
    obtain ⟨out', hrest, -⟩ := ih hstep.inv hrun (by simpa [eval] using hout)
    exact ⟨out', hstep.trans hrest (.inl rfl), fun _ _ hb ↦ by cases hb⟩
  | start child rest ihc ihr =>
    obtain ⟨hne, howns, hnd, hdf⟩ := h.on_stack hrun
    have hlt := h.lt_fresh hne
    have hadopt := h.extends_adopt (r := child.eval Fin.elim0) hrun
    -- the child runs first
    have hrun₀ : Function.update (Function.update running s.fresh (some [])) f
        (some (s.fresh :: List.ofFn children)) s.fresh =
        some (List.ofFn (Fin.elim0 : Fin 0 → Nat)) := by
      rw [Function.update_of_ne hlt.ne', Function.update_self, List.ofFn_zero]
    obtain ⟨out₁, hchild, -⟩ := ihc hadopt.inv hrun₀ (child.alloc_out s out)
    have hboth := hadopt.trans hchild (.inr le_rfl)
    have hout₁ : out₁ s.fresh = child.eval Fin.elim0 := by
      rw [hchild.out s.fresh (Nat.lt_succ_self _), Function.update_self]
    -- then the coroutine itself goes on
    have henv : (fun i ↦ (out₁ ((Fin.cons s.fresh children : Fin (_ + 1) → Nat) i)).2) =
        Fin.cons (child.eval Fin.elim0).2 fun i ↦ (out (children i)).2 := by
      funext i
      refine Fin.cases ?_ (fun i ↦ ?_) i
      · simp [hout₁]
      · have hmem : children i ∈ owns s running f := howns ▸ List.mem_ofFn.mpr ⟨i, rfl⟩
        simp [hboth.out _ ((h.frame f).owned _ hmem).2]
    have hrun₁ : Function.update (Function.update (Function.update running s.fresh (some [])) f
        (some (s.fresh :: List.ofFn children))) s.fresh none f =
        some (List.ofFn (Fin.cons s.fresh children : Fin (_ + 1) → Nat)) := by
      rw [Function.update_of_ne hlt.ne, Function.update_self, List.ofFn_cons]
    have hlog : ((child.exec s.fresh Fin.elim0 s.alloc).frames f).log = (s.frames f).log := by
      rw [hchild.log f hlt.ne (Nat.lt_succ_of_lt hlt)]
      exact congrArg Frame.log (Function.update_of_ne hlt.ne ..)
    obtain ⟨out₂, hrest, -⟩ := ihr hboth.inv hrun₁
      (by rw [henv, hlog, hboth.out f hlt]; exact hout)
    rw [update_child_idem hlt.ne' ((h.frame s.fresh).absent le_rfl).2] at hrest
    refine ⟨out₂, hboth.trans hrest (.inl rfl), fun child' rest' he ↦ ?_⟩
    cases he
    have hfresh : s.fresh < (child.exec s.fresh Fin.elim0 s.alloc).fresh := hchild.fresh
    exact ⟨hfresh.trans_le hrest.fresh, by rw [hrest.out s.fresh hfresh, hout₁]⟩
  | await i rest ih =>
    obtain ⟨hne, howns, hnd, hdf⟩ := h.on_stack hrun
    have hmem : children i ∈ owns s running f := howns ▸ List.mem_ofFn.mpr ⟨i, rfl⟩
    have hothers : Function.Injective fun j ↦ children (i.succAbove j) :=
      hnd.comp Fin.succAbove_right_injective
    obtain ⟨hsub, hkeep, hnot⟩ := mem_ofFn_succAbove hnd i
    rw [← howns] at hsub hkeep
    simp only [exec]
    split
    · next hdone =>
      have hstored := (h.frame (children i)).stored hdone (.inr ⟨f, hmem⟩)
      split
      · next o fr hres =>
        obtain ⟨rfl, hinv⟩ := h.consume hne hmem hdone hres hsub hnot (List.nodup_ofFn.mpr hothers)
        rw [Frame.awaitResume_eq, hstored] at hres
        cases hres
        have hstep := Extends.of_consume hinv hdone rfl hkeep
        obtain ⟨out', hrest, -⟩ := ih _ hinv (Function.update_self ..) (by
          rw [State.set_of_ne (Nat.ne_of_lt ((h.frame f).owned _ hmem).1)]
          exact hout)
        rw [Function.update_idem] at hrest
        exact ⟨out', hstep.trans hrest (.inl rfl), fun _ _ hb ↦ by cases hb⟩
      · next hres => simp [Frame.awaitResume_eq, hstored] at hres
    · next hdone =>
      refine ⟨out, Extends.of_suspend (h.suspend hne hmem (by simpa using hdone) rfl rfl rfl ?_ ?_
        ?_) fun x hx ↦ List.mem_cons.mpr (hkeep x hx), fun _ _ hb ↦ by cases hb⟩
      · exact fun x hx ↦ (List.mem_cons.mp hx).elim (fun hx ↦ hx ▸ hmem) (hsub x)
      · exact List.nodup_cons.mpr ⟨hnot, List.nodup_ofFn.mpr hothers⟩
      · intro r hr
        cases hr
        exact hout
  | external o rest ih =>
    obtain ⟨hne, howns, hnd, hdf⟩ := h.on_stack hrun
    refine ⟨out, h.extends_set (h.of_running _ (l := none) hne rfl hdf rfl rfl rfl
      (fun c hc ↦ .inl (howns ▸ hc)) (List.nodup_ofFn.mpr hnd) fun _ ↦
        ⟨rfl, rfl, rfl, fun r hr ↦ ?_⟩) hne fun x hx ↦ ?_, fun _ _ hb ↦ by cases hb⟩
    · cases hr
      exact hout
    · rw [howns] at hx
      exact hx

/-! ### Runs -/

/-- The machine has started the root and evaluates it; `out` gives the results, and a child
that the root starts at once has the frame after its own. -/
structure Evaluating (root : Body ν ε κ 0) (s : State ν ε κ)
    (out : Nat → List κ × Except ε ν) : Prop where
  started : 0 < s.fresh
  result : out 0 = root.eval Fin.elim0
  child : ∀ child rest, root = .start child rest → 1 < s.fresh ∧ out 1 = child.eval Fin.elim0
  inv : Inv s out fun _ ↦ none
  covered : Covered s fun _ ↦ none

/-- The root is about to start, or the machine evaluates it. -/
def Evaluates (root : Body ν ε κ 0) (s : State ν ε κ) : Prop :=
  s = (system root).init ∨ ∃ out, Evaluating root s out

/-- No coroutine has started. -/
theorem Inv.empty (out : Nat → List κ × Except ε ν) :
    Inv { frames := fun _ ↦ Frame.new, fresh := 0, posted := [] } out fun _ ↦ none := by
  refine ⟨fun f ↦ ?_, ?_, List.nodup_nil, by simp⟩
  · constructor <;> simp [owns, Frame.new, Code.children, Code.waitsFor, Code.delivered, Code.goal]
    exact ⟨fun _ ↦ ⟨rfl, rfl⟩, fun hd ↦ by cases hd⟩
  · simp [owns, Frame.new, Code.children]

private theorem update_none {f : Nat} {l : Option (List Nat)} :
    Function.update (Function.update (fun _ ↦ none) f l) f none = fun _ ↦ none := by
  funext g
  by_cases hg : g = f <;> simp [hg]

/-- The start of the root. -/
theorem evaluates_start (root : Body ν ε κ 0) :
    Evaluates root (root.exec 0 Fin.elim0
      (State.alloc { frames := fun _ ↦ Frame.new, fresh := 0, posted := [] })) := by
  have hstack : Function.update (fun _ : Nat ↦ (none : Option (List Nat))) 0 (some []) 0 =
      some (List.ofFn (Fin.elim0 : Fin 0 → Nat)) := by simp
  have halloc := (Inv.empty fun _ ↦ root.eval Fin.elim0).alloc (r := root.eval Fin.elim0)
  obtain ⟨out, he, hchild⟩ := root.extends_exec halloc hstack (root.alloc_out _ _)
  rw [update_none] at he
  refine .inr ⟨out, he.fresh, ?_, hchild, he.inv, he.covered fun f hf h0 _ ↦ ?_⟩
  · rw [he.out 0 (Nat.lt_succ_self 0), Function.update_self]
  · exact absurd (Nat.lt_one_iff.mp hf) h0

/-- A suspended coroutine goes on until it suspends again or ends. -/
theorem Evaluating.exec {root : Body ν ε κ 0} {s t : State ν ε κ}
    {out : Nat → List κ × Except ε ν} {p n : Nat} {b : Body ν ε κ n} {children : Fin n → Nat}
    (h : Evaluating root s out) (ht : t.fresh = s.fresh)
    (hlog : (t.frames p).log = (s.frames p).log)
    (hinv : Inv t out (Function.update (fun _ ↦ none) p (some (List.ofFn children))))
    (hcovered : Covered t (Function.update (fun _ ↦ none) p (some (List.ofFn children))))
    (hout : out p = ((s.frames p).log ++ (b.eval fun i ↦ (out (children i)).2).1,
      (b.eval fun i ↦ (out (children i)).2).2)) : Evaluates root (b.exec p children t) := by
  obtain ⟨out', he, -⟩ := b.extends_exec hinv (Function.update_self ..) (by rw [hlog]; exact hout)
  rw [update_none] at he
  have hfresh : s.fresh ≤ (b.exec p children t).fresh := ht ▸ he.fresh
  refine .inr ⟨out', h.started.trans_le hfresh, ?_, fun child rest hroot ↦ ?_, he.inv,
    he.covered hcovered⟩
  · rw [he.out 0 (ht ▸ h.started), h.result]
  · obtain ⟨hlt, hc⟩ := h.child child rest hroot
    exact ⟨hlt.trans_le hfresh, by rw [he.out 1 (ht ▸ hlt), hc]⟩

/-- The resumption of a suspended coroutine. -/
theorem evaluates_resume {root : Body ν ε κ 0} {s s' : State ν ε κ} {i p : Nat}
    (h : Evaluates root s) (hi : s.posted[i]? = some (.resume p))
    (hn : runPosted root { s with posted := s.posted.eraseIdx i } (.resume p) = some s') :
    Evaluates root s' := by
  rcases h with rfl | ⟨out, h⟩
  · have hm := List.mem_of_getElem? hi
    simp [system] at hm
  obtain ⟨-, hready⟩ := (h.inv.frame p).posted (List.mem_of_getElem? hi)
  have hwake := h.inv.wake hi
  have hgoal := (h.inv.frame p).goal
  have hcovered : Covered { s with posted := s.posted.eraseIdx i }
      (Function.update (fun _ ↦ none) p (some (s.frames p).code.children)) := by
    refine h.covered.of_step rfl (fun _ ↦ id) fun g x hx _ ↦ ⟨g, ?_⟩
    by_cases hg : g = p
    · subst hg
      simpa [owns] using hx
    · simpa [owns, hg] using hx
  simp only [runPosted] at hn
  split at hn
  · next c n children rest hcode =>
    obtain ⟨⟨o, fr⟩, hres, rfl⟩ := Option.map_eq_some_iff.mp hn
    rw [hcode] at hready hwake hgoal hcovered
    obtain ⟨c', hc', hdone⟩ := hready.resolve_left (by simp [Code.delivered])
    cases hc'
    have hwake' : Inv { s with posted := s.posted.eraseIdx i } out
        (Function.update (fun _ ↦ none) p (some (c :: List.ofFn children))) := hwake
    have howns : owns { s with posted := s.posted.eraseIdx i }
        (Function.update (fun _ ↦ none) p (some (c :: List.ofFn children))) p =
        c :: List.ofFn children := by simp [owns]
    have hmem : c ∈ owns { s with posted := s.posted.eraseIdx i }
        (Function.update (fun _ ↦ none) p (some (c :: List.ofFn children))) p := by
      rw [howns]
      exact List.mem_cons_self
    have hpc := ((hwake'.frame p).owned c hmem).1
    have hnd := (hwake'.frame p).nodup
    rw [howns, List.nodup_cons] at hnd
    have hstored := (hwake'.frame c).stored hdone (.inr ⟨p, hmem⟩)
    obtain ⟨rfl, hinv⟩ := hwake'.consume (f := p) (by simp) hmem hdone hres
      (by rw [howns]; exact fun x hx ↦ List.mem_cons_of_mem _ hx) hnd.1 hnd.2
    rw [Frame.awaitResume_eq, hstored] at hres
    cases hres
    have hstep := Extends.of_consume hinv hdone rfl
      (fun x hx ↦ List.mem_cons.mp (howns ▸ hx))
    have hcov := hstep.covered hcovered
    rw [Function.update_idem] at hinv hcov
    exact h.exec (State.set_fresh ..) (by rw [State.set_of_ne hpc.ne]) hinv hcov (hgoal _ rfl rfl)
  · next o n children rest hcode =>
    cases hn
    rw [hcode] at hwake hgoal hcovered
    exact h.exec rfl rfl hwake hcovered (hgoal _ rfl rfl)
  · cases hn

/-- Every step keeps the machine evaluating the root. -/
theorem evaluates_next {root : Body ν ε κ 0} {s s' : State ν ε κ} {a : Act}
    (h : Evaluates root s) (hn : next root s a = some s') : Evaluates root s' := by
  cases a with
  | take i =>
    simp only [next] at hn
    split at hn
    · next x hi =>
      cases x with
      | start =>
        rcases h with rfl | ⟨out, h⟩
        · have hz : i = 0 := by
            by_contra hne
            simp [system, hne] at hi
          subst hz
          cases hn
          exact evaluates_start root
        · exact absurd (List.mem_of_getElem? hi) h.inv.noStart
      | resume p => exact evaluates_resume h hi hn
    · cases hn
  | complete f =>
    simp only [next] at hn
    split at hn
    · next o n children rest hcode =>
      cases hn
      rcases h with rfl | ⟨out, h⟩
      · cases hcode
      · refine .inr ⟨out, h.started, h.result, h.child, h.inv.complete rfl hcode,
          h.covered.of_step rfl (fun x hx ↦ ?_) fun g x hx _ ↦ ⟨g, ?_⟩⟩
        · by_cases hxf : x = f
          · rw [hxf, State.set_self] at hx
            exact hxf ▸ hx
          · rwa [State.set_of_ne hxf] at hx
        · by_cases hg : g = f
          · subst hg
            simpa [owns, hcode, Code.children] using hx
          · simpa [owns, State.set_of_ne hg] using hx
    · cases hn

/-- Every reachable state is one in which the machine evaluates the root. -/
theorem evaluates_of_reachable {root : Body ν ε κ 0} {s : State ν ε κ}
    (hr : (system root).Reachable s) : Evaluates root s :=
  hr.invariant (.inl rfl) fun _ _ _ hi hn ↦ evaluates_next hi hn

private theorem Evaluating.done_of_root {root : Body ν ε κ 0} {s : State ν ε κ}
    {out : Nat → List κ × Except ε ν} (h : Evaluating root s out)
    (hroot : (s.frames 0).done = true) {f : Nat} (hf : f < s.fresh) :
    (s.frames f).done = true := by
  induction f using Nat.strong_induction_on with
  | _ f ih =>
    by_contra hd
    have h0 : f ≠ 0 := by
      rintro rfl
      exact hd hroot
    obtain ⟨g, hg⟩ := h.covered f hf h0 (by simpa using hd)
    obtain ⟨hgf, hlt⟩ := (h.inv.frame g).owned f hg
    have hdg := ih g hgf (hgf.trans hlt)
    have hstatus := (h.inv.frame g).status (hgf.trans hlt) rfl
    rw [hdg] at hstatus
    cases hcode : (s.frames g).code <;>
      simp [hcode, Code.isSuspended, owns, Code.children] at hstatus hg

/-- What the frames of the root and of a child that it starts at once hold when the root has
finished. -/
theorem logs_of_finished {root : Body ν ε κ 0} {s : State ν ε κ} (hr : (system root).Reachable s)
    (hdone : (s.frames 0).done = true) : (s.frames 0).log = (root.eval Fin.elim0).1 ∧
      ∀ child rest, root = .start child rest → (s.frames 1).log = (child.eval Fin.elim0).1 := by
  rcases evaluates_of_reachable hr with rfl | ⟨out, h⟩
  · cases hdone
  · refine ⟨by rw [(h.inv.frame 0).log hdone, h.result], fun child rest hroot ↦ ?_⟩
    obtain ⟨hlt, hc⟩ := h.child child rest hroot
    rw [(h.inv.frame 1).log (h.done_of_root hdone hlt), hc]

/-- All operations have completed, and no handler is posted. -/
def Settled (s : State ν ε κ) : Prop :=
  s.posted = [] ∧ ∀ f < s.fresh, (s.frames f).code.outstanding = false

/-- In a settled state every coroutine has finished: an unfinished one would await a later
one that is unfinished too. -/
theorem Inv.done_of_settled {s : State ν ε κ} {out : Nat → List κ × Except ε ν}
    (h : Inv s out fun _ ↦ none) (hs : Settled s) {f : Nat} (hf : f < s.fresh) :
    (s.frames f).done = true := by
  induction hk : s.fresh - f using Nat.strong_induction_on generalizing f with
  | _ k ih =>
    by_contra hd
    have hstatus := (h.frame f).status hf rfl
    have hnopost : .resume f ∉ s.posted := by simp [hs.1]
    cases hcode : (s.frames f).code with
    | awaiting c children rest =>
      have hw : (s.frames f).code.waitsFor = some c := by rw [hcode]; rfl
      have hc := (h.frame f).owned c (by simpa [owns] using Code.mem_children hw)
      have hdc := ih (s.fresh - c) (by omega) hc.2 rfl
      exact hnopost (((h.frame f).waiting c rfl hw).2 hdc)
    | external delivered o children rest =>
      cases delivered with
      | true => exact hnopost ((h.frame f).delivered rfl (by rw [hcode]; rfl))
      | false =>
        have := hs.2 f hf
        simp [hcode, Code.outstanding] at this
    | absent | running | finished => simp [hcode, Code.isSuspended, hd] at hstatus

/-- What direct-style evaluation says of a settled state: the root has finished with the
outcome and the actions of its evaluation, and each coroutine that suspended on a child was
scheduled exactly once by it. -/
structure DirectStyle (root : Body ν ε κ 0) (s : State ν ε κ) : Prop where
  finished : (s.frames 0).done = true
  outcome : (s.frames 0).outcome = some (root.eval Fin.elim0).2
  actions : (s.frames 0).log = (root.eval Fin.elim0).1
  scheduled : ∀ c p, p ∈ (s.frames c).awaitedBy → (s.frames c).scheduled = [p]

/-- Awaiting futures on one worker is direct-style evaluation, in whatever order handlers
run and operations complete; and no coroutine is scheduled before its child has finished. -/
theorem direct_style {root : Body ν ε κ 0} {s : State ν ε κ} (hr : (system root).Reachable s) :
    (∀ c, (s.frames c).scheduled ≠ [] → (s.frames c).done = true) ∧
      (Settled s → DirectStyle root s) := by
  rcases evaluates_of_reachable hr with rfl | ⟨out, heval⟩
  · refine ⟨fun c hc ↦ absurd rfl hc, fun hs ↦ ?_⟩
    exact absurd hs.1 (by simp [system])
  · have h := heval.inv
    refine ⟨fun c hc ↦ ?_, fun hs ↦ ?_⟩
    · by_contra hd
      exact hc ((h.frame c).recorded.before (by simpa using hd)).1
    · have hdone := h.done_of_settled hs heval.started
      refine ⟨hdone, ?_, ?_, fun c p hp ↦ ?_⟩
      · rw [(h.frame 0).stored hdone (.inl rfl), heval.result]
      · rw [(h.frame 0).log hdone, heval.result]
      · have hc : c < s.fresh := by
          by_contra hge
          rw [((h.frame c).absent (by omega)).1] at hp
          simp [Frame.new] at hp
        obtain ⟨hsch, hlen, -⟩ := (h.frame c).recorded.after (h.done_of_settled hs hc)
        rw [hsch]
        cases hb : (s.frames c).awaitedBy with
        | nil =>
          rw [hb] at hp
          cases hp
        | cons q rest =>
          rw [hb] at hp hlen
          have hrest : rest = [] := List.length_eq_zero_iff.mp (by simpa using hlen)
          subst hrest
          rw [List.mem_singleton.mp hp]

instance (s : State ν ε κ) : Decidable (Settled s) := inferInstanceAs (Decidable (_ ∧ _))

/-- A coroutine that awaits one child and passes its outcome on. The child awaits an
operation. -/
def forward : Body Nat String Unit 0 :=
  .start (.external (.error "eof") fun o ↦ o.casesOn .throw .ret)
    (.await (Fin.last 0) fun o ↦ o.casesOn .throw .ret)

/-- The operation completes after the root has suspended; its exception reaches the root. -/
theorem direct_style_forward :
    ∃ s, (system forward).Reachable s ∧ Settled s ∧ DirectStyle forward s := by
  have hrun : ∃ s, (system forward).Reachable s ∧ Settled s :=
    System.exists_reachable [.take 0, .complete 1, .take 0, .take 0] (by decide +kernel)
  obtain ⟨s, hr, hs⟩ := hrun
  exact ⟨s, hr, hs, (direct_style hr).2 hs⟩

end Crasy.Future
