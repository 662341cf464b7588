import Crasy.Base.Amortized
import Crasy.Future.DirectStyle

/-!
# Trees of futures settle

Library `Future`. Every run of the machine of `Crasy.Future.Tree` is bounded by the awaits of
the direct evaluation of its root, and one that cannot be continued has evaluated the root.
-/

namespace Crasy.Future

open Crasy.Base

variable {ν ε κ : Type}

/-- The handlers that direct evaluation accounts for: the resumption of each await of a child,
and the completion and the resumption of each operation. -/
def Body.steps : {n : Nat} → Body ν ε κ n → (Fin n → Except ε ν) → Nat
  | _, .ret _, _ => 0
  | _, .throw _, _ => 0
  | _, .emit _ rest, env => rest.steps env
  | _, .start child rest, env =>
    child.steps Fin.elim0 + rest.steps (Fin.cons (child.eval Fin.elim0).2 env)
  | _, .await i rest, env => (rest (env i)).steps (fun j ↦ env (i.succAbove j)) + 1
  | _, .external o rest, env => (rest o).steps env + 2

private theorem Body.steps_zero (b : Body ν ε κ 0) (env : Fin 0 → Except ε ν) :
    b.steps env = b.steps Fin.elim0 := by
  rw [Subsingleton.elim env Fin.elim0]

/-- The steps left to a suspended coroutine, given the results of all frames. -/
def Code.stepsLeft (out : Nat → List κ × Except ε ν) : Code ν ε κ → Nat
  | .awaiting c children rest =>
    (rest (out c).2).steps (fun i ↦ (out (children i)).2) + 1
  | .external true o children rest => (rest o).steps (fun i ↦ (out (children i)).2) + 1
  | .external false o children rest => (rest o).steps (fun i ↦ (out (children i)).2) + 2
  | .absent | .running | .finished => 0

private theorem Code.stepsLeft_congr {out out' : Nat → List κ × Except ε ν} {code : Code ν ε κ}
    (h : ∀ c ∈ code.children, out' c = out c) : code.stepsLeft out' = code.stepsLeft out := by
  cases code with
  | awaiting c children rest =>
    simp only [Code.children, List.mem_cons, List.mem_ofFn, forall_eq_or_imp,
      forall_exists_index, forall_apply_eq_imp_iff] at h
    simp [stepsLeft, h.1, h.2]
  | external d o children rest =>
    simp only [Code.children, List.mem_ofFn, forall_exists_index,
      forall_apply_eq_imp_iff] at h
    cases d <;> simp [stepsLeft, h]
  | absent | running | finished => rfl

/-- The steps left to a coroutine, none of which are its own while it is on the worker's
stack. -/
def frameLeft (s : State ν ε κ) (out : Nat → List κ × Except ε ν)
    (running : Nat → Option (List Nat)) (f : Nat) : Nat :=
  match running f with
  | some _ => 0
  | none => (s.frames f).code.stepsLeft out

/-- The steps left to all coroutines. -/
def stepsLeft (s : State ν ε κ) (out : Nat → List κ × Except ε ν)
    (running : Nat → Option (List Nat)) : Nat :=
  ∑ f ∈ Finset.range s.fresh, frameLeft s out running f

section Steps

variable {s s' : State ν ε κ} {out out' : Nat → List κ × Except ε ν}
  {running running' : Nat → Option (List Nat)} {f : Nat}

private theorem frameLeft_of_running {l : List Nat} (h : running f = some l) :
    frameLeft s out running f = 0 := by
  rw [frameLeft, h]

/-- A step of one coroutine changes no more than the steps left to it. -/
theorem stepsLeft_step (out : Nat → List κ × Except ε ν)
    {running running' : Nat → Option (List Nat)}
    (hf : f < s.fresh) (hfresh : s'.fresh = s.fresh)
    (hcode : ∀ g, g ≠ f → (s'.frames g).code = (s.frames g).code)
    (hrun : ∀ g, g ≠ f → running' g = running g) :
    stepsLeft s' out running' + frameLeft s out running f =
      stepsLeft s out running + frameLeft s' out running' f := by
  have hmem := Finset.mem_range.mpr hf
  have hrest : ∑ g ∈ (Finset.range s.fresh).erase f, frameLeft s' out running' g =
      ∑ g ∈ (Finset.range s.fresh).erase f, frameLeft s out running g := by
    refine Finset.sum_congr rfl fun g hg ↦ ?_
    have hgf := Finset.ne_of_mem_erase hg
    rw [frameLeft, frameLeft, hrun g hgf, hcode g hgf]
  rw [stepsLeft, stepsLeft, hfresh, ← Finset.sum_erase_add _ _ hmem,
    ← Finset.sum_erase_add _ _ hmem, hrest]
  omega

private theorem stepsLeft_adopt (r : List κ × Except ε ν) {l : List Nat} (l' : List Nat)
    (h : Inv s out running) (hrun : running f = some l) :
    stepsLeft s.alloc (Function.update out s.fresh r)
        (Function.update (Function.update running s.fresh (some [])) f (some l')) =
      stepsLeft s out running := by
  have hlt := h.lt_fresh (f := f) (by simp [hrun])
  have hnew : frameLeft s.alloc (Function.update out s.fresh r)
      (Function.update (Function.update running s.fresh (some [])) f (some l')) s.fresh = 0 :=
    frameLeft_of_running (l := []) (by rw [Function.update_of_ne hlt.ne', Function.update_self])
  have hfresh : s.alloc.fresh = s.fresh + 1 := rfl
  rw [stepsLeft, hfresh, Finset.sum_range_succ, hnew, Nat.add_zero]
  refine Finset.sum_congr rfl fun g hg ↦ ?_
  have hgs : g ≠ s.fresh := (Finset.mem_range.mp hg).ne
  have hframe : s.alloc.frames g = s.frames g := Function.update_of_ne hgs ..
  by_cases hgf : g = f
  · subst hgf
    rw [frameLeft_of_running (Function.update_self ..), frameLeft_of_running hrun]
  · rw [frameLeft, frameLeft, Function.update_of_ne hgf, Function.update_of_ne hgs, hframe]
    cases hr : running g with
    | some l => rfl
    | none =>
      refine Code.stepsLeft_congr fun c hc ↦ Function.update_of_ne ?_ ..
      exact ((h.frame g).owned c (by simpa [owns, hr] using hc)).2.ne

private theorem stepsLeft_finish {o : Except ε ν} (h : Inv s out running)
    (hrun : running f ≠ none) :
    stepsLeft ((s.store f o).finalSuspend f) out (Function.update running f none) =
      stepsLeft s out running := by
  obtain ⟨l, hl⟩ := Option.ne_none_iff_exists'.mp hrun
  obtain ⟨value, ex, hframes, hfresh, -⟩ :=
    finish_eq s f o ((h.frame f).unset ((h.frame f).unfinished hrun))
  have hstep := stepsLeft_step out (h.lt_fresh hrun) hfresh
    (fun g hg ↦ by rw [hframes, Function.update_of_ne hg])
    fun g hg ↦ Function.update_of_ne hg none running
  have hdone : frameLeft ((s.store f o).finalSuspend f) out (Function.update running f none) f =
      0 := by
    rw [frameLeft, Function.update_self, hframes, Function.update_self]
    rfl
  rw [frameLeft_of_running hl, hdone] at hstep
  exact hstep

private theorem stepsLeft_running (out : Nat → List κ × Except ε ν) {l : List Nat} (l' : List Nat)
    (hlt : f < s.fresh) (hrun : running f = some l) (hfresh : s'.fresh = s.fresh)
    (hcode : ∀ g, g ≠ f → (s'.frames g).code = (s.frames g).code) :
    stepsLeft s' out (Function.update running f (some l')) = stepsLeft s out running := by
  have hstep := stepsLeft_step out hlt hfresh hcode fun g hg ↦
    Function.update_of_ne hg (some l') running
  rwa [frameLeft_of_running hrun, frameLeft_of_running (Function.update_self ..)] at hstep

private theorem consumed_code (s : State ν ε κ) (c g : Nat) (_ : g ≠ f) :
    ((s.set c { s.frames c with ex := none }).frames g).code = (s.frames g).code := by
  by_cases hg : g = c
  · rw [hg, State.set_self]
  · rw [State.set_of_ne hg]

/-- A coroutine that suspends has the steps of its continuation left. -/
theorem stepsLeft_suspended {l : List Nat} (hlt : f < s.fresh) (hrun : running f = some l)
    (hfresh : s'.fresh = s.fresh)
    (hcode : ∀ g, g ≠ f → (s'.frames g).code = (s.frames g).code) :
    stepsLeft s' out (Function.update running f none) =
      stepsLeft s out running + (s'.frames f).code.stepsLeft out := by
  have hstep := stepsLeft_step out hlt hfresh hcode fun g hg ↦
    Function.update_of_ne hg none running
  rw [frameLeft_of_running hrun, frameLeft, Function.update_self] at hstep
  exact hstep

/-- Running a coroutine until it suspends or ends leaves no more steps than direct evaluation of
what it runs accounts for. -/
theorem Body.spends_exec {n : Nat} (b : Body ν ε κ n) {f : Nat} {children : Fin n → Nat}
    {s : State ν ε κ} {out : Nat → List κ × Except ε ν} {running : Nat → Option (List Nat)}
    (h : Inv s out running) (hrun : running f = some (List.ofFn children))
    (hout : out f = ((s.frames f).log ++ (b.eval fun i ↦ (out (children i)).2).1,
      (b.eval fun i ↦ (out (children i)).2).2)) :
    ∃ out', Extends s (b.exec f children s) out out' running (Function.update running f none) f ∧
      stepsLeft (b.exec f children s) out' (Function.update running f none) ≤
        stepsLeft s out running + b.steps fun i ↦ (out (children i)).2 := by
  induction b generalizing f s out running with
  | ret v =>
    refine ⟨out, h.extends_finish (by simpa using hrun) (by simpa [eval] using hout), ?_⟩
    exact (stepsLeft_finish h (by simp [hrun])).le
  | throw e =>
    refine ⟨out, h.extends_finish (by simpa using hrun) (by simpa [eval] using hout), ?_⟩
    exact (stepsLeft_finish h (by simp [hrun])).le
  | emit a rest ih =>
    obtain ⟨hne, howns, hnd, hdf⟩ := h.on_stack hrun
    have hstep := h.extends_set (h.of_running
      { s.frames f with log := (s.frames f).log ++ [a] }
      (l := some (List.ofFn children)) hne rfl hdf rfl rfl rfl
      (fun c hc ↦ .inl (howns ▸ hc)) (List.nodup_ofFn.mpr hnd) fun hl ↦ by cases hl) hne
      (fun x hx ↦ howns ▸ hx)
    have hleft := stepsLeft_running out (List.ofFn children) (h.lt_fresh hne) hrun
      (State.set_fresh s f { s.frames f with log := (s.frames f).log ++ [a] })
      fun g hg ↦ by rw [State.set_of_ne hg]
    rw [Function.update_eq_self_iff.mpr hrun.symm] at hstep hleft
    obtain ⟨out', hrest, hspent⟩ := ih hstep.inv hrun (by simpa [eval] using hout)
    exact ⟨out', hstep.trans hrest (.inl rfl), hspent.trans_eq (by rw [hleft]; rfl)⟩
  | start child rest ihc ihr =>
    obtain ⟨hne, howns, hnd, hdf⟩ := h.on_stack hrun
    have hlt := h.lt_fresh hne
    have hadopt := h.extends_adopt (r := child.eval Fin.elim0) hrun
    have hleft := stepsLeft_adopt (child.eval Fin.elim0) (s.fresh :: List.ofFn children) h hrun
    -- the child runs first
    have hrun₀ : Function.update (Function.update running s.fresh (some [])) f
        (some (s.fresh :: List.ofFn children)) s.fresh =
        some (List.ofFn (Fin.elim0 : Fin 0 → Nat)) := by
      rw [Function.update_of_ne hlt.ne', Function.update_self, List.ofFn_zero]
    obtain ⟨out₁, hchild, hspent₁⟩ := ihc hadopt.inv hrun₀ (child.alloc_out s out)
    rw [child.steps_zero, hleft] at hspent₁
    have hboth := hadopt.trans hchild (.inr le_rfl)
    have hout₁ : out₁ s.fresh = child.eval Fin.elim0 := by
      rw [hchild.out s.fresh (Nat.lt_succ_self _), Function.update_self]
    -- then the coroutine itself goes on
    have henv : (fun i ↦ (out₁ ((Fin.cons s.fresh children : Fin (_ + 1) → Nat) i)).2) =
        Fin.cons (child.eval Fin.elim0).2 fun i ↦ (out (children i)).2 := by
      funext i
      refine Fin.cases ?_ (fun i ↦ ?_) i
      · simp [hout₁]
      · have hmem : children i ∈ owns s running f := howns ▸ List.mem_ofFn.mpr ⟨i, rfl⟩
        simp [hboth.out _ ((h.frame f).owned _ hmem).2]
    have hrun₁ : Function.update (Function.update (Function.update running s.fresh (some [])) f
        (some (s.fresh :: List.ofFn children))) s.fresh none f =
        some (List.ofFn (Fin.cons s.fresh children : Fin (_ + 1) → Nat)) := by
      rw [Function.update_of_ne hlt.ne, Function.update_self, List.ofFn_cons]
    have hlog : ((child.exec s.fresh Fin.elim0 s.alloc).frames f).log = (s.frames f).log := by
      rw [hchild.log f hlt.ne (Nat.lt_succ_of_lt hlt)]
      exact congrArg Frame.log (Function.update_of_ne hlt.ne ..)
    obtain ⟨out₂, hrest, hspent₂⟩ := ihr hboth.inv hrun₁
      (by rw [henv, hlog, hboth.out f hlt]; exact hout)
    rw [update_child_idem hlt.ne' ((h.frame s.fresh).absent le_rfl).2] at hrest hspent₂
    rw [henv] at hspent₂
    refine ⟨out₂, hboth.trans hrest (.inl rfl), hspent₂.trans ?_⟩
    calc _ ≤ stepsLeft s out running + child.steps Fin.elim0 + rest.steps _ :=
          Nat.add_le_add_right hspent₁ _
      _ = _ := Nat.add_assoc ..
  | await i rest ih =>
    obtain ⟨hne, howns, hnd, hdf⟩ := h.on_stack hrun
    have hmem : children i ∈ owns s running f := howns ▸ List.mem_ofFn.mpr ⟨i, rfl⟩
    have hothers : Function.Injective fun j ↦ children (i.succAbove j) :=
      hnd.comp Fin.succAbove_right_injective
    obtain ⟨hsub, hkeep, hnot⟩ := mem_ofFn_succAbove hnd i
    rw [← howns] at hsub hkeep
    simp only [exec]
    split
    · next hdone =>
      have hstored := (h.frame (children i)).stored hdone (.inr ⟨f, hmem⟩)
      split
      · next o fr hres =>
        obtain ⟨rfl, hinv⟩ := h.consume hne hmem hdone hres hsub hnot (List.nodup_ofFn.mpr hothers)
        rw [Frame.awaitResume_eq, hstored] at hres
        cases hres
        have hstep := Extends.of_consume hinv hdone rfl hkeep
        have hleft := stepsLeft_running out (List.ofFn fun j ↦ children (i.succAbove j))
          (h.lt_fresh hne) hrun
          (State.set_fresh s (children i) { s.frames (children i) with ex := none })
          (consumed_code s (children i))
        obtain ⟨out', hrest, hspent⟩ := ih _ hinv (Function.update_self ..) (by
          rw [State.set_of_ne (Nat.ne_of_lt ((h.frame f).owned _ hmem).1)]
          exact hout)
        rw [Function.update_idem] at hrest hspent
        refine ⟨out', hstep.trans hrest (.inl rfl), hspent.trans ?_⟩
        rw [hleft]
        exact Nat.add_le_add_left (Nat.le_succ _) _
      · next hres => simp [Frame.awaitResume_eq, hstored] at hres
    · next hdone =>
      refine ⟨out, Extends.of_suspend (h.suspend hne hmem (by simpa using hdone) rfl rfl rfl ?_ ?_
        ?_) fun x hx ↦ List.mem_cons.mpr (hkeep x hx), ?_⟩
      · exact fun x hx ↦ (List.mem_cons.mp hx).elim (fun hx ↦ hx ▸ hmem) (hsub x)
      · exact List.nodup_cons.mpr ⟨hnot, List.nodup_ofFn.mpr hothers⟩
      · intro r hr
        cases hr
        exact hout
      · refine (stepsLeft_suspended (h.lt_fresh hne) hrun ?_ fun g hg ↦
          State.suspend_code hg).trans_le ?_
        · rfl
        · rw [State.suspend_self]
          exact Nat.le_refl _
  | external o rest ih =>
    obtain ⟨hne, howns, hnd, hdf⟩ := h.on_stack hrun
    refine ⟨out, h.extends_set (h.of_running _ (l := none) hne rfl hdf rfl rfl rfl
      (fun c hc ↦ .inl (howns ▸ hc)) (List.nodup_ofFn.mpr hnd) fun _ ↦
        ⟨rfl, rfl, rfl, fun r hr ↦ ?_⟩) hne fun x hx ↦ ?_, ?_⟩
    · cases hr
      exact hout
    · rw [howns] at hx
      exact hx
    · simp only [exec]
      refine (stepsLeft_suspended (h.lt_fresh hne) hrun (State.set_fresh ..) fun g hg ↦ by
        rw [State.set_of_ne hg]).trans_le ?_
      rw [State.set_self]
      exact Nat.le_refl _

private theorem stepsLeft_wake (out : Nat → List κ × Except ε ν) (l : List Nat) (hlt : f < s.fresh)
    (hrun : running f = none) (hframes : s'.frames = s.frames) (hfresh : s'.fresh = s.fresh) :
    stepsLeft s' out (Function.update running f (some l)) + (s.frames f).code.stepsLeft out =
      stepsLeft s out running := by
  have hstep := stepsLeft_step out hlt hfresh (fun g _ ↦ by rw [hframes]) fun g hg ↦
    Function.update_of_ne hg (some l) running
  rw [frameLeft_of_running (Function.update_self ..), frameLeft, hrun] at hstep
  exact hstep

end Steps

/-! ### Runs -/

/-- The root is about to start, or direct evaluation accounts for what a run has done and for
what is left to do. -/
def Accounted (root : Body ν ε κ 0) (acts : List Act) (s : State ν ε κ) : Prop :=
  acts = [] ∧ s = (system root).init ∨
    ∃ out, Inv s out (fun _ ↦ none) ∧
      acts.length + stepsLeft s out (fun _ ↦ none) ≤ root.steps Fin.elim0 + 1

section Runs

variable {root : Body ν ε κ 0} {s s' : State ν ε κ} {out : Nat → List κ × Except ε ν}

/-- The start of the root. -/
theorem accounted_start (root : Body ν ε κ 0) (a : Act) :
    Accounted root [a] (root.exec 0 Fin.elim0
      (State.alloc { frames := fun _ ↦ Frame.new, fresh := 0, posted := [] })) := by
  have hstack : Function.update (fun _ : Nat ↦ (none : Option (List Nat))) 0 (some []) 0 =
      some (List.ofFn (Fin.elim0 : Fin 0 → Nat)) := by simp
  have halloc := (Inv.empty fun _ ↦ root.eval Fin.elim0).alloc (r := root.eval Fin.elim0)
  obtain ⟨out, he, hspent⟩ := root.spends_exec halloc hstack (root.alloc_out _ _)
  have hnone : Function.update (Function.update (fun _ : Nat ↦ (none : Option (List Nat))) 0
      (some [])) 0 none = fun _ ↦ none := by simp
  have hbegun : stepsLeft (State.alloc { frames := fun _ ↦ Frame.new, fresh := 0, posted := [] })
      (Function.update (fun _ ↦ root.eval Fin.elim0) 0 (root.eval Fin.elim0))
      (Function.update (fun _ ↦ none) 0 (some [])) = 0 := by
    refine Finset.sum_eq_zero fun g hg ↦ ?_
    have hg0 : g = 0 := Nat.lt_one_iff.mp (Finset.mem_range.mp hg)
    exact frameLeft_of_running (l := []) (by rw [hg0, Function.update_self])
  have hinv := he.inv
  rw [hnone] at hinv hspent
  rw [hbegun, root.steps_zero] at hspent
  refine .inr ⟨out, hinv, ?_⟩
  rw [List.length_singleton]
  omega

/-- The continuation of a suspended coroutine runs. -/
theorem Accounted.exec {acts : List Act} {a : Act} {t : State ν ε κ} {p n : Nat}
    {b : Body ν ε κ n} {children : Fin n → Nat}
    (hinv : Inv t out (Function.update (fun _ ↦ none) p (some (List.ofFn children))))
    (hout : out p = ((t.frames p).log ++ (b.eval fun i ↦ (out (children i)).2).1,
      (b.eval fun i ↦ (out (children i)).2).2))
    (hleft : acts.length + 1 +
      (stepsLeft t out (Function.update (fun _ ↦ none) p (some (List.ofFn children))) +
        b.steps fun i ↦ (out (children i)).2) ≤ root.steps Fin.elim0 + 1) :
    Accounted root (acts ++ [a]) (b.exec p children t) := by
  obtain ⟨out', he, hspent⟩ := b.spends_exec hinv (Function.update_self ..) hout
  have hnone : Function.update (Function.update (fun _ : Nat ↦ (none : Option (List Nat))) p
      (some (List.ofFn children))) p none = fun _ ↦ none := by simp
  have hinv' := he.inv
  rw [hnone] at hinv' hspent
  refine .inr ⟨out', hinv', ?_⟩
  rw [List.length_append, List.length_singleton]
  omega

/-- The resumption of a suspended coroutine. -/
theorem Accounted.resume {acts : List Act} {i p : Nat} (hinv : Inv s out fun _ ↦ none)
    (hacts : acts.length + stepsLeft s out (fun _ ↦ none) ≤ root.steps Fin.elim0 + 1)
    (hi : s.posted[i]? = some (.resume p))
    (hn : runPosted root { s with posted := s.posted.eraseIdx i } (.resume p) = some s') :
    Accounted root (acts ++ [.take i]) s' := by
  have hwake := hinv.wake hi
  have hgoal := (hinv.frame p).goal
  have hready := ((hinv.frame p).posted (List.mem_of_getElem? hi)).2
  have hleft : stepsLeft { s with posted := s.posted.eraseIdx i } out
      (Function.update (fun _ ↦ none) p (some (s.frames p).code.children)) +
        (s.frames p).code.stepsLeft out = stepsLeft s out fun _ ↦ none :=
    stepsLeft_wake out _ (hinv.posted_unfinished (List.mem_of_getElem? hi)).1 rfl rfl rfl
  simp only [runPosted] at hn
  split at hn
  · next c n children rest hcode =>
    obtain ⟨⟨o, fr⟩, hres, rfl⟩ := Option.map_eq_some_iff.mp hn
    rw [hcode] at hready hwake hgoal hleft
    obtain ⟨c', hc', hdone⟩ := hready.resolve_left (by simp [Code.delivered])
    cases hc'
    have howns : owns { s with posted := s.posted.eraseIdx i }
        (Function.update (fun _ ↦ none) p (some (c :: List.ofFn children))) p =
        c :: List.ofFn children := by simp [owns]
    have hmem : c ∈ owns { s with posted := s.posted.eraseIdx i }
        (Function.update (fun _ ↦ none) p (some (c :: List.ofFn children))) p := by
      rw [howns]
      exact List.mem_cons_self
    have hwake' : Inv { s with posted := s.posted.eraseIdx i } out
        (Function.update (fun _ ↦ none) p (some (c :: List.ofFn children))) := hwake
    have hpc := ((hwake'.frame p).owned c hmem).1
    have hnd := (hwake'.frame p).nodup
    rw [howns, List.nodup_cons] at hnd
    have hstored := (hwake'.frame c).stored hdone (.inr ⟨p, hmem⟩)
    obtain ⟨rfl, hinv'⟩ := hwake'.consume (f := p) (by simp) hmem hdone hres
      (by rw [howns]; exact fun x hx ↦ List.mem_cons_of_mem _ hx) hnd.1 hnd.2
    rw [Frame.awaitResume_eq, hstored] at hres
    cases hres
    have hconsumed := stepsLeft_running out (List.ofFn children)
      (hwake'.lt_fresh (f := p) (by simp))
      (Function.update_self p (some (c :: List.ofFn children)) fun _ ↦ none)
      (State.set_fresh { s with posted := s.posted.eraseIdx i } c { s.frames c with ex := none })
      (consumed_code _ c)
    rw [Function.update_idem] at hinv' hconsumed
    refine .exec hinv' ?_ ?_
    · rw [State.set_of_ne hpc.ne]
      exact hgoal _ rfl rfl
    · rw [hconsumed]
      simp only [Code.children, Code.stepsLeft] at hleft
      dsimp only
      omega
  · next o n children rest hcode =>
    cases hn
    rw [hcode] at hwake hgoal hleft
    refine .exec hwake (hgoal _ rfl rfl) ?_
    simp only [Code.children, Code.stepsLeft] at hleft
    omega
  · cases hn

/-- Direct evaluation accounts for every step. -/
theorem Accounted.next {acts : List Act} {a : Act} (h : Accounted root acts s)
    (hn : next root s a = some s') : Accounted root (acts ++ [a]) s' := by
  cases a with
  | take i =>
    simp only [Future.next] at hn
    split at hn
    · next x hi =>
      cases x with
      | start =>
        rcases h with ⟨rfl, rfl⟩ | ⟨out, hinv, -⟩
        · have hz : i = 0 := by
            by_contra hne
            simp [system, hne] at hi
          subst hz
          cases hn
          exact accounted_start root _
        · exact absurd (List.mem_of_getElem? hi) hinv.noStart
      | resume p =>
        rcases h with ⟨-, rfl⟩ | ⟨out, hinv, hacts⟩
        · have hm := List.mem_of_getElem? hi
          simp [system] at hm
        · exact .resume hinv hacts hi hn
    · cases hn
  | complete f =>
    simp only [Future.next] at hn
    split at hn
    · next o n children rest hcode =>
      cases hn
      rcases h with ⟨-, rfl⟩ | ⟨out, hinv, hacts⟩
      · cases hcode
      · refine .inr ⟨out, hinv.complete rfl hcode, ?_⟩
        have hlt : f < s.fresh := by
          by_contra hge
          rw [((hinv.frame f).absent (by omega)).1] at hcode
          cases hcode
        have hstep := stepsLeft_step out hlt
          (State.set_fresh { s with posted := s.posted ++ [Posted.resume f] } f
            { s.frames f with code := .external true o children rest })
          (fun g hg ↦ by rw [State.set_of_ne hg]) fun g _ ↦ Eq.refl (none : Option (List Nat))
        simp only [frameLeft, State.set_self, hcode, Code.stepsLeft] at hstep
        rw [List.length_append, List.length_singleton]
        omega
    · cases hn

/-- A settled machine has no steps. -/
theorem Inv.stopped_of_settled (h : Inv s out fun _ ↦ none) (hs : Settled s) (a : Act) :
    next root s a = none := by
  cases a with
  | take i => simp [Future.next, hs.1]
  | complete f =>
    simp only [Future.next]
    split
    · next hcode =>
      have hlt : f < s.fresh := by
        by_contra hge
        rw [((h.frame f).absent (by omega)).1] at hcode
        cases hcode
      have hdone := hs.2 f hlt
      rw [hcode] at hdone
      cases hdone
    · rfl

/-- A machine without steps is settled: while a handler is posted, the worker can run one, and
while an operation is outstanding, it can complete. -/
theorem Inv.settled_of_stopped (h : Inv s out fun _ ↦ none)
    (hstop : ∀ a, next root s a = none) : Settled s := by
  constructor
  · cases hp : s.posted with
    | nil => rfl
    | cons x rest =>
      have hx : x ∈ s.posted := hp ▸ List.mem_cons_self
      have hrun := hstop (.take 0)
      simp only [Future.next, hp, List.getElem?_cons_zero] at hrun
      cases x with
      | start => exact absurd hx h.noStart
      | resume p =>
        simp only [runPosted] at hrun
        rcases ((h.frame p).posted hx).2 with hd | ⟨c, hw, hdone⟩
        · cases hcode : (s.frames p).code <;> simp [hcode, Code.delivered] at hd hrun
          simp [hd] at hrun
        · have hstored := (h.frame c).stored hdone (.inr ⟨p, mem_owns_of_waitsFor rfl hw⟩)
          cases hcode : (s.frames p).code <;> simp [hcode, Code.waitsFor] at hw hrun
          simp [hw, Frame.awaitResume_eq, hstored] at hrun
  · intro f _
    have hrun := hstop (.complete f)
    simp only [Future.next] at hrun
    cases hcode : (s.frames f).code with
    | external delivered o children rest =>
      cases delivered with
      | true => rfl
      | false => simp [hcode] at hrun
    | absent | running | awaiting | finished => rfl

/-- A run has no more steps than direct evaluation of the root accounts for. -/
theorem length_le_of_run {acts : List Act} (hr : (system root).Run acts s) :
    acts.length ≤ root.steps Fin.elim0 + 1 := by
  have hacc : Accounted root acts s :=
    hr.invariant (.inl ⟨rfl, rfl⟩) fun _ _ _ _ hi _ hn ↦ hi.next hn
  rcases hacc with ⟨rfl, -⟩ | ⟨out, -, hacts⟩
  · exact Nat.zero_le _
  · exact (Nat.le_add_right ..).trans hacts

/-- A run that cannot be continued has evaluated the root, and finished every coroutine. -/
theorem evaluating_of_stopped (hr : (system root).Reachable s)
    (hstop : ∀ a, (system root).next s a = none) :
    ∃ out, Evaluating root s out ∧ ∀ f < s.fresh, (s.frames f).done = true := by
  rcases evaluates_of_reachable hr with rfl | ⟨out, heval⟩
  · have hstart := hstop (.take 0)
    simp [system, Future.next, runPosted] at hstart
  · exact ⟨out, heval, fun f hf ↦
      heval.inv.done_of_settled (heval.inv.settled_of_stopped hstop) hf⟩

/-- A tree of futures on one worker always settles: a run has no more steps than direct
evaluation of the root accounts for, and one that cannot be continued has finished every
coroutine, the root with the outcome and the actions of its direct evaluation. -/
theorem settles {acts : List Act} (hr : (system root).Run acts s) :
    acts.length ≤ root.steps Fin.elim0 + 1 ∧
      ((∀ a, (system root).next s a = none) → (∀ f < s.fresh, (s.frames f).done = true) ∧
        (s.frames 0).outcome = some (root.eval Fin.elim0).2 ∧
          (s.frames 0).log = (root.eval Fin.elim0).1) := by
  refine ⟨length_le_of_run hr, fun hstop ↦ ?_⟩
  obtain ⟨out, heval, hdone⟩ := evaluating_of_stopped hr.reachable hstop
  have h0 := hdone 0 heval.started
  refine ⟨hdone, ?_, ?_⟩
  · rw [(heval.inv.frame 0).stored h0 (.inl rfl), heval.result]
  · rw [(heval.inv.frame 0).log h0, heval.result]

end Runs

/-- In the run in which the operation completes after the root has suspended, no step is left. -/
theorem settles_forward : ∃ s, (system forward).Run [.take 0, .complete 1, .take 0, .take 0] s ∧
    4 ≤ forward.steps Fin.elim0 + 1 ∧ (s.frames 0).outcome = some (forward.eval Fin.elim0).2 := by
  have hrun : ∃ s, (system forward).Run [.take 0, .complete 1, .take 0, .take 0] s ∧
      Settled s ∧ 0 < s.fresh := System.exists_runBy _ (by decide +kernel)
  obtain ⟨s, hr, hsettled, hfresh⟩ := hrun
  rcases evaluates_of_reachable hr.reachable with rfl | ⟨out, heval⟩
  · cases hfresh
  · obtain ⟨hbound, hend⟩ := settles hr
    exact ⟨s, hr, hbound, (hend (heval.inv.stopped_of_settled hsettled)).2.1⟩

end Crasy.Future
