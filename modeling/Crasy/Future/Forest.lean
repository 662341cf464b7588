import Crasy.Future.Tree
import Mathlib.Data.List.FinRange

/-!
# The forest of frames

Library `Future`. The invariant of the machine of `Crasy.Future.Tree`: each child is owned by
the coroutine that will consume it, and every suspended coroutine is on its way, either in
the promise of the child it awaits or among the posted handlers. There is one lemma for each
thing the machine does to the frames.
-/

namespace Crasy.Future

variable {ν ε κ : Type}

/-- Before the end of the coroutine nothing is scheduled and its awaiter is the handle it
stores; afterwards it has scheduled its awaiter, if it has one. -/
structure Recorded (fr : Frame ν ε κ) : Prop where
  before : fr.done = false → fr.scheduled = [] ∧ fr.awaitedBy = fr.suspended.toList
  after : fr.done = true →
    fr.scheduled = fr.awaitedBy ∧ fr.awaitedBy.length ≤ 1 ∧ fr.suspended = none

/-- The children of a coroutine not yet consumed; `running` gives those of the coroutines
that are on the worker's stack. -/
def owns (s : State ν ε κ) (running : Nat → Option (List Nat)) (f : Nat) : List Nat :=
  (running f).getD (s.frames f).code.children

/-- What the end of a coroutine does to its frame and to the posted handlers. -/
theorem finish_eq (s : State ν ε κ) (f : Nat) (o : Except ε ν) (hex : (s.frames f).ex = none) :
    ∃ value ex, ((s.store f o).finalSuspend f).frames = Function.update s.frames f
        { s.frames f with
          value := value, ex := ex, code := .finished, done := true, suspended := none,
          scheduled := (s.frames f).scheduled ++ (s.frames f).suspended.toList } ∧
      ((s.store f o).finalSuspend f).fresh = s.fresh ∧
      ((s.store f o).finalSuspend f).posted =
        s.posted ++ (s.frames f).suspended.toList.map Posted.resume ∧
      Frame.outcome { s.frames f with
          value := value, ex := ex, code := .finished, done := true, suspended := none,
          scheduled := (s.frames f).scheduled ++ (s.frames f).suspended.toList } = some o := by
  cases o with
  | ok v =>
    refine ⟨some v, none, ?_⟩
    cases hs : (s.frames f).suspended <;>
      simp [State.finalSuspend, State.store, State.set, hs, hex, Frame.outcome]
  | error e =>
    refine ⟨(s.frames f).value, some e, ?_⟩
    cases hs : (s.frames f).suspended <;>
      simp [State.finalSuspend, State.store, State.set, hs, Frame.outcome]

/-- What holds of one frame: its children come after it, a suspended coroutine is on its way
and will evaluate to the result that `out` gives for it, and a finished one has stored that
result for its owner. -/
structure FrameInv (s : State ν ε κ) (out : Nat → List κ × Except ε ν)
    (running : Nat → Option (List Nat)) (f : Nat) : Prop where
  absent : s.fresh ≤ f → s.frames f = .new ∧ running f = none
  owned : ∀ c ∈ owns s running f, f < c ∧ c < s.fresh
  nodup : (owns s running f).Nodup
  suspended : ∀ p, (s.frames f).suspended = some p →
    running p = none ∧ (s.frames p).code.waitsFor = some f ∧ (s.frames f).done = false
  waiting : ∀ c, running f = none → (s.frames f).code.waitsFor = some c →
    ((s.frames c).done = false → (s.frames c).suspended = some f) ∧
      ((s.frames c).done = true → .resume f ∈ s.posted)
  delivered : running f = none → (s.frames f).code.delivered = true → .resume f ∈ s.posted
  goal : ∀ r, running f = none → (s.frames f).code.goal out = some r →
    out f = ((s.frames f).log ++ r.1, r.2)
  unfinished : running f ≠ none → (s.frames f).done = false
  status : f < s.fresh → running f = none → (s.frames f).done = !(s.frames f).code.isSuspended
  log : (s.frames f).done = true → (s.frames f).log = (out f).1
  stored : (s.frames f).done = true → f = 0 ∨ (∃ g, f ∈ owns s running g) →
    (s.frames f).outcome = some (out f).2
  posted : .resume f ∈ s.posted → running f = none ∧ ((s.frames f).code.delivered = true ∨
    ∃ c, (s.frames f).code.waitsFor = some c ∧ (s.frames c).done = true)
  recorded : Recorded (s.frames f)
  unset : (s.frames f).done = false → (s.frames f).ex = none

/-- The invariant of the machine: each child is owned by the one coroutine that will consume
it, and `out` is the result of direct evaluation. -/
structure Inv (s : State ν ε κ) (out : Nat → List κ × Except ε ν)
    (running : Nat → Option (List Nat)) : Prop where
  frame : ∀ f, FrameInv s out running f
  unique : ∀ f g c, c ∈ owns s running f → c ∈ owns s running g → f = g
  nodupPosted : s.posted.Nodup
  noStart : .start ∉ s.posted

@[simp] theorem State.set_self (s : State ν ε κ) (f : Nat) (fr : Frame ν ε κ) :
    (s.set f fr).frames f = fr := Function.update_self ..

theorem State.set_of_ne {s : State ν ε κ} {f g : Nat} {fr : Frame ν ε κ} (h : g ≠ f) :
    (s.set f fr).frames g = s.frames g := Function.update_of_ne h ..

@[simp] theorem State.set_fresh (s : State ν ε κ) (f : Nat) (fr : Frame ν ε κ) :
    (s.set f fr).fresh = s.fresh := rfl

@[simp] theorem State.set_posted (s : State ν ε κ) (f : Nat) (fr : Frame ν ε κ) :
    (s.set f fr).posted = s.posted := rfl

variable {s s' : State ν ε κ} {out out' : Nat → List κ × Except ε ν}
  {running running' : Nat → Option (List Nat)}

private theorem FrameInv.of_frame {g : Nat} (h : FrameInv s out running g)
    (hfr : s'.frames g = s.frames g) (hr : running' g = running g)
    (hfresh : s.fresh ≤ s'.fresh) (hnew : g < s'.fresh → g < s.fresh)
    (hout : ∀ c < s.fresh, out' c = out c)
    (hwaiting : ∀ c, running g = none → (s.frames g).code.waitsFor = some c →
      ((s'.frames c).done = false → (s'.frames c).suspended = some g) ∧
        ((s'.frames c).done = true → .resume g ∈ s'.posted))
    (hsus : ∀ p, (s.frames g).suspended = some p → running' p = running p ∧
      (s'.frames p).code.waitsFor = (s.frames p).code.waitsFor)
    (hmono : .resume g ∈ s.posted → .resume g ∈ s'.posted)
    (hposted : .resume g ∈ s'.posted → running g = none ∧
      ((s.frames g).code.delivered = true ∨
        ∃ c, (s.frames g).code.waitsFor = some c ∧ (s'.frames c).done = true))
    (hown : (s.frames g).done = true → (∃ k, g ∈ owns s' running' k) →
      ∃ k, g ∈ owns s running k) : FrameInv s' out' running' g := by
  have howns : owns s' running' g = owns s running g := by rw [owns, hr, hfr, owns]
  have hlt (hne : s.frames g ≠ .new) : g < s.fresh := by
    by_contra hge
    exact hne (h.absent (by omega)).1
  have hltDone (hd : (s.frames g).done = true) : g < s.fresh := by
    apply hlt
    intro habs
    simp [habs, Frame.new] at hd
  constructor <;> simp only [hfr, hr, howns]
  · exact fun hg ↦ h.absent (hfresh.trans hg)
  · exact fun c hc ↦ ⟨(h.owned c hc).1, (h.owned c hc).2.trans_le hfresh⟩
  · exact h.nodup
  · intro p hp
    rw [(hsus p hp).1, (hsus p hp).2]
    exact h.suspended p hp
  · exact hwaiting
  · exact fun hg hd ↦ hmono (h.delivered hg hd)
  · intro r hg hgoal
    have hne : s.frames g ≠ .new := by
      intro habs
      simp [habs, Frame.new, Code.goal] at hgoal
    have hkids : ∀ c ∈ (s.frames g).code.children, out' c = out c := by
      intro c hc
      refine hout c (h.owned c ?_).2
      simpa [owns, hg] using hc
    rw [Code.goal_congr hkids] at hgoal
    rw [hout g (hlt hne)]
    exact h.goal r hg hgoal
  · exact h.unfinished
  · exact fun hg ↦ h.status (hnew hg)
  · intro hd
    rw [hout g (hltDone hd)]
    exact h.log hd
  · intro hd how
    rw [hout g (hltDone hd)]
    exact h.stored hd (how.imp_right (hown hd))
  · exact hposted
  · exact h.recorded
  · exact h.unset

private theorem FrameInv.of_same {g : Nat} (h : FrameInv s out running g)
    (hfr : s'.frames g = s.frames g) (hr : running' g = running g)
    (hfresh : s.fresh ≤ s'.fresh) (hnew : g < s'.fresh → g < s.fresh)
    (hout : ∀ c < s.fresh, out' c = out c)
    (hwait : ∀ c, running g = none → (s.frames g).code.waitsFor = some c →
      (s'.frames c).done = (s.frames c).done ∧
        (s'.frames c).suspended = (s.frames c).suspended)
    (hsus : ∀ p, (s.frames g).suspended = some p → running' p = running p ∧
      (s'.frames p).code.waitsFor = (s.frames p).code.waitsFor)
    (hpost : .resume g ∈ s'.posted ↔ .resume g ∈ s.posted)
    (hown : (s.frames g).done = true → (∃ k, g ∈ owns s' running' k) →
      ∃ k, g ∈ owns s running k) : FrameInv s' out' running' g := by
  refine h.of_frame hfr hr hfresh hnew hout (fun c hg hw ↦ ?_) hsus hpost.mpr (fun hp ↦ ?_) hown
  · rw [(hwait c hg hw).1, (hwait c hg hw).2, hpost]
    exact h.waiting c hg hw
  · obtain ⟨hg, hready⟩ := h.posted (hpost.mp hp)
    refine ⟨hg, hready.imp_right ?_⟩
    rintro ⟨c, hw, hd⟩
    refine ⟨c, hw, ?_⟩
    rw [(hwait c hg hw).1, hd]

theorem owns_set_of_ne {f g : Nat} {fr : Frame ν ε κ} {l : Option (List Nat)} (hg : g ≠ f) :
    owns (s.set f fr) (Function.update running f l) g = owns s running g := by
  simp [owns, State.set_of_ne hg, hg]

@[simp] theorem owns_set_self {f : Nat} {fr : Frame ν ε κ} {l : Option (List Nat)} :
    owns (s.set f fr) (Function.update running f l) f = l.getD fr.code.children := by
  simp [owns]

/-- A suspended coroutine owns the child it awaits. -/
theorem mem_owns_of_waitsFor {f c : Nat} (hr : running f = none)
    (hw : (s.frames f).code.waitsFor = some c) : c ∈ owns s running f := by
  simpa [owns, hr] using Code.mem_children hw

theorem State.suspend_self {f c : Nat} {code : Code ν ε κ} :
    (s.suspend f c code).frames f = { s.frames f with code := code } :=
  State.set_self ..

private theorem State.suspend_child {f c : Nat} {code : Code ν ε κ} (h : c ≠ f) :
    (s.suspend f c code).frames c = { s.frames c with
      suspended := some f, awaitedBy := (s.frames c).awaitedBy ++ [f] } := by
  rw [State.suspend, State.set_of_ne h, State.set_self]

private theorem State.suspend_of_ne {f c g : Nat} {code : Code ν ε κ} (hf : g ≠ f) (hc : g ≠ c) :
    (s.suspend f c code).frames g = s.frames g := by
  rw [State.suspend, State.set_of_ne hf, State.set_of_ne hc]

private theorem State.suspend_done (f c g : Nat) (code : Code ν ε κ) :
    ((s.suspend f c code).frames g).done = (s.frames g).done := by
  by_cases hf : g = f
  · rw [hf, State.suspend_self]
  · by_cases hc : g = c
    · rw [hc, State.suspend_child (hc ▸ hf)]
    · rw [State.suspend_of_ne hf hc]

private theorem State.suspend_suspended {f c g : Nat} {code : Code ν ε κ} (hc : g ≠ c) :
    ((s.suspend f c code).frames g).suspended = (s.frames g).suspended := by
  by_cases hf : g = f
  · rw [hf, State.suspend_self]
  · rw [State.suspend_of_ne hf hc]

theorem State.suspend_code {f c g : Nat} {code : Code ν ε κ} (hf : g ≠ f) :
    ((s.suspend f c code).frames g).code = (s.frames g).code := by
  by_cases hc : g = c
  · rw [hc, State.suspend_child (hc ▸ hf)]
  · rw [State.suspend_of_ne hf hc]

private theorem owns_suspend_self {f c : Nat} {code : Code ν ε κ} :
    owns (s.suspend f c code) (Function.update running f none) f = code.children := by
  simp [owns, State.suspend_self]

private theorem owns_suspend_of_ne {f c g : Nat} {code : Code ν ε κ} (hf : g ≠ f) :
    owns (s.suspend f c code) (Function.update running f none) g = owns s running g := by
  rw [owns, Function.update_of_ne hf, State.suspend_code hf, owns]

namespace Inv

theorem lt_fresh (h : Inv s out running) {f : Nat} (hf : running f ≠ none) : f < s.fresh := by
  by_contra hge
  exact hf ((h.frame f).absent (by omega)).2

/-- A coroutine on the worker's stack changes its own frame: its actions, its children not
yet consumed, or its suspension on an operation. It may adopt a child nobody owns. -/
theorem of_running {f : Nat} (fr : Frame ν ε κ) {l : Option (List Nat)} (h : Inv s out running)
    (hrun : running f ≠ none) (hs : fr.suspended = (s.frames f).suspended)
    (hd : fr.done = false) (hb : fr.awaitedBy = (s.frames f).awaitedBy)
    (hsc : fr.scheduled = (s.frames f).scheduled) (hex : fr.ex = (s.frames f).ex)
    (hsub : ∀ c ∈ l.getD fr.code.children, c ∈ owns s running f ∨
      f < c ∧ c < s.fresh ∧ (∀ g, c ∉ owns s running g) ∧ (s.frames c).done = false)
    (hnd : (l.getD fr.code.children).Nodup)
    (hl : l = none → fr.code.waitsFor = none ∧ fr.code.delivered = false ∧
      fr.code.isSuspended = true ∧
      ∀ r, fr.code.goal out = some r → out f = (fr.log ++ r.1, r.2)) :
    Inv (s.set f fr) out (Function.update running f l) := by
  have hf := h.frame f
  have hlt := h.lt_fresh hrun
  have hdone := hf.unfinished hrun
  have hsame (c : Nat) : ((s.set f fr).frames c).done = (s.frames c).done ∧
      ((s.set f fr).frames c).suspended = (s.frames c).suspended := by
    by_cases hc : c = f
    · rw [hc, State.set_self, hd, hdone]
      exact ⟨rfl, hs⟩
    · rw [State.set_of_ne hc]
      exact ⟨rfl, rfl⟩
  have howner (g p : Nat) (hp : (s.frames g).suspended = some p) : p ≠ f := by
    rintro rfl
    exact hrun ((h.frame g).suspended p hp).1
  have howns (k c : Nat) (hc : c ∈ owns (s.set f fr) (Function.update running f l) k) :
      c ∈ owns s running k ∨ k = f ∧ (∀ g, c ∉ owns s running g) ∧
        (s.frames c).done = false := by
    by_cases hk : k = f
    · subst hk
      rw [owns_set_self] at hc
      exact (hsub c hc).imp_right fun hn ↦ ⟨rfl, hn.2.2⟩
    · rw [owns_set_of_ne hk] at hc
      exact .inl hc
  refine ⟨fun g ↦ ?_, fun g k c hg hk ↦ ?_, h.nodupPosted, h.noStart⟩
  · by_cases hg : g = f
    · subst hg
      constructor
      · exact fun hge ↦ absurd hlt (by simpa using hge)
      · rw [owns_set_self]
        exact fun c hc ↦ (hsub c hc).elim (hf.owned c) fun hn ↦ ⟨hn.1, hn.2.1⟩
      · rwa [owns_set_self]
      · rw [State.set_self, hs]
        intro p hp
        have hpg := howner g p hp
        rw [Function.update_of_ne hpg, State.set_of_ne hpg]
        exact ⟨(hf.suspended p hp).1, (hf.suspended p hp).2.1, hd⟩
      · intro c hnone hw
        rw [Function.update_self] at hnone
        rw [State.set_self, (hl hnone).1] at hw
        cases hw
      · intro hnone hdel
        rw [Function.update_self] at hnone
        rw [State.set_self, (hl hnone).2.1] at hdel
        cases hdel
      · intro r hnone hgoal
        rw [Function.update_self] at hnone
        rw [State.set_self] at hgoal ⊢
        exact (hl hnone).2.2.2 r hgoal
      · rw [State.set_self]
        exact fun _ ↦ hd
      · intro _ hnone
        rw [Function.update_self] at hnone
        rw [State.set_self, hd, (hl hnone).2.2.1]
        rfl
      · rw [State.set_self, hd]
        intro hd
        cases hd
      · rw [State.set_self, hd]
        intro hd
        cases hd
      · exact fun hp ↦ absurd (hf.posted hp).1 hrun
      · have hrec := hf.recorded.before hdone
        rw [State.set_self]
        exact ⟨fun _ ↦ by rw [hsc, hb, hs]; exact hrec, by rw [hd]; intro hd; cases hd⟩
      · rw [State.set_self, hex]
        exact fun _ ↦ hf.unset hdone
    · refine (h.frame g).of_same (State.set_of_ne hg) (Function.update_of_ne hg ..) le_rfl id
        (fun _ _ ↦ rfl) (fun c _ _ ↦ hsame c) (fun p hp ↦ ?_) Iff.rfl ?_
      · have hpf := howner g p hp
        rw [Function.update_of_ne hpf, State.set_of_ne hpf]
        exact ⟨rfl, rfl⟩
      · rintro hdg ⟨k, hk⟩
        refine ⟨k, (howns k g hk).resolve_right fun hn ↦ ?_⟩
        rw [hdg] at hn
        exact Bool.noConfusion hn.2.2
  · rcases howns g c hg with hg | hg <;> rcases howns k c hk with hk | hk
    · exact h.unique g k c hg hk
    · exact absurd hg (hk.2.1 g)
    · exact absurd hk (hg.2.1 k)
    · exact hg.1.trans hk.1.symm

/-- The stored outcome of a coroutine that nobody will consume is of no account. -/
theorem of_promise {c : Nat} {value : Option ν} {ex : Option ε} (h : Inv s out running)
    (hdone : (s.frames c).done = true) (h0 : c ≠ 0) (hfree : ∀ g, c ∉ owns s running g) :
    Inv (s.set c { s.frames c with value := value, ex := ex }) out running := by
  have hc := h.frame c
  have hview (g : Nat) : ∃ v e, (s.set c { s.frames c with value := value, ex := ex }).frames g =
      { s.frames g with value := v, ex := e } := by
    by_cases hg : g = c
    · subst hg
      exact ⟨value, ex, State.set_self ..⟩
    · exact ⟨(s.frames g).value, (s.frames g).ex, State.set_of_ne hg⟩
  have howns : owns (s.set c { s.frames c with value := value, ex := ex }) running =
      owns s running := by
    funext g
    obtain ⟨v, e, hv⟩ := hview g
    rw [owns, hv, owns]
  have hsame (g : Nat) :
      ((s.set c { s.frames c with value := value, ex := ex }).frames g).done = (s.frames g).done ∧
      ((s.set c { s.frames c with value := value, ex := ex }).frames g).suspended =
        (s.frames g).suspended ∧
      ((s.set c { s.frames c with value := value, ex := ex }).frames g).code =
        (s.frames g).code := by
    obtain ⟨v, e, hv⟩ := hview g
    rw [hv]
    exact ⟨rfl, rfl, rfl⟩
  refine ⟨fun g ↦ ?_, by rw [howns]; exact h.unique, h.nodupPosted,
    h.noStart⟩
  by_cases hg : g = c
  · subst hg
    constructor
    · intro hge
      simp [(hc.absent hge).1, Frame.new] at hdone
    · rw [howns]
      exact hc.owned
    · rw [howns]
      exact hc.nodup
    · intro p hp
      rw [(hsame g).2.1] at hp
      rw [(hsame p).2.2, (hsame g).1]
      exact hc.suspended p hp
    · intro d hr hw
      rw [(hsame g).2.2] at hw
      rw [(hsame d).1, (hsame d).2.1]
      exact hc.waiting d hr hw
    · rw [(hsame g).2.2]
      exact hc.delivered
    · rw [State.set_self]
      exact hc.goal
    · rw [(hsame g).1]
      exact hc.unfinished
    · rw [(hsame g).1, (hsame g).2.2]
      exact hc.status
    · rw [State.set_self]
      exact hc.log
    · rw [State.set_self, howns]
      rintro _ (hz | ⟨k, hk⟩)
      · exact absurd hz h0
      · exact absurd hk (hfree k)
    · rw [(hsame g).2.2]
      intro hp
      refine ⟨(hc.posted hp).1, (hc.posted hp).2.imp_right ?_⟩
      rintro ⟨d, hw, hd⟩
      refine ⟨d, hw, ?_⟩
      rw [(hsame d).1, hd]
    · rw [State.set_self]
      exact ⟨hc.recorded.before, hc.recorded.after⟩
    · rw [(hsame g).1, hdone]
      intro hd
      cases hd
  · refine (h.frame g).of_same (State.set_of_ne hg) rfl le_rfl id (fun _ _ ↦ rfl)
      (fun d _ _ ↦ ⟨(hsame d).1, (hsame d).2.1⟩) (fun p _ ↦ ⟨rfl, by rw [(hsame p).2.2]⟩) Iff.rfl ?_
    rw [howns]
    exact fun _ ↦ id

/-- A new coroutine comes onto the worker's stack, with the result it will evaluate to. -/
theorem alloc {r : List κ × Except ε ν} (h : Inv s out running) :
    Inv s.alloc (Function.update out s.fresh r) (Function.update running s.fresh (some [])) := by
  have habs := (h.frame s.fresh).absent le_rfl
  have hkeep (g : Nat) (hg : g ≠ s.fresh) : s.alloc.frames g = s.frames g :=
    Function.update_of_ne hg ..
  have hnew : s.alloc.frames s.fresh = { Frame.new with code := .running } :=
    Function.update_self ..
  have howns (g : Nat) (hg : g ≠ s.fresh) :
      owns s.alloc (Function.update running s.fresh (some [])) g = owns s running g := by
    rw [owns, owns, Function.update_of_ne hg, hkeep g hg]
  have hownsNew : owns s.alloc (Function.update running s.fresh (some [])) s.fresh = [] := by
    simp [owns]
  have hsub (k c : Nat) (hc : c ∈ owns s.alloc (Function.update running s.fresh (some [])) k) :
      c ∈ owns s running k := by
    by_cases hk : k = s.fresh
    · subst hk
      rw [hownsNew] at hc
      cases hc
    · rwa [howns k hk] at hc
  have hbound (g c : Nat) (hr : running g = none) (hw : (s.frames g).code.waitsFor = some c) :
      c ≠ s.fresh := by
    have := ((h.frame g).owned c (mem_owns_of_waitsFor hr hw)).2
    omega
  refine ⟨fun g ↦ ?_, fun g k c hg hk ↦ h.unique g k c (hsub g c hg) (hsub k c hk),
    h.nodupPosted, h.noStart⟩
  by_cases hg : g = s.fresh
  · subst hg
    constructor
    · intro hge
      exact absurd hge (Nat.not_succ_le_self s.fresh)
    · simp [hownsNew]
    · simp [hownsNew]
    · simp [hnew, Frame.new]
    · simp
    · simp
    · simp
    · simp [hnew, Frame.new]
    · simp
    · simp [hnew, Frame.new]
    · simp [hnew, Frame.new]
    · intro hp
      have := ((h.frame s.fresh).posted hp).2
      simp [habs.1, Frame.new, Code.delivered, Code.waitsFor] at this
    · simp only [hnew]
      constructor <;> simp [Frame.new]
    · simp [hnew, Frame.new]
  · refine (h.frame g).of_same (hkeep g hg) (Function.update_of_ne hg ..) (Nat.le_succ _) ?_
      (fun c hc ↦ Function.update_of_ne (by omega) ..) (fun c hr hw ↦ ?_) (fun p hp ↦ ?_) Iff.rfl
      fun _ hk ↦ hk.imp fun k hk ↦ hsub k g hk
    · simp only [State.alloc]
      omega
    · rw [hkeep c (hbound g c hr hw)]
      exact ⟨rfl, rfl⟩
    · have hp' : p ≠ s.fresh := by
        rintro rfl
        have := ((h.frame g).suspended _ hp).2.1
        simp [habs.1, Frame.new, Code.waitsFor] at this
      rw [Function.update_of_ne hp', hkeep p hp']
      exact ⟨rfl, rfl⟩

private theorem not_registered (h : Inv s out running) {f : Nat} (hrun : running f ≠ none) :
    (∀ c, (s.frames c).suspended ≠ some f) ∧ .resume f ∉ s.posted :=
  ⟨fun c hc ↦ hrun ((h.frame c).suspended f hc).1, fun hp ↦ hrun ((h.frame f).posted hp).1⟩

private theorem awaiter_not_posted (h : Inv s out running) {f p : Nat}
    (hs : (s.frames f).suspended = some p) : .resume p ∉ s.posted := by
  intro hp
  obtain ⟨-, hw, hdf⟩ := (h.frame f).suspended p hs
  rcases ((h.frame p).posted hp).2 with hdel | ⟨c, hw', hd⟩
  · exact Code.not_delivered hw hdel
  · cases hw.symm.trans hw'
    rw [hdf] at hd
    cases hd

/-- A coroutine whose handler is posted has not finished. -/
theorem posted_unfinished (h : Inv s out running) {p : Nat} (hp : .resume p ∈ s.posted) :
    p < s.fresh ∧ (s.frames p).done = false := by
  obtain ⟨hr, hready⟩ := (h.frame p).posted hp
  have hlt : p < s.fresh := by
    by_contra hge
    rw [((h.frame p).absent (by omega)).1] at hready
    simp [Frame.new, Code.delivered, Code.waitsFor] at hready
  have hsusp : (s.frames p).code.isSuspended = true := by
    rcases hready with hdel | ⟨c, hw, _⟩
    · exact Code.isSuspended_of_delivered hdel
    · exact Code.isSuspended_of_waitsFor hw
  rw [(h.frame p).status hlt hr, hsusp]
  exact ⟨hlt, rfl⟩

private theorem not_awaited (h : Inv s out running) {f c : Nat} (hrun : running f ≠ none)
    (hc : c ∈ owns s running f) : (s.frames c).suspended = none := by
  cases hp : (s.frames c).suspended with
  | none => rfl
  | some p =>
    obtain ⟨hrp, hwp, -⟩ := (h.frame c).suspended p hp
    have hpf : p = f := h.unique p f c (mem_owns_of_waitsFor hrp hwp) hc
    rw [hpf] at hrp
    exact absurd hrp hrun

section Suspend

variable {f c : Nat} {code : Code ν ε κ}

private theorem suspend_owns (hsub : ∀ x ∈ code.children, x ∈ owns s running f) {k x : Nat}
    (hx : x ∈ owns (s.suspend f c code) (Function.update running f none) k) :
    x ∈ owns s running k := by
  by_cases hk : k = f
  · subst hk
    exact hsub x (owns_suspend_self ▸ hx)
  · rwa [owns_suspend_of_ne hk] at hx

/-- The frame of the coroutine that suspends. -/
theorem suspend_parent (h : Inv s out running) (hrun : running f ≠ none)
    (hc : c ∈ owns s running f) (hdc : (s.frames c).done = false)
    (hw : code.waitsFor = some c) (hdel : code.delivered = false)
    (hsusp : code.isSuspended = true) (hsub : ∀ x ∈ code.children, x ∈ owns s running f)
    (hnd : code.children.Nodup)
    (hgoal : ∀ r, code.goal out = some r → out f = ((s.frames f).log ++ r.1, r.2)) :
    FrameInv (s.suspend f c code) out (Function.update running f none) f := by
  have hf := h.frame f
  have hdf := hf.unfinished hrun
  have hfc : c ≠ f := Nat.ne_of_gt (hf.owned c hc).1
  obtain ⟨hnosus, hnopost⟩ := h.not_registered hrun
  constructor
  · exact fun hge ↦ absurd (h.lt_fresh hrun) (Nat.not_lt.mpr hge)
  · exact fun x hx ↦ hf.owned x (suspend_owns hsub hx)
  · rwa [owns_suspend_self]
  · rw [State.suspend_self]
    intro p hp
    have hpf : p ≠ f := by
      rintro rfl
      exact hnosus p hp
    rw [Function.update_of_ne hpf, State.suspend_code hpf]
    exact hf.suspended p hp
  · rw [State.suspend_self]
    intro x _ hx
    cases hw.symm.trans hx
    rw [State.suspend_done, State.suspend_child hfc]
    exact ⟨fun _ ↦ rfl, fun hd ↦ by rw [hdc] at hd; cases hd⟩
  · rw [State.suspend_self]
    intro _ hd
    rw [hdel] at hd
    cases hd
  · rw [State.suspend_self]
    exact fun r _ hr ↦ hgoal r hr
  · exact fun _ ↦ by rw [State.suspend_done, hdf]
  · rw [State.suspend_self]
    exact fun _ _ ↦ by rw [hdf, hsusp]; rfl
  · rw [State.suspend_done, hdf]
    intro hd
    cases hd
  · rw [State.suspend_done, hdf]
    intro hd
    cases hd
  · exact fun hp ↦ absurd hp hnopost
  · rw [State.suspend_self]
    exact ⟨hf.recorded.before, hf.recorded.after⟩
  · rw [State.suspend_self]
    exact hf.unset

/-- The frame of the child, whose promise now holds the handle of its owner. -/
theorem suspend_child (h : Inv s out running) (hrun : running f ≠ none)
    (hc : c ∈ owns s running f) (hdc : (s.frames c).done = false)
    (hw : code.waitsFor = some c) (hsub : ∀ x ∈ code.children, x ∈ owns s running f) :
    FrameInv (s.suspend f c code) out (Function.update running f none) c := by
  have hcf := h.frame c
  have hrec := hcf.recorded.before hdc
  have hnone := h.not_awaited hrun hc
  have hfc : c ≠ f := Nat.ne_of_gt ((h.frame f).owned c hc).1
  constructor
  · exact fun hge ↦ absurd ((h.frame f).owned c hc).2 (Nat.not_lt.mpr hge)
  · exact fun x hx ↦ hcf.owned x (suspend_owns hsub hx)
  · rw [owns_suspend_of_ne hfc]
    exact hcf.nodup
  · rw [State.suspend_child hfc]
    intro p hp
    cases hp
    rw [State.suspend_self, Function.update_self]
    exact ⟨rfl, hw, hdc⟩
  · rw [Function.update_of_ne hfc, State.suspend_code hfc]
    intro x hr hx
    have hxc := (hcf.owned x (mem_owns_of_waitsFor hr hx)).1
    rw [State.suspend_done, State.suspend_suspended (Nat.ne_of_gt hxc)]
    exact hcf.waiting x hr hx
  · rw [Function.update_of_ne hfc, State.suspend_code hfc]
    exact hcf.delivered
  · rw [Function.update_of_ne hfc, State.suspend_child hfc]
    exact hcf.goal
  · rw [Function.update_of_ne hfc, State.suspend_done]
    exact hcf.unfinished
  · rw [Function.update_of_ne hfc, State.suspend_done, State.suspend_code hfc]
    exact hcf.status
  · rw [State.suspend_done, hdc]
    intro hd
    cases hd
  · rw [State.suspend_done, hdc]
    intro hd
    cases hd
  · rw [Function.update_of_ne hfc, State.suspend_code hfc]
    intro hp
    refine ⟨(hcf.posted hp).1, (hcf.posted hp).2.imp_right ?_⟩
    rintro ⟨x, hw, hd⟩
    refine ⟨x, hw, ?_⟩
    rw [State.suspend_done, hd]
  · rw [State.suspend_child hfc]
    refine ⟨fun _ ↦ ⟨hrec.1, ?_⟩, fun hd ↦ ?_⟩
    · simp [hrec.2, hnone]
    · rw [hdc] at hd
      cases hd
  · rw [State.suspend_child hfc]
    exact hcf.unset

/-- A coroutine suspends on a child that has not finished. -/
theorem suspend (h : Inv s out running)
    (hrun : running f ≠ none) (hc : c ∈ owns s running f) (hdc : (s.frames c).done = false)
    (hw : code.waitsFor = some c) (hdel : code.delivered = false)
    (hsusp : code.isSuspended = true) (hsub : ∀ x ∈ code.children, x ∈ owns s running f)
    (hnd : code.children.Nodup)
    (hgoal : ∀ r, code.goal out = some r → out f = ((s.frames f).log ++ r.1, r.2)) :
    Inv (s.suspend f c code) out (Function.update running f none) := by
  refine ⟨fun g ↦ ?_, fun g k x hg hk ↦ h.unique g k x (suspend_owns hsub hg)
    (suspend_owns hsub hk), h.nodupPosted, h.noStart⟩
  by_cases hgf : g = f
  · rw [hgf]
    exact h.suspend_parent hrun hc hdc hw hdel hsusp hsub hnd hgoal
  by_cases hgc : g = c
  · rw [hgc]
    exact h.suspend_child hrun hc hdc hw hsub
  refine (h.frame g).of_same (State.suspend_of_ne hgf hgc) (Function.update_of_ne hgf ..) le_rfl id
    (fun _ _ ↦ rfl) (fun x hr hx ↦ ?_) (fun p hp ↦ ?_) Iff.rfl
    fun _ hk ↦ hk.imp fun k hk ↦ suspend_owns hsub hk
  · have hxc : x ≠ c := by
      rintro rfl
      exact hgf (h.unique g f x (mem_owns_of_waitsFor hr hx) hc)
    exact ⟨State.suspend_done .., State.suspend_suspended hxc⟩
  · have hpf : p ≠ f := by
      rintro rfl
      exact (h.not_registered hrun).1 g hp
    rw [Function.update_of_ne hpf, State.suspend_code hpf]
    exact ⟨rfl, rfl⟩

end Suspend

/-- The end of a coroutine whose children are all consumed: its outcome is stored, and its
awaiter is scheduled. -/
theorem finish {f : Nat} {o : Except ε ν} (h : Inv s out running) (hrun : running f = some [])
    (hout : out f = ((s.frames f).log, o)) :
    Inv ((s.store f o).finalSuspend f) out (Function.update running f none) := by
  have hne : running f ≠ none := by simp [hrun]
  have hf := h.frame f
  have hlt := h.lt_fresh hne
  have hdf := hf.unfinished hne
  obtain ⟨hnosus, hnopost⟩ := h.not_registered hne
  have hrec := hf.recorded.before hdf
  obtain ⟨value, ex, hframes, hfresh, hposted, hstored⟩ := finish_eq s f o (hf.unset hdf)
  generalize (s.store f o).finalSuspend f = s' at hframes hfresh hposted ⊢
  have hframe_f : s'.frames f = { s.frames f with
      value := value, ex := ex, code := .finished, done := true, suspended := none,
      scheduled := (s.frames f).scheduled ++ (s.frames f).suspended.toList } := by
    rw [hframes, Function.update_self]
  have hframe (g : Nat) (hg : g ≠ f) : s'.frames g = s.frames g := by
    rw [hframes, Function.update_of_ne hg]
  have howns_f : owns s' (Function.update running f none) f = [] := by
    simp [owns, hframe_f, Code.children]
  have howns_ne (g : Nat) (hg : g ≠ f) :
      owns s' (Function.update running f none) g = owns s running g := by
    rw [owns, Function.update_of_ne hg, hframe g hg, owns]
  have howns (k x : Nat) (hx : x ∈ owns s' (Function.update running f none) k) :
      x ∈ owns s running k := by
    by_cases hk : k = f
    · rw [hk, howns_f] at hx
      cases hx
    · rwa [howns_ne k hk] at hx
  have hmem (p : Nat) : .resume p ∈ s'.posted ↔
      .resume p ∈ s.posted ∨ (s.frames f).suspended = some p := by
    rw [hposted]
    cases (s.frames f).suspended <;> simp [eq_comm]
  refine ⟨fun g ↦ ?_, fun g k x hg hk ↦ h.unique g k x (howns g x hg) (howns k x hk), ?_,
    ?_⟩
  · by_cases hg : g = f
    · subst hg
      constructor
      · exact fun hge ↦ absurd hlt (Nat.not_lt.mpr (hfresh ▸ hge))
      · simp [howns_f]
      · simp [howns_f]
      · simp [hframe_f]
      · simp [hframe_f, Code.waitsFor]
      · simp [hframe_f, Code.delivered]
      · simp [hframe_f, Code.goal]
      · simp
      · simp [hframe_f, Code.isSuspended]
      · simp [hframe_f, hout]
      · intro _ _
        rw [hframe_f, hout]
        exact hstored
      · rw [hmem]
        exact fun hp ↦ (hp.elim hnopost (hnosus g)).elim
      · rw [hframe_f]
        refine ⟨fun hd ↦ (by cases hd), fun _ ↦ ⟨by simp [hrec], ?_, rfl⟩⟩
        rw [hrec.2]
        cases (s.frames g).suspended <;> simp
      · simp [hframe_f]
    · refine (h.frame g).of_frame (hframe g hg) (Function.update_of_ne hg ..) hfresh.ge
        (by rw [hfresh]; exact id) (fun _ _ ↦ rfl) (fun c hr hw ↦ ?_) (fun p hp ↦ ?_)
        (fun hp ↦ (hmem g).mpr (.inl hp)) (fun hp ↦ ?_) fun _ hk ↦ hk.imp fun k hk ↦ howns k g hk
      · have hwait := (h.frame g).waiting c hr hw
        by_cases hc : c = f
        · subst hc
          rw [hframe_f, hmem]
          exact ⟨fun hd ↦ (by cases hd), fun _ ↦ .inr (hwait.1 hdf)⟩
        · rw [hframe c hc, hmem]
          exact ⟨hwait.1, fun hd ↦ .inl (hwait.2 hd)⟩
      · have hpf : p ≠ f := by
          rintro rfl
          exact hnosus g hp
        rw [Function.update_of_ne hpf, hframe p hpf]
        exact ⟨rfl, rfl⟩
      · rcases (hmem g).mp hp with hp | hp
        · obtain ⟨hr, hready⟩ := (h.frame g).posted hp
          refine ⟨hr, hready.imp_right ?_⟩
          rintro ⟨c, hw, hd⟩
          refine ⟨c, hw, ?_⟩
          have hc : c ≠ f := by
            rintro rfl
            rw [hdf] at hd
            cases hd
          rw [hframe c hc, hd]
        · obtain ⟨hr, hw, -⟩ := hf.suspended g hp
          exact ⟨hr, .inr ⟨f, hw, by rw [hframe_f]⟩⟩
  · rw [hposted]
    cases hs : (s.frames f).suspended with
    | none => simpa using h.nodupPosted
    | some p =>
      have hp := h.awaiter_not_posted hs
      simpa [List.nodup_append] using ⟨h.nodupPosted, fun x hx he ↦ hp (he ▸ hx)⟩
  · rw [hposted]
    simpa using h.noStart

/-- The worker takes the posted handler of a suspended coroutine. -/
theorem wake {p i : Nat} (h : Inv s out running) (hi : s.posted[i]? = some (.resume p)) :
    Inv { s with posted := s.posted.eraseIdx i } out
      (Function.update running p (some (s.frames p).code.children)) := by
  have hp := h.frame p
  have hmemp : Posted.resume p ∈ s.posted := List.mem_of_getElem? hi
  have hrp := (hp.posted hmemp).1
  obtain ⟨hplt, hdp⟩ := h.posted_unfinished hmemp
  have hnosus (g : Nat) : (s.frames g).suspended ≠ some p :=
    fun hg ↦ h.awaiter_not_posted hg hmemp
  have herase : s.posted.eraseIdx i = s.posted.erase (.resume p) := by
    obtain ⟨hlt, he⟩ := List.getElem?_eq_some_iff.mp hi
    rw [← he, h.nodupPosted.erase_getElem]
  have howns : owns { s with posted := s.posted.eraseIdx i }
      (Function.update running p (some (s.frames p).code.children)) = owns s running := by
    funext g
    by_cases hg : g = p
    · subst hg
      simp [owns, hrp]
    · simp [owns, hg]
  refine ⟨fun g ↦ ?_, by rw [howns]; exact h.unique, h.nodupPosted.eraseIdx i,
    fun hm ↦ h.noStart (List.mem_of_mem_eraseIdx hm)⟩
  by_cases hg : g = p
  · subst hg
    constructor <;> simp only [howns, Function.update_self]
    · exact fun hge ↦ absurd hplt (Nat.not_lt.mpr hge)
    · exact hp.owned
    · exact hp.nodup
    · intro q hq
      have hqg : q ≠ g := by
        rintro rfl
        exact hnosus q hq
      rw [Function.update_of_ne hqg]
      exact hp.suspended q hq
    · intro _ hr
      cases hr
    · intro hr
      cases hr
    · intro _ hr
      cases hr
    · exact fun _ ↦ hdp
    · intro _ hr
      cases hr
    · exact hp.log
    · exact hp.stored
    · rw [herase]
      exact fun hm ↦ absurd hm h.nodupPosted.not_mem_erase
    · exact hp.recorded
    · exact hp.unset
  · refine (h.frame g).of_same rfl (Function.update_of_ne hg ..) le_rfl id (fun _ _ ↦ rfl)
      (fun _ _ _ ↦ ⟨rfl, rfl⟩) (fun q hq ↦ ⟨Function.update_of_ne ?_ .., rfl⟩) ?_ ?_
    · rintro rfl
      exact hnosus g hq
    · simp only [herase, h.nodupPosted.mem_erase_iff]
      simp [hg]
    · rw [howns]
      exact fun _ ↦ id

/-- An operation completes, and the handle of the coroutine that awaits it is posted. -/
theorem complete {f n : Nat} {o : Except ε ν} {children : Fin n → Nat}
    {rest : Except ε ν → Body ν ε κ n} (h : Inv s out running) (hrun : running f = none)
    (hcode : (s.frames f).code = .external false o children rest) :
    Inv ({ s with posted := s.posted ++ [Posted.resume f] }.set f
      { s.frames f with code := .external true o children rest }) out running := by
  have hf := h.frame f
  have hlt : f < s.fresh := by
    by_contra hge
    rw [(hf.absent (by omega)).1] at hcode
    cases hcode
  have hnopost : .resume f ∉ s.posted := by
    intro hp
    have := (hf.posted hp).2
    simp [hcode, Code.delivered, Code.waitsFor] at this
  generalize hs' : { s with posted := s.posted ++ [Posted.resume f] }.set f
    { s.frames f with code := .external true o children rest } = s'
  have hframe_f : s'.frames f = { s.frames f with code := .external true o children rest } := by
    rw [← hs', State.set_self]
  have hframe (g : Nat) (hg : g ≠ f) : s'.frames g = s.frames g := by
    rw [← hs', State.set_of_ne hg]
  have hposted : s'.posted = s.posted ++ [Posted.resume f] := by rw [← hs', State.set_posted]
  have hfresh : s'.fresh = s.fresh := by rw [← hs', State.set_fresh]
  have hview (g : Nat) : (s'.frames g).done = (s.frames g).done ∧
      (s'.frames g).suspended = (s.frames g).suspended ∧
      (s'.frames g).code.waitsFor = (s.frames g).code.waitsFor ∧
      (s'.frames g).code.children = (s.frames g).code.children := by
    by_cases hg : g = f
    · simp [hg, hframe_f, hcode, Code.waitsFor, Code.children]
    · simp [hframe g hg]
  have howns : owns s' running = owns s running := by
    funext g
    rw [owns, (hview g).2.2.2, owns]
  refine ⟨fun g ↦ ?_, by rw [howns]; exact h.unique, ?_, ?_⟩
  · by_cases hg : g = f
    · subst hg
      constructor <;> try simp only [howns, hview]
      · exact fun hge ↦ absurd hlt (Nat.not_lt.mpr (hfresh ▸ hge))
      · rw [hfresh]
        exact hf.owned
      · exact hf.nodup
      · exact hf.suspended
      · intro c hr hw
        simp [hcode, Code.waitsFor] at hw
      · simp [hposted]
      · intro r hr hgoal
        rw [hframe_f] at hgoal ⊢
        exact hf.goal r hr (by rw [hcode]; exact hgoal)
      · exact hf.unfinished
      · rw [hfresh, hframe_f]
        intro hg hr
        rw [hf.status hg hr, hcode]
        rfl
      · rw [hframe_f]
        exact hf.log
      · rw [hframe_f]
        exact hf.stored
      · exact fun _ ↦ ⟨hrun, .inl (by simp [hframe_f, Code.delivered])⟩
      · rw [hframe_f]
        exact ⟨hf.recorded.before, hf.recorded.after⟩
      · rw [hframe_f]
        exact hf.unset
    · refine (h.frame g).of_same (hframe g hg) rfl hfresh.ge (by rw [hfresh]; exact id)
        (fun _ _ ↦ rfl) (fun c _ _ ↦ ⟨(hview c).1, (hview c).2.1⟩)
        (fun p _ ↦ ⟨rfl, (hview p).2.2.1⟩) ?_ (by rw [howns]; exact fun _ ↦ id)
      rw [hposted]
      simp [hg]
  · rw [hposted]
    simpa [List.nodup_append] using ⟨h.nodupPosted, fun x hx he ↦ hnopost (he ▸ hx)⟩
  · rw [hposted]
    simpa using h.noStart

/-- A coroutine on the worker's stack consumes a finished child. -/
theorem consume {f c : Nat} {l : List Nat} {o : Except ε ν} {fr : Frame ν ε κ}
    (h : Inv s out running) (hrun : running f ≠ none) (hc : c ∈ owns s running f)
    (hdone : (s.frames c).done = true) (hres : (s.frames c).awaitResume = some (o, fr))
    (hsub : ∀ x ∈ l, x ∈ owns s running f) (hcl : c ∉ l) (hnd : l.Nodup) :
    o = (out c).2 ∧ Inv (s.set c fr) out (Function.update running f (some l)) := by
  have hst := (h.frame c).stored hdone (.inr ⟨f, hc⟩)
  rw [Frame.awaitResume_eq, hst, Option.map_some, Option.some.injEq, Prod.mk.injEq] at hres
  obtain ⟨rfl, rfl⟩ := hres
  refine ⟨rfl, ?_⟩
  have hself : s.set f (s.frames f) = s := by simp [State.set]
  have hdrop : Inv s out (Function.update running f (some l)) := by
    have := h.of_running (s.frames f) (l := some l) hrun rfl
      ((h.frame f).unfinished hrun) rfl rfl rfl (fun x hx ↦ .inl (hsub x hx)) hnd
      (fun hl ↦ by cases hl)
    rwa [hself] at this
  have hfree (g : Nat) : c ∉ owns s (Function.update running f (some l)) g := by
    intro hg
    by_cases hgf : g = f
    · subst hgf
      exact hcl (by simpa [owns] using hg)
    · have : c ∈ owns s running g := by simpa [owns, hgf] using hg
      exact hgf (h.unique g f c this hc)
  exact hdrop.of_promise hdone (Nat.ne_zero_of_lt ((h.frame f).owned c hc).1) hfree

/-- A coroutine on the worker's stack has not finished, and its children are distinct. -/
theorem on_stack {f n : Nat} {children : Fin n → Nat} (h : Inv s out running)
    (hrun : running f = some (List.ofFn children)) :
    running f ≠ none ∧ owns s running f = List.ofFn children ∧ Function.Injective children ∧
      (s.frames f).done = false := by
  have hne : running f ≠ none := by simp [hrun]
  have howns : owns s running f = List.ofFn children := by simp [owns, hrun]
  refine ⟨hne, howns, ?_, (h.frame f).unfinished hne⟩
  rw [← List.nodup_ofFn, ← howns]
  exact (h.frame f).nodup

end Inv

end Crasy.Future
