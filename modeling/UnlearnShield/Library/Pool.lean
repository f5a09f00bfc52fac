import UnlearnShield.Library.Program

/-! # Any number of programs on one shared state

Each process of a pool runs a program; a step is one operation of one process, the crash
of one, or a change the environment makes. An operation that gets no answer leaves its
process waiting. A program is sound when its operations keep an invariant and its
guarantee whatever the others do within what it relies on, and processes whose guarantees
meet each other's reliance are sound together.
-/
namespace UnlearnShield
open Relation

section Pool
variable {ι Op ε α S : Type} {Resp : Op → Type} [DecidableEq ι]

abbrev Pool (ι Op : Type) (Resp : Op → Type) (ε α S : Type) := (ι → Program Op Resp ε α) × S

/-- What the processes run on: their operations, what their crashes leave and what else may happen. -/
structure Machine (ι Op : Type) (Resp : Op → Type) (ε S : Type) where
  exec : ι → Exec Op Resp ε S
  crash : ι → S → S
  env : S → S → Prop

inductive Machine.Step (M : Machine ι Op Resp ε S) : Pool ι Op Resp ε α S → Pool ι Op Resp ε α S → Prop
  | op {pool : ι → Program Op Resp ε α} {s t : S} {i : ι} {op : Op} {next : Resp op → Program Op Resp ε α}
    {r : Resp op} :
      pool i = .call op next → M.exec i op s = .ok (r,t) → Machine.Step M (pool,s) (Function.update pool i (next r),t)
  | crash {pool : ι → Program Op Resp ε α} {s : S} (i : ι) (e : ε) :
      Machine.Step M (pool,s) (Function.update pool i (.throw e),M.crash i s)
  | env {pool : ι → Program Op Resp ε α} {s t : S} : M.env s t → Machine.Step M (pool,s) (pool,t)

abbrev Machine.Reaches (M : Machine ι Op Resp ε S) : Pool ι Op Resp ε α S → Pool ι Op Resp ε α S → Prop :=
  ReflTransGen M.Step

namespace Program
variable {exec : Exec Op Resp ε S} {I : S → Prop} {rely guar : S → S → Prop} {Q : α → S → Prop}

/-- Whatever the others do between its operations, the program keeps `I` and `guar`, and `Q` holds of
what it returns. -/
def Sound (exec : Exec Op Resp ε S) (I : S → Prop) (rely guar : S → S → Prop) (Q : α → S → Prop) :
    Program Op Resp ε α → S → Prop
  | .pure a, s => ∀ t, ReflTransGen rely s t → I t → Q a t
  | .throw _, _ => True
  | .call op next, s => ∀ t, ReflTransGen rely s t → I t → ∀ r u, exec op t = .ok (r,u) →
      I u ∧ guar t u ∧ Sound exec I rely guar Q (next r) u

/-- What the others do does not disturb it. -/
theorem Sound.stable {p : Program Op Resp ε α} {s t : S} (h : p.Sound exec I rely guar Q s)
    (hr : ReflTransGen rely s t) :
    p.Sound exec I rely guar Q t := by
  cases p with
  | pure a => exact fun u hu => h u (hr.trans hu)
  | throw e => trivial
  | call op next => exact fun u hu => h u (hr.trans hu)

theorem Sound.mono {Q' : α → S → Prop} {p : Program Op Resp ε α} {s : S} (h : p.Sound exec I rely guar Q s)
    (hq : ∀ a t, Q a t → Q' a t) : p.Sound exec I rely guar Q' s := by
  induction p generalizing s with
  | pure a => exact fun t ht hI => hq a t (h t ht hI)
  | throw e => trivial
  | call op next ih =>
    intro t ht hI r u he
    obtain ⟨hIu,hg,hn⟩ := h t ht hI r u he
    exact ⟨hIu,hg,ih r hn⟩

theorem Sound.bind {β : Type} {Q : β → S → Prop} {p : Program Op Resp ε α} {f : α → Program Op Resp ε β} {s : S}
    (h : p.Sound exec I rely guar (fun a t => (f a).Sound exec I rely guar Q t) s) (hI : I s) :
    (p >>= f).Sound exec I rely guar Q s := by
  induction p generalizing s with
  | pure a => exact h s .refl hI
  | throw e => trivial
  | call op next ih =>
    intro t ht hIt r u he
    obtain ⟨hIu,hg,hn⟩ := h t ht hIt r u he
    exact ⟨hIu,hg,ih r hn hIu⟩

end Program

namespace Machine
variable {M : Machine ι Op Resp ε S} {I : S → Prop} {rely guar : ι → S → S → Prop} {Q : ι → α → S → Prop}

structure Compatible (M : Machine ι Op Resp ε S) (I : S → Prop) (rely guar : ι → S → S → Prop) : Prop where
  guar_rely : ∀ i j, i ≠ j → ∀ s t, I s → I t → guar i s t → rely j s t
  crash_invariant : ∀ i s, I s → I (M.crash i s)
  crash_rely : ∀ i j, i ≠ j → ∀ s, I s → rely j s (M.crash i s)
  env_invariant : ∀ s t, I s → M.env s t → I t
  env_rely : ∀ i s t, I s → M.env s t → rely i s t

theorem Step.sound (hc : M.Compatible I rely guar) {p p' : Pool ι Op Resp ε α S} (h : M.Step p p') (hI : I p.2)
    (hs : ∀ i, (p.1 i).Sound (M.exec i) I (rely i) (guar i) (Q i) p.2) :
    I p'.2 ∧ ∀ i, (p'.1 i).Sound (M.exec i) I (rely i) (guar i) (Q i) p'.2 := by
  cases h with
  | @op pool s t i op next r hp he =>
    have hi := hs i
    dsimp only at hi hp
    rw [hp] at hi
    obtain ⟨hIt,hg,hn⟩ := hi s .refl hI r t he
    refine ⟨hIt,fun j => ?_⟩
    dsimp only
    by_cases hj : j = i
    · subst hj
      rw [Function.update_self]
      exact hn
    · rw [Function.update_of_ne hj]
      exact (hs j).stable (.single (hc.guar_rely i j (Ne.symm hj) s t hI hIt hg))
  | @crash pool s i e =>
    refine ⟨hc.crash_invariant i s hI,fun j => ?_⟩
    dsimp only
    by_cases hj : j = i
    · subst hj
      rw [Function.update_self]
      trivial
    · rw [Function.update_of_ne hj]
      exact (hs j).stable (.single (hc.crash_rely i j (Ne.symm hj) s hI))
  | env he => exact ⟨hc.env_invariant _ _ hI he,fun j => (hs j).stable (.single (hc.env_rely j _ _ hI he))⟩

/-- Processes that are sound and compatible stay so in every run. -/
theorem Reaches.sound (hc : M.Compatible I rely guar) {p p' : Pool ι Op Resp ε α S} (h : M.Reaches p p') (hI : I p.2)
    (hs : ∀ i, (p.1 i).Sound (M.exec i) I (rely i) (guar i) (Q i) p.2) :
    I p'.2 ∧ ∀ i, (p'.1 i).Sound (M.exec i) I (rely i) (guar i) (Q i) p'.2 := by
  induction h with
  | refl => exact ⟨hI,hs⟩
  | tail _ hstep ih => exact hstep.sound hc ih.1 ih.2

/-- What a process has returned satisfies its postcondition. -/
theorem Reaches.returned (hc : M.Compatible I rely guar) {p p' : Pool ι Op Resp ε α S} (h : M.Reaches p p') (hI : I p.2)
    (hs : ∀ i, (p.1 i).Sound (M.exec i) I (rely i) (guar i) (Q i) p.2) {i : ι} {a : α} (ha : p'.1 i = .pure a) :
    Q i a p'.2 := by
  obtain ⟨hI',hs'⟩ := h.sound hc hI hs
  have hi := hs' i
  rw [ha] at hi
  exact hi p'.2 .refl hI'

/-- A process that returns on its own can run to its end while the others wait. -/
theorem reaches_of_run {i : ι} {a : α} {pool : ι → Program Op Resp ε α} {s t : S}
    (h : (pool i).run (M.exec i) s = (.ok a,t)) : M.Reaches (pool,s) (Function.update pool i (.pure a),t) := by
  generalize hp : pool i = p at h
  induction p generalizing pool s with
  | pure b =>
    cases h
    rw [← hp, Function.update_eq_self]
  | throw e => exact absurd h Program.run_throw_ne_ok
  | call op next ih =>
    obtain ⟨r,u,he,hr⟩ := Program.run_call_eq_ok.mp h
    have hrest : M.Reaches (Function.update pool i (next r),u)
        (Function.update (Function.update pool i (next r)) i (.pure a),t) := ih r (Function.update_self ..) hr
    rw [Function.update_idem] at hrest
    exact ReflTransGen.head (.op hp he) hrest

end Machine

end Pool

end UnlearnShield
