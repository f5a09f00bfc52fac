import UnlearnShield.Library.Effects
import UnlearnShield.Library.Pool

/-! # Programs that keep to what they may do

An operation may be allowed in some states only. A program obeys when, whatever the others
do between its operations, each is allowed where it is performed; what it promises of the
state when it returns and when it raises is put together along its text, with one rule for
an operation, for a bind and for a handler. A run of a pool whose programs obey is a run
of the machine that refuses what is not allowed.
-/
namespace UnlearnShield
open Relation
variable {Op ε α β S : Type} {Resp : Op → Type}

namespace Program

def Yields (R : α → Prop) : Program Op Resp ε α → Prop
  | .pure a => R a
  | .throw _ => True
  | .call _ next => ∀ r, (next r).Yields R

section Yields
variable {R : α → Prop} {T : β → Prop}

theorem yields_lift {x : Except ε α} (h : ∀ a, x = .ok a → R a) : (lift x : Program Op Resp ε α).Yields R := by
  cases x with
  | ok a => exact h a rfl
  | error e => trivial

theorem Yields.bind {p : Program Op Resp ε α} {f : α → Program Op Resp ε β} (h : p.Yields R)
    (hf : ∀ a, R a → (f a).Yields T) :
    (p >>= f).Yields T := by
  induction p with
  | pure a => exact hf a h
  | throw e => trivial
  | call op next ih => exact fun r => ih r (h r)

theorem Yields.mono {R' : α → Prop} {p : Program Op Resp ε α} (h : p.Yields R) (hr : ∀ a, R a → R' a) :
    p.Yields R' := by
  induction p with
  | pure a => exact hr a h
  | throw e => trivial
  | call op next ih => exact fun r => ih r (h r)

theorem yields_trivial (p : Program Op Resp ε α) : p.Yields fun _ => True := by
  induction p with
  | pure a => trivial
  | throw e => trivial
  | call op next ih => exact ih

theorem Yields.attempt {p : Program Op Resp ε α} (h : p.Yields R) : p.attempt.Yields fun x => ∀ a, x = .ok a → R a := by
  induction p with
  | pure a =>
    intro b hb
    rw [← Except.ok.inj hb]
    exact h
  | throw e => exact fun b hb => by cases hb
  | call op next ih => exact fun r => ih r (h r)

/-- The rest of a program performs only operations in `P`, given what the first part returns. -/
theorem Performs.bind_yields {P : Op → Prop} {p : Program Op Resp ε α} {f : α → Program Op Resp ε β} (h : p.Performs P)
    (hy : p.Yields R) (hf : ∀ a, R a → (f a).Performs P) : (p >>= f).Performs P := by
  induction p with
  | pure a => exact hf a hy
  | throw e => trivial
  | call op next ih => exact ⟨h.1,fun r => ih r (h.2 r) (hy r)⟩

theorem yields_embed {Op' : Type} {Resp' : Op' → Type} {op' : Op → Op'}
    {answer : (op : Op) → Resp' (op' op) → Except ε (Resp op)} {p : Program Op Resp ε α}
    (h : p.Yields R) : (p.embed op' answer).Yields R := by
  induction p with
  | pure a => exact h
  | throw e => trivial
  | call op next ih =>
    rw [embed]
    intro r
    beta_reduce
    cases answer op r with
    | ok x => exact ih x (h x)
    | error e => trivial

end Yields

def Stable (rely : S → S → Prop) (P : S → Prop) : Prop := ∀ s t, P s → rely s t → P t

theorem Stable.star {rely : S → S → Prop} {P : S → Prop} (h : Stable rely P) {s t : S} (hP : P s)
    (hr : ReflTransGen rely s t) :
    P t := by
  induction hr with
  | refl => exact hP
  | tail _ hstep ih => exact h _ _ ih hstep

/-- Whatever the others do in between, the program performs only operations it may, and ends in `Q`. -/
def Obeys (exec : Exec Op Resp ε S) (I : S → Prop) (rely : S → S → Prop) (may : Op → S → Prop)
    (Q : Except ε α → S → Prop) :
    Program Op Resp ε α → S → Prop
  | .pure a, s => ∀ t, ReflTransGen rely s t → I t → Q (.ok a) t
  | .throw e, s => ∀ t, ReflTransGen rely s t → I t → Q (.error e) t
  | .call op next, s => ∀ t, ReflTransGen rely s t → I t → may op t ∧
      ∀ r u, exec op t = .ok (r,u) → I u → Obeys exec I rely may Q (next r) u

section Obeys
variable {exec : Exec Op Resp ε S} {I : S → Prop} {rely : S → S → Prop} {may : Op → S → Prop}
    {Q Q' : Except ε α → S → Prop}

theorem Obeys.stable {p : Program Op Resp ε α} {s t : S} (h : p.Obeys exec I rely may Q s)
    (hr : ReflTransGen rely s t) :
    p.Obeys exec I rely may Q t := by
  cases p with
  | pure a => exact fun u hu => h u (hr.trans hu)
  | throw e => exact fun u hu => h u (hr.trans hu)
  | call op next => exact fun u hu => h u (hr.trans hu)

theorem Obeys.mono {p : Program Op Resp ε α} {s : S} (h : p.Obeys exec I rely may Q s)
    (hq : ∀ r t, I t → Q r t → Q' r t) :
    p.Obeys exec I rely may Q' s := by
  induction p generalizing s with
  | pure a => exact fun t ht hI => hq _ t hI (h t ht hI)
  | throw e => exact fun t ht hI => hq _ t hI (h t ht hI)
  | call op next ih =>
    intro t ht hI
    obtain ⟨hop,hn⟩ := h t ht hI
    exact ⟨hop,fun r u he hIu => ih r (hn r u he hIu)⟩

/-- A program goes on to obey on a machine that does less. -/
theorem Obeys.restrict {exec' : Exec Op Resp ε S} {p : Program Op Resp ε α} {s : S} (h : p.Obeys exec I rely may Q s)
    (hsub : ∀ op s r t, exec' op s = .ok (r,t) → exec op s = .ok (r,t)) : p.Obeys exec' I rely may Q s := by
  induction p generalizing s with
  | pure a => exact h
  | throw e => exact h
  | call op next ih =>
    intro t ht hI
    obtain ⟨hop,hn⟩ := h t ht hI
    exact ⟨hop,fun r u he hIu => ih r (hn r u (hsub op t r u he) hIu)⟩

theorem performs_trivial (p : Program Op Resp ε α) : p.Performs fun _ => True := by
  induction p with
  | pure a => trivial
  | throw e => trivial
  | call op next ih => exact ⟨trivial,ih⟩

/-- What two arguments show of a program, it does. -/
theorem Obeys.and {may' : Op → S → Prop} {p : Program Op Resp ε α} {s : S} (h : p.Obeys exec I rely may Q s)
    (h' : p.Obeys exec I rely may' Q' s) :
    p.Obeys exec I rely (fun op s => may op s ∧ may' op s) (fun r s => Q r s ∧ Q' r s) s := by
  induction p generalizing s with
  | pure a => exact fun t ht hI => ⟨h t ht hI,h' t ht hI⟩
  | throw e => exact fun t ht hI => ⟨h t ht hI,h' t ht hI⟩
  | call op next ih =>
    intro t ht hI
    obtain ⟨hop,hn⟩ := h t ht hI
    obtain ⟨hop',hn'⟩ := h' t ht hI
    exact ⟨⟨hop,hop'⟩,fun r u he hIu => ih r (hn r u he hIu) (hn' r u he hIu)⟩

/-- Where more is kept and the others do less, a program obeys all the more, and what it performs may be
allowed for another reason. -/
theorem Obeys.weaken {A : Op → Prop} {I' : S → Prop} {rely' : S → S → Prop} {may' : Op → S → Prop}
    {p : Program Op Resp ε α} {s : S} (h : p.Obeys exec I rely may Q s)
    (hp : p.Performs A) (hI : ∀ s, I' s → I s) (hrely : ∀ s t, rely' s t → rely s t)
    (hmay : ∀ op s, A op → may op s → may' op s) : p.Obeys exec I' rely' may' Q s := by
  induction p generalizing s with
  | pure a => exact fun t ht hIt => h t (ht.lift id hrely) (hI t hIt)
  | throw e => exact fun t ht hIt => h t (ht.lift id hrely) (hI t hIt)
  | call op next ih =>
    intro t ht hIt
    obtain ⟨hop,hn⟩ := h t (ht.lift id hrely) (hI t hIt)
    exact ⟨hmay op t hp.1 hop,fun r u he hIu => ih r (hn r u he (hI u hIu)) (hp.2 r)⟩

end Obeys

def Contract (exec : Exec Op Resp ε S) (I : S → Prop) (rely : S → S → Prop) (may : Op → S → Prop) (P : S → Prop)
    (p : Program Op Resp ε α) (Q : Except ε α → S → Prop) : Prop :=
  ∀ s, I s → P s → p.Obeys exec I rely may Q s

section Rules
variable {exec : Exec Op Resp ε S} {I : S → Prop} {rely : S → S → Prop} {may : Op → S → Prop} {P P' : S → Prop}
  {Q Q' : Except ε α → S → Prop}

theorem contract_pure {a : α} (hP : Stable rely P) (h : ∀ s, I s → P s → Q (.ok a) s) :
    Contract exec I rely may P (.pure a) Q := fun _ _ hs t ht hI => h t hI (hP.star hs ht)

theorem contract_throw {e : ε} (hP : Stable rely P) (h : ∀ s, I s → P s → Q (.error e) s) :
    Contract exec I rely may P (.throw e) Q := fun _ _ hs t ht hI => h t hI (hP.star hs ht)

theorem contract_lift {x : Except ε α} (hP : Stable rely P) (h : ∀ s, I s → P s → Q x s) :
    Contract exec I rely may P (lift x) Q := by
  cases x with
  | ok a => exact contract_pure hP h
  | error e => exact contract_throw hP h

theorem contract_call {op : Op} {next : Resp op → Program Op Resp ε α} {R : Resp op → S → Prop} (hP : Stable rely P)
    (hmay : ∀ s, I s → P s → may op s) (h : ∀ s, I s → P s → ∀ r t, exec op s = .ok (r,t) → I t → R r t)
    (hnext : ∀ r, Contract exec I rely may (R r) (next r) Q) : Contract exec I rely may P (.call op next) Q := by
  intro s _ hs t ht hIt
  have hPt := hP.star hs ht
  exact ⟨hmay t hIt hPt,fun r u he hIu => hnext r u hIu (h t hIt hPt r u he hIu)⟩

theorem Contract.mono {p : Program Op Resp ε α} (h : Contract exec I rely may P p Q) (hP : ∀ s, I s → P' s → P s)
    (hQ : ∀ r s, I s → Q r s → Q' r s) : Contract exec I rely may P' p Q' :=
  fun s hI hs => (h s hI (hP s hI hs)).mono hQ

theorem Contract.bind {p : Program Op Resp ε α} {f : α → Program Op Resp ε β} {R : Except ε β → S → Prop}
    (h : Contract exec I rely may P p Q) (hf : ∀ a, Contract exec I rely may (Q (.ok a)) (f a) R)
    (he : ∀ e s, I s → Q (.error e) s → R (.error e) s) : Contract exec I rely may P (p >>= f) R := by
  have hbind : ∀ {q : Program Op Resp ε α} {s : S}, I s → q.Obeys exec I rely may Q s →
    (q >>= f).Obeys exec I rely may R s := by
    intro q
    induction q with
    | pure a => exact fun hI hq => hf a _ hI (hq _ .refl hI)
    | throw e => exact fun _ hq t ht hI => he e t hI (hq t ht hI)
    | call op next ih =>
      intro s _ hq t ht hI
      obtain ⟨hop,hn⟩ := hq t ht hI
      exact ⟨hop,fun r u heq hIu => ih r hIu (hn r u heq hIu)⟩
  exact fun s hI hs => hbind hI (h s hI hs)

/-- A handler gets what the program promises, and does not raise. -/
theorem Contract.attempt {p : Program Op Resp ε α} (h : Contract exec I rely may P p Q) :
    Contract exec I rely may P p.attempt (fun r s => ∃ x, r = .ok x ∧ Q x s) := by
  have hattempt : ∀ {q : Program Op Resp ε α} {s : S}, q.Obeys exec I rely may Q s →
      q.attempt.Obeys exec I rely may (fun r s => ∃ x, r = .ok x ∧ Q x s) s := by
    intro q
    induction q with
    | pure a => exact fun hq t ht hI => ⟨.ok a,rfl,hq t ht hI⟩
    | throw e => exact fun hq t ht hI => ⟨.error e,rfl,hq t ht hI⟩
    | call op next ih =>
      intro s hq t ht hI
      obtain ⟨hop,hn⟩ := hq t ht hI
      exact ⟨hop,fun r u he hIu => ih r (hn r u he hIu)⟩
  exact fun s hI hs => hattempt (h s hI hs)

/-- A program all of whose operations are allowed and keep `P` keeps it. -/
theorem contract_of_performs {A : Op → Prop} {p : Program Op Resp ε α} (hp : p.Performs A) (hP : Stable rely P)
    (hmay : ∀ op s, A op → I s → P s → may op s) (hop : ∀ op s r t, A op → I s → P s → exec op s = .ok (r,t) → P t) :
    Contract exec I rely may P p (fun _ => P) := by
  induction p with
  | pure a => exact contract_pure hP fun _ _ h => h
  | throw e => exact contract_throw hP fun _ _ h => h
  | call op next ih =>
    exact contract_call hP (fun s hI hs => hmay op s hp.1 hI hs) (fun s hI hs r t he _ => hop op s r t hp.1 hI hs he)
      fun r => ih r (hp.2 r)

/-- What its operations leave alone, the program leaves alone. -/
theorem Contract.frame {A : Op → Prop} {F : S → Prop} {p : Program Op Resp ε α} (h : Contract exec I rely may P p Q)
    (hp : p.Performs A) (hF : Stable rely F) (hop : ∀ op s r t, A op → F s → exec op s = .ok (r,t) → F t) :
    Contract exec I rely may (fun s => P s ∧ F s) p (fun r s => Q r s ∧ F s) := by
  have hboth : ∀ s, F s → p.Obeys exec I rely may Q s → p.Obeys exec I rely may (fun r s => Q r s ∧ F s) s := by
    clear h
    induction p with
    | pure a => exact fun s hs h t ht hI => ⟨h t ht hI,hF.star hs ht⟩
    | throw e => exact fun s hs h t ht hI => ⟨h t ht hI,hF.star hs ht⟩
    | call op next ih =>
      intro s hs h t ht hI
      obtain ⟨hmay,hn⟩ := h t ht hI
      refine ⟨hmay,fun r u he hIu => ih r (hp.2 r) u ?_ (hn r u he hIu)⟩
      exact hop op t r u hp.1 (hF.star hs ht) he
  exact fun s hI hs => hboth s hs.2 (h s hI hs.1)

/-- What a program returns whatever it is answered, it returns under a contract. -/
theorem Contract.yields {p : Program Op Resp ε α} {R : α → Prop} (h : Contract exec I rely may P p Q)
    (hp : p.Yields R) :
    Contract exec I rely may P p (fun r s => Q r s ∧ ∀ a, r = .ok a → R a) := by
  have hboth : ∀ s, p.Obeys exec I rely may Q s →
    p.Obeys exec I rely may (fun r s => Q r s ∧ ∀ a, r = .ok a → R a) s := by
    clear h
    induction p with
    | pure a =>
      intro s h t ht hI
      refine ⟨h t ht hI,fun b hb => ?_⟩
      rw [← Except.ok.inj hb]
      exact hp
    | throw e =>
      intro s h t ht hI
      refine ⟨h t ht hI,fun b hb => ?_⟩
      cases hb
    | call op next ih =>
      intro s h t ht hI
      obtain ⟨hop,hn⟩ := h t ht hI
      exact ⟨hop,fun r u he hIu => ih r (hp r) u (hn r u he hIu)⟩
  exact fun s hI hs => hboth s (h s hI hs)

theorem Contract.weaken {A : Op → Prop} {I' : S → Prop} {rely' : S → S → Prop} {may' : Op → S → Prop}
    {p : Program Op Resp ε α} (h : Contract exec I rely may P p Q) (hp : p.Performs A) (hI : ∀ s, I' s → I s)
    (hrely : ∀ s t, rely' s t → rely s t)
    (hmay : ∀ op s, A op → may op s → may' op s) : Contract exec I' rely' may' P p Q :=
  fun s hIs hs => (h s (hI s hIs) hs).weaken hp hI hrely hmay

/-- What a program promises of its part of a larger state, it promises when it runs there. -/
theorem contract_embed {Op' S' : Type} {Resp' : Op' → Type} {op' : Op → Op'}
    {answer : (op : Op) → Resp' (op' op) → Except ε (Resp op)} {exec' : Exec Op' Resp' ε S'}
    {I' : S' → Prop} {rely' : S' → S' → Prop} {may' : Op' → S' → Prop} {p : Program Op Resp ε α}
    (get : S' → S) (h : Contract exec I rely may P p Q)
    (hexec : ∀ op s' r' t', exec' (op' op) s' = .ok (r',t') → ∀ r, answer op r' = .ok r →
      exec op (get s') = .ok (r,get t'))
    (hI : ∀ s', I' s' → I (get s')) (hrely : ∀ s' t', rely' s' t' → rely (get s') (get t'))
    (hmay : ∀ op s', may op (get s') → may' (op' op) s') :
    Contract exec' I' rely' may' (fun s' => P (get s')) (p.embed op' answer)
      (fun r s' => ∀ a, r = .ok a → Q (.ok a) (get s')) := by
  have hembed : ∀ {q : Program Op Resp ε α} {s' : S'}, q.Obeys exec I rely may Q (get s') →
      (q.embed op' answer).Obeys exec' I' rely' may' (fun r s' => ∀ a, r = .ok a → Q (.ok a) (get s')) s' := by
    intro q
    induction q with
    | pure a =>
      intro s' hq t' ht hI' b hb
      rw [← Except.ok.inj hb]
      exact hq (get t') (ht.lift get hrely) (hI t' hI')
    | throw e => exact fun _ t' _ _ b hb => by cases hb
    | call op next ih =>
      intro s' hq
      rw [embed]
      intro t' ht hI'
      obtain ⟨hop,hn⟩ := hq (get t') (ht.lift get hrely) (hI t' hI')
      refine ⟨hmay op t' hop,fun r' u' he hIu => ?_⟩
      beta_reduce
      cases ha : answer op r' with
      | ok r => exact ih r (hn r (get u') (hexec op t' r' u' he r ha) (hI u' hIu))
      | error e => exact fun v' _ _ b hb => by cases hb
  exact fun s' hIs hs => hembed (h (get s') (hI s' hIs) hs)

end Rules

end Program

namespace Machine
variable {ι : Type} [DecidableEq ι] {M : Machine ι Op Resp ε S} {may : ι → Op → S → Prop}

open Classical in
/-- The machine that refuses an operation where it is not allowed. -/
noncomputable def within [Inhabited ε] (M : Machine ι Op Resp ε S) (may : ι → Op → S → Prop) : Machine ι Op Resp ε S :=
  {M with exec := fun i op s => if may i op s then M.exec i op s else .error default}

omit [DecidableEq ι] in
theorem exec_within [Inhabited ε] {i : ι} {op : Op} {s t : S} {r : Resp op} :
    (M.within may).exec i op s = .ok (r,t) ↔ may i op s ∧ M.exec i op s = .ok (r,t) := by
  rw [within]
  dsimp only
  split
  · next h => exact ⟨fun he => ⟨h,he⟩,fun he => he.2⟩
  · next h =>
    constructor
    · intro he
      cases he
    · exact fun he => absurd he.1 h

/-- What the refusing machine does, the machine does. -/
theorem Reaches.of_within [Inhabited ε] {p q : Pool ι Op Resp ε α S} (h : (M.within may).Reaches p q) :
    M.Reaches p q := by
  induction h with
  | refl => exact .refl
  | tail _ hstep ih =>
    refine ih.tail ?_
    cases hstep with
    | op hp he => exact .op hp (exec_within.mp he).2
    | crash i e => exact .crash i e
    | env he => exact .env he

/-- Refusing less. -/
theorem Reaches.within_mono [Inhabited ε] {may' : ι → Op → S → Prop} (hmay : ∀ i op s, may i op s → may' i op s)
    {p q : Pool ι Op Resp ε α S} (h : (M.within may).Reaches p q) : (M.within may').Reaches p q := by
  induction h with
  | refl => exact .refl
  | tail _ hstep ih =>
    refine ih.tail ?_
    cases hstep with
    | op hp he =>
      obtain ⟨hop,he⟩ := exec_within.mp he
      exact .op hp (exec_within.mpr ⟨hmay _ _ _ hop,he⟩)
    | crash i e => exact .crash i e
    | env he => exact .env he

/-- Refusing nothing. -/
theorem Reaches.to_within [Inhabited ε] {p q : Pool ι Op Resp ε α S} (h : M.Reaches p q) :
    (M.within fun _ _ _ => True).Reaches p q := by
  induction h with
  | refl => exact .refl
  | tail _ hstep ih =>
    refine ih.tail ?_
    cases hstep with
    | op hp he => exact .op hp (exec_within.mpr ⟨trivial,he⟩)
    | crash i e => exact .crash i e
    | env he => exact .env he

def next (M : Machine ι Op Resp ε S) (i : ι) (p : Pool ι Op Resp ε α S) : Pool ι Op Resp ε α S :=
  match p.1 i with
  | .call op next =>
    match M.exec i op p.2 with
    | .ok (r,t) => (Function.update p.1 i (next r),t)
    | .error _ => p
  | _ => p

theorem reaches_next [Inhabited ε] {i : ι} {p : Pool ι Op Resp ε α S}
    (h : ∀ op next, p.1 i = .call op next → may i op p.2) :
    (M.within may).Reaches p (M.next i p) := by
  unfold next
  split
  · next op next hp =>
    split
    · next r t he => exact .single (.op hp (exec_within.mpr ⟨h op next hp,he⟩))
    · exact .refl
  · exact .refl

theorem reaches_iterate [Inhabited ε] (i : ι) (n : ℕ) (p : Pool ι Op Resp ε α S) : M.Reaches p ((M.next i)^[n] p) := by
  induction n generalizing p with
  | zero => exact .refl
  | succ n ih =>
    have hnext : (M.within fun _ _ _ => True).Reaches p (M.next i p) := reaches_next fun _ _ _ => trivial
    exact hnext.of_within.trans (ih (M.next i p))

/-- A process that is alone performs its program to the end, if every operation on its way is allowed. -/
theorem reaches_of_along [Inhabited ε] {i : ι} {a : α} {pool : ι → Program Op Resp ε α} {s t : S}
    (h : (pool i).run (M.exec i) s = (.ok a,t)) (hmay : (pool i).Along (M.exec i) (may i) s) :
    (M.within may).Reaches (pool,s) (Function.update pool i (.pure a),t) := by
  have hrun : (pool i).run ((M.within may).exec i) s = (pool i).run (M.exec i) s :=
    Program.run_congr_along hmay fun op s hop => if_pos hop
  exact reaches_of_run (hrun.trans h)

/-- Programs that perform only operations in `A` run on the machine that refuses the others. -/
theorem Reaches.performs [Inhabited ε] {A : Op → Prop} {p q : Pool ι Op Resp ε α S} (h : M.Reaches p q)
    (hp : ∀ i, (p.1 i).Performs A) : (M.within fun _ op _ => A op).Reaches p q := by
  have hboth : (M.within fun _ op _ => A op).Reaches p q ∧ ∀ i, (q.1 i).Performs A := by
    induction h with
    | refl => exact ⟨.refl,hp⟩
    | tail _ hstep ih =>
      obtain ⟨hreaches,hq⟩ := ih
      cases hstep with
      | @op pool s t i op next r hpool he =>
        have hi : (pool i).Performs A := hq i
        rw [hpool] at hi
        refine ⟨hreaches.tail (.op hpool (exec_within.mpr ⟨hi.1,he⟩)),fun j => ?_⟩
        by_cases hj : j = i
        · subst hj
          dsimp only
          rw [Function.update_self]
          exact hi.2 r
        · dsimp only
          rw [Function.update_of_ne hj]
          exact hq j
      | @crash pool s i e =>
        refine ⟨hreaches.tail (.crash i e),fun j => ?_⟩
        by_cases hj : j = i
        · subst hj
          dsimp only
          rw [Function.update_self]
          trivial
        · dsimp only
          rw [Function.update_of_ne hj]
          exact hq j
      | env he => exact ⟨hreaches.tail (.env he),hq⟩
  exact hboth.1

structure Respects (M : Machine ι Op Resp ε S) (I : S → Prop) (rely : ι → S → S → Prop) (may : ι → Op → S → Prop) :
    Prop where
  op : ∀ i op s r t, I s → may i op s → M.exec i op s = .ok (r,t) → I t ∧ ∀ j, j ≠ i → rely j s t
  crash : ∀ i s, I s → I (M.crash i s) ∧ ∀ j, j ≠ i → rely j s (M.crash i s)
  env : ∀ s t, I s → M.env s t → I t ∧ ∀ j, rely j s t

variable {I : S → Prop} {rely : ι → S → S → Prop} {Q : ι → Except ε α → S → Prop}

def Obedient (M : Machine ι Op Resp ε S) (I : S → Prop) (rely : ι → S → S → Prop) (may : ι → Op → S → Prop)
    (Q : ι → Except ε α → S → Prop) (p : Pool ι Op Resp ε α S) (i : ι) : Prop :=
  (∃ e, p.1 i = .throw e) ∨ (p.1 i).Obeys (M.exec i) I (rely i) (may i) (Q i) p.2

omit [DecidableEq ι] in
/-- A program that obeys and goes on is where it may. -/
theorem Obedient.allowed {p : Pool ι Op Resp ε α S} {i : ι} (h : M.Obedient I rely may Q p i) (hI : I p.2) {op : Op}
    {next : Resp op → Program Op Resp ε α} (hp : p.1 i = .call op next) : may i op p.2 := by
  rcases h with ⟨e,hthrow⟩ | h
  · cases hp.symm.trans hthrow
  · rw [hp] at h
    exact (h p.2 .refl hI).1

/-- A step of programs that obey where `K` holds is a step of the machine that refuses, and if `K` holds
after it, they go on to obey. -/
theorem Step.obeys [Inhabited ε] {K : S → Prop} (hr : M.Respects I rely may) (hKI : ∀ s, K s → I s)
    {p q : Pool ι Op Resp ε α S} (h : M.Step p q) (hKp : K p.2) (hKq : I q.2 → K q.2)
    (hp : ∀ i, M.Obedient K rely may Q p i) : (M.within may).Step p q ∧ K q.2 ∧ ∀ i, M.Obedient K rely may Q q i := by
  have hI := hKI p.2 hKp
  have hstable : ∀ {i j : ι} {pool : ι → Program Op Resp ε α} {s t : S} {p' : Program Op Resp ε α}, j ≠ i → rely j s t →
      M.Obedient K rely may Q (pool,s) j → M.Obedient K rely may Q (Function.update pool i p',t) j := by
    intro i j pool s t p' hj hst ho
    rcases ho with ⟨e,he⟩ | ho
    · exact Or.inl ⟨e,(Function.update_of_ne hj _ _).trans he⟩
    · refine Or.inr ?_
      dsimp only
      rw [Function.update_of_ne hj]
      exact ho.stable (.single hst)
  cases h with
  | @op pool s t i op next r hpool he =>
    have hi : (pool i).Obeys (M.exec i) K (rely i) (may i) (Q i) s := by
      rcases hp i with ⟨e,hthrow⟩ | hi
      · cases hpool.symm.trans hthrow
      · exact hi
    rw [hpool] at hi
    obtain ⟨hmay,hn⟩ := hi s .refl hKp
    obtain ⟨hIt,hothers⟩ := hr.op i op s r t hI hmay he
    refine ⟨.op hpool (exec_within.mpr ⟨hmay,he⟩),hKq hIt,fun j => ?_⟩
    by_cases hj : j = i
    · refine Or.inr ?_
      dsimp only
      rw [hj, Function.update_self]
      exact hn r t he (hKq hIt)
    · exact hstable hj (hothers j hj) (hp j)
  | @crash pool s i e =>
    obtain ⟨hIt,hothers⟩ := hr.crash i s hI
    refine ⟨.crash i e,hKq hIt,fun j => ?_⟩
    by_cases hj : j = i
    · rw [hj]
      exact Or.inl ⟨e,Function.update_self ..⟩
    · exact hstable hj (hothers j hj) (hp j)
  | @env pool s t he =>
    obtain ⟨hIt,hall⟩ := hr.env s t hI he
    refine ⟨.env he,hKq hIt,fun j => ?_⟩
    rcases hp j with hthrow | hj
    · exact Or.inl hthrow
    · exact Or.inr (hj.stable (.single (hall j)))

/-- In a run of programs that obey, every operation is allowed where it is performed. -/
theorem Reaches.obeys [Inhabited ε] (hr : M.Respects I rely may) {p q : Pool ι Op Resp ε α S}
    (h : M.Reaches p q) (hI : I p.2) (hp : ∀ i, M.Obedient I rely may Q p i) :
    (M.within may).Reaches p q ∧ I q.2 ∧ ∀ i, M.Obedient I rely may Q q i := by
  induction h with
  | refl => exact ⟨.refl,hI,hp⟩
  | tail _ hstep ih =>
    obtain ⟨hreaches,hIq,hq⟩ := ih
    obtain ⟨hwithin,hI',hp'⟩ := hstep.obeys hr (fun _ h => h) hIq (fun h => h) hq
    exact ⟨hreaches.tail hwithin,hI',hp'⟩

/-- A program may also count on what holds of every state on the way of a run. -/
theorem Reaches.obeys_between [Inhabited ε] {J : S → Prop} (hr : M.Respects I rely may) {p q : Pool ι Op Resp ε α S}
    (h : M.Reaches p q) (hI : I p.2) (hJ : ∀ c : Pool ι Op Resp ε α S, M.Reaches p c → M.Reaches c q → J c.2)
    (hp : ∀ i, M.Obedient (fun s => I s ∧ J s) rely may Q p i) :
    I q.2 ∧ ∀ i, M.Obedient (fun s => I s ∧ J s) rely may Q q i := by
  induction h with
  | refl => exact ⟨hI,hp⟩
  | tail hreaches hstep ih =>
    obtain ⟨hIb,hb⟩ := ih fun c hc hcb => hJ c hc (hcb.tail hstep)
    obtain ⟨-,hK,hq⟩ := hstep.obeys hr (fun _ h => h.1) ⟨hIb,hJ _ hreaches (.single hstep)⟩
      (fun hIq => ⟨hIq,hJ _ (hreaches.tail hstep) .refl⟩) hb
    exact ⟨hK.1,hq⟩

omit [DecidableEq ι] in
theorem Respects.within [Inhabited ε] (hr : M.Respects I rely may) (may' : ι → Op → S → Prop) :
    (M.within may').Respects I rely may :=
  ⟨fun i op s r t hI hmay h => hr.op i op s r t hI hmay (exec_within.mp h).2,hr.crash,hr.env⟩

/-- Refusing once more. -/
theorem within_within [Inhabited ε] (may' : ι → Op → S → Prop) {p q : Pool ι Op Resp ε α S}
    (h : ((M.within may).within may').Reaches p q) : (M.within fun i op s => may i op s ∧ may' i op s).Reaches p q := by
  induction h with
  | refl => exact .refl
  | tail _ hstep ih =>
    refine ih.tail ?_
    cases hstep with
    | op hp he =>
      obtain ⟨hmay',he⟩ := exec_within.mp he
      obtain ⟨hmay,he⟩ := exec_within.mp he
      exact .op hp (exec_within.mpr ⟨⟨hmay,hmay'⟩,he⟩)
    | crash i e => exact .crash i e
    | env he => exact .env he

end Machine

end UnlearnShield
