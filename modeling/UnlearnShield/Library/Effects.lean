import UnlearnShield.Library.Program

/-! # Programs that handle failures

An operation of a larger machine may answer with an error instead of failing. A program
for a smaller machine runs on the larger one operation by operation, and a failure it does
not handle can be handled around it.
-/
namespace UnlearnShield.Program
variable {Op Op' : Type} {Resp : Op → Type} {Resp' : Op' → Type} {ε α β S S' : Type}

def Answers (exec : Exec Op Resp ε S) : Prop := ∀ op s, ∃ p, exec op s = .ok p

/-- `try: ... except Exception as exc`. -/
def attempt : Program Op Resp ε α → Program Op Resp ε (Except ε α)
  | .pure a => .pure (.ok a)
  | .throw e => .pure (.error e)
  | .call op next => .call op fun r => (next r).attempt

/-- Each operation is performed as one of another machine, whose answer may be an error. -/
def embed (op' : Op → Op') (answer : (op : Op) → Resp' (op' op) → Except ε (Resp op)) :
    Program Op Resp ε α → Program Op' Resp' ε α
  | .pure a => .pure a
  | .throw e => .throw e
  | .call op next => .call (op' op) fun r =>
    match answer op r with
    | .ok x => (next x).embed op' answer
    | .error e => .throw e

def Performs (P : Op → Prop) : Program Op Resp ε α → Prop
  | .pure _ => True
  | .throw _ => True
  | .call op next => P op ∧ ∀ r, (next r).Performs P

section Performs
variable {P Q : Op → Prop}

theorem performs_pure (a : α) : (Pure.pure a : Program Op Resp ε α).Performs P := trivial

theorem performs_lift (x : Except ε α) : (lift x : Program Op Resp ε α).Performs P := by
  cases x <;> trivial

theorem performs_call {op : Op} (h : P op) : (Program.call op .pure : Program Op Resp ε _).Performs P :=
  ⟨h,fun _ => trivial⟩

theorem Performs.mono {p : Program Op Resp ε α} (h : p.Performs P) (hpq : ∀ op, P op → Q op) : p.Performs Q := by
  induction p with
  | pure a => trivial
  | throw e => trivial
  | call op next ih => exact ⟨hpq op h.1,fun r => ih r (h.2 r)⟩

theorem Performs.bind {p : Program Op Resp ε α} {f : α → Program Op Resp ε β} (h : p.Performs P)
    (hf : ∀ a, (f a).Performs P) : (p >>= f).Performs P := by
  induction p with
  | pure a => exact hf a
  | throw e => trivial
  | call op next ih => exact ⟨h.1,fun r => ih r (h.2 r)⟩

theorem Performs.attempt {p : Program Op Resp ε α} (h : p.Performs P) : p.attempt.Performs P := by
  induction p with
  | pure a => trivial
  | throw e => trivial
  | call op next ih => exact ⟨h.1,fun r => ih r (h.2 r)⟩

theorem performs_embed {op' : Op → Op'} {answer : (op : Op) → Resp' (op' op) → Except ε (Resp op)} {P : Op' → Prop}
    (h : ∀ op, P (op' op)) (p : Program Op Resp ε α) : (p.embed op' answer).Performs P := by
  induction p with
  | pure a => trivial
  | throw e => trivial
  | call op next ih =>
    rw [embed]
    refine ⟨h op,fun r => ?_⟩
    beta_reduce
    cases answer op r with
    | ok x => exact ih x
    | error e => trivial

/-- What relates the states before and after each of its operations relates those of a program. -/
theorem Performs.relates {exec : Exec Op Resp ε S} {R : S → S → Prop} {p : Program Op Resp ε α} (h : p.Performs P)
    (hrefl : ∀ s, R s s) (htrans : ∀ s t u, R s t → R t u → R s u)
    (hstep : ∀ op s r t, P op → exec op s = .ok (r,t) → R s t) (s : S) : R s (p.run exec s).2 := by
  induction p generalizing s with
  | pure a => exact hrefl s
  | throw e => exact hrefl s
  | call op next ih =>
    rw [run]
    cases he : exec op s with
    | error e => exact hrefl s
    | ok q => exact htrans _ _ _ (hstep op s q.1 q.2 h.1 he) (ih q.1 (h.2 q.1) q.2)

/-- What none of its operations changes, a program does not change. -/
theorem Performs.frame {X : Type} {exec : Exec Op Resp ε S} {f : S → X} {p : Program Op Resp ε α} (h : p.Performs P)
    (hf : ∀ op s r t, P op → exec op s = .ok (r,t) → f t = f s) (s : S) : f (p.run exec s).2 = f s :=
  h.relates (R := fun s t => f t = f s) (fun _ => rfl) (fun _ _ _ h h' => h'.trans h) hf s

end Performs

/-- `P` holds of every operation the program performs, in the state in which it performs it. -/
def Along (exec : Exec Op Resp ε S) (P : Op → S → Prop) : Program Op Resp ε α → S → Prop
  | .pure _, _ => True
  | .throw _, _ => True
  | .call op next, s => P op s ∧ ∀ r t, exec op s = .ok (r,t) → Along exec P (next r) t

instance decidableAlong {exec : Exec Op Resp ε S} {P : Op → S → Prop} [∀ op s, Decidable (P op s)] :
    ∀ (p : Program Op Resp ε α) (s : S), Decidable (p.Along exec P s)
  | .pure _, _ => .isTrue trivial
  | .throw _, _ => .isTrue trivial
  | .call op next, s =>
    match he : exec op s with
    | .ok (r,t) =>
      have : Decidable ((next r).Along exec P t) := decidableAlong (next r) t
      decidable_of_iff (P op s ∧ (next r).Along exec P t)
        ⟨fun h => ⟨h.1,fun r' t' he' => by cases he.symm.trans he'; exact h.2⟩,fun h => ⟨h.1,h.2 r t he⟩⟩
    | .error _ =>
      decidable_of_iff (P op s) ⟨fun h => ⟨h,fun r' t' he' => by cases he.symm.trans he'⟩,fun h => h.1⟩

theorem Along.mono {exec : Exec Op Resp ε S} {P Q : Op → S → Prop} {p : Program Op Resp ε α} {s : S}
    (h : p.Along exec P s) (hPQ : ∀ op s, P op s → Q op s) : p.Along exec Q s := by
  induction p generalizing s with
  | pure a => trivial
  | throw e => trivial
  | call op next ih => exact ⟨hPQ op s h.1,fun r t he => ih r (h.2 r t he)⟩

/-- Executions that agree on the operations of a program agree on the program. -/
theorem run_congr_along {exec exec' : Exec Op Resp ε S} {P : Op → S → Prop} {p : Program Op Resp ε α} {s : S}
    (h : p.Along exec P s) (hagree : ∀ op s, P op s → exec' op s = exec op s) : p.run exec' s = p.run exec s := by
  induction p generalizing s with
  | pure a => rfl
  | throw e => rfl
  | call op next ih =>
    rw [run, run, hagree op s h.1]
    cases he : exec op s with
    | error e => rfl
    | ok q => exact ih q.1 (h.2 q.1 q.2 he)

theorem along_call {exec : Exec Op Resp ε S} {P : Op → S → Prop} {op : Op} {s : S} :
    (Program.call op .pure : Program Op Resp ε _).Along exec P s ↔ P op s :=
  ⟨fun h => h.1,fun h => ⟨h,fun _ _ _ => trivial⟩⟩

theorem along_pure {exec : Exec Op Resp ε S} {P : Op → S → Prop} (a : α) (s : S) :
    (Pure.pure a : Program Op Resp ε α).Along exec P s := trivial

theorem along_lift {exec : Exec Op Resp ε S} {P : Op → S → Prop} (x : Except ε α) (s : S) :
    (lift x : Program Op Resp ε α).Along exec P s := by
  cases x <;> trivial

/-- Along a sequence whose first part returns is along the first part and along the rest. -/
theorem along_bind_of_ok {exec : Exec Op Resp ε S} {P : Op → S → Prop} {p : Program Op Resp ε α}
    {f : α → Program Op Resp ε β} {s t : S} {a : α} (h : p.run exec s = (.ok a,t)) :
    (p >>= f).Along exec P s ↔ p.Along exec P s ∧ (f a).Along exec P t := by
  induction p generalizing s with
  | pure b =>
    obtain ⟨hb,rfl⟩ := Prod.mk.inj h
    cases hb
    exact ⟨fun hf => ⟨trivial,hf⟩,fun hf => hf.2⟩
  | throw e => exact absurd h run_throw_ne_ok
  | call op next ih =>
    obtain ⟨r,u,hop,hrun⟩ := run_call_eq_ok.mp h
    rw [bind_call, Along, Along]
    constructor
    · rintro ⟨hP,hnext⟩
      obtain ⟨hp,hf⟩ := (ih r hrun).mp (hnext r u hop)
      refine ⟨⟨hP,fun r' u' hop' => ?_⟩,hf⟩
      cases hop.symm.trans hop'
      exact hp
    · rintro ⟨⟨hP,hnext⟩,hf⟩
      refine ⟨hP,fun r' u' hop' => ?_⟩
      cases hop.symm.trans hop'
      exact (ih r hrun).mpr ⟨hnext r u hop,hf⟩

/-- When what an operation does to a flag says whether `P` held, the flag says it of a whole program. -/
theorem along_iff {exec : Exec Op Resp ε S} {P : Op → S → Prop} {Q : Op → Prop} {p : Program Op Resp ε α}
    (flag : S → Bool) (hp : p.Performs Q) (ha : Answers exec)
    (hflag : ∀ op s r t, Q op → exec op s = .ok (r,t) → flag s = true → flag t = true)
    (hstep : ∀ op s r t, Q op → exec op s = .ok (r,t) → flag s = false → (P op s ↔ flag t = false)) {s : S}
    (hs : flag s = false) : p.Along exec P s ↔ flag (p.run exec s).2 = false := by
  induction p generalizing s with
  | pure a => simpa [Along, run] using hs
  | throw e => simpa [Along, run] using hs
  | call op next ih =>
    obtain ⟨⟨r,t⟩,he⟩ := ha op s
    obtain ⟨hop,hnext⟩ := hp
    have hiff := hstep op s r t hop he hs
    rw [Along, run, he]
    cases ht : flag t with
    | true =>
      have hstay : flag ((next r).run exec t).2 = true :=
        (hnext r).relates (R := fun s t => flag s = true → flag t = true) (fun _ h => h)
          (fun _ _ _ h h' hf => h' (h hf))
          hflag t ht
      rw [hiff, ht, hstay]
      simp
    | false =>
      rw [← ih r (hnext r) ht, hiff, ht]
      constructor
      · exact fun h => h.2 r t rfl
      · intro h
        refine ⟨rfl,fun r' t' he' => ?_⟩
        cases he'
        exact h

section Run
variable {exec : Exec Op Resp ε S} {exec' : Exec Op' Resp' ε S'}

/-- A handled program ends as the program does, with its outcome as its value. -/
theorem run_attempt (h : Answers exec) (p : Program Op Resp ε α) (s : S) :
    p.attempt.run exec s = (.ok (p.run exec s).1,(p.run exec s).2) := by
  induction p generalizing s with
  | pure a => rfl
  | throw e => rfl
  | call op next ih =>
    obtain ⟨q,hq⟩ := h op s
    rw [attempt, run, run, hq]
    exact ih q.1 q.2

/-- An embedded program does to its part of the state what it does on its own. -/
theorem run_embed {op' : Op → Op'} {answer : (op : Op) → Resp' (op' op) → Except ε (Resp op)} {get : S' → S}
    {put : S' → S → S'} (hget : ∀ s' s, get (put s' s) = s) (hput : ∀ s' s t, put (put s' s) t = put s' t)
    (hself : ∀ s', put s' (get s') = s')
    (hok : ∀ op s' r t, exec op (get s') = .ok (r,t) → ∃ r', exec' (op' op) s' = .ok (r',put s' t) ∧
      answer op r' = .ok r)
    (herror : ∀ op s' e, exec op (get s') = .error e → ∃ r', exec' (op' op) s' = .ok (r',s') ∧ answer op r' = .error e)
    (p : Program Op Resp ε α) (s' : S') :
    (p.embed op' answer).run exec' s' = ((p.run exec (get s')).1,put s' (p.run exec (get s')).2) := by
  induction p generalizing s' with
  | pure a => rw [embed, run, run, hself]
  | throw e => rw [embed, run, run, hself]
  | call op next ih =>
    rw [embed, run, run]
    cases he : exec op (get s') with
    | error e =>
      obtain ⟨r',hr',ha⟩ := herror op s' e he
      simp only [hr', ha, run, hself]
    | ok q =>
      obtain ⟨r',hr',ha⟩ := hok op s' q.1 q.2 he
      simp only [hr', ha]
      rw [ih, hget, hput]

end Run

end UnlearnShield.Program
