import Mathlib

/-! # Programs that perform operations

A program is a tree of the operations it performs; what it does next depends on
what an operation answers. The same program can be run to its end, stopped after
any number of operations, or interleaved with others, so one text has one meaning
for a call that returns, one that crashes and two that run at once.
-/
namespace UnlearnShield

inductive Program (Op : Type) (Resp : Op → Type) (ε α : Type)
  | pure (a : α)
  | throw (e : ε)
  | call (op : Op) (next : Resp op → Program Op Resp ε α)

/-- What one operation does to the state of a machine. An operation that fails changes nothing. -/
abbrev Exec (Op : Type) (Resp : Op → Type) (ε S : Type) := (op : Op) → S → Except ε (Resp op × S)

namespace Program
variable {Op : Type} {Resp : Op → Type} {ε α β S G : Type}

def bind : Program Op Resp ε α → (α → Program Op Resp ε β) → Program Op Resp ε β
  | .pure a, f => f a
  | .throw e, _ => .throw e
  | .call op next, f => .call op fun r => (next r).bind f

instance : Monad (Program Op Resp ε) where
  pure := .pure
  bind := Program.bind

def lift : Except ε α → Program Op Resp ε α
  | .ok a => .pure a
  | .error e => .throw e

@[simp] theorem bind_pure' (a : α) (f : α → Program Op Resp ε β) : (Program.pure a >>= f) = f a := rfl
@[simp] theorem bind_throw (e : ε) (f : α → Program Op Resp ε β) :
    (Program.throw e >>= f) = Program.throw e := rfl
@[simp] theorem bind_call (op : Op) (next : Resp op → Program Op Resp ε α) (f : α → Program Op Resp ε β) :
    (Program.call op next >>= f) = Program.call op fun r => next r >>= f := rfl
theorem pure_eq (a : α) : (Pure.pure a : Program Op Resp ε α) = Program.pure a := rfl

section Run
variable (exec : Exec Op Resp ε S)

def run : Program Op Resp ε α → S → Except ε α × S
  | .pure a, s => (.ok a,s)
  | .throw e, s => (.error e,s)
  | .call op next, s =>
    match exec op s with
    | .ok (r,t) => run (next r) t
    | .error e => (.error e,s)

/-- The state after the first `n` operations, or after all of them. -/
def stopAfter : ℕ → Program Op Resp ε α → S → S
  | n + 1, .call op next, s =>
    match exec op s with
    | .ok (r,t) => stopAfter n (next r) t
    | .error _ => s
  | _, _, s => s

variable {exec}

theorem run_call_eq_ok {op : Op} {next : Resp op → Program Op Resp ε α} {s t : S} {a : α} :
    (Program.call op next).run exec s = (.ok a,t) ↔
      ∃ r u, exec op s = .ok (r,u) ∧ (next r).run exec u = (.ok a,t) := by
  rw [run]
  cases exec op s with
  | error e => simp
  | ok p =>
    constructor
    · exact fun h => ⟨p.1,p.2,rfl,h⟩
    · rintro ⟨r,u,he,h⟩
      cases he
      exact h

theorem run_bind_eq_ok {p : Program Op Resp ε α} {f : α → Program Op Resp ε β} {s t : S} {b : β} :
    (p >>= f).run exec s = (.ok b,t) ↔
      ∃ a u, p.run exec s = (.ok a,u) ∧ (f a).run exec u = (.ok b,t) := by
  induction p generalizing s with
  | pure a => simp [run]
  | throw e => simp [run]
  | call op next ih =>
    simp only [bind_call, run_call_eq_ok, ih]
    constructor
    · rintro ⟨r,u,he,a,u',hr,hf⟩
      exact ⟨a,u',⟨r,u,he,hr⟩,hf⟩
    · rintro ⟨a,u',⟨r,u,he,hr⟩,hf⟩
      exact ⟨r,u,he,a,u',hr,hf⟩

theorem run_bind (p : Program Op Resp ε α) (f : α → Program Op Resp ε β) (s : S) :
    (p >>= f).run exec s = match p.run exec s with
      | (.ok a,t) => (f a).run exec t
      | (.error e,t) => (.error e,t) := by
  induction p generalizing s with
  | pure a => rfl
  | throw e => rfl
  | call op next ih =>
    rw [bind_call, run, run]
    cases exec op s with
    | error e => rfl
    | ok p => exact ih p.1 p.2

/-- A sequence raises in its first part, or in the rest on the value of the first. -/
theorem run_bind_eq_error {p : Program Op Resp ε α} {f : α → Program Op Resp ε β} {s t : S} {e : ε} :
    (p >>= f).run exec s = (.error e,t) ↔
      p.run exec s = (.error e,t) ∨ ∃ a u, p.run exec s = (.ok a,u) ∧ (f a).run exec u = (.error e,t) := by
  rw [run_bind]
  rcases p.run exec s with ⟨r,u⟩
  cases r with
  | error e' => simp
  | ok a =>
    simp only [Prod.mk.injEq, reduceCtorEq, false_and, false_or, Except.ok.injEq]
    constructor
    · exact fun h => ⟨a,u,⟨rfl,rfl⟩,h⟩
    · rintro ⟨a',u',⟨rfl,rfl⟩,h⟩
      exact h

theorem run_bind_of_ok {p : Program Op Resp ε α} {f : α → Program Op Resp ε β} {s t : S} {a : α}
    (h : p.run exec s = (.ok a,t)) : (p >>= f).run exec s = (f a).run exec t := by
  rw [run_bind, h]

theorem run_pure_eq_ok {a b : α} {s t : S} :
    (Pure.pure a : Program Op Resp ε α).run exec s = (.ok b,t) ↔ a = b ∧ s = t := by
  simp [pure_eq, run]

theorem run_lift_eq_ok {x : Except ε α} {s t : S} {a : α} :
    (lift x : Program Op Resp ε α).run exec s = (.ok a,t) ↔ x = .ok a ∧ s = t := by
  cases x <;> simp [lift, run]

/-- An operation that fails leaves the state as it was. -/
theorem eq_of_run_call_error {op : Op} {s t : S} {e : ε}
    (h : (Program.call op .pure : Program Op Resp ε _).run exec s = (.error e,t)) : t = s := by
  rw [run] at h
  cases he : exec op s with
  | error e' =>
    rw [he] at h
    exact (Prod.mk.inj h).2.symm
  | ok p =>
    rw [he] at h
    exact absurd (Prod.mk.inj h).1 (by simp)

theorem run_lift_eq_error {x : Except ε α} {s t : S} {e : ε} :
    (lift x : Program Op Resp ε α).run exec s = (.error e,t) ↔ x = .error e ∧ s = t := by
  cases x <;> simp [lift, run]

theorem run_pure_ne_error {a : α} {s t : S} {e : ε} :
    (Pure.pure a : Program Op Resp ε α).run exec s ≠ (.error e,t) := by
  simp [pure_eq, run]

theorem run_throw_ne_ok {e : ε} {s t : S} {a : α} :
    (Program.throw e : Program Op Resp ε α).run exec s ≠ (.ok a,t) := by
  simp [run]

end Run

section Safety

def Safe (exec : Exec Op Resp ε S) (I : S → Prop) (Q : α → S → Prop) : Program Op Resp ε α → S → Prop
  | .pure a, s => Q a s
  | .throw _, _ => True
  | .call op next, s => ∀ r t, exec op s = .ok (r,t) → I t ∧ Safe exec I Q (next r) t

variable {exec : Exec Op Resp ε S} {I : S → Prop} {Q Q' : α → S → Prop}

theorem Safe.mono {p : Program Op Resp ε α} {s : S} (h : p.Safe exec I Q s) (hq : ∀ a t, Q a t → Q' a t) :
    p.Safe exec I Q' s := by
  induction p generalizing s with
  | pure a => exact hq a s h
  | throw e => trivial
  | call op next ih =>
    intro r t he
    obtain ⟨hi,hn⟩ := h r t he
    exact ⟨hi,ih r hn⟩

theorem Safe.mono_invariant {J : S → Prop} {p : Program Op Resp ε α} {s : S} (h : p.Safe exec I Q s)
    (hI : ∀ t, I t → J t) : p.Safe exec J Q s := by
  induction p generalizing s with
  | pure a => exact h
  | throw e => trivial
  | call op next ih =>
    intro r t he
    obtain ⟨hi,hn⟩ := h r t he
    exact ⟨hI t hi,ih r hn⟩

theorem safe_bind {p : Program Op Resp ε α} {f : α → Program Op Resp ε β} {Q : β → S → Prop} {s : S}
    (h : p.Safe exec I (fun a t => (f a).Safe exec I Q t) s) : (p >>= f).Safe exec I Q s := by
  induction p generalizing s with
  | pure a => exact h
  | throw e => trivial
  | call op next ih =>
    intro r t he
    obtain ⟨hi,hn⟩ := h r t he
    exact ⟨hi,ih r hn⟩

theorem safe_call {op : Op} {Q : Resp op → S → Prop} {s : S}
    (h : ∀ r t, exec op s = .ok (r,t) → I t ∧ Q r t) : (Program.call op .pure).Safe exec I Q s := h

theorem safe_lift {x : Except ε α} {s : S} (h : ∀ a, x = .ok a → Q a s) :
    (lift x : Program Op Resp ε α).Safe exec I Q s := by
  cases x with
  | error e => trivial
  | ok a => exact h a rfl

/-- A safe program may be stopped anywhere. -/
theorem Safe.stopAfter {p : Program Op Resp ε α} {s : S} (h : p.Safe exec I Q s) (hs : I s) (n : ℕ) :
    I (p.stopAfter exec n s) := by
  induction p generalizing s n with
  | pure a => cases n <;> exact hs
  | throw e => cases n <;> exact hs
  | call op next ih =>
    cases n with
    | zero => exact hs
    | succ n =>
      unfold Program.stopAfter
      cases he : exec op s with
      | error e => exact hs
      | ok p =>
        obtain ⟨hi,hn⟩ := h p.1 p.2 he
        exact ih p.1 hn hi n

/-- An operation that succeeds uses up one step; what only computes uses none. -/
theorem stopAfter_call_bind {op : Op} {f : Resp op → Program Op Resp ε β} {s t : S} {r : Resp op}
    (h : exec op s = .ok (r,t)) (n : ℕ) :
    (Program.call op .pure >>= f).stopAfter exec (n+1) s = (f r).stopAfter exec n t := by
  rw [bind_call, Program.stopAfter, h]
  rfl

theorem stopAfter_lift_bind {x : Except ε α} {f : α → Program Op Resp ε β} {a : α} (h : x = .ok a) (n : ℕ) (s : S) :
    (lift x >>= f).stopAfter exec n s = (f a).stopAfter exec n s := by
  subst h
  rfl

/-- However a safe program ends, by returning or by raising, `I` holds. -/
theorem Safe.final {p : Program Op Resp ε α} {s : S} (h : p.Safe exec I Q s) (hs : I s) : I (p.run exec s).2 := by
  induction p generalizing s with
  | pure a => exact hs
  | throw e => exact hs
  | call op next ih =>
    unfold Program.run
    cases he : exec op s with
    | error e => exact hs
    | ok p =>
      obtain ⟨hi,hn⟩ := h p.1 p.2 he
      exact ih p.1 hn hi

theorem Safe.run {p : Program Op Resp ε α} {s t : S} {a : α} (h : p.Safe exec I Q s)
    (hr : p.run exec s = (.ok a,t)) : Q a t := by
  induction p generalizing s with
  | pure b =>
    simp only [Program.run, Prod.mk.injEq, Except.ok.injEq] at hr
    obtain ⟨rfl,rfl⟩ := hr
    exact h
  | throw e => exact absurd hr run_throw_ne_ok
  | call op next ih =>
    obtain ⟨r,u,he,hn⟩ := run_call_eq_ok.mp hr
    exact ih r (h r u he).2 hn

end Safety

section Observed

/-- The machine together with a record of what it did, which no operation reads. -/
def observed (exec : Exec Op Resp ε S) (observe : Op → G → G) : Exec Op Resp ε (S × G) := fun op s =>
  match exec op s.1 with
  | .ok (r,t) => .ok (r,(t,observe op s.2))
  | .error e => .error e

variable {exec : Exec Op Resp ε S} {observe : Op → G → G}

theorem observed_eq_ok {op : Op} {s : S × G} {r : Resp op} {t : S × G} :
    observed exec observe op s = .ok (r,t) ↔ exec op s.1 = .ok (r,t.1) ∧ observe op s.2 = t.2 := by
  obtain ⟨t,g⟩ := t
  unfold observed
  cases exec op s.1 with
  | error e => simp
  | ok p => simp [Prod.ext_iff, and_assoc]

end Observed

end Program

end UnlearnShield
