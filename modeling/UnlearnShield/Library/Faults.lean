import UnlearnShield.Library.Effects

/-! # Machines with faults

An operation that fails may leave something half done. A program raises at the first
operation that fails, in the state this operation left. On a machine that adds faults to
another one a program returns exactly when it returns there and meets no fault on its way.
-/
namespace UnlearnShield

/-- What one operation answers, and the state it leaves even when it fails. -/
abbrev FaultyExec (Op : Type) (Resp : Op → Type) (ε S : Type) := (op : Op) → S → Except ε (Resp op) × S

namespace Program
variable {Op : Type} {Resp : Op → Type} {ε α β S : Type}

def runFaulty (exec : FaultyExec Op Resp ε S) : Program Op Resp ε α → S → Except ε α × S
  | .pure a, s => (.ok a,s)
  | .throw e, s => (.error e,s)
  | .call op next, s =>
    match exec op s with
    | (.ok r,t) => runFaulty exec (next r) t
    | (.error e,t) => (.error e,t)

section Run
variable {exec : FaultyExec Op Resp ε S}

theorem runFaulty_bind (p : Program Op Resp ε α) (f : α → Program Op Resp ε β) (s : S) :
    (p >>= f).runFaulty exec s = match p.runFaulty exec s with
      | (.ok a,t) => (f a).runFaulty exec t
      | (.error e,t) => (.error e,t) := by
  induction p generalizing s with
  | pure a => rfl
  | throw e => rfl
  | call op next ih =>
    rw [bind_call, runFaulty, runFaulty]
    rcases exec op s with ⟨r | r,t⟩
    · rfl
    · exact ih r t

theorem runFaulty_bind_of_ok {p : Program Op Resp ε α} {f : α → Program Op Resp ε β} {s t : S} {a : α}
    (h : p.runFaulty exec s = (.ok a,t)) : (p >>= f).runFaulty exec s = (f a).runFaulty exec t := by
  rw [runFaulty_bind, h]

/-- A sequence raises in its first part, or in the rest on the value of the first. -/
theorem runFaulty_bind_eq_error {p : Program Op Resp ε α} {f : α → Program Op Resp ε β} {s t : S} {e : ε} :
    (p >>= f).runFaulty exec s = (.error e,t) ↔ p.runFaulty exec s = (.error e,t) ∨
      ∃ a u, p.runFaulty exec s = (.ok a,u) ∧ (f a).runFaulty exec u = (.error e,t) := by
  rw [runFaulty_bind]
  rcases p.runFaulty exec s with ⟨e' | a,u⟩
  · simp
  · simp only [Prod.mk.injEq, reduceCtorEq, false_and, false_or, Except.ok.injEq]
    constructor
    · exact fun h => ⟨a,u,⟨rfl,rfl⟩,h⟩
    · rintro ⟨a',u',⟨rfl,rfl⟩,h⟩
      exact h

/-- What every operation the program performs keeps, failing or not, the program keeps. -/
theorem Performs.runFaulty_relates {P : Op → Prop} {R : S → S → Prop} {p : Program Op Resp ε α} (h : p.Performs P)
    (hrefl : ∀ s, R s s) (htrans : ∀ s t u, R s t → R t u → R s u) (hstep : ∀ op s, P op → R s (exec op s).2)
    (s : S) : R s (p.runFaulty exec s).2 := by
  induction p generalizing s with
  | pure a => exact hrefl s
  | throw e => exact hrefl s
  | call op next ih =>
    have hop := hstep op s h.1
    rw [runFaulty]
    rcases hexec : exec op s with ⟨e | r,t⟩
    · rw [hexec] at hop
      exact hop
    · rw [hexec] at hop
      exact htrans _ _ _ hop (ih r (h.2 r) t)

end Run

/-- The machine `exec` on which an operation with a fault fails and leaves what `left` says. -/
def withFaults (exec : Exec Op Resp ε S) (fault : Op → Option ε) (left : Op → S → S) : FaultyExec Op Resp ε S :=
  fun op s =>
    match fault op with
    | some e => (.error e,left op s)
    | none =>
      match exec op s with
      | .ok (r,t) => (.ok r,t)
      | .error e => (.error e,s)

section Faults
variable {exec : Exec Op Resp ε S} {fault : Op → Option ε} {left : Op → S → S}

theorem withFaults_of_fault {op : Op} {e : ε} (h : fault op = some e) (s : S) :
    withFaults exec fault left op s = (.error e,left op s) := by
  rw [withFaults, h]

theorem withFaults_eq_ok {op : Op} {s t : S} {r : Resp op} :
    withFaults exec fault left op s = (.ok r,t) ↔ fault op = none ∧ exec op s = .ok (r,t) := by
  unfold withFaults
  cases fault op with
  | some e => simp
  | none => rcases exec op s with e | ⟨r',t'⟩ <;> simp

/-- With faults a program returns what it returns without, when it meets none on its way. -/
theorem runFaulty_eq_ok {p : Program Op Resp ε α} {s t : S} {a : α} :
    p.runFaulty (withFaults exec fault left) s = (.ok a,t) ↔
      p.run exec s = (.ok a,t) ∧ p.Along exec (fun op _ => fault op = none) s := by
  induction p generalizing s with
  | pure b => simp [runFaulty, run, Along]
  | throw e => simp [runFaulty, run]
  | call op next ih =>
    rw [runFaulty, run_call_eq_ok, Along]
    constructor
    · intro h
      rcases hexec : withFaults exec fault left op s with ⟨e | r,u⟩
      · rw [hexec] at h
        cases (Prod.mk.inj h).1
      · rw [hexec] at h
        obtain ⟨hfault,hop⟩ := withFaults_eq_ok.mp hexec
        obtain ⟨hrun,halong⟩ := ih r |>.mp h
        refine ⟨⟨r,u,hop,hrun⟩,hfault,fun r' u' hop' => ?_⟩
        cases hop.symm.trans hop'
        exact halong
    · rintro ⟨⟨r,u,hop,hrun⟩,hfault,halong⟩
      rw [withFaults_eq_ok.mpr ⟨hfault,hop⟩]
      exact (ih r).mpr ⟨hrun,halong r u hop⟩

end Faults

end Program

end UnlearnShield
