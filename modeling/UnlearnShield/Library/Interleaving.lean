import UnlearnShield.Library.Program

/-! # Two programs on one shared state

Each of two processes runs a program over a memory of its own and a state both
share. A schedule says whose turn it is; a turn performs one operation.
-/
namespace UnlearnShield

namespace Program
variable {Op : Type} {Resp : Op → Type} {ε α S L : Type}

/-- One operation of a process; a process that is done does nothing. -/
def turn (exec : Exec Op Resp ε (S × L)) : Program Op Resp ε α × L → S → (Program Op Resp ε α × L) × S
  | (.call op next,l), s =>
    match exec op (s,l) with
    | .ok (r,t) => ((next r,t.2),t.1)
    | .error e => ((.throw e,l),s)
  | p, s => (p,s)

variable {exec : Exec Op Resp ε (S × L)}

/-- How a program ends on its own does not change by its turns. -/
theorem run_turn (p : Program Op Resp ε α × L) (s : S) :
    (turn exec p s).1.1.run exec ((turn exec p s).2,(turn exec p s).1.2) = p.1.run exec (s,p.2) := by
  obtain ⟨p,l⟩ := p
  cases p with
  | pure a => rfl
  | throw e => rfl
  | call op next =>
    unfold turn
    dsimp only
    rw [Program.run]
    cases exec op (s,l) with
    | error e => rfl
    | ok rt => rfl

end Program

@[ext] structure Two (Op : Type) (Resp : Op → Type) (ε α S L : Type) where
  first : Program Op Resp ε α × L
  second : Program Op Resp ε α × L
  shared : S

namespace Two
variable {Op : Type} {Resp : Op → Type} {ε α S L : Type} (exec : Exec Op Resp ε (S × L))

def swap (c : Two Op Resp ε α S L) : Two Op Resp ε α S L := ⟨c.second,c.first,c.shared⟩

/-- A turn of the first process on `true`, of the second on `false`. -/
def step (c : Two Op Resp ε α S L) : Bool → Two Op Resp ε α S L
  | true => ⟨(Program.turn exec c.first c.shared).1,c.second,(Program.turn exec c.first c.shared).2⟩
  | false => ⟨c.first,(Program.turn exec c.second c.shared).1,(Program.turn exec c.second c.shared).2⟩

def interleave (schedule : List Bool) (c : Two Op Resp ε α S L) : Two Op Resp ε α S L := schedule.foldl (step exec) c

variable {exec}

variable (exec) in
theorem interleave_swap (schedule : List Bool) (c : Two Op Resp ε α S L) :
    interleave exec (schedule.map (!·)) c.swap = (interleave exec schedule c).swap := by
  induction schedule generalizing c with
  | nil => rfl
  | cons b schedule ih =>
    cases b with
    | true => exact ih (step exec c true)
    | false => exact ih (step exec c false)

theorem interleave_append (schedule schedule' : List Bool) (c : Two Op Resp ε α S L) :
    interleave exec (schedule ++ schedule') c = interleave exec schedule' (interleave exec schedule c) :=
  List.foldl_append ..

theorem interleave_snoc (schedule : List Bool) (b : Bool) (c : Two Op Resp ε α S L) :
    interleave exec (schedule ++ [b]) c = step exec (interleave exec schedule c) b := by
  rw [interleave_append]
  rfl

variable (exec) in
/-- While only the first process has turns it runs alone. -/
theorem run_replicate (n : ℕ) (c : Two Op Resp ε α S L) :
    (interleave exec (List.replicate n true) c).second = c.second ∧
      (interleave exec (List.replicate n true) c).first.1.run exec
        ((interleave exec (List.replicate n true) c).shared,(interleave exec (List.replicate n true) c).first.2) =
      c.first.1.run exec (c.shared,c.first.2) := by
  induction n generalizing c with
  | zero => exact ⟨rfl,rfl⟩
  | succ n ih =>
    obtain ⟨hsecond,hrun⟩ := ih (step exec c true)
    exact ⟨hsecond,hrun.trans (Program.run_turn c.first c.shared)⟩

variable (exec) in
/-- Once the first process has returned the second one runs alone. -/
theorem run_of_returned {a : α} {l : L} (schedule : List Bool) {q : Program Op Resp ε α × L} {s : S} :
    (interleave exec schedule ⟨(.pure a,l),q,s⟩).first = (.pure a,l) ∧
      (interleave exec schedule ⟨(.pure a,l),q,s⟩).second.1.run exec
        ((interleave exec schedule ⟨(.pure a,l),q,s⟩).shared,(interleave exec schedule ⟨(.pure a,l),q,s⟩).second.2) =
      q.1.run exec (s,q.2) := by
  induction schedule generalizing q s with
  | nil => exact ⟨rfl,rfl⟩
  | cons b schedule ih =>
    cases b with
    | true => exact ih
    | false =>
      obtain ⟨hfirst,hrun⟩ := ih (q := (Program.turn exec q s).1) (s := (Program.turn exec q s).2)
      exact ⟨hfirst,hrun.trans (Program.run_turn q s)⟩

/-- Given enough turns, a program that returns on its own has returned. -/
theorem exists_replicate {p q : Program Op Resp ε α × L} {s t : S} {a : α} {l : L}
    (h : p.1.run exec (s,p.2) = (.ok a,(t,l))) :
    ∃ n, interleave exec (List.replicate n true) ⟨p,q,s⟩ = ⟨(.pure a,l),q,t⟩ := by
  obtain ⟨p,m⟩ := p
  induction p generalizing s m with
  | pure b =>
    cases h
    exact ⟨0,rfl⟩
  | throw e => exact absurd h Program.run_throw_ne_ok
  | call op next ih =>
    obtain ⟨r,u,he,hr⟩ := Program.run_call_eq_ok.mp h
    obtain ⟨n,hn⟩ := ih r u.2 hr
    refine ⟨n+1,?_⟩
    have hturn : Program.turn exec (Program.call op next,m) s = ((next r,u.2),u.1) := by
      rw [Program.turn, he]
    rw [List.replicate_succ]
    change interleave exec (List.replicate n true) ⟨(Program.turn exec (Program.call op next,m) s).1,q,
      (Program.turn exec (Program.call op next,m) s).2⟩ = _
    rw [hturn]
    exact hn

theorem exists_replicate_second {p q : Program Op Resp ε α × L} {s t : S} {a : α} {l : L}
    (h : q.1.run exec (s,q.2) = (.ok a,(t,l))) :
    ∃ n, interleave exec (List.replicate n false) ⟨p,q,s⟩ = ⟨p,(.pure a,l),t⟩ := by
  obtain ⟨n,hn⟩ := exists_replicate (q := p) h
  have hswap := interleave_swap exec (List.replicate n true) ⟨q,p,s⟩
  rw [List.map_replicate, hn] at hswap
  exact ⟨n,hswap⟩

end Two

end UnlearnShield
