import UnlearnShield.Library.Contract

/-! # Processes that are watched

What a process has been answered is noted. What a program may do can depend on the notes of
its own process alone: then it keeps to that whatever the others do, by one rule for an
operation, for a bind and for a handler. Watching changes nothing: every run of a machine can
be watched.
-/
namespace UnlearnShield
open Relation
variable {ι Op Op' ε α β S G : Type} {Resp : Op → Type} {Resp' : Op' → Type}

/-- What is noted when an operation is answered. -/
abbrev Note (Op : Type) (Resp : Op → Type) (G : Type) := (op : Op) → Resp op → G → G

namespace Program
variable {note : Note Op Resp G} {may : Op → G → Prop} {R R' : α → G → Prop} {T : β → G → Prop}

/-- Whatever it is answered, the program performs only what its notes allow, and `R` holds of what it returns. -/
def Heeds (note : Note Op Resp G) (may : Op → G → Prop) (R : α → G → Prop) : Program Op Resp ε α → G → Prop
  | .pure a, g => R a g
  | .throw _, _ => True
  | .call op next, g => may op g ∧ ∀ r, Heeds note may R (next r) (note op r g)

theorem Heeds.mono {p : Program Op Resp ε α} {g : G} (h : p.Heeds note may R g) (hr : ∀ a g, R a g → R' a g) :
    p.Heeds note may R' g := by
  induction p generalizing g with
  | pure a => exact hr a g h
  | throw e => trivial
  | call op next ih => exact ⟨h.1,fun r => ih r (h.2 r)⟩

theorem Heeds.bind {p : Program Op Resp ε α} {f : α → Program Op Resp ε β} {g : G} (h : p.Heeds note may R g)
    (hf : ∀ a g, R a g → (f a).Heeds note may T g) : (p >>= f).Heeds note may T g := by
  induction p generalizing g with
  | pure a => exact hf a g h
  | throw e => trivial
  | call op next ih => exact ⟨h.1,fun r => ih r (h.2 r)⟩

/-- A handler gets what the program promises of what it returns. -/
theorem Heeds.attempt {p : Program Op Resp ε α} {g : G} (h : p.Heeds note may R g) :
    p.attempt.Heeds note may (fun x g => ∀ a, x = .ok a → R a g) g := by
  induction p generalizing g with
  | pure a =>
    intro b hb
    rw [← Except.ok.inj hb]
    exact h
  | throw e => exact fun b hb => by cases hb
  | call op next ih => exact ⟨h.1,fun r => ih r (h.2 r)⟩

theorem heeds_lift {x : Except ε α} {g : G} (h : ∀ a, x = .ok a → R a g) :
    (lift x : Program Op Resp ε α).Heeds note may R g := by
  cases x with
  | ok a => exact h a rfl
  | error e => trivial

theorem heeds_lift_bind {x : Except ε α} {f : α → Program Op Resp ε β} {g : G}
    (h : ∀ a, x = .ok a → (f a).Heeds note may T g) : (lift x >>= f).Heeds note may T g := by
  cases x with
  | ok a => exact h a rfl
  | error e => trivial

/-- A program all of whose operations are allowed and keep `P` keeps it. -/
theorem heeds_of_performs {A : Op → Prop} {P : G → Prop} {p : Program Op Resp ε α} (hp : p.Performs A)
    (hmay : ∀ op g, A op → P g → may op g) (hnote : ∀ op r g, A op → P g → P (note op r g)) {g : G} (hP : P g) :
    p.Heeds note may (fun _ => P) g := by
  induction p generalizing g with
  | pure a => exact hP
  | throw e => trivial
  | call op next ih => exact ⟨hmay op g hp.1 hP,fun r => ih r (hp.2 r) (hnote op r g hp.1 hP)⟩

/-- What a program returns whatever it is answered, it returns. -/
theorem Heeds.yields {p : Program Op Resp ε α} {Y : α → Prop} {g : G} (h : p.Heeds note may R g) (hp : p.Yields Y) :
    p.Heeds note may (fun a g => R a g ∧ Y a) g := by
  induction p generalizing g with
  | pure a => exact ⟨h,hp⟩
  | throw e => trivial
  | call op next ih => exact ⟨h.1,fun r => ih r (h.2 r) (hp r)⟩

/-- An embedded program is noted as it is on its own. -/
theorem Heeds.embed {op' : Op → Op'} {answer : (op : Op) → Resp' (op' op) → Except ε (Resp op)}
    {note' : Note Op' Resp' G} {may' : Op' → G → Prop} {p : Program Op Resp ε α} {g : G} (h : p.Heeds note may R g)
    (hnote : ∀ op r' r g, answer op r' = .ok r → note' (op' op) r' g = note op r g)
    (hmay : ∀ op g, may op g → may' (op' op) g) : (p.embed op' answer).Heeds note' may' R g := by
  induction p generalizing g with
  | pure a => exact h
  | throw e => trivial
  | call op next ih =>
    rw [Program.embed]
    refine ⟨hmay op g h.1,fun r' => ?_⟩
    beta_reduce
    cases ha : answer op r' with
    | ok r =>
      rw [hnote op r' r g ha]
      exact ih r (h.2 r)
    | error e => trivial

end Program

namespace Machine
variable [DecidableEq ι] {M : Machine ι Op Resp ε S} {note : Note Op Resp G} {may : ι → Op → G → Prop}

/-- The machine that notes what each process has been answered. No operation reads the notes. -/
def watched (M : Machine ι Op Resp ε S) (note : Note Op Resp G) : Machine ι Op Resp ε (S × (ι → G)) where
  exec i op s :=
    match M.exec i op s.1 with
    | .ok (r,t) => .ok (r,t,Function.update s.2 i (note op r (s.2 i)))
    | .error e => .error e
  crash i s := (M.crash i s.1,s.2)
  env s t := M.env s.1 t.1 ∧ t.2 = s.2

theorem exec_watched {i : ι} {op : Op} {s t : S × (ι → G)} {r : Resp op} :
    (M.watched note).exec i op s = .ok (r,t) ↔
      M.exec i op s.1 = .ok (r,t.1) ∧ t.2 = Function.update s.2 i (note op r (s.2 i)) := by
  obtain ⟨t,notes⟩ := t
  rw [watched]
  dsimp only
  cases M.exec i op s.1 with
  | error e => simp
  | ok p =>
    obtain ⟨r',u⟩ := p
    constructor
    · intro h
      obtain ⟨rfl,hstate⟩ := Prod.mk.inj (Except.ok.inj h)
      obtain ⟨rfl,rfl⟩ := Prod.mk.inj hstate
      exact ⟨rfl,rfl⟩
    · rintro ⟨h,rfl⟩
      obtain ⟨rfl,rfl⟩ := Prod.mk.inj (Except.ok.inj h)
      rfl

/-- Every run of the machine can be watched. -/
theorem Reaches.watched (note : Note Op Resp G) {p q : Pool ι Op Resp ε α S} (h : M.Reaches p q) (notes : ι → G) :
    ∃ notes', (M.watched note).Reaches (p.1,p.2,notes) (q.1,q.2,notes') := by
  induction h with
  | refl => exact ⟨notes,.refl⟩
  | tail _ hstep ih =>
    obtain ⟨notes',ih⟩ := ih
    cases hstep with
    | op hp he => exact ⟨_,ih.tail (.op hp (exec_watched.mpr ⟨he,rfl⟩))⟩
    | crash i e => exact ⟨notes',ih.tail (.crash i e)⟩
    | env he => exact ⟨notes',ih.tail (.env ⟨he,rfl⟩)⟩

/-- A program that heeds its notes obeys, since the others do not write them. -/
theorem obeys_of_heeds {i : ι} {p : Program Op Resp ε α} {R : α → G → Prop} {s : S × (ι → G)}
    (h : p.Heeds note (may i) R (s.2 i)) :
    p.Obeys ((M.watched note).exec i) (fun _ => True) (fun s t => t.2 i = s.2 i) (fun op s => may i op (s.2 i))
      (fun _ _ => True) s := by
  have hnotes : ∀ {s t : S × (ι → G)}, ReflTransGen (fun s t => t.2 i = s.2 i) s t → t.2 i = s.2 i := by
    intro s t hst
    induction hst with
    | refl => rfl
    | tail _ hstep ih => exact hstep.trans ih
  induction p generalizing s with
  | pure a => exact fun _ _ _ => trivial
  | throw e => exact fun _ _ _ => trivial
  | call op next ih =>
    intro t ht _
    have hop : may i op (t.2 i) := (hnotes ht).symm ▸ h.1
    refine ⟨hop,fun r u he _ => ih r ?_⟩
    rw [(exec_watched.mp he).2, Function.update_self, hnotes ht]
    exact h.2 r

theorem watched_respects (M : Machine ι Op Resp ε S) (note : Note Op Resp G) (may : ι → Op → G → Prop) :
    (M.watched note).Respects (fun _ => True) (fun i s t => t.2 i = s.2 i) fun i op s => may i op (s.2 i) := by
  refine ⟨fun i op s r t _ _ he => ⟨trivial,fun j hj => ?_⟩,fun i s _ => ⟨trivial,fun _ _ => rfl⟩,
    fun s t _ he => ⟨trivial,fun j => congrFun he.2 j⟩⟩
  rw [(exec_watched.mp he).2, Function.update_of_ne hj]

/-- In a run of programs that heed their notes, each performs only what its notes allow. -/
theorem Reaches.heeds [Inhabited ε] {extra : ι → Op → S × (ι → G) → Prop} {R : ι → α → G → Prop}
    {p q : Pool ι Op Resp ε α (S × (ι → G))} (h : ((M.watched note).within extra).Reaches p q)
    (hp : ∀ i, (p.1 i).Heeds note (may i) (R i) (p.2.2 i)) :
    ((M.watched note).within fun i op s => extra i op s ∧ may i op (s.2 i)).Reaches p q := by
  have hobedient : ∀ i, ((M.watched note).within extra).Obedient (fun _ => True) (fun i s t => t.2 i = s.2 i)
      (fun i op s => may i op (s.2 i)) (fun _ _ _ => True) p i :=
    fun i => Or.inr ((obeys_of_heeds (hp i)).restrict fun op s r t he => (exec_within.mp he).2)
  obtain ⟨hreaches,-⟩ := h.obeys ((watched_respects M note may).within extra) trivial hobedient
  exact within_within _ hreaches

end Machine

end UnlearnShield
