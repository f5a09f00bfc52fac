import UnlearnShield.Engine.Partition
import UnlearnShield.Engine.Outcome
import UnlearnShield.Library.Interleaving

/-! # Two workers at once

Each call reads the routing table first and writes it last, from the copy it read. Two
calls that are not one after the other therefore lose the update of one of them.
-/
namespace UnlearnShield.Engine
open Deployment
variable {D : Deployment}

variable (D) in
abbrev Workers := Two (FileOp D) FileOp.Resp PyErr (Result D) (Disk D) (Smt.TreeCache D.H)

def workers (a b : Call) (disk : Disk D) (cache cache' : Smt.TreeCache D.H) : Workers D :=
  ⟨(a.program,cache),(b.program,cache'),disk⟩

/-- The second worker has its first turn when the first one has returned. -/
def FirstThenSecond (schedule : List Bool) (w : Workers D) : Prop :=
  ∃ n rest result cache, schedule = List.replicate n true ++ rest ∧
    (Two.interleave fileExec (List.replicate n true) w).first = (.pure result,cache)

def Sequential (schedule : List Bool) (w : Workers D) : Prop :=
  FirstThenSecond schedule w ∨ FirstThenSecond (schedule.map (!·)) w.swap

/-- Both batches are gone from the files and the routing table, and nothing else has changed. -/
structure BothErased (refs refs' : List Ref) (disk disk' : Disk D) : Prop where
  shards : disk'.shards = retainAll disk.shards (refs ++ refs')
  routing : ∃ r r', disk.routing = some r ∧ disk'.routing = some r' ∧
    (∀ ref ∈ refs ++ refs', r'.get? ref = none) ∧ ∀ ref ∉ refs ++ refs', r'.get? ref = r.get? ref

def FileOp.onRouting : FileOp D → Bool
  | .loadRouting => true
  | .saveRouting _ => true
  | _ => false

theorem fileExec_routing {op : FileOp D} (hop : FileOp.onRouting op = false) {s t : Process D} {r : op.Resp}
    (h : fileExec op s = .ok (r,t)) : t.1.routing = s.1.routing := by
  cases op with
  | loadRouting => cases hop
  | saveRouting routing => cases hop
  | loadShard shard => rw [(readFile_eq_ok.mp h).2]
  | loadCheckpoint shard i => rw [(readFile_eq_ok.mp h).2]
  | loadBooster shard => rw [(readFile_eq_ok.mp h).2]
  | treeForShard shard refs => rw [(run_treeForShard.mp (Program.run_call_eq_ok.mpr ⟨_,_,h,rfl⟩)).2]
  | saveShard shard records =>
    cases h
    rfl
  | writePreproc shard text =>
    cases h
    rfl
  | saveCheckpoint shard i w =>
    cases h
    rfl
  | saveBooster shard booster =>
    cases h
    rfl
  | cacheTree shard tree =>
    cases h
    rfl

inductive OffRouting {α : Type} : FileM D α → Prop
  | pure (a : α) : OffRouting (.pure a)
  | throw (e : PyErr) : OffRouting (.throw e)
  | call {op : FileOp D} {next : op.Resp → FileM D α} : FileOp.onRouting op = false → (∀ r, OffRouting (next r)) →
      OffRouting (.call op next)

/-- Programs whose last operation, and only that, is on the routing table: they write `routing`. -/
inductive Closes {α : Type} (routing : Routing) : FileM D α → Prop
  | throw (e : PyErr) : Closes routing (.throw e)
  | save {next : Unit → FileM D α} {a : α} : next () = .pure a → Closes routing (.call (.saveRouting routing) next)
  | call {op : FileOp D} {next : op.Resp → FileM D α} : FileOp.onRouting op = false → (∀ r, Closes routing (next r)) →
      Closes routing (.call op next)

section Shape
variable {α β : Type}

theorem OffRouting.bind {p : FileM D α} {f : α → FileM D β} (hp : OffRouting p) (hf : ∀ a, OffRouting (f a)) :
    OffRouting (p >>= f) := by
  induction hp with
  | pure a => exact hf a
  | throw e => exact .throw e
  | call hop _ ih => exact .call hop ih

theorem OffRouting.closes {p : FileM D α} {f : α → FileM D β} {routing : Routing} (hp : OffRouting p)
    (hf : ∀ a, Closes routing (f a)) : Closes routing (p >>= f) := by
  induction hp with
  | pure a => exact hf a
  | throw e => exact .throw e
  | call hop _ ih => exact .call hop ih

theorem OffRouting.lift (x : Py α) : OffRouting (Program.lift x : FileM D α) := by
  cases x with
  | error e => exact .throw e
  | ok a => exact .pure a

theorem OffRouting.op {op : FileOp D} (hop : FileOp.onRouting op = false) : OffRouting (Program.call op .pure) :=
  .call hop .pure

theorem closes_lift {x : Py α} {f : α → FileM D β} {routing : Routing} (hf : ∀ a, x = .ok a → Closes routing (f a)) :
    Closes routing (Program.lift x >>= f) := by
  cases x with
  | error e => exact .throw e
  | ok a => exact hf a rfl

theorem trainSlices_offRouting (shard : ℕ) (preproc : D.mlp.Preproc) (records : Records D.V) (seed : ℤ) (n i : ℕ)
    (t : Training D) : OffRouting (trainSlices shard preproc records seed n i t) := by
  induction n generalizing i t with
  | zero => exact .pure _
  | succ n ih => exact (OffRouting.op rfl).bind fun _ => (ih _ _).bind fun _ => .pure _

theorem ModelEngine.retrain_offRouting (engine : ModelEngine) (refs : List Ref) (batch : Batch)
    (records : Records D.V) :
    OffRouting ((engine.parts : EngineParts D).retrain refs batch records) := by
  cases engine with
  | mlp seed =>
    refine (OffRouting.lift _).bind fun p => (OffRouting.op rfl).bind fun _ => ?_
    refine OffRouting.bind ?_ fun resume => OffRouting.bind ?_ fun _ => (OffRouting.lift _).bind fun _ => .pure _
    · unfold Rebuild.loadResumeState
      split
      · exact (OffRouting.op rfl).bind fun _ => .pure _
      · exact .pure _
    · refine (OffRouting.lift _).bind fun _ => OffRouting.bind (.pure _) fun _ => (OffRouting.lift _).bind fun _ => ?_
      exact (OffRouting.lift _).bind fun _ => (OffRouting.op rfl).bind fun _ => trainSlices_offRouting ..
  | gbdt treesPerSlice =>
    refine (OffRouting.op rfl).bind fun _ => (OffRouting.lift _).bind fun p => (OffRouting.op rfl).bind fun _ => ?_
    refine (OffRouting.lift _).bind fun _ => (OffRouting.op rfl).bind fun _ => ?_
    exact (OffRouting.lift _).bind fun _ => .pure _

end Shape

/-- What is left of a call that has read `routing`: it raises, or it will write `routing` without its subjects. -/
def Closing (c : Call) (routing : Routing) (p : FileM D (Result D)) : Prop :=
  (∃ e, p = .throw e) ∨ ((∀ ref ∈ c.refs, ref ∈ routing) ∧ Closes (routing.without c.refs) p)

/-- A call reads the routing table first. -/
theorem Call.opens {c : Call} (hne : c.refs ≠ []) : ∃ rest : Routing → FileM D (Result D),
    c.program = .call .loadRouting rest ∧ ∀ routing, Closing c routing (rest routing) := by
  rw [c.program_eq, rebuildBatch, if_neg hne]
  refine ⟨fun routing => (do
    let batch ← Program.lift (locate routing c.refs)
    let records ← loadShard batch.shard
    let treeBefore ← treeForShard batch.shard (subjectRefs records)
    let retrained ← (c.engine.parts : EngineParts D).retrain c.refs batch records
    finish c.engine.parts c.refs c.sign c.clock routing batch treeBefore retrained),rfl,fun routing => ?_⟩
  rcases hloc : locate routing c.refs with e | batch
  · left
    refine ⟨e,?_⟩
    dsimp only
    rw [hloc]
    rfl
  right
  refine ⟨fun ref href => ?_,closes_lift fun batch _ => ?_⟩
  · obtain ⟨entry,he,-⟩ := (locate_eq_ok.mp hloc).1 ref href
    exact Dict.mem_of_get? he
  refine OffRouting.closes (.op rfl) fun records => OffRouting.closes (.op rfl) fun treeBefore => ?_
  refine (c.engine.retrain_offRouting _ _ _).closes fun retrained => (OffRouting.lift _).closes fun tree => ?_
  refine OffRouting.closes (.op rfl) fun _ => (OffRouting.lift _).closes fun _ => (OffRouting.lift _).closes fun _ => ?_
  refine closes_lift fun routing' hpop => ?_
  obtain ⟨-,-,rfl⟩ := popAll_eq_ok.mp hpop
  exact .save rfl

def Returned (p : FileM D (Result D) × Smt.TreeCache D.H) : Prop := ∃ result cache, p = (.pure result,cache)

/-- A turn of a call that has read `routing`: it goes on, or it writes the table and returns. -/
theorem Closing.turn {c : Call} {routing : Routing} {p : FileM D (Result D) × Smt.TreeCache D.H}
    (h : Closing c routing p.1) (disk : Disk D) : (Closing c routing (Program.turn fileExec p disk).1.1 ∧
        (Program.turn fileExec p disk).2.routing = disk.routing) ∨
      (Returned (Program.turn fileExec p disk).1 ∧ (∀ ref ∈ c.refs, ref ∈ routing) ∧
        (Program.turn fileExec p disk).2.routing = some (routing.without c.refs)) := by
  obtain ⟨p,cache⟩ := p
  rcases h with ⟨e,he⟩ | ⟨hin,hcl⟩
  · dsimp only at he
    subst he
    exact Or.inl ⟨Or.inl ⟨e,rfl⟩,rfl⟩
  · cases hcl with
    | throw e => exact Or.inl ⟨Or.inl ⟨e,rfl⟩,rfl⟩
    | @save next a hnext =>
      refine Or.inr ⟨⟨a,cache,?_⟩,hin,rfl⟩
      exact Prod.ext hnext rfl
    | @call op next hop hnext =>
      left
      rw [Program.turn]
      cases he : fileExec op (disk,cache) with
      | error e => exact ⟨Or.inl ⟨e,rfl⟩,rfl⟩
      | ok rt =>
        obtain ⟨r,t⟩ := rt
        exact ⟨Or.inr ⟨hin,hnext r⟩,fileExec_routing hop he⟩

inductive Overlap (a b : Call) (routing : Routing) (w : Workers D) : Prop
  | both : Closing a routing w.first.1 → Closing b routing w.second.1 → w.shared.routing = some routing →
      Overlap a b routing w
  | firstSaved : Returned w.first → (∀ ref ∈ a.refs, ref ∈ routing) → Closing b routing w.second.1 →
      w.shared.routing = some (routing.without a.refs) → Overlap a b routing w
  | secondSaved : Closing a routing w.first.1 → Returned w.second → (∀ ref ∈ b.refs, ref ∈ routing) →
      w.shared.routing = some (routing.without b.refs) → Overlap a b routing w
  | bothSaved : Returned w.first → Returned w.second → (∀ ref ∈ a.refs, ref ∈ routing) →
      (∀ ref ∈ b.refs, ref ∈ routing) → (w.shared.routing = some (routing.without a.refs) ∨
        w.shared.routing = some (routing.without b.refs)) → Overlap a b routing w

theorem Returned.turn {p : FileM D (Result D) × Smt.TreeCache D.H} (h : Returned p) (disk : Disk D) :
    Program.turn fileExec p disk = (p,disk) := by
  obtain ⟨result,cache,rfl⟩ := h
  rfl

theorem Overlap.swap {a b : Call} {routing : Routing} {w : Workers D} (h : Overlap a b routing w) :
    Overlap b a routing w.swap := by
  cases h with
  | both ha hb hr => exact .both hb ha hr
  | firstSaved ha hin hb hr => exact .secondSaved hb ha hin hr
  | secondSaved ha hb hin hr => exact .firstSaved hb hin ha hr
  | bothSaved ha hb hin hin' hr => exact .bothSaved hb ha hin' hin hr.symm

theorem Overlap.stepFirst {a b : Call} {routing : Routing} {w : Workers D} (h : Overlap a b routing w) :
    Overlap a b routing (Two.step fileExec w true) := by
  cases h with
  | both ha hb hr =>
    rcases ha.turn w.shared with ⟨ha',hr'⟩ | ⟨ha',hin,hr'⟩
    · exact .both ha' hb (hr'.trans hr)
    · exact .firstSaved ha' hin hb hr'
  | firstSaved ha hin hb hr =>
    have hturn := ha.turn w.shared
    exact .firstSaved (by rw [Two.step, hturn]; exact ha) hin hb (by rw [Two.step, hturn]; exact hr)
  | secondSaved ha hb hin hr =>
    rcases ha.turn w.shared with ⟨ha',hr'⟩ | ⟨ha',hin',hr'⟩
    · exact .secondSaved ha' hb hin (hr'.trans hr)
    · exact .bothSaved ha' hb hin' hin (Or.inl hr')
  | bothSaved ha hb hin hin' hr =>
    have hturn := ha.turn w.shared
    exact .bothSaved (by rw [Two.step, hturn]; exact ha) hb hin hin' (by rw [Two.step, hturn]; exact hr)

theorem Overlap.interleave {a b : Call} {routing : Routing} {w : Workers D} (h : Overlap a b routing w)
    (schedule : List Bool) : Overlap a b routing (Two.interleave fileExec schedule w) := by
  induction schedule generalizing w with
  | nil => exact h
  | cons turn schedule ih =>
    cases turn with
    | true => exact ih h.stepFirst
    | false => exact ih h.swap.stepFirst.swap

/-- After turns of the first worker alone, at least one: it has returned, or it has read the table. -/
theorem lead {a b : Call} {disk : Disk D} {cache cache' : Smt.TreeCache D.H} {routing : Routing} (hne : a.refs ≠ [])
    (hr : disk.routing = some routing) (n : ℕ) :
    Returned (Two.interleave fileExec (List.replicate (n+1) true) (workers a b disk cache cache')).first ∨
      (Closing a routing (Two.interleave fileExec (List.replicate (n+1) true) (workers a b disk cache cache')).first.1 ∧
        (Two.interleave fileExec (List.replicate (n+1) true) (workers a b disk cache cache')).shared.routing =
          some routing) := by
  induction n with
  | zero =>
    right
    obtain ⟨rest,hprogram,hclosing⟩ := Call.opens (D := D) hne
    have hload : fileExec .loadRouting (disk,cache) = .ok (routing,(disk,cache)) := readFile_eq_ok.mpr ⟨hr,rfl⟩
    have hturn : Program.turn fileExec (a.program,cache) disk = ((rest routing,cache),disk) := by
      rw [hprogram, Program.turn, hload]
    change Closing a routing (Program.turn fileExec (a.program,cache) disk).1.1 ∧
      (Program.turn fileExec (a.program,cache) disk).2.routing = some routing
    rw [hturn]
    exact ⟨hclosing routing,hr⟩
  | succ n ih =>
    rw [List.replicate_succ', Two.interleave_snoc]
    rcases ih with ⟨result,l,hret⟩ | ⟨hclosing,hroute⟩
    · left
      refine ⟨result,l,?_⟩
      rw [Two.step, hret]
      rfl
    · rcases hclosing.turn
        (Two.interleave fileExec (List.replicate (n+1) true) (workers a b disk cache cache')).shared with
        ⟨hclosing',hroute'⟩ | ⟨hret,-,-⟩
      · exact Or.inr ⟨hclosing',hroute'.trans hroute⟩
      · exact Or.inl hret

/-- A schedule whose first turn is the first worker's. -/
theorem first_or_overlap {a b : Call} {disk : Disk D} (cache cache' : Smt.TreeCache D.H) {routing : Routing}
    (hna : a.refs ≠ []) (hnb : b.refs ≠ []) (hr : disk.routing = some routing) (schedule : List Bool) :
    FirstThenSecond (true :: schedule) (workers a b disk cache cache') ∨
      Overlap a b routing (Two.interleave fileExec (true :: schedule) (workers a b disk cache cache')) ∨
      ¬Returned (Two.interleave fileExec (true :: schedule) (workers a b disk cache cache')).second := by
  -- the turns of the first worker before the first one of the second
  have hsplit : ∃ n, schedule = List.replicate n true ∨ ∃ rest, schedule = List.replicate n true ++ false :: rest := by
    induction schedule with
    | nil => exact ⟨0,Or.inl rfl⟩
    | cons turn schedule ih =>
      cases turn with
      | false => exact ⟨0,Or.inr ⟨schedule,rfl⟩⟩
      | true =>
        obtain ⟨n,h | ⟨rest,h⟩⟩ := ih
        · exact ⟨n+1,Or.inl (by rw [h]; rfl)⟩
        · exact ⟨n+1,Or.inr ⟨rest,by rw [h]; rfl⟩⟩
  obtain ⟨rest',hprogram,hclosing⟩ := Call.opens (D := D) hnb
  obtain ⟨n,rfl | ⟨rest,rfl⟩⟩ := hsplit
  · right; right
    have hsecond := (Two.run_replicate fileExec (n+1) (workers a b disk cache cache')).1
    rw [← List.replicate_succ, hsecond]
    rintro ⟨result,l,h⟩
    have hp := (Prod.mk.inj h).1
    rw [hprogram] at hp
    cases hp
  · rcases lead (b := b) hna hr n with ⟨result,l,hret⟩ | ⟨hlead,hroute⟩
    · exact Or.inl ⟨n+1,false :: rest,result,l,rfl,hret⟩
    · right; left
      have hsecond := (Two.run_replicate fileExec (n+1) (workers a b disk cache cache')).1
      have hcons : true :: (List.replicate n true ++ false :: rest) = List.replicate (n+1) true ++ ([false] ++ rest) :=
        rfl
      rw [hcons, Two.interleave_append, Two.interleave_append]
      refine Overlap.interleave ?_ rest
      have hload : ∀ d : Disk D, d.routing = some routing →
          Program.turn fileExec (b.program,cache') d = ((rest' routing,cache'),d) := by
        intro d hd
        have hload : fileExec .loadRouting (d,cache') = .ok (routing,(d,cache')) := readFile_eq_ok.mpr ⟨hd,rfl⟩
        rw [hprogram, Program.turn, hload]
      generalize Two.interleave fileExec (List.replicate (n+1) true) (workers a b disk cache cache') = w at *
      have hturn : Program.turn fileExec w.second w.shared = ((rest' routing,cache'),w.shared) := by
        rw [hsecond]
        exact hload w.shared hroute
      refine .both hlead ?_ ?_
      · change Closing b routing (Program.turn fileExec w.second w.shared).1.1
        rw [hturn]
        exact hclosing routing
      · change (Program.turn fileExec w.second w.shared).2.routing = some routing
        rw [hturn]
        exact hroute

theorem Closing.not_returned {c : Call} {routing : Routing} {p : FileM D (Result D) × Smt.TreeCache D.H}
    (h : Closing c routing p.1) : ¬Returned p := by
  rintro ⟨result,cache,rfl⟩
  rcases h with ⟨e,he⟩ | ⟨-,hcl⟩
  · cases he
  · cases hcl

/-- Two overlapping calls that return: the table still lists one of the batches. -/
theorem Overlap.listed {a b : Call} {routing : Routing} {w : Workers D} (h : Overlap a b routing w)
    (ha : Returned w.first) (hb : Returned w.second) (hna : a.refs ≠ []) (hnb : b.refs ≠ [])
    (hdisjoint : ∀ ref ∈ a.refs, ref ∉ b.refs) :
    ∃ r ref, w.shared.routing = some r ∧ ref ∈ a.refs ++ b.refs ∧ r.get? ref ≠ none := by
  have hlisted : ∀ {c c' : Call}, c.refs ≠ [] → (∀ ref ∈ c.refs, ref ∈ routing) → (∀ ref ∈ c.refs, ref ∉ c'.refs) →
      ∃ ref ∈ c.refs, (routing.without c'.refs).get? ref ≠ none := by
    intro c c' hne hin hout
    obtain ⟨ref,href⟩ := List.exists_mem_of_ne_nil _ hne
    obtain ⟨e,he⟩ := Dict.exists_get?_of_mem (hin ref href)
    refine ⟨ref,href,?_⟩
    rw [Dict.get?_without, if_neg (hout ref href), he]
    exact Option.some_ne_none e
  cases h with
  | both ha' _ _ => exact absurd ha ha'.not_returned
  | firstSaved _ _ hb' _ => exact absurd hb hb'.not_returned
  | secondSaved ha' _ _ _ => exact absurd ha ha'.not_returned
  | bothSaved _ _ hin hin' hr =>
    rcases hr with hr | hr
    · obtain ⟨ref,href,hget⟩ := hlisted hnb hin' fun ref hb ha => hdisjoint ref ha hb
      exact ⟨_,ref,hr,List.mem_append_right _ href,hget⟩
    · obtain ⟨ref,href,hget⟩ := hlisted hna hin hdisjoint
      exact ⟨_,ref,hr,List.mem_append_left _ href,hget⟩

section Outcome
variable {a b : Call} {disk : Disk D} {cache cache' : Smt.TreeCache D.H} {routing : Routing} {schedule : List Bool}

/-- One call after the other erases both batches. -/
theorem FirstThenSecond.erases (h : FirstThenSecond schedule (workers a b disk cache cache'))
    (hb : Returned (Two.interleave fileExec schedule (workers a b disk cache cache')).second)
    (hr : disk.routing = some routing) (hrouted : Routed routing disk.shards) :
    (Two.interleave fileExec schedule (workers a b disk cache cache')).shared.shards =
        retainAll disk.shards (a.refs ++ b.refs) ∧
      (Two.interleave fileExec schedule (workers a b disk cache cache')).shared.routing =
        some (routing.without (a.refs ++ b.refs)) := by
  obtain ⟨n,rest,result,l,rfl,hret⟩ := h
  rw [Two.interleave_append] at hb ⊢
  obtain ⟨hsecond,hrun⟩ := Two.run_replicate fileExec n (workers a b disk cache cache')
  generalize Two.interleave fileExec (List.replicate n true) (workers a b disk cache cache') = w at *
  rw [hret] at hrun
  obtain ⟨hshards,hroute,-⟩ := Call.erases hrun.symm hr hrouted
  have hw : w = ⟨(.pure result,l),(b.program,cache'),w.shared⟩ := Two.ext hret hsecond rfl
  obtain ⟨-,hrun'⟩ := Two.run_of_returned fileExec (a := result) (l := l) rest (q := (b.program,cache')) (s := w.shared)
  rw [← hw] at hrun'
  obtain ⟨result',l',hb⟩ := hb
  rw [hb] at hrun'
  dsimp only at hshards hroute
  obtain ⟨hshards',hroute',-⟩ := Call.erases hrun'.symm hroute (by rw [hshards]; exact hrouted.retainAll a.refs)
  dsimp only at hshards' hroute'
  refine ⟨?_,by rw [hroute', without_append]⟩
  rw [hshards', hshards, retainAll_append]
  rfl

theorem workers_swap : (workers a b disk cache cache').swap = workers b a disk cache' cache := rfl

theorem interleave_not (a b : Call) (disk : Disk D) (cache cache' : Smt.TreeCache D.H) (schedule : List Bool) :
    Two.interleave fileExec (schedule.map (!·)) (workers b a disk cache' cache) =
      (Two.interleave fileExec schedule (workers a b disk cache cache')).swap :=
  Two.interleave_swap fileExec schedule (workers a b disk cache cache')

theorem returned_nonempty (ha : Returned (Two.interleave fileExec schedule (workers a b disk cache cache')).first) :
    a.refs ≠ [] := by
  intro hnil
  have hthrow : (a.program : FileM D (Result D)) =
    .throw ⟨.valueError,"rebuild_batch_by_ref called with no subjects"⟩ := by
    rw [a.program_eq, rebuildBatch, if_pos hnil]
  have hstuck : ∀ (schedule : List Bool) (w : Workers D), w.first = (a.program,cache) →
      (Two.interleave fileExec schedule w).first = (a.program,cache) := by
    intro schedule
    induction schedule with
    | nil => exact fun _ h => h
    | cons turn schedule ih =>
      intro w hw
      refine ih _ ?_
      cases turn with
      | false => exact hw
      | true =>
        rw [Two.step, hw, hthrow]
        rfl
  obtain ⟨result,l,hret⟩ := ha
  rw [hstuck schedule _ rfl, hthrow] at hret
  cases hret

/-- Two calls that both return erase both batches, and nothing else, exactly when one of them starts
after the other has returned. -/
theorem bothErased_iff_sequential (hr : disk.routing = some routing) (hrouted : Routed routing disk.shards)
    (hdisjoint : ∀ ref ∈ a.refs, ref ∉ b.refs)
    (ha : Returned (Two.interleave fileExec schedule (workers a b disk cache cache')).first)
    (hb : Returned (Two.interleave fileExec schedule (workers a b disk cache cache')).second) :
    BothErased a.refs b.refs disk (Two.interleave fileExec schedule (workers a b disk cache cache')).shared ↔
      Sequential schedule (workers a b disk cache cache') := by
  have hnot := interleave_not a b disk cache cache' schedule
  have hna := returned_nonempty ha
  have hswapped : Returned (Two.interleave fileExec (schedule.map (!·)) (workers b a disk cache' cache)).first := by
    rw [hnot]
    exact hb
  have hnb := returned_nonempty hswapped
  constructor
  · intro herased
    by_contra hseq
    obtain ⟨hfirst,hsecond⟩ := not_or.mp hseq
    have hoverlap : Overlap a b routing (Two.interleave fileExec schedule (workers a b disk cache cache')) := by
      cases schedule with
      | nil =>
        obtain ⟨rest,hprogram,-⟩ := Call.opens (D := D) hna
        obtain ⟨result,l,h⟩ := ha
        have hp : a.program = Program.pure result := (Prod.mk.inj h).1
        rw [hprogram] at hp
        cases hp
      | cons turn schedule =>
        cases turn with
        | true =>
          exact ((first_or_overlap cache cache' hna hnb hr schedule).resolve_left hfirst).resolve_right fun h => h hb
        | false =>
          have h := first_or_overlap (b := a) cache' cache hnb hna hr (schedule.map (!·))
          rw [List.map_cons] at hnot hsecond
          rcases h with h | h | h
          · exact absurd h hsecond
          · exact (hnot ▸ h).swap
          · exact absurd (show Returned (Two.interleave fileExec (true :: schedule.map (!·)) _).second from hnot ▸ ha) h
    obtain ⟨r,ref,hroute,href,hget⟩ := hoverlap.listed ha hb hna hnb hdisjoint
    obtain ⟨r₀,r',-,hr',hgone,-⟩ := herased.routing
    cases hroute.symm.trans hr'
    exact hget (hgone ref href)
  · have hget : ∀ refs : List Ref, (∀ ref, ref ∈ refs ↔ ref ∈ a.refs ++ b.refs) →
        (∀ ref ∈ a.refs ++ b.refs, (routing.without refs).get? ref = none) ∧
          ∀ ref ∉ a.refs ++ b.refs, (routing.without refs).get? ref = routing.get? ref := by
      intro refs hrefs
      refine ⟨fun ref href => ?_,fun ref href => ?_⟩
      · rw [Dict.get?_without, if_pos ((hrefs ref).mpr href)]
      · rw [Dict.get?_without, if_neg fun h => href ((hrefs ref).mp h)]
    rintro (h | h)
    · obtain ⟨hshards,hroute⟩ := h.erases hb hr hrouted
      exact ⟨hshards,routing,_,hr,hroute,hget _ fun _ => Iff.rfl⟩
    · rw [workers_swap] at h
      obtain ⟨hshards,hroute⟩ := h.erases (hnot ▸ ha) hr hrouted
      rw [hnot] at hshards hroute
      have hcomm : ∀ ref, ref ∈ b.refs ++ a.refs ↔ ref ∈ a.refs ++ b.refs := fun ref => by
        rw [List.mem_append, List.mem_append, or_comm]
      refine ⟨hshards.trans (funext fun shard => ?_),routing,_,hr,hroute,hget _ hcomm⟩
      unfold retainAll
      simp only [retain_congr _ hcomm]

end Outcome

/-- What a call does after it has read the routing table does not depend on the table any more. -/
theorem Closes.run_eq {α : Type} {routing' : Routing} {p : FileM D α} (h : Closes routing' p) {s t : Process D} {a : α}
    (hrun : p.run fileExec s = (.ok a,t)) (routing : Option Routing) :
    p.run fileExec ({s.1 with routing := routing},s.2) = (.ok a,t) := by
  induction h generalizing s with
  | throw e => exact absurd hrun Program.run_throw_ne_ok
  | save hnext =>
    obtain ⟨r,u,he,hr⟩ := Program.run_call_eq_ok.mp hrun
    cases he
    exact Program.run_call_eq_ok.mpr ⟨_,_,rfl,hr⟩
  | @call op next hop _ ih =>
    obtain ⟨r,u,he,hr⟩ := Program.run_call_eq_ok.mp hrun
    have hother : fileExec op ({s.1 with routing := routing},s.2) = .ok (r,({u.1 with routing := routing},u.2)) := by
      cases op with
      | loadRouting => cases hop
      | saveRouting routing => cases hop
      | loadShard shard =>
        obtain ⟨hread,rfl⟩ := readFile_eq_ok.mp he
        exact readFile_eq_ok.mpr ⟨hread,rfl⟩
      | loadCheckpoint shard i =>
        obtain ⟨hread,rfl⟩ := readFile_eq_ok.mp he
        exact readFile_eq_ok.mpr ⟨hread,rfl⟩
      | loadBooster shard =>
        obtain ⟨hread,rfl⟩ := readFile_eq_ok.mp he
        exact readFile_eq_ok.mpr ⟨hread,rfl⟩
      | treeForShard shard refs =>
        obtain ⟨htree,rfl⟩ := run_treeForShard.mp (Program.run_call_eq_ok.mpr ⟨_,_,he,rfl⟩)
        rw [fileExec, htree]
        rfl
      | saveShard shard records =>
        cases he
        rfl
      | writePreproc shard text =>
        cases he
        rfl
      | saveCheckpoint shard i w =>
        cases he
        rfl
      | saveBooster shard booster =>
        cases he
        rfl
      | cacheTree shard tree =>
        cases he
        rfl
    exact Program.run_call_eq_ok.mpr ⟨r,_,hother,ih r hr⟩

section Sample

theorem sampleTrained_routed : Routed sampleRouting sampleTrained.1.shards := by
  intro shard records hs row hrow
  have hfile : sampleTrained.1.shards shard = if shard = 0 then some sampleRecords else none := rfl
  rw [hfile] at hs
  split at hs
  · next hzero =>
    cases hs
    subst hzero
    have hall : ∀ row ∈ sampleRecords, ∃ e, sampleRouting.get? row.subjectRef = some e ∧ e.shard = 0 :=
      List.forall_mem_cons.mpr ⟨⟨_,rfl,rfl⟩,List.forall_mem_cons.mpr ⟨⟨_,rfl,rfl⟩,
        List.forall_mem_singleton.mpr ⟨_,rfl,rfl⟩⟩⟩
    exact hall row hrow
  · cases hs

/-- The third subject is erased. -/
theorem sample_erased : ∃ result t, (sampleCall (.mlp 1337) [sampleRef 3]).program.run fileExec sampleTrained =
      (.ok result,t) ∧ t.1.routing = some (sampleRouting.without [sampleRef 3]) ∧
    t.1.shards 0 = some (retain sampleRecords [sampleRef 3]) := by
  obtain ⟨result,t,hrun⟩ := Call.returns sampleTrained_ready
  obtain ⟨hshards,hroute,-⟩ := Call.erases hrun rfl sampleTrained_routed
  exact ⟨result,t,hrun,hroute,by rw [hshards]; rfl⟩

/-- The second subject can be erased from what that leaves, whichever table lists it. -/
theorem sample_second (disk : Disk (logging 2)) {routing : Routing} (hr : disk.routing = some routing)
    (hs : disk.shards 0 = some (retain sampleRecords [sampleRef 3])) (hloc : locate routing [sampleRef 2] = .ok ⟨0,0⟩) :
    ∃ result t, (sampleCall (.mlp 1337) [sampleRef 2]).program.run fileExec (disk,fun _ => none) = (.ok result,t) := by
  have hready : Ready (sampleCall (.mlp 1337) [sampleRef 2]) (disk,fun _ => none) ⟨0,0⟩
      (retain sampleRecords [sampleRef 3]) :=
    ⟨List.cons_ne_nil _ _,List.nodup_singleton _,⟨routing,hr,hloc⟩,hs,by decide,not_cacheCollision rfl,
      fun _ => rfl,rfl,Nat.two_pos,by decide,fun h => absurd h (Nat.lt_irrefl 0)⟩
  exact Call.returns hready

theorem bothErased_iff_sequential_sample : ∃ schedule,
    BothErased [sampleRef 3] [sampleRef 2] sampleTrained.1 (Two.interleave fileExec schedule (workers
      (sampleCall (.mlp 1337) [sampleRef 3]) (sampleCall (.mlp 1337) [sampleRef 2]) sampleTrained.1 (fun _ => none)
      (fun _ => none))).shared := by
  obtain ⟨result,t,hrun,hroute,hfile⟩ := sample_erased
  obtain ⟨result',t',hrun'⟩ := sample_second t.1 hroute hfile rfl
  obtain ⟨n,hn⟩ := Two.exists_replicate (p := ((sampleCall (.mlp 1337) [sampleRef 3]).program,sampleTrained.2))
    (q := ((sampleCall (.mlp 1337) [sampleRef 2]).program,fun _ => none)) hrun
  obtain ⟨m,hm⟩ := Two.exists_replicate_second (p := (.pure result,t.2))
    (q := ((sampleCall (.mlp 1337) [sampleRef 2]).program,fun _ => none)) hrun'
  have hfinal : Two.interleave fileExec (List.replicate n true ++ List.replicate m false) (workers
      (sampleCall (.mlp 1337) [sampleRef 3]) (sampleCall (.mlp 1337) [sampleRef 2]) sampleTrained.1 (fun _ => none)
      (fun _ => none)) = ⟨(.pure result,t.2),(.pure result',t'.2),t'.1⟩ := by
    rw [Two.interleave_append]
    exact (congrArg _ hn).trans hm
  have hdisjoint : ∀ ref ∈ [sampleRef 3], ref ∉ [sampleRef 2] := by decide
  refine ⟨List.replicate n true ++ List.replicate m false,(bothErased_iff_sequential
    (a := sampleCall (.mlp 1337) [sampleRef 3]) (b := sampleCall (.mlp 1337) [sampleRef 2]) rfl sampleTrained_routed
    hdisjoint ?_ ?_).mpr (Or.inl ⟨n,_,result,t.2,rfl,?_⟩)⟩
  · exact ⟨result,t.2,congrArg Two.first hfinal⟩
  · exact ⟨result',t'.2,congrArg Two.second hfinal⟩
  · exact congrArg Two.first hn

/-- The first worker reads the routing table, the second one erases the third subject, and the first
one then writes the table it read without its own subject. -/
theorem not_bothErased : ∃ schedule,
    Returned (Two.interleave fileExec schedule (workers (sampleCall (.mlp 1337) [sampleRef 2])
      (sampleCall (.mlp 1337) [sampleRef 3]) sampleTrained.1 (fun _ => none) (fun _ => none))).first ∧
    Returned (Two.interleave fileExec schedule (workers (sampleCall (.mlp 1337) [sampleRef 2])
      (sampleCall (.mlp 1337) [sampleRef 3]) sampleTrained.1 (fun _ => none) (fun _ => none))).second ∧
    ¬BothErased [sampleRef 2] [sampleRef 3] sampleTrained.1 (Two.interleave fileExec schedule (workers
      (sampleCall (.mlp 1337) [sampleRef 2]) (sampleCall (.mlp 1337) [sampleRef 3]) sampleTrained.1 (fun _ => none)
      (fun _ => none))).shared := by
  obtain ⟨result,t,hrun,hroute,hfile⟩ := sample_erased
  obtain ⟨rest,hprogram,hclosing⟩ := Call.opens (D := logging 2) (c := sampleCall (.mlp 1337) [sampleRef 2])
    (List.cons_ne_nil _ _)
  -- the rest of the first call, on the files the second one left
  obtain ⟨result',t',hrun'⟩ := sample_second {t.1 with routing := some sampleRouting} rfl hfile rfl
  have hrest : (rest sampleRouting).run fileExec ({t.1 with routing := some sampleRouting},fun _ => none) =
      (.ok result',t') := by
    rw [hprogram] at hrun'
    obtain ⟨r,u,he,hr⟩ := Program.run_call_eq_ok.mp hrun'
    cases he
    exact hr
  have hrest' : (rest sampleRouting).run fileExec (t.1,fun _ => none) = (.ok result',t') := by
    rcases hclosing sampleRouting with ⟨e,he⟩ | ⟨-,hcl⟩
    · rw [he] at hrest
      exact absurd hrest Program.run_throw_ne_ok
    · exact hcl.run_eq hrest t.1.routing
  have hroute' : t'.1.routing = some (sampleRouting.without [sampleRef 2]) := by
    obtain ⟨x,hx,-⟩ := Call.returned hrun'
    have hx' : sampleRouting = x.routing := Option.some.inj hx.routing
    rw [hx.final, ← hx']
    rfl
  obtain ⟨n,hn⟩ := Two.exists_replicate_second (p := (rest sampleRouting,fun _ => none))
    (q := ((sampleCall (.mlp 1337) [sampleRef 3]).program,sampleTrained.2)) hrun
  obtain ⟨m,hm⟩ := Two.exists_replicate (p := (rest sampleRouting,fun _ => none)) (q := (.pure result,t.2)) hrest'
  have hfirst : Two.interleave fileExec [true] (workers (sampleCall (.mlp 1337) [sampleRef 2])
      (sampleCall (.mlp 1337) [sampleRef 3]) sampleTrained.1 (fun _ => none) (fun _ => none)) =
      ⟨(rest sampleRouting,fun _ => none),((sampleCall (.mlp 1337) [sampleRef 3]).program,fun _ => none),
        sampleTrained.1⟩ := by
    have hturn : Program.turn fileExec ((sampleCall (.mlp 1337) [sampleRef 2]).program,fun _ => none) sampleTrained.1 =
        ((rest sampleRouting,fun _ => none),sampleTrained.1) := by
      rw [hprogram]
      rfl
    exact Two.ext (congrArg Prod.fst hturn) rfl (congrArg Prod.snd hturn)
  have hfinal : Two.interleave fileExec ([true] ++ (List.replicate n false ++ List.replicate m true)) (workers
      (sampleCall (.mlp 1337) [sampleRef 2]) (sampleCall (.mlp 1337) [sampleRef 3]) sampleTrained.1 (fun _ => none)
      (fun _ => none)) = ⟨(.pure result',t'.2),(.pure result,t.2),t'.1⟩ := by
    rw [Two.interleave_append, hfirst, Two.interleave_append]
    exact (congrArg _ hn).trans hm
  refine ⟨_,⟨result',t'.2,congrArg Two.first hfinal⟩,⟨result,t.2,congrArg Two.second hfinal⟩,fun herased => ?_⟩
  obtain ⟨r,r',-,hr',hgone,-⟩ := herased.routing
  rw [hfinal] at hr'
  cases hroute'.symm.trans hr'
  have hlisted : (sampleRouting.without [sampleRef 2]).get? (sampleRef 3) ≠ none := by decide
  exact hlisted (hgone _ (by decide))

end Sample

end UnlearnShield.Engine
