import UnlearnShield.Library.Contract
import UnlearnShield.Engine.Locality
import UnlearnShield.Engine.Partition

/-! # What a lone writer takes away

When one process alone writes the shard files and the routing table, every write of a
rebuild only takes rows or entries out of them, wherever the rebuild stops. One that
returns leaves neither rows nor entries of its subjects in any file.
-/
namespace UnlearnShield.Engine
open Deployment Program Relation
variable {D : Deployment}

def Partitioned (d : Disk D) : Prop := ∀ routing, d.routing = some routing → Routed routing d.shards

structure Gone (ref : Ref) (d : Disk D) : Prop where
  rows : ∀ shard records, d.shards shard = some records → ref ∉ subjectRefs records
  entry : ∀ routing, d.routing = some routing → ref ∉ routing

/-- The second has rows and entries of the first, and no others. -/
structure Shrinks (d d' : Disk D) : Prop where
  rows : ∀ shard records', d'.shards shard = some records' → ∃ records, d.shards shard = some records ∧
    records'.Sublist records
  entries : ∀ routing', d'.routing = some routing' → ∃ routing, d.routing = some routing ∧
    routing'.entries.Sublist routing.entries

theorem Shrinks.refl (d : Disk D) : Shrinks d d :=
  ⟨fun _ records h => ⟨records,h,.refl _⟩,fun routing h => ⟨routing,h,.refl _⟩⟩

theorem Shrinks.trans {d d' d'' : Disk D} (h : Shrinks d d') (h' : Shrinks d' d'') : Shrinks d d'' := by
  constructor
  · intro shard records'' hrecords''
    obtain ⟨records',hrecords',hsub'⟩ := h'.rows shard records'' hrecords''
    obtain ⟨records,hrecords,hsub⟩ := h.rows shard records' hrecords'
    exact ⟨records,hrecords,hsub'.trans hsub⟩
  · intro routing'' hrouting''
    obtain ⟨routing',hrouting',hsub'⟩ := h'.entries routing'' hrouting''
    obtain ⟨routing,hrouting,hsub⟩ := h.entries routing' hrouting'
    exact ⟨routing,hrouting,hsub'.trans hsub⟩

theorem Gone.shrinks {ref : Ref} {d d' : Disk D} (h : Gone ref d) (hs : Shrinks d d') : Gone ref d' := by
  constructor
  · intro shard records' hrecords' hin
    obtain ⟨records,hrecords,hsub⟩ := hs.rows shard records' hrecords'
    exact h.rows shard records hrecords ((hsub.map _).subset hin)
  · intro routing' hrouting' hin
    obtain ⟨routing,hrouting,hsub⟩ := hs.entries routing' hrouting'
    exact h.entry routing hrouting (Dict.mem_iff.mpr ((hsub.map _).subset (Dict.mem_iff.mp hin)))

structure SameData (d d' : Disk D) : Prop where
  routing : d'.routing = d.routing
  shards : d'.shards = d.shards

theorem SameData.shrinks {d d' : Disk D} (h : SameData d d') : Shrinks d d' := by
  refine ⟨fun shard records' hrecords' => ⟨records',?_,.refl _⟩,fun routing' hrouting' => ⟨routing',?_,.refl _⟩⟩
  · rw [← h.shards]
    exact hrecords'
  · rw [← h.routing]
    exact hrouting'

theorem SameData.partitioned {d d' : Disk D} (h : SameData d d') (hp : Partitioned d) : Partitioned d' := by
  intro routing hrouting
  rw [h.shards]
  exact hp routing (h.routing ▸ hrouting)

def FileOp.Leaves : FileOp D → Prop
  | .saveRouting _ | .saveShard _ _ => False
  | _ => True

theorem FileOp.Leaves.sameData {op : FileOp D} (hop : FileOp.Leaves op) {s t : Process D} {r : op.Resp}
    (h : fileExec op s = .ok (r,t)) : SameData s.1 t.1 := by
  cases op with
  | saveRouting | saveShard => exact hop.elim
  | loadRouting | loadShard | loadCheckpoint | loadBooster =>
    obtain ⟨-,rfl⟩ := readFile_eq_ok.mp h
    exact ⟨rfl,rfl⟩
  | treeForShard k refs =>
    have hmap : (Smt.treeForShard s.2 k refs).map (fun tree => (tree,s)) = .ok (r,t) := h
    cases ht : Smt.treeForShard s.2 k refs with
    | error e =>
      rw [ht] at hmap
      cases hmap
    | ok tree =>
      rw [ht] at hmap
      obtain ⟨-,rfl⟩ := Prod.mk.inj (Except.ok.inj hmap)
      exact ⟨rfl,rfl⟩
  | writePreproc | saveCheckpoint | saveBooster | cacheTree =>
    obtain ⟨-,rfl⟩ := Prod.mk.inj (Except.ok.inj h)
    exact ⟨rfl,rfl⟩

/-- Performed now, the operation only takes data away, and leaves what is left routed. -/
def FileOp.Purges (op : FileOp D) (d : Disk D) : Prop :=
  ∀ (s t : Process D) (r : op.Resp), s.1 = d → fileExec op s = .ok (r,t) →
    Shrinks d t.1 ∧ (Partitioned d → Partitioned t.1)

theorem FileOp.Leaves.purges {op : FileOp D} (hop : FileOp.Leaves op) (d : Disk D) : FileOp.Purges op d := by
  rintro s t r rfl h
  exact ⟨(hop.sameData h).shrinks,(hop.sameData h).partitioned⟩

/-- From `P` the program only takes data away while nobody else writes them, and ends in `Q`. -/
abbrev Purging {α : Type} (P : Disk D → Prop) (p : FileM D α) (Q : Py α → Disk D → Prop) : Prop :=
  Contract fileExec (fun s => Partitioned s.1) (fun s t => SameData s.1 t.1) (fun op s => FileOp.Purges op s.1)
    (fun s => P s.1) p
    (fun r s => Q r s.1)

section Rebuilds
variable {α : Type} {P : Disk D → Prop} {refs : List Ref} {batch : Batch} {records : Records D.V} {routing : Routing}

/-- A fact about the data is left alone by what does not write them. -/
theorem purging_leaves {p : FileM D α} (hp : p.Performs FileOp.Leaves) (hP : ∀ d d', P d → SameData d d' → P d') :
    Purging P p (fun _ => P) :=
  contract_of_performs hp (fun s t h hs => hP s.1 t.1 h hs) (fun _ s hop _ _ => hop.purges s.1)
    fun _ s _ t hop _ h he => hP s.1 t.1 h (hop.sameData he)

def Reads (routing : Routing) (shard : ℕ) (records : Records D.V) (d : Disk D) : Prop :=
  d.routing = some routing ∧ d.shards shard = some records

theorem Reads.sameData {shard : ℕ} {d d' : Disk D} (h : Reads routing shard records d) (hs : SameData d d') :
    Reads routing shard records d' :=
  ⟨hs.routing.trans h.1,(congrFun hs.shards shard).trans h.2⟩

/-- A file with rows of the subjects taken out. -/
theorem purging_saveShard (refs : List Ref) (shard : ℕ) :
    Purging (Reads routing shard records) (saveShard shard (retain records refs))
    (fun _ => Reads routing shard (retain records refs)) := by
  refine contract_call (R := fun _ s => Reads routing shard (retain records refs) s.1)
    (fun s t h hs => h.sameData hs) ?_ ?_ fun _ => ?_
  · rintro s - ⟨hrouting,hfile⟩ s' t r hs' he
    obtain ⟨-,rfl⟩ := Prod.mk.inj (Except.ok.inj he)
    have hshard : ∀ k records', Function.update s'.1.shards shard (some (retain records refs)) k = some records' →
        ∃ old, s.1.shards k = some old ∧ records'.Sublist old := by
      intro k records' hk
      by_cases hks : k = shard
      · subst hks
        rw [Function.update_self] at hk
        rw [← Option.some.inj hk]
        exact ⟨records,hfile,List.filter_sublist⟩
      · rw [Function.update_of_ne hks, hs'] at hk
        exact ⟨records',hk,.refl _⟩
    refine ⟨⟨hshard,fun routing' hr => ⟨routing',hs' ▸ hr,.refl _⟩⟩,fun hp routing' hr k records' hk row hrow => ?_⟩
    obtain ⟨old,hold,hsub⟩ := hshard k records' hk
    exact hp routing' (hs' ▸ hr) k old hold row (hsub.subset hrow)
  · rintro s - ⟨hrouting,hfile⟩ r t he -
    obtain ⟨-,rfl⟩ := Prod.mk.inj (Except.ok.inj he)
    exact ⟨hrouting,Function.update_self ..⟩
  · exact contract_pure (fun s t h hs => h.sameData hs) fun _ _ h => h

theorem performs_trainSlices_leaves (shard : ℕ) (preproc : D.mlp.Preproc) (records : Records D.V) (seed : ℤ) (n i : ℕ)
    (t : Training D) :
    (trainSlices shard preproc records seed n i t).Performs FileOp.Leaves := by
  induction n generalizing i t with
  | zero => exact performs_pure _
  | succ n ih =>
    have hsave : (saveCheckpoint shard i (D.mlp.stateDict (trainSlice preproc records seed i t).1)).Performs
      FileOp.Leaves :=
      performs_call trivial
    exact hsave.bind fun _ => (ih _ _).bind fun _ => performs_pure _

theorem performs_trainShard_leaves (shard : ℕ) (records : Records D.V) (fromSlice : ℕ)
    (resumeState : Option D.Weights) (seed : ℤ) :
    (trainShard shard (some records) fromSlice resumeState seed).Performs FileOp.Leaves := by
  refine (performs_lift _).bind fun _ => (performs_pure _).bind fun records => (performs_lift _).bind fun preproc => ?_
  exact (performs_lift _).bind fun start => Performs.bind (performs_call trivial) fun _ =>
    performs_trainSlices_leaves ..

def Keeps (routing : Routing) (shard : ℕ) (records : Records D.V) (refs : List Ref) (r : Py (Retrained D))
    (d : Disk D) : Prop :=
  ∀ x, r = .ok x → Reads routing shard (retain records refs) d

theorem purging_retrain_mlp (seed : ℤ) :
    Purging (Reads routing batch.shard records) (Rebuild.retrain seed refs batch records)
    (Keeps routing batch.shard records refs) := by
  have hdone : ∀ (p : FileM D (Retrained D)), p.Performs FileOp.Leaves →
      Purging (Reads routing batch.shard (retain records refs)) p (Keeps routing batch.shard records refs) :=
    fun p hp => (purging_leaves hp fun _ _ h hs => h.sameData hs).mono (fun _ _ h => h) fun _ _ _ h _ _ => h
  rw [Rebuild.retrain]
  cases hpurge : Rebuild.purgeAll batch.shard refs records 0 with
  | error e => exact contract_throw (fun s t h hs => h.sameData hs) fun _ _ _ x hx => by cases hx
  | ok purged =>
    obtain ⟨retained,total⟩ := purged
    obtain ⟨-,-,rfl,-⟩ := Rebuild.purgeAll_eq_ok.mp hpurge
    refine (purging_saveShard refs batch.shard).bind (fun _ => hdone _ ?_) fun e s _ _ x hx => by cases hx
    have hresume : (Rebuild.loadResumeState batch.shard batch.minSlice : FileM D _).Performs FileOp.Leaves := by
      unfold Rebuild.loadResumeState
      split
      · exact Performs.bind (performs_call trivial) fun _ => performs_pure _
      · exact performs_pure _
    exact hresume.bind fun resume => (performs_trainShard_leaves ..).bind fun _ => (performs_lift _).bind fun _ =>
      performs_pure _

theorem purging_retrain_gbdt (treesPerSlice : ℕ) : Purging (Reads routing batch.shard records)
    (Gbdt.retrain treesPerSlice refs batch records) (Keeps routing batch.shard records refs) := by
  have hload : (loadBooster batch.shard : FileM D _).Performs FileOp.Leaves := performs_call trivial
  refine (purging_leaves hload fun _ _ h hs => h.sameData hs).bind (fun booster => ?_) fun e s _ _ x hx => by cases hx
  cases hrebuild : Gbdt.rebuildBooster batch.shard refs records batch.minSlice booster treesPerSlice with
  | error e => exact contract_throw (fun s t h hs => h.sameData hs) fun _ _ _ x hx => by cases hx
  | ok rebuilt =>
    obtain ⟨rebuilt,retained⟩ := rebuilt
    obtain ⟨-,rfl,-⟩ := Gbdt.rebuildBooster_eq_ok.mp hrebuild
    refine (purging_saveShard refs batch.shard).bind (fun _ => ?_) fun e s _ _ x hx => by cases hx
    refine Contract.mono (purging_leaves (P := Reads routing batch.shard (retain records refs)) ?_ fun _ _ h hs =>
      h.sameData hs)
      (fun _ _ h => h) fun _ _ _ h _ _ => h
    refine (performs_lift _).bind fun saved => Performs.bind (performs_call trivial) fun _ => ?_
    exact (performs_lift _).bind fun _ => performs_pure _

theorem ModelEngine.purging_retrain (engine : ModelEngine) : Purging (Reads routing batch.shard records)
    ((engine.parts : EngineParts D).retrain refs batch records) (Keeps routing batch.shard records refs) := by
  cases engine with
  | mlp seed => exact purging_retrain_mlp seed
  | gbdt treesPerSlice => exact purging_retrain_gbdt treesPerSlice

/-- The table without its subjects, once their rows are gone. -/
theorem purging_saveRouting (hlocated : locate routing refs = .ok batch) :
    Purging (Reads routing batch.shard (retain records refs)) (saveRouting (routing.without refs))
      (fun _ d => ∀ ref ∈ refs, Gone ref d) := by
  have hrouted : ∀ d : Disk D, Partitioned d → Reads routing batch.shard (retain records refs) d →
    Routed (routing.without refs) d.shards := by
    intro d hp hreads k records' hk row hrow
    obtain ⟨e,he,hshard⟩ := hp routing hreads.1 k records' hk row hrow
    refine ⟨e,?_,hshard⟩
    rw [Dict.get?_without, if_neg, he]
    intro hin
    obtain ⟨e',he',hshard',-⟩ := (locate_eq_ok.mp hlocated).1 _ hin
    cases he.symm.trans he'
    obtain rfl : k = batch.shard := hshard.symm.trans hshard'
    cases hk.symm.trans hreads.2
    exact (mem_retain.mp hrow).2 hin
  refine contract_call (R := fun _ s => ∀ ref ∈ refs, Gone ref s.1) (fun s t h hs => h.sameData hs) ?_ ?_ fun _ => ?_
  · rintro s - hreads s' t r hs' he
    obtain ⟨-,rfl⟩ := Prod.mk.inj (Except.ok.inj he)
    refine ⟨⟨fun k records' hk => ⟨records',hs' ▸ hk,.refl _⟩,fun routing' hr => ?_⟩,fun hp routing' hr => ?_⟩
    · rw [← Option.some.inj hr]
      refine ⟨routing,hreads.1,?_⟩
      rw [Dict.entries_without]
      exact List.filter_sublist
    · rw [← Option.some.inj hr]
      have hshards : s'.1.shards = s.1.shards := by rw [hs']
      exact hshards ▸ hrouted s.1 hp hreads
  · rintro s hp hreads r t he - ref href
    obtain ⟨-,rfl⟩ := Prod.mk.inj (Except.ok.inj he)
    refine ⟨fun k records' hk hin => ?_,fun routing' hr hin => ?_⟩
    · obtain ⟨row,hrow,rfl⟩ := List.mem_map.mp hin
      obtain ⟨e,he,-⟩ := hrouted s.1 hp hreads k records' hk row hrow
      exact (Dict.mem_without.mp (Dict.mem_of_get? he)).2 href
    · rw [← Option.some.inj hr] at hin
      exact (Dict.mem_without.mp hin).2 href
  · exact contract_pure (fun s t h hs ref href => (h ref href).shrinks hs.shrinks) fun _ _ h => h

/-- A computation, and what goes on with its value. -/
theorem purging_lift {β : Type} {x : Py β} {f : β → FileM D α} {Q : Py α → Disk D → Prop}
    (hP : ∀ d d', P d → SameData d d' → P d') (hf : ∀ b, x = .ok b → Purging P (f b) Q)
    (he : ∀ e d, Q (.error e) d) : Purging P (Program.lift x >>= f) Q := by
  cases x with
  | ok b => exact hf b rfl
  | error e => exact contract_throw (fun s t h hs => hP s.1 t.1 h hs) fun s _ _ => he e s.1

theorem purging_loadRouting : Purging (D := D) (fun _ => True) loadRouting
    (fun r d => ∀ routing, r = .ok routing → d.routing = some routing) := by
  have hleaves : FileOp.Leaves (D := D) .loadRouting := trivial
  refine contract_call (R := fun routing s => s.1.routing = some routing) (fun _ _ _ _ => trivial)
    (fun s _ _ => hleaves.purges s.1)
    (fun s _ _ r t he _ => ?_) fun routing => ?_
  · obtain ⟨hr,rfl⟩ := readFile_eq_ok.mp he
    exact hr
  · refine contract_pure (fun s t h hs => hs.routing.trans h) fun s _ h routing' hr => ?_
    rw [← Except.ok.inj hr]
    exact h

theorem purging_loadShard (shard : ℕ) : Purging (D := D) (fun d => d.routing = some routing) (loadShard shard)
    (fun r d => ∀ records, r = .ok records → Reads routing shard records d) := by
  have hleaves : FileOp.Leaves (D := D) (.loadShard shard) := trivial
  refine contract_call (R := fun records s => Reads routing shard records s.1) (fun s t h hs => hs.routing.trans h)
    (fun s _ _ => hleaves.purges s.1) (fun s _ h r t he _ => ?_) fun records => ?_
  · obtain ⟨hr,rfl⟩ := readFile_eq_ok.mp he
    exact ⟨h,hr⟩
  · refine contract_pure (fun s t h hs => h.sameData hs) fun s _ h records' hr => ?_
    rw [← Except.ok.inj hr]
    exact h

def Erases (refs : List Ref) (r : Py (Result D)) (d : Disk D) : Prop :=
  ∀ result, r = .ok result → ∀ ref ∈ refs, Gone ref d

/-- However it is interrupted a rebuild takes data away only, and when it returns nothing is left of its subjects. -/
theorem purging_rebuildBatch (engine : ModelEngine) (refs : List Ref) (sign : Bool) (clock : Clock) :
    Purging (fun _ => True) (rebuildBatch (engine.parts : EngineParts D) refs sign clock) (Erases refs) := by
  have hraise : ∀ (e : PyErr) (d : Disk D), Erases refs (.error e) d := fun e d result h => by cases h
  have hreads : ∀ {routing : Routing} {shard : ℕ} {records : Records D.V} (d d' : Disk D),
    Reads routing shard records d → SameData d d' →
      Reads routing shard records d' := fun d d' h hs => h.sameData hs
  unfold rebuildBatch
  split
  · exact contract_throw (fun _ _ _ _ => trivial) fun s _ _ => hraise _ s.1
  · refine purging_loadRouting.bind (fun routing => ?_) fun e s _ _ => hraise e s.1
    refine Contract.mono (P := fun s => s.1.routing = some routing) ?_ (fun s _ h => h routing rfl) fun _ _ _ h => h
    refine purging_lift (fun d d' h hs => hs.routing.trans h) (fun batch hlocated => ?_) hraise
    refine (purging_loadShard batch.shard).bind (fun records => ?_) fun e s _ _ => hraise e s.1
    refine Contract.mono (P := fun s => Reads routing batch.shard records s.1) ?_ (fun s _ h => h records rfl)
      fun _ _ _ h => h
    have htree : (treeForShard batch.shard (subjectRefs records) : FileM D _).Performs FileOp.Leaves :=
      performs_call trivial
    refine (purging_leaves htree hreads).bind (fun treeBefore => ?_) fun e s _ _ => hraise e s.1
    refine (ModelEngine.purging_retrain engine).bind (fun retrained => ?_) fun e s _ _ => hraise e s.1
    refine Contract.mono (P := fun s => Reads routing batch.shard (retain records refs) s.1) ?_
      (fun s _ h => h retrained rfl) fun _ _ _ h => h
    refine purging_lift hreads (fun tree _ => ?_) hraise
    have hcache : (cacheTree batch.shard tree : FileM D _).Performs FileOp.Leaves := performs_call trivial
    refine (purging_leaves hcache hreads).bind (fun _ => ?_) fun e s _ _ => hraise e s.1
    refine purging_lift hreads (fun cfgDigest _ => ?_) hraise
    refine purging_lift hreads (fun manifests _ => ?_) hraise
    refine purging_lift hreads (fun routing' hpop => ?_) hraise
    obtain ⟨-,-,rfl⟩ := popAll_eq_ok.mp hpop
    refine (purging_saveRouting hlocated).bind (fun _ => ?_) fun e s _ _ => hraise e s.1
    exact contract_pure (fun s t h hs ref href => (h ref href).shrinks hs.shrinks) fun s _ h _ _ => h

end Rebuilds

end UnlearnShield.Engine
