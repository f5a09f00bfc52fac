import UnlearnShield.Worker.Claimed
import UnlearnShield.Worker.Returns
import UnlearnShield.Engine.Faithful

/-! # What a batch leaves served

The promotions of a batch carry one start time, so after a batch of several shards the
row of each of its promotions may be selected, and each carries forward only what was
promoted before it.
-/
namespace UnlearnShield.Worker
open Db Engine Deployment Program
variable {D : Deployment} {o : Outside D} {pg : Postgres} {w w' t : Lone D}

inductive Completed (o : Outside D) (pg : Postgres) : List (ℕ × List ClaimedJob) → Lone D →
    List (ℕ × Result D) → Lone D → Prop
  | nil {w : Lone D} : Completed o pg [] w [] w
  | cons {shard : ℕ} {group : List ClaimedJob} {groups : List (ℕ × List ClaimedJob)} {result : Result D}
      {results : List (ℕ × Result D)} {w u v w' t : Lone D} :
      (rebuildBatchByRef o (group.map ClaimedJob.subjectRef)).run (lone o pg) w = (.ok result,u) →
      (bookkeep o shard group result).run (lone o pg) u = (.ok (),v) →
      (spotChecks o shard result group).run (lone o pg) v = (.ok (),w') → Completed o pg groups w' results t →
      Completed o pg ((shard,group) :: groups) w ((shard,result) :: results) t

theorem Completed.run {groups : List (ℕ × List ClaimedJob)} {results : List (ℕ × Result D)}
    (h : Completed o pg groups w results t) : (processGroups o groups).run (lone o pg) w = (.ok (),t) := by
  induction h with
  | nil => rfl
  | @cons shard group groups result results w u v w' t hre hbk hspot hrest ih =>
    rw [processGroups, run_bind_of_ok (run_processGroup_of_ok hre hbk hspot)]
    exact ih

theorem Completed.shards {groups : List (ℕ × List ClaimedJob)} {results : List (ℕ × Result D)}
    (h : Completed o pg groups w results t) : results.map Prod.fst = groups.map Prod.fst := by
  induction h with
  | nil => rfl
  | cons hre hbk hspot hrest ih => rw [List.map_cons, List.map_cons, ih]

/-- What a group that is processed with no error does to the versions. -/
theorem run_group {shard : ℕ} {group : List ClaimedJob} {result : Result D} {u v : Lone D}
    (hre : (rebuildBatchByRef o (group.map ClaimedJob.subjectRef)).run (lone o pg) w = (.ok result,u))
    (hbk : (bookkeep o shard group result).run (lone o pg) u = (.ok (),v))
    (hspot : (spotChecks o shard result group).run (lone o pg) v = (.ok (),w')) (ha : w'.aborted = false) :
    w.aborted = false ∧ w'.now = w.now ∧ ∃ latest score, w.view.Latest latest ∧
      w'.view.versions = (promoted o w.view w.now shard result.resultWeights latest score).versions := by
  have hserver := server_rebuildBatchByRef hre
  have hview : u.view = w.view := congrArg (fun s : Server Unit => s.view ()) hserver
  have hnow : u.now = w.now := congrArg (fun s : Server Unit => (s.session ()).now) hserver
  have haborted : u.aborted = w.aborted := congrArg (fun s : Server Unit => (s.session ()).aborted) hserver
  obtain ⟨_,x,hpromote,hrecord⟩ := run_bind_eq_ok.mp hbk
  obtain ⟨hx,latest,score,hlatest,hpromoted⟩ := run_promote hpromote
  have hpromotes : (promote o shard result.resultWeights).Performs (WorkerOp.Touches []) :=
    (performs_promote ..).mono fun _ h => h.touches []
  have hbooks : (spotChecks o shard result group).Performs WorkerOp.Books :=
    performs_spotChecks (fun _ _ => trivial) shard result group
  have hv := Performs.sameModels hbooks o pg v (by rw [hspot]; exact ha)
  have hrecords : (recordJobs result.manifests group : WorkerM D Unit).Performs WorkerOp.Books :=
    performs_recordJobs_of (fun _ _ => trivial) (fun _ => trivial) result.manifests group
  have hr := Performs.sameModels hrecords o pg x (by rw [hrecord]; exact hv.1)
  have hu := Performs.follows hpromotes o pg u (by rw [hpromote]; exact hx)
  have hn₁ := (Performs.within (hpromotes.mono fun _ h => WorkerOp.Sends.within h) o pg u).1
  have hn₂ := (Performs.within (hrecords.mono fun _ h => WorkerOp.Sends.within h) o pg x).1
  have hn₃ := (Performs.within (hbooks.mono fun _ h => WorkerOp.Sends.within h) o pg v).1
  rw [hspot] at hv hn₃
  rw [hrecord] at hr hn₂
  rw [hpromote] at hn₁
  rw [hview] at hlatest hpromoted
  rw [hnow] at hpromoted
  refine ⟨haborted.symm.trans hu.1,?_,latest,score,hlatest,?_⟩
  · rw [hn₃, hn₂, hn₁, hnow]
  · rw [hv.2.versions, hr.2.versions, hpromoted]

theorem Completed.aborted {groups : List (ℕ × List ClaimedJob)} {results : List (ℕ × Result D)}
    (h : Completed o pg groups w results t) (ha : t.aborted = false) : w.aborted = false := by
  induction h with
  | nil => exact ha
  | cons hre hbk hspot hrest ih => exact (run_group hre hbk hspot (ih ha)).1

/-- Versions are only added, each with the start time of the transaction and the digests of a latest
version and its own. -/
theorem Completed.versions {groups : List (ℕ × List ClaimedJob)} {results : List (ℕ × Result D)}
    (h : Completed o pg groups w results t) (ha : t.aborted = false)
    (hpast : ∀ e ∈ w.view.versions.entries, e.2.promotedAt ≤ w.now) :
    (∀ e ∈ t.view.versions.entries, e.2.promotedAt ≤ w.now) ∧
    (∀ k row, w.view.versions.get? k = some row → t.view.versions.get? k = some row) ∧
    ∀ d, (∀ e ∈ w.view.versions.entries, ∀ k, e.2.shardCheckpoints.get? k ≠ some d) →
      d ∉ results.map (fun r => r.2.resultWeights) → ∀ e ∈ t.view.versions.entries, ∀ k,
        e.2.shardCheckpoints.get? k ≠ some d := by
  induction h with
  | nil => exact ⟨hpast,fun _ _ h => h,fun _ h _ => h⟩
  | @cons shard group groups result results w u v w' t hre hbk hspot hrest ih =>
    obtain ⟨-,hnow,latest,score,hlatest,hversions⟩ := run_group hre hbk hspot (hrest.aborted ha)
    have hentries : ∀ e ∈ w'.view.versions.entries, e ∈ w.view.versions.entries ∨
        e = (versionName result.resultWeights,⟨(carriedForward latest).insert (toString shard) result.resultWeights,
          evalSetVersion latest,w.now⟩) := by
      rw [hversions]
      intro e he
      have hget := Dict.get?_eq_some.mpr he
      by_cases hn : e.1 = versionName result.resultWeights
      · rw [hn] at hget
        rcases Dict.get?_setdefault_self.mp hget with hget | ⟨-,hrow⟩
        · rw [← hn] at hget
          exact Or.inl (Dict.get?_eq_some.mp hget)
        · exact Or.inr (Prod.ext hn hrow)
      · rw [promoted, Dict.get?_setdefault_of_ne hn] at hget
        exact Or.inl (Dict.get?_eq_some.mp hget)
    obtain ⟨hle,hkept,hdigest⟩ := ih ha (by
      intro e he
      rw [hnow]
      rcases hentries e he with he | rfl
      · exact hpast e he
      · exact le_rfl)
    rw [hnow] at hle
    refine ⟨hle,fun k row hk => hkept k row ?_,fun d hd hnot => ?_⟩
    · rw [hversions]
      exact Dict.get?_setdefault_of_get? hk
    · rw [List.map_cons, List.mem_cons, not_or] at hnot
      refine hdigest d (fun e he k => ?_) hnot.2
      rcases hentries e he with he | rfl
      · exact hd e he k
      · dsimp only
        rw [Dict.get?_insert]
        split
        · exact fun h => hnot.1 (Option.some.inj h).symm
        · cases latest with
          | none => simp [carriedForward]
          | some e' => exact hd e' (List.mem_filter.mp hlatest).1 k

/-- Every row the reader may select gives each shard of the batch the weights of its rebuild, and every
other shard what it had. -/
def ServesBatch (before : VersionRow) (results : List (ℕ × Result D)) (db : Database) : Prop :=
  db.latest ≠ [] ∧ ∀ e ∈ db.latest, ∀ k, e.2.shardCheckpoints.get? k =
    (before.shardCheckpoints.insertAll (results.map fun r => (toString r.1,r.2.resultWeights))).get? k

theorem get?_insertAll_results {results : List (ℕ × Result D)} (hn : (results.map Prod.fst).Nodup) {r : ℕ × Result D}
    (hr : r ∈ results) (m : Dict String String) :
    (m.insertAll (results.map fun r => (toString r.1,r.2.resultWeights))).get? (toString r.1) =
      some r.2.resultWeights := by
  refine Dict.get?_insertAll_of_mem ?_
    (List.mem_map_of_mem (f := fun r : ℕ × Result D => (toString r.1,r.2.resultWeights)) hr) m
  have hkeys : (results.map fun r => (toString r.1,r.2.resultWeights)).map Prod.fst =
    (results.map Prod.fst).map toString := by
    rw [List.map_map, List.map_map]
    rfl
  rw [hkeys]
  exact hn.map toString_injective

/-- Two shards: the row of the first promotion lacks the second, and what the first one could not name
is in no row. -/
theorem not_servesBatch {shard : ℕ} {group : List ClaimedJob} {groups : List (ℕ × List ClaimedJob)} {result : Result D}
    {r : ℕ × Result D} {results : List (ℕ × Result D)} {e : String × VersionRow} (hl : w.view.latest = [e])
    (hlt : ∀ v ∈ w.view.versions.entries, v.2.promotedAt < w.now)
    (h : Completed o pg ((shard,group) :: groups) w ((shard,result) :: r :: results) t) (ha : t.aborted = false)
    (hshards : (((shard,result) :: r :: results).map Prod.fst).Nodup)
    (hn : (((shard,result) :: r :: results).map fun r => r.2.resultWeights).Nodup)
    (hnew : ∀ r' ∈ (shard,result) :: r :: results, ∀ v ∈ w.view.versions.entries, ∀ k,
      v.2.shardCheckpoints.get? k ≠ some r'.2.resultWeights) :
    ¬ServesBatch e.2 ((shard,result) :: r :: results) t.view := by
  rintro ⟨hne,hserves⟩
  have he : e ∈ w.view.versions.entries := by
    have hmem : e ∈ w.view.latest := hl ▸ List.mem_singleton_self e
    exact (List.mem_filter.mp hmem).1
  obtain ⟨hle,-⟩ := h.versions ha fun v hv => (hlt v hv).le
  cases h with
  | @cons _ _ _ _ _ _ u v w' _ hre hbk hspot hrest =>
  obtain ⟨-,hnow,latest,score,hlatest,hversions⟩ := run_group hre hbk hspot (hrest.aborted ha)
  cases Latest.of_latest hl hlatest
  rcases latest_promoted o shard result.resultWeights score hl hlt with ⟨-,hold,-⟩ | ⟨-,row,hadded,-,hmap,hat⟩
  · -- no row names the first weights
    obtain ⟨e',he'⟩ := List.exists_mem_of_ne_nil _ hne
    have hfirst := hserves e' he' (toString shard)
    rw [get?_insertAll_results hshards List.mem_cons_self] at hfirst
    rw [hold] at hversions
    obtain ⟨-,-,hnone⟩ := hrest.versions ha (by rw [hversions, hnow]; exact fun v hv => (hlt v hv).le)
    rw [List.map_cons, List.nodup_cons] at hn
    refine hnone result.resultWeights ?_ hn.1 e' (List.mem_filter.mp he').1 _ hfirst
    rw [hversions]
    exact hnew _ List.mem_cons_self
  · -- the row of the first promotion is still among the latest
    rw [hadded] at hversions
    have hpast : ∀ v ∈ w'.view.versions.entries, v.2.promotedAt ≤ w'.now := by
      rw [hversions, hnow]
      intro v hv
      rcases Dict.mem_entries_insert.mp hv with ⟨-,hv⟩ | ⟨-,hv⟩
      · rw [hv, hat]
      · exact (hlt v hv).le
    obtain ⟨-,hkept,-⟩ := hrest.versions ha hpast
    have hrow : (versionName result.resultWeights,row) ∈ t.view.versions.entries := by
      refine Dict.get?_eq_some.mp (hkept _ _ ?_)
      rw [hversions, Dict.get?_insert_self]
    have hin : (versionName result.resultWeights,row) ∈ t.view.latest := by
      refine List.mem_filter.mpr ⟨hrow,decide_eq_true fun v hv => ?_⟩
      rw [hat]
      exact hle v hv
    have hr : r ∈ (shard,result) :: r :: results := List.mem_cons_of_mem _ List.mem_cons_self
    have hsecond := hserves _ hin (toString r.1)
    rw [get?_insertAll_results hshards hr] at hsecond
    have hother : toString r.1 ≠ toString shard := by
      rw [List.map_cons, List.map_cons, List.nodup_cons] at hshards
      exact fun heq => hshards.1 (toString_injective heq ▸ List.mem_cons_self)
    dsimp only at hsecond
    rw [hmap, served_eq hl, Dict.get?_insert_of_ne hother] at hsecond
    exact hnew r hr e he _ hsecond

/-- A batch with no error is served completely exactly when its jobs are of one shard and the version of
its weights is new. -/
theorem servesBatch_iff {jobs : List ClaimedJob} {results : List (ℕ × Result D)} {e : String × VersionRow} (hw : w.Idle)
    (hl : w.server.committed.latest = [e])
    (hlt : ∀ v ∈ w.server.committed.versions.entries, v.2.promotedAt < w.server.clock)
    (h : Completed o pg (shardGroups jobs) w results t) (ha : t.aborted = false)
    (hn : (results.map fun r => r.2.resultWeights).Nodup)
    (hnew : ∀ r ∈ results, ∀ v ∈ w.server.committed.versions.entries, ∀ k,
      v.2.shardCheckpoints.get? k ≠ some r.2.resultWeights) :
    ServesBatch e.2 results ((withConn (processClaimed o jobs)).run (lone o pg) w).2.server.committed ↔
      (∀ job ∈ jobs, ∀ job' ∈ jobs, job.shard = job'.shard) ∧
      ∀ r ∈ results, versionName r.2.resultWeights ∉ w.server.committed.versions := by
  have hfinal : ((withConn (processClaimed o jobs)).run (lone o pg) w).2.server.committed = t.view := by
    rw [run_withConn, processClaimed, h.run]
    exact committed_commit ha
  have hperm := shardGroups_perm jobs
  have hkeys : ((shardGroups jobs).map Prod.fst).Pairwise (· < ·) :=
    groupby_pairwise (List.pairwise_insertionSort (fun a b : ClaimedJob => a.shard ≤ b.shard) jobs)
  have hshards : (results.map Prod.fst).Nodup := by
    rw [h.shards]
    exact hkeys.imp fun hlt => hlt.ne
  have hgroups := fun shard group => @mem_shardGroups jobs shard group
  rw [hfinal]
  rw [← hw.view] at hl hlt hnew ⊢
  rw [← hw.now] at hlt
  generalize shardGroups jobs = groups at *
  cases h with
  | nil =>
    have hjobs : jobs = [] := List.nil_perm.mp hperm
    subst hjobs
    refine iff_of_true ⟨by simp [hl],fun e' he' k => ?_⟩ (by simp)
    rw [hl, List.mem_singleton] at he'
    rw [he']
    rfl
  | @cons shard group groups result results w u v w' t hre hbk hspot hrest =>
    cases hrest with
    | cons hre' hbk' hspot' hrest' =>
      rename_i shard' group' groups' result' results' u' v' w''
      refine iff_of_false
        (not_servesBatch hl hlt (.cons hre hbk hspot (.cons hre' hbk' hspot' hrest')) ha hshards hn hnew) ?_
      rintro ⟨hone,-⟩
      obtain ⟨hne,hmem⟩ := hgroups shard group List.mem_cons_self
      obtain ⟨hne',hmem'⟩ := hgroups shard' group' (List.mem_cons_of_mem _ List.mem_cons_self)
      obtain ⟨a,ha⟩ := List.exists_mem_of_ne_nil _ hne
      obtain ⟨b,hb⟩ := List.exists_mem_of_ne_nil _ hne'
      have hab := hone a (hmem a ha).1 b (hmem' b hb).1
      rw [(hmem a ha).2, (hmem' b hb).2] at hab
      have hlt' := (List.pairwise_cons.mp hkeys).1 shard' (List.mem_cons_self)
      exact hlt'.ne hab
    | nil =>
      have hone : ∀ job ∈ jobs, ∀ job' ∈ jobs, job.shard = job'.shard := by
        have hall : ∀ job ∈ jobs, job.shard = shard := by
          intro job hjob
          refine ((hgroups shard group List.mem_cons_self).2 job ?_).2
          simpa using hperm.mem_iff.mpr hjob
        exact fun job hjob job' hjob' => (hall job hjob).trans (hall job' hjob').symm
      obtain ⟨-,-,latest,score,hlatest,hversions⟩ := run_group hre hbk hspot ha
      cases Latest.of_latest hl hlatest
      have hlatest' : t.view.latest = (promoted o w.view w.now shard result.resultWeights (some e) score).latest := by
        unfold Database.latest
        rw [hversions]
      have he : e ∈ w.view.versions.entries := by
        have hmem : e ∈ w.view.latest := hl ▸ List.mem_singleton_self e
        exact (List.mem_filter.mp hmem).1
      rw [ServesBatch, hlatest', List.forall_mem_singleton]
      rcases latest_promoted o shard result.resultWeights score hl hlt with ⟨hname,-,hsame⟩ |
        ⟨hname,row,-,hadded,hmap,-⟩
      · refine iff_of_false ?_ fun h => h.2 hname
        rintro ⟨-,hserves⟩
        rw [hsame, List.forall_mem_singleton] at hserves
        have hfirst := hserves (toString shard)
        rw [get?_insertAll_results hshards List.mem_cons_self] at hfirst
        exact hnew _ List.mem_cons_self e he _ hfirst
      · refine iff_of_true ⟨by simp [hadded],?_⟩ ⟨hone,hname⟩
        rw [hadded, List.forall_mem_singleton]
        intro k
        rw [hmap, served_eq hl]
        rfl

section Sample

def pairedRouting : Routing := Dict.ofList [
  (sampleRef 1,⟨"dev",0,0,1⟩), (sampleRef 2,⟨"dev",0,1,1⟩), (sampleRef 3,⟨"dev",1,0,1⟩), (sampleRef 4,⟨"dev",1,1,1⟩)]

def firstRecords : Records ℕ := [⟨sampleRef 1,0,10⟩, ⟨sampleRef 2,1,20⟩]
def secondRecords : Records ℕ := [⟨sampleRef 3,0,30⟩, ⟨sampleRef 4,1,40⟩]

def pairedRecords : ℕ → Option (Records ℕ)
  | 0 => some firstRecords
  | 1 => some secondRecords
  | _ => none

def pairedDisk : Disk sharded :=
  ⟨some pairedRouting,pairedRecords,fun _ => none,fun _ _ => none,fun
    | 0 => some [[10],[10,20]]
    | 1 => some [[30],[30,40]]
    | _ => none⟩

def pairedOutside : Outside sharded where
  engine := .gbdt 1
  CHECKPOINT_DIR := "checkpoints"
  shouldSpotCheck := fun _ => false
  score := fun _ => .ok "0.5"
  nEval := 4000
  fileHash := fun
    | .booster booster => Gbdt.boosterDigest booster
    | .weights weights => stateDictDigest weights
    | .unfinished => ""
  clock := fun _ => ⟨"2024-01-01","2024-01-02"⟩

def pairedJobs : List ClaimedJob := [⟨"a",sampleRef 2,0⟩,⟨"b",sampleRef 4,1⟩]

def processingJob (job : ClaimedJob) : Job := {queuedJob job.subjectRef with shard := job.shard, status := .processing}

def pairedVersion : VersionRow := ⟨Dict.ofList [("0","0a"),("1","0b")],"v0",0⟩

def pairedTables : Database := {emptyTables with
  jobs := Dict.ofList (pairedJobs.map fun job => (job.erasureId,processingJob job))
  versions := Dict.ofList [("v0-baseline",pairedVersion)]
  checkpoints := Dict.ofList [
    ("0a",⟨0,1,casPath pairedOutside "0a","git:0"⟩), ("0b",⟨1,1,casPath pairedOutside "0b","git:0"⟩)]}

def pairedWorld : Lone sharded :=
  ⟨pairedDisk,Dict.ofList [
    (casPath pairedOutside "0a",.booster [[10],[10,20]]), (casPath pairedOutside "0b",.booster [[30],[30,40]])],
    ⟨pairedTables,Dict.empty,1,0⟩,fun _ _ => none,fun _ => Dict.empty⟩

theorem pairedWorld_servable : Servable pairedWorld := by
  constructor
  · intro path artifact h
    have hmem := Dict.mem_of_get?_ofList h
    rcases List.mem_cons.mp hmem with h | h
    · exact ⟨_,(Prod.mk.inj h).2⟩
    · exact ⟨_,(Prod.mk.inj (List.mem_singleton.mp h)).2⟩
  · intro h row hrow
    have hmem := Dict.mem_of_get?_ofList (show (Dict.ofList _).get? h = some row from hrow)
    rcases List.mem_cons.mp hmem with h | h
    · rw [(Prod.mk.inj h).2]
      exact ⟨Dict.mem_ofList.mpr ⟨_,List.mem_cons_self⟩,lt_maxDigits (by decide)⟩
    · rw [(Prod.mk.inj (List.mem_singleton.mp h)).2]
      exact ⟨Dict.mem_ofList.mpr ⟨_,List.mem_cons_of_mem _ (List.mem_singleton_self _)⟩,lt_maxDigits (by decide)⟩

/-- A call on a located subject, with the booster it leaves. -/
theorem paired_call {s : Process sharded} {ref : Ref} {batch : Batch} {records : Records ℕ} {routing : Routing}
    {booster kept rebuilt : List (List ℕ)} (h : Ready (sampleCall (.gbdt 1) [ref]) s batch records)
    (hr : s.1.routing = some routing) (hb : s.1.boosters batch.shard = some booster)
    (hk : Gbdt.rollback (D := sharded) booster batch.minSlice 1 = .ok (some kept))
    (htrain : Gbdt.trainShard (D := sharded) (retain records [ref]) batch.minSlice (some kept) 1 = .ok (some rebuilt)) :
    ∃ result t tree, (sampleCall (.gbdt 1) [ref]).program.run fileExec s = (.ok result,t) ∧
      result.resultWeights = Gbdt.boosterDigest (D := sharded) rebuilt ∧
      t = ({s.1 with
          routing := some (routing.without [ref])
          shards := Function.update s.1.shards batch.shard (some (retain records [ref]))
          boosters := Function.update s.1.boosters batch.shard (some rebuilt)},
        Smt.cacheTree s.2 batch.shard tree) := by
  obtain ⟨result,t,hrun⟩ := Call.returns h
  obtain ⟨x,booster',kept',rebuilt',hx,hb',hk',htrain',hweights,ht⟩ := Gbdt.returned rfl hrun
  obtain ⟨hbatch,hrecords⟩ :=
    Located.unique ⟨h.nonempty,h.located,h.shardFile⟩ ⟨hx.nonempty,⟨x.routing,hx.routing,hx.batch⟩,hx.records⟩
  rw [← hbatch, ← hrecords] at htrain'
  rw [← hbatch] at hb' hk'
  rw [← hbatch, ← hrecords] at ht
  cases hr.symm.trans hx.routing
  cases hb.symm.trans hb'
  cases hk.symm.trans hk'
  cases htrain.symm.trans htrain'
  exact ⟨result,t,x.tree,hrun,hweights,ht⟩

theorem pairedWorld_ready : Ready (sampleCall (.gbdt 1) [sampleRef 2]) (pairedWorld.files ()) ⟨0,1⟩ firstRecords where
  nonempty := List.cons_ne_nil _ _
  nodup := List.nodup_singleton _
  located := ⟨pairedRouting,rfl,rfl⟩
  shardFile := rfl
  present := by decide
  cache := not_cacheCollision rfl
  key := fun _ => rfl
  deterministic := rfl
  slice := Nat.one_lt_two
  model := ⟨_,rfl,by decide⟩

/-- Both groups are processed with no error. -/
theorem paired_completed :
    ∃ r r' t, Completed pairedOutside Postgres.inOrder (shardGroups pairedJobs) pairedWorld [(0,r),(1,r')] t ∧
    t.aborted = false ∧ r.resultWeights = Gbdt.boosterDigest (D := sharded) [[10],[10]] ∧
    r'.resultWeights = Gbdt.boosterDigest (D := sharded) [[30],[30]] := by
  have hgroups : shardGroups pairedJobs = [(0,[⟨"a",sampleRef 2,0⟩]),(1,[⟨"b",sampleRef 4,1⟩])] := rfl
  obtain ⟨r,t,tree,hcall,hweights,ht⟩ := paired_call pairedWorld_ready rfl rfl rfl rfl
  obtain ⟨u,v,hre,hbk,hspot,hv,hs,hfiles,hsame⟩ := exists_group pairedOutside Postgres.inOrder 0 [⟨"a",sampleRef 2,0⟩]
    rfl (fun _ => ⟨_,rfl⟩) (fun _ => rfl) (fun _ => rfl) hcall
      (by rw [ht]; rfl) (lt_maxDigits (by decide)) rfl pairedWorld_servable
    (List.nodup_singleton _) (by decide)
  -- the second shard is as it was
  have hready : Ready (sampleCall (.gbdt 1) [sampleRef 4]) (v.files ()) ⟨1,1⟩ secondRecords := by
    rw [hfiles, ht]
    refine ⟨List.cons_ne_nil _ _,List.nodup_singleton _,⟨_,rfl,rfl⟩,
      rfl,by decide,not_cacheCollision rfl,fun _ => rfl,rfl,
      Nat.one_lt_two,⟨_,rfl,by decide⟩⟩
  have hroute : (v.files ()).1.routing = some (pairedRouting.without [sampleRef 2]) := by rw [hfiles, ht]
  have hbooster : (v.files ()).1.boosters 1 = some ([[30],[30,40]] : List (List ℕ)) := by rw [hfiles, ht]; rfl
  obtain ⟨r',t',tree',hcall',hweights',ht'⟩ := paired_call hready hroute hbooster rfl rfl
  have hjob : "b" ∈ v.view.jobs ∧ "b" ∉ v.view.manifests := by
    constructor
    · rw [← Dict.get?_isSome, hsame.jobs "b" (by decide)]
      rfl
    · rw [← Dict.get?_eq_none, hsame.manifests "b" (by decide)]
      rfl
  obtain ⟨u',v',hre',hbk',hspot',hv',-⟩ := exists_group pairedOutside Postgres.inOrder 1 [⟨"b",sampleRef 4,1⟩]
    rfl (fun _ => ⟨_,rfl⟩) (fun _ => rfl) (fun _ => rfl) hcall'
      (by rw [ht']; rfl) (lt_maxDigits (by decide)) hv hs (List.nodup_singleton _) (List.forall_mem_singleton.mpr hjob)
  rw [hgroups]
  exact ⟨r,r',v',.cons hre hbk hspot (.cons hre' hbk' hspot' .nil),hv',hweights,hweights'⟩

theorem paired_digests :
    [Gbdt.boosterDigest (D := sharded) [[10],[10]], Gbdt.boosterDigest (D := sharded) [[30],[30]],"0a","0b"].Nodup := by
  decide +kernel

/-- What the batch is asked to serve. -/
theorem paired_new {r r' : Result sharded} (h : r.resultWeights = Gbdt.boosterDigest (D := sharded) [[10],[10]])
    (h' : r'.resultWeights = Gbdt.boosterDigest (D := sharded) [[30],[30]]) :
    ([((0 : ℕ),r),(1,r')].map fun r => r.2.resultWeights).Nodup ∧
    ∀ x ∈ [((0 : ℕ),r),(1,r')], ∀ v ∈ pairedWorld.server.committed.versions.entries, ∀ k,
      v.2.shardCheckpoints.get? k ≠ some x.2.resultWeights := by
  have hn := paired_digests
  rw [← h, ← h'] at hn
  simp only [List.nodup_cons, List.mem_cons, List.not_mem_nil, or_false, not_or] at hn
  obtain ⟨⟨hne,ha,hb⟩,⟨ha',hb'⟩,-⟩ := hn
  refine ⟨by simpa using hne,?_⟩
  intro x hx v hv k hk
  have hversion : v = ("v0-baseline",pairedVersion) := List.mem_singleton.mp hv
  rw [hversion] at hk
  have hmem := Dict.mem_of_get?_ofList hk
  simp only [List.mem_cons, Prod.mk.injEq, List.not_mem_nil, or_false] at hx hmem
  rcases hx with rfl | rfl
  · rcases hmem with ⟨-,h⟩ | ⟨-,h⟩
    · exact ha h
    · exact hb h
  · rcases hmem with ⟨-,h⟩ | ⟨-,h⟩
    · exact ha' h
    · exact hb' h

/-- The first of the two jobs, in a batch of its own. -/
theorem single_completed :
    ∃ r t, Completed pairedOutside Postgres.inOrder (shardGroups [⟨"a",sampleRef 2,0⟩]) pairedWorld [(0,r)] t ∧
    t.aborted = false ∧ r.resultWeights = Gbdt.boosterDigest (D := sharded) [[10],[10]] := by
  have hgroups : shardGroups [⟨"a",sampleRef 2,0⟩] = [(0,[⟨"a",sampleRef 2,0⟩])] := rfl
  obtain ⟨r,t,tree,hcall,hweights,ht⟩ := paired_call pairedWorld_ready rfl rfl rfl rfl
  obtain ⟨u,v,hre,hbk,hspot,hv,-⟩ := exists_group pairedOutside Postgres.inOrder 0 [⟨"a",sampleRef 2,0⟩]
    rfl (fun _ => ⟨_,rfl⟩) (fun _ => rfl) (fun _ => rfl) hcall
      (by rw [ht]; rfl) (lt_maxDigits (by decide)) rfl pairedWorld_servable
    (List.nodup_singleton _) (by decide)
  rw [hgroups]
  exact ⟨r,v,.cons hre hbk hspot .nil,hv,hweights⟩

theorem versionName_new : versionName (Gbdt.boosterDigest (D := sharded) [[10],[10]]) ∉ pairedTables.versions := by
  decide +kernel

/-- The two jobs, and the first of them alone, which is served. -/
theorem servesBatch_iff_sample :
    (∃ results t, Completed pairedOutside Postgres.inOrder (shardGroups pairedJobs) pairedWorld results t ∧
      (ServesBatch pairedVersion results
          ((withConn (processClaimed pairedOutside pairedJobs)).run (lone pairedOutside Postgres.inOrder)
          pairedWorld).2.server.committed ↔
        (∀ job ∈ pairedJobs, ∀ job' ∈ pairedJobs, job.shard = job'.shard) ∧
        ∀ r ∈ results, versionName r.2.resultWeights ∉ pairedTables.versions)) ∧
    ∃ results t, Completed pairedOutside Postgres.inOrder (shardGroups [⟨"a",sampleRef 2,0⟩]) pairedWorld results t ∧
      ServesBatch pairedVersion results ((withConn (processClaimed pairedOutside [⟨"a",sampleRef 2,0⟩])).run
        (lone pairedOutside Postgres.inOrder) pairedWorld).2.server.committed := by
  constructor
  · obtain ⟨r,r',t,h,ha,hw,hw'⟩ := paired_completed
    obtain ⟨hn,hnew⟩ := paired_new hw hw'
    exact ⟨_,t,h,servesBatch_iff (e := ("v0-baseline",pairedVersion)) rfl rfl (by decide) h ha hn hnew⟩
  · obtain ⟨r,r',-,-,-,hw,hw'⟩ := paired_completed
    obtain ⟨r₁,t,h,ha,hw₁⟩ := single_completed
    obtain ⟨-,hnew⟩ := paired_new hw₁ hw'
    have hone : ∀ job ∈ ([⟨"a",sampleRef 2,0⟩] : List ClaimedJob), ∀ job' ∈ ([⟨"a",sampleRef 2,0⟩] : List ClaimedJob),
        job.shard = job'.shard := by
      simp only [List.mem_singleton]
      rintro _ rfl _ rfl
      rfl
    have hname : versionName r₁.resultWeights ∉ pairedTables.versions := by
      rw [hw₁]
      exact versionName_new
    have hiff := servesBatch_iff (w := pairedWorld) (e := ("v0-baseline",pairedVersion)) rfl rfl (by decide) h ha
      (List.nodup_singleton _) fun r hr => hnew r (List.mem_cons.mpr (Or.inl (List.mem_singleton.mp hr)))
    exact ⟨_,t,h,hiff.mpr ⟨hone,List.forall_mem_singleton.mpr hname⟩⟩

/-- Two jobs on two shards: the batch is not served. -/
theorem not_servesBatch_paired :
    ¬∀ (D : Deployment) (o : Outside D) (pg : Postgres) (jobs : List ClaimedJob) (w t : Lone D)
    (results : List (ℕ × Result D)) (e : String × VersionRow), w.Idle → w.server.committed.latest = [e] →
    (∀ v ∈ w.server.committed.versions.entries, v.2.promotedAt < w.server.clock) →
    Completed o pg (shardGroups jobs) w results t → t.aborted = false → (results.map fun r => r.2.resultWeights).Nodup →
    (∀ r ∈ results, ∀ v ∈ w.server.committed.versions.entries, ∀ k,
      v.2.shardCheckpoints.get? k ≠ some r.2.resultWeights) →
    ServesBatch e.2 results ((withConn (processClaimed o jobs)).run (lone o pg) w).2.server.committed := by
  intro hall
  obtain ⟨r,r',t,h,ha,hw,hw'⟩ := paired_completed
  obtain ⟨hn,hnew⟩ := paired_new hw hw'
  have hserves := hall _ pairedOutside Postgres.inOrder pairedJobs pairedWorld t _
    ("v0-baseline",pairedVersion) rfl rfl (by decide) h ha
    hn hnew
  have hfinal : ((withConn (processClaimed pairedOutside pairedJobs)).run
    (lone pairedOutside Postgres.inOrder) pairedWorld).2.server.committed =
      t.view := by
    rw [run_withConn, processClaimed, h.run]
    exact committed_commit ha
  rw [hfinal] at hserves
  refine not_servesBatch (e := ("v0-baseline",pairedVersion)) ?_ ?_ h ha ?_ hn hnew hserves
  · rfl
  · exact (by decide : ∀ v ∈ pairedTables.versions.entries, v.2.promotedAt < 1)
  · exact (by decide : [0,1].Nodup)

end Sample

end UnlearnShield.Worker
