import UnlearnShield.Db.Statements
import UnlearnShield.Scripts.LoadRouting

/-! # What the steps of a worker leave alone

Each program of a worker performs only some of the operations, and what those do not
change the program does not change, whoever else is connected.
-/
namespace UnlearnShield.Worker
open Db Engine Deployment Program
variable {D : Deployment} {o : Outside D}

def WorkerOp.Reads : WorkerOp D → Prop
  | .file _ | .sql _ | .commit | .rollback | .openCopy .. | .finishCopy .. => False
  | _ => True

def WorkerOp.Copies : WorkerOp D → Prop
  | .file _ | .sql _ | .commit | .rollback => False
  | _ => True

def WorkerOp.NoFile : WorkerOp D → Prop
  | .file _ => False
  | _ => True

def WorkerOp.NoCopy : WorkerOp D → Prop
  | .openCopy .. | .finishCopy .. => False
  | _ => True

def WorkerOp.NoSql : WorkerOp D → Prop
  | .sql _ | .commit | .rollback => False
  | _ => True

def WorkerOp.Within : WorkerOp D → Prop
  | .commit | .rollback => False
  | _ => True

theorem WorkerOp.Reads.copies {op : WorkerOp D} (h : op.Reads) : op.Copies := by
  cases op <;> first | exact h.elim | trivial

theorem WorkerOp.Reads.noCopy {op : WorkerOp D} (h : op.Reads) : op.NoCopy := by
  cases op <;> first | exact h.elim | trivial

theorem WorkerOp.Copies.noFile {op : WorkerOp D} (h : op.Copies) : op.NoFile := by
  cases op <;> first | exact h.elim | trivial

theorem WorkerOp.Copies.noSql {op : WorkerOp D} (h : op.Copies) : op.NoSql := by
  cases op <;> first | exact h.elim | trivial

theorem WorkerOp.NoSql.within {op : WorkerOp D} (h : op.NoSql) : op.Within := by
  cases op <;> first | exact h.elim | trivial

section Exec
variable {ι : Type} [DecidableEq ι] {pg : Postgres} {i : ι} {op : WorkerOp D} {w w' : World D ι} {r : op.Resp}

theorem exec_noCopy (hop : op.NoCopy) (h : exec o pg i op w = .ok (r,w')) : w'.cas = w.cas := by
  cases op with
  | file op =>
    rw [exec] at h
    split at h <;> · obtain ⟨-,rfl⟩ := Prod.mk.inj (Except.ok.inj h); rfl
  | sql stmt =>
    rw [exec] at h
    cases he : w.server.execute pg i stmt with
    | error e =>
      rw [he] at h
      cases h
    | ok p =>
      rw [he] at h
      obtain ⟨-,rfl⟩ := Prod.mk.inj (Except.ok.inj h)
      rfl
  | cacheEnsemble key ensemble =>
    obtain ⟨-,rfl⟩ := Prod.mk.inj (Except.ok.inj h)
    unfold World.cacheEnsemble
    split <;> rfl
  | openCopy | finishCopy => exact hop.elim
  | commit | rollback | «exists» | readLive | readCopy | readPreproc | cachedEnsemble | clock =>
    obtain ⟨-,rfl⟩ := Prod.mk.inj (Except.ok.inj h)
    rfl

omit [DecidableEq ι] in
theorem copied_frame (shard : ℕ) (path : String) (content : Artifact D → Artifact D) (w : World D ι) :
    (copied o shard path content w).2.server = w.server ∧ (copied o shard path content w).2.disk = w.disk ∧
    (copied o shard path content w).2.caches = w.caches := by
  unfold copied
  cases liveModel o.engine w.disk shard <;> exact ⟨rfl,rfl,rfl⟩

theorem exec_noSql (hop : op.NoSql) (h : exec o pg i op w = .ok (r,w')) : w'.server = w.server := by
  cases op with
  | file op =>
    rw [exec] at h
    split at h <;> · obtain ⟨-,rfl⟩ := Prod.mk.inj (Except.ok.inj h); rfl
  | cacheEnsemble key ensemble =>
    obtain ⟨-,rfl⟩ := Prod.mk.inj (Except.ok.inj h)
    unfold World.cacheEnsemble
    split <;> rfl
  | openCopy | finishCopy =>
    have hw := (Prod.mk.inj (Except.ok.inj h)).2
    rw [← hw]
    exact (copied_frame ..).1
  | «exists» | readLive | readCopy | readPreproc | cachedEnsemble | clock =>
    obtain ⟨-,rfl⟩ := Prod.mk.inj (Except.ok.inj h)
    rfl
  | _ => exact hop.elim

theorem exec_noFile (hop : op.NoFile) (h : exec o pg i op w = .ok (r,w')) :
    (w'.disk,w'.caches) = (w.disk,w.caches) := by
  cases op with
  | file op => exact hop.elim
  | sql stmt =>
    rw [exec] at h
    cases he : w.server.execute pg i stmt with
    | error e =>
      rw [he] at h
      cases h
    | ok p =>
      rw [he] at h
      obtain ⟨-,rfl⟩ := Prod.mk.inj (Except.ok.inj h)
      rfl
  | cacheEnsemble key ensemble =>
    obtain ⟨-,rfl⟩ := Prod.mk.inj (Except.ok.inj h)
    unfold World.cacheEnsemble
    split <;> rfl
  | openCopy | finishCopy =>
    have hw := (Prod.mk.inj (Except.ok.inj h)).2
    rw [← hw]
    exact Prod.ext (copied_frame ..).2.1 (copied_frame ..).2.2
  | commit | rollback | «exists» | readLive | readCopy | readPreproc | cachedEnsemble | clock =>
    obtain ⟨-,rfl⟩ := Prod.mk.inj (Except.ok.inj h)
    rfl

end Exec

theorem performs_execute (stmt : Sql) {P : WorkerOp D → Prop} (h : P (.sql stmt)) :
    (execute stmt : WorkerM D _).Performs P :=
  ⟨h,fun r => performs_lift r⟩

theorem performs_readLive (shard : ℕ) : (readLive shard : WorkerM D _).Performs WorkerOp.Reads :=
  ⟨trivial,fun r => performs_lift r⟩

section Opening
variable {P : WorkerOp D → Prop} (hcopy : ∀ path, P (.readCopy path)) (hpreproc : ∀ shard, P (.readPreproc shard))
include hcopy

theorem performs_loadBoosters (paths : List (String × String)) : (loadBoosters paths : WorkerM D _).Performs P := by
  have hread : ∀ path, (readCopy path : WorkerM D _).Performs P := fun path => ⟨hcopy path,fun r => performs_lift r⟩
  induction paths with
  | nil => exact performs_pure _
  | cons e paths ih =>
    exact (hread e.2).bind fun artifact => (performs_lift _).bind fun booster => ih.bind fun models => performs_pure _

include hpreproc

theorem performs_loadShardModels (paths : List (String × String)) :
    (loadShardModels paths : WorkerM D _).Performs P := by
  have hread : ∀ path, (readCopy path : WorkerM D _).Performs P := fun path => ⟨hcopy path,fun r => performs_lift r⟩
  have htext : ∀ shard, (readPreproc shard : WorkerM D _).Performs P :=
    fun shard => ⟨hpreproc shard,fun r => performs_lift r⟩
  induction paths with
  | nil => exact performs_pure _
  | cons e paths ih =>
    refine (hread e.2).bind fun artifact => (performs_lift _).bind fun weights => ?_
    exact (htext e.1).bind fun text => ih.bind fun models => performs_pure _

/-- An ensemble is made of the files of its models. -/
theorem performs_newEnsemble (shardPaths : Dict String String) : (newEnsemble o shardPaths).Performs P := by
  refine (performs_lift _).bind fun paths => ?_
  split
  · refine (performs_loadShardModels hcopy hpreproc paths).bind fun models => ?_
    split
    · exact performs_lift _
    · exact performs_pure _
  · refine (performs_loadBoosters hcopy paths).bind fun models => ?_
    split
    · exact performs_lift _
    · exact performs_pure _

end Opening

theorem performs_loadEnsemble (shardPaths : Dict String String) :
    (loadEnsemble o shardPaths).Performs WorkerOp.Reads := by
  refine ⟨trivial,fun hit => ?_⟩
  cases hit with
  | some hit => exact performs_pure _
  | none =>
    exact (performs_newEnsemble (fun _ => trivial) (fun _ => trivial) shardPaths).bind fun ensemble =>
      performs_call trivial

/-- A copy is made where there is no file. -/
theorem performs_promoteArtifact_of {P : WorkerOp D → Prop} (hexists : ∀ path, P (.exists path))
    (hopen : ∀ shard path, P (.openCopy shard path)) (hfinish : ∀ shard path, P (.finishCopy shard path)) (shard : ℕ)
    (resultWeights : String) : (promoteArtifact o shard resultWeights).Performs P := by
  have hcopy : ∀ path, (copyfile shard path : WorkerM D _).Performs P := by
    intro path
    have hbegin : (.call (.openCopy shard path) orRaise : WorkerM D _).Performs P :=
      ⟨hopen shard path,fun r => performs_lift r⟩
    exact hbegin.bind fun _ => ⟨hfinish shard path,fun r => performs_lift r⟩
  refine ⟨hexists _,fun present => ?_⟩
  dsimp only [pathExists, Program.bind_pure']
  change Performs _ (if present = true then _ else _)
  split
  · exact performs_pure _
  · exact (hcopy _).bind fun _ => performs_pure _

theorem performs_promoteArtifact (shard : ℕ) (resultWeights : String) :
    (promoteArtifact o shard resultWeights).Performs WorkerOp.Copies :=
  performs_promoteArtifact_of (fun _ => trivial) (fun _ _ => trivial) (fun _ _ => trivial) shard resultWeights

theorem performs_recordLive_of {P : WorkerOp D → Prop} (hread : ∀ shard, P (.readLive shard))
    (hexists : ∀ path, P (.exists path)) (hopen : ∀ shard path, P (.openCopy shard path))
    (hfinish : ∀ shard path, P (.finishCopy shard path)) (hcheckpoint : ∀ h row, P (.sql (.insertCheckpoint h row)))
    (shardCheckpoints : Dict String String) (shards : List ℕ) : (recordLive o shardCheckpoints shards).Performs P := by
  induction shards generalizing shardCheckpoints with
  | nil => exact performs_pure _
  | cons shard shards ih =>
    have hlive : (readLive shard : WorkerM D _).Performs P := ⟨hread shard,fun r => performs_lift r⟩
    refine hlive.bind fun live => (performs_promoteArtifact_of hexists hopen hfinish shard _).bind fun path => ?_
    exact (performs_execute _ (hcheckpoint _ _)).bind fun _ => ih _

def promotes : Sql → Bool
  | .insertCheckpoint .. | .latestVersion | .insertVersion .. | .checkpointPaths _ | .insertEval .. => true
  | _ => false

def WorkerOp.Promotes : WorkerOp D → Prop
  | .sql stmt => promotes stmt = true
  | op => op.Copies

def WorkerOp.Sends (P : Sql → Prop) : WorkerOp D → Prop
  | .sql stmt => P stmt
  | .commit | .rollback => False
  | _ => True

abbrev WorkerOp.Touches (ids : List Uuid) : WorkerOp D → Prop := WorkerOp.Sends (Sql.Touches ids)

abbrev WorkerOp.Books : WorkerOp D → Prop := WorkerOp.Sends Sql.Books

theorem WorkerOp.Copies.promotes {op : WorkerOp D} (h : op.Copies) : op.Promotes := by
  cases op <;> first | exact h.elim | trivial

theorem WorkerOp.Promotes.noFile {op : WorkerOp D} (h : op.Promotes) : op.NoFile := by
  cases op <;> first | exact h.elim | trivial

theorem WorkerOp.Promotes.touches {op : WorkerOp D} (h : op.Promotes) (ids : List Uuid) : op.Touches ids := by
  cases op with
  | sql stmt => cases stmt <;> first | exact trivial | cases h
  | _ => first | exact h.elim | trivial

theorem WorkerOp.Sends.within {P : Sql → Prop} {op : WorkerOp D} (h : op.Sends P) : op.Within := by
  cases op <;> first | exact h.elim | trivial

theorem performs_promotes (stmt : Sql) (h : promotes stmt = true) :
    (execute stmt : WorkerM D _).Performs WorkerOp.Promotes := performs_execute stmt h

theorem performs_recordEval_of {P : WorkerOp D → Prop} (hpaths : ∀ hashes, P (.sql (.checkpointPaths hashes)))
    (heval : ∀ v row, P (.sql (.insertEval v row))) (hreads : ∀ op : WorkerOp D, op.Reads → P op)
    (modelVersion : String) (shardCheckpoints : Dict String String) :
    (recordEval o modelVersion shardCheckpoints).Performs P := by
  refine (performs_execute _ (hpaths _)).bind fun rows => ?_
  refine ((performs_loadEnsemble _).mono hreads).bind fun ensemble => (performs_lift _).bind fun score => ?_
  exact (performs_execute _ (heval ..)).bind fun _ => performs_pure _

theorem performs_recordEval (modelVersion : String) (shardCheckpoints : Dict String String) :
    (recordEval o modelVersion shardCheckpoints).Performs WorkerOp.Promotes :=
  performs_recordEval_of (fun _ => rfl) (fun _ _ => rfl) (fun _ h => h.copies.promotes) modelVersion shardCheckpoints

theorem performs_promote (shard : ℕ) (resultWeights : String) :
    (promote o shard resultWeights).Performs WorkerOp.Promotes := by
  refine ((performs_promoteArtifact ..).mono fun _ h => h.promotes).bind fun path => ?_
  refine (performs_promotes _ (by rfl)).bind fun _ => (performs_promotes _ (by rfl)).bind fun latest =>
    (performs_promotes _ (by rfl)).bind fun _ => ?_
  exact (performs_recordEval ..).bind fun _ => performs_pure _

section Batch
variable {ids : List Uuid} {group : List ClaimedJob} (hids : ∀ job ∈ group, job.erasureId ∈ ids)
include hids

theorem performs_recordJobs (manifests : Dict Ref Manifest.Pairs) :
    (recordJobs manifests group : WorkerM D _).Performs (WorkerOp.Touches ids) := by
  induction group with
  | nil => exact performs_pure _
  | cons job group ih =>
    obtain ⟨hid,hrest⟩ := List.forall_mem_cons.mp hids
    exact (performs_lift _).bind fun row => (performs_execute _ hid).bind fun _ =>
      (performs_execute _ hid).bind fun _ => ih hrest

omit hids in
theorem performs_recordJobs_of {P : WorkerOp D → Prop} (hm : ∀ id row, P (.sql (.insertManifest id row)))
    (hf : ∀ id, P (.sql (.finishJob id))) (manifests : Dict Ref Manifest.Pairs) (group : List ClaimedJob) :
    (recordJobs manifests group : WorkerM D _).Performs P := by
  induction group with
  | nil => exact performs_pure _
  | cons job group ih =>
    exact (performs_lift _).bind fun row => (performs_execute _ (hm ..)).bind fun _ =>
      (performs_execute _ (hf _)).bind fun _ => ih

theorem performs_bookkeep (shard : ℕ) (result : Result D) :
    (bookkeep o shard group result).Performs (WorkerOp.Touches ids) :=
  ((performs_promote ..).mono fun _ h => h.touches ids).bind fun _ => performs_recordJobs hids _

omit hids in
theorem performs_spotChecks {P : WorkerOp D → Prop} (hcheck : ∀ id row, P (.sql (.insertCheck id row))) (shard : ℕ)
    (result : Result D) (group : List ClaimedJob) : (spotChecks o shard result group).Performs P := by
  induction group with
  | nil => exact performs_pure _
  | cons job group ih =>
    have hrun : (runSpotCheck job.erasureId shard result.replay result.resultWeights).Performs P :=
      (performs_lift _).bind fun _ => (performs_execute _ (hcheck ..)).bind fun _ => performs_pure _
    rw [spotChecks]
    split
    · exact hrun.attempt.bind fun _ => ih
    · exact ih

theorem performs_failJobs (lastError : String) :
    (execute (.failJobs lastError (group.map ClaimedJob.erasureId)) : WorkerM D _).Performs (WorkerOp.Touches ids) := by
  refine performs_execute _ fun id hid => ?_
  obtain ⟨job,hjob,rfl⟩ := List.mem_map.mp hid
  exact hids job hjob

theorem performs_processGroup (shard : ℕ) : (processGroup o shard group).Performs (WorkerOp.Touches ids) := by
  have hrebuild : (rebuildBatchByRef o (group.map ClaimedJob.subjectRef)).Performs (WorkerOp.Touches ids) :=
    Performs.bind ⟨trivial,fun _ => trivial⟩ fun _ => performs_embed (fun _ => trivial) _
  refine hrebuild.attempt.bind fun rebuilt => ?_
  cases rebuilt with
  | error exc => exact performs_failJobs hids _
  | ok result =>
    refine (performs_bookkeep hids shard result).attempt.bind fun booked => ?_
    cases booked with
    | error exc => exact performs_failJobs hids _
    | ok _ => exact performs_spotChecks (fun _ _ => trivial) shard result group

end Batch

theorem performs_processGroups {ids : List Uuid} {groups : List (ℕ × List ClaimedJob)}
    (hids : ∀ g ∈ groups, ∀ job ∈ g.2, job.erasureId ∈ ids) :
    (processGroups o groups).Performs (WorkerOp.Touches ids) := by
  induction groups with
  | nil => exact performs_pure _
  | cons g groups ih =>
    obtain ⟨hg,hrest⟩ := List.forall_mem_cons.mp hids
    exact (performs_processGroup hg g.1).bind fun _ => ih hrest

end UnlearnShield.Worker
