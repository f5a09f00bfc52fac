import UnlearnShield.Worker.Audit
import UnlearnShield.Worker.Finished
import UnlearnShield.Worker.Watching

/-! # What the content-addressed files hold

A process notes the model file it last wrote or read, and the content-addressed paths it
found or completed a file at. It completes a copy only under the digest of the model it
noted, and records a checkpoint only at a path it noted. So the files on record hold what
their names say in every run in which no copy is disturbed: none is found while it is
unfinished, none is begun where there is a file, and a shard's model is not rewritten by
another process between its digest and the end of its copy.
-/
namespace UnlearnShield.Worker
open Db Engine Deployment Program Relation
variable {D : Deployment} {ι : Type} [DecidableEq ι]

/-- The digest of a model's weights or trees, under which a rebuild promotes it. -/
def Artifact.modelDigest : Artifact D → Option String
  | .weights w => some (stateDictDigest w)
  | .booster b => some (Gbdt.boosterDigest b)
  | .unfinished => none

/-- A load promotes a model under the digest of its file. -/
def Artifact.HasDigest (o : Outside D) (artifact : Artifact D) (h : String) : Prop :=
  artifact.modelDigest = some h ∨ o.fileHash artifact = h

instance (o : Outside D) (artifact : Artifact D) (h : String) : Decidable (artifact.HasDigest o h) :=
  inferInstanceAs (Decidable (_ ∨ _))

/-- The model file a process last wrote or read, and the paths it found or completed a file at. -/
structure Notes (D : Deployment) where
  live : Option (Artifact D)
  complete : List String

def noteFile (op : FileOp D) (_ : op.Resp) (n : Notes D) : Notes D :=
  match op with
  | .saveCheckpoint _ _ weights => {n with live := some (.weights weights)}
  | .saveBooster _ booster => {n with live := some (.booster booster)}
  | _ => n

def noteWorker : Note (WorkerOp D) WorkerOp.Resp (Notes D)
  | .file op, .ok r, n => noteFile op r n
  | .readLive _, .ok artifact, n => {n with live := some artifact}
  | .exists path, true, n => {n with complete := path :: n.complete}
  | .finishCopy _ path, .ok _, n => {n with complete := path :: n.complete}
  | _, _, n => n

section Programs
variable (o : Outside D)

/-- A copy is completed under the digest of the model noted, and a checkpoint is recorded at a path noted. -/
def Noted : WorkerOp D → Notes D → Prop
  | .finishCopy _ path, n => ∃ h artifact, n.live = some artifact ∧ path = casPath o h ∧ artifact.HasDigest o h
  | .sql (.insertCheckpoint h row), n => row.filePath = casPath o h ∧ row.filePath ∈ n.complete
  | _, _ => True

abbrev Careful {α : Type} (R : α → Notes D → Prop) (p : WorkerM D α) (n : Notes D) : Prop :=
  p.Heeds noteWorker (Noted o) R n

/-- An engine may do to its files what it will. -/
abbrev Leaves {α : Type} (R : α → Notes D → Prop) (p : FileM D α) (n : Notes D) : Prop :=
  p.Heeds noteFile (fun _ _ => True) R n

def WorkerOp.Unnoted : WorkerOp D → Prop
  | .finishCopy .. => False
  | .sql (.insertCheckpoint ..) => False
  | _ => True

variable {o} {α : Type}

section Rebuilds

theorem leaves_any (p : FileM D α) (n : Notes D) : Leaves (fun _ _ => True) p n :=
  heeds_of_performs (performs_trivial p) (fun _ _ _ _ => trivial) (fun _ _ _ _ _ => trivial) trivial

/-- Training leaves noted the weights after its last slice. -/
theorem leaves_trainSlices (shard : ℕ) (preproc : D.mlp.Preproc) (records : Records D.V) (seed : ℤ) (k i : ℕ)
    (t : Training D) (n : Notes D) :
    Leaves (fun _ n => n.live = some (.weights (D.mlp.stateDict (afterSlices preproc records seed i t (k+1)).1)))
      (trainSlices shard preproc records seed (k+1) i t) n := by
  induction k generalizing i t n with
  | zero => exact ⟨trivial,fun _ => rfl⟩
  | succ k ih =>
    refine ⟨trivial,fun _ => (ih (i+1) (trainSlice preproc records seed i t) _).bind fun digests n hn => ?_⟩
    rw [afterSlices_succ]
    exact hn

/-- The digest of the last slice is that of the weights noted. -/
theorem leaves_trainShard (shard fromSlice : ℕ) (records : Records D.V) (resumeState : Option D.Weights) (seed : ℤ)
    (n : Notes D) :
    Leaves (fun digests n => ∀ digest, Rebuild.lastDigest D.settings.NUM_SLICES digests = .ok digest →
        n.live.bind Artifact.modelDigest = some digest)
      (trainShard shard (some records) fromSlice resumeState seed) n := by
  refine (leaves_any _ n).bind fun _ n _ => ?_
  refine (show Leaves (fun loaded _ => loaded = records) (Pure.pure records : FileM D _) n from rfl).bind
    fun loaded n hloaded => ?_
  subst hloaded
  refine (leaves_any _ n).bind fun preproc n _ => (leaves_any _ n).bind fun start n _ => ?_
  refine (leaves_any _ n).bind fun _ n _ => ?_
  let after := afterSlices preproc loaded seed fromSlice start
  have hyields : (trainSlices shard preproc loaded seed (D.settings.NUM_SLICES - fromSlice) fromSlice start).Yields
      fun digests => digests = digestsFrom fromSlice after := yields_trainSlices ..
  cases hk : D.settings.NUM_SLICES - fromSlice with
  | zero =>
    rw [hk] at hyields
    refine ((leaves_any _ n).yields hyields).mono fun digests n h digest hlast => ?_
    rw [h.2] at hlast
    have hlt := (Rebuild.lastDigest_eq_ok.mp hlast).1
    omega
  | succ k =>
    rw [hk] at hyields
    refine ((leaves_trainSlices shard preproc loaded seed k fromSlice start n).yields hyields).mono
      fun digests n h digest hlast => ?_
    rw [h.2] at hlast
    rw [h.1, (Rebuild.lastDigest_eq_ok.mp hlast).2, hk]
    rfl

/-- A retraining leaves noted the model whose digest it answers with. -/
theorem leaves_retrain_mlp (seed : ℤ) (refs : List Ref) (batch : Batch) (records : Records D.V) (n : Notes D) :
    Leaves (fun retrained n => n.live.bind Artifact.modelDigest = some retrained.resultWeights)
      (Rebuild.retrain seed refs batch records) n := by
  refine (leaves_any _ n).bind fun purged n _ => ?_
  obtain ⟨retained,droppedTotal⟩ := purged
  refine (leaves_any _ n).bind fun _ n _ => (leaves_any _ n).bind fun resumeState n _ => ?_
  refine (leaves_trainShard batch.shard batch.minSlice retained resumeState seed n).bind fun digests n hdigests => ?_
  exact heeds_lift_bind fun resultWeights hlast => hdigests resultWeights hlast

theorem leaves_retrain_gbdt (treesPerSlice : ℕ) (refs : List Ref) (batch : Batch) (records : Records D.V)
    (n : Notes D) : Leaves (fun retrained n => n.live.bind Artifact.modelDigest = some retrained.resultWeights)
      (Gbdt.retrain treesPerSlice refs batch records) n := by
  refine (leaves_any _ n).bind fun booster n _ => (leaves_any _ n).bind fun rebuilt n _ => ?_
  refine (leaves_any _ n).bind fun _ n _ => (leaves_any _ n).bind fun saved n _ => ?_
  have hsave : Leaves (fun _ n => n.live = some (.booster saved)) (saveBooster batch.shard saved) n :=
    ⟨trivial,fun _ => rfl⟩
  refine hsave.bind fun _ n hlive => heeds_lift_bind fun resumed _ => ?_
  exact congrArg (Option.bind · Artifact.modelDigest) hlive

theorem ModelEngine.leaves_retrain (engine : ModelEngine) (refs : List Ref) (batch : Batch) (records : Records D.V)
    (n : Notes D) : Leaves (fun retrained n => n.live.bind Artifact.modelDigest = some retrained.resultWeights)
      ((engine.parts : EngineParts D).retrain refs batch records) n := by
  cases engine with
  | mlp seed => exact leaves_retrain_mlp seed refs batch records n
  | gbdt treesPerSlice => exact leaves_retrain_gbdt treesPerSlice refs batch records n

/-- What follows a retraining writes no model. -/
theorem leaves_rebuildBatch (engine : ModelEngine) (refs : List Ref) (clock : Clock) (n : Notes D) :
    Leaves (fun result n => n.live.bind Artifact.modelDigest = some result.resultWeights)
      (rebuildBatch (engine.parts : EngineParts D) refs true clock) n := by
  unfold rebuildBatch
  split
  · trivial
  · refine (leaves_any _ n).bind fun routing n _ => (leaves_any _ n).bind fun batch n _ => ?_
    refine (leaves_any _ n).bind fun records n _ => (leaves_any _ n).bind fun treeBefore n _ => ?_
    refine (ModelEngine.leaves_retrain engine refs batch records n).bind fun retrained n hlive => ?_
    refine heeds_lift_bind fun tree _ => ⟨trivial,fun _ => heeds_lift_bind fun cfgDigest _ => ?_⟩
    exact heeds_lift_bind fun manifests _ => heeds_lift_bind fun routing' _ => ⟨trivial,fun _ => hlive⟩

end Rebuilds

theorem careful_unnoted {p : WorkerM D α} (hp : p.Performs WorkerOp.Unnoted) : Minds noteWorker (Noted o) p := by
  refine minds_of_performs hp fun op n hop => ?_
  cases op with
  | sql stmt => cases stmt <;> first | exact trivial | exact hop.elim
  | finishCopy => exact hop.elim
  | _ => trivial

/-- The model noted has the digest. -/
def Live (o : Outside D) (h : String) (n : Notes D) : Prop :=
  ∃ artifact, n.live = some artifact ∧ artifact.HasDigest o h

theorem careful_rebuildBatchByRef (refs : List Ref) (n : Notes D) :
    Careful o (fun result n => Live o result.resultWeights n) (rebuildBatchByRef o refs) n := by
  refine ⟨trivial,fun clock => ?_⟩
  have hcall := leaves_rebuildBatch o.engine refs clock n
  rw [← Call.program_eq ⟨o.engine,refs,true,clock⟩] at hcall
  refine (hcall.embed (fun op r' r g ha => ?_) fun _ _ _ => trivial).mono fun result n hlive => ?_
  · cases ha
    rfl
  · obtain ⟨artifact,hn,hdigest⟩ := Option.bind_eq_some_iff.mp hlive
    exact ⟨artifact,hn,Or.inl hdigest⟩

/-- A promotion ends with a path noted. -/
theorem careful_promoteArtifact (shard : ℕ) {h : String} {n : Notes D} (hlive : Live o h n) :
    Careful o (fun path n => path = casPath o h ∧ path ∈ n.complete) (promoteArtifact o shard h) n := by
  refine ⟨trivial,fun present => ?_⟩
  cases present with
  | true => exact ⟨rfl,List.mem_cons_self⟩
  | false =>
    refine ⟨trivial,fun opened => ?_⟩
    cases opened with
    | error e => trivial
    | ok u =>
      obtain ⟨artifact,hartifact,hdigest⟩ := hlive
      refine ⟨⟨h,artifact,hartifact,rfl,hdigest⟩,fun copied => ?_⟩
      cases copied with
      | error e => trivial
      | ok u => exact ⟨rfl,List.mem_cons_self⟩

/-- The row of a checkpoint at a path noted. -/
theorem careful_insertCheckpoint {h : String} {row : CheckpointRow} {n : Notes D}
    (hrow : row.filePath = casPath o h ∧ row.filePath ∈ n.complete) :
    Careful o (fun _ _ => True) (execute (.insertCheckpoint h row)) n :=
  ⟨hrow,fun _ => heeds_lift fun _ _ => trivial⟩

theorem WorkerOp.Reads.unnoted {op : WorkerOp D} (h : op.Reads) : op.Unnoted := by
  cases op <;> first | exact h.elim | trivial

theorem unnoted_recordEval (modelVersion : String) (shardCheckpoints : Dict String String) :
    (recordEval o modelVersion shardCheckpoints).Performs WorkerOp.Unnoted :=
  performs_recordEval_of (fun _ => trivial) (fun _ _ => trivial) (fun _ h => h.unnoted) modelVersion shardCheckpoints

theorem careful_promote (shard : ℕ) {h : String} {n : Notes D} (hlive : Live o h n) :
    Careful o (fun _ _ => True) (promote o shard h) n := by
  refine (careful_promoteArtifact shard hlive).bind fun path n hpath => ?_
  refine (careful_insertCheckpoint hpath).bind fun _ n _ => ?_
  refine careful_unnoted ((performs_execute _ trivial).bind fun latest => ?_) n
  exact (performs_execute _ trivial).bind fun _ => (unnoted_recordEval _ _).bind fun _ => performs_pure _

theorem careful_processGroup (shard : ℕ) (group : List ClaimedJob) (n : Notes D) :
    Careful o (fun _ _ => True) (processGroup o shard group) n := by
  have hfail : ∀ message, (execute (.failJobs message (group.map ClaimedJob.erasureId)) : WorkerM D _).Performs
      WorkerOp.Unnoted := fun message => performs_execute _ trivial
  refine (careful_rebuildBatchByRef _ n).attempt.bind fun rebuilt n hlive => ?_
  cases rebuilt with
  | error e => exact careful_unnoted (hfail _) n
  | ok result =>
    have hbookkeep : Careful o (fun _ _ => True) (bookkeep o shard group result) n :=
      (careful_promote shard (hlive result rfl)).bind fun _ n _ =>
        careful_unnoted (performs_recordJobs_of (fun _ _ => trivial) (fun _ => trivial) _ _) n
    refine hbookkeep.attempt.bind fun booked n _ => ?_
    cases booked with
    | error e => exact careful_unnoted (hfail _) n
    | ok u => exact careful_unnoted (performs_spotChecks (fun _ _ => trivial) shard result group) n

/-- A load reads each model, and takes the digest of what it read. -/
theorem careful_recordLive (shardCheckpoints : Dict String String) (shards : List ℕ) (n : Notes D) :
    Careful o (fun _ _ => True) (recordLive o shardCheckpoints shards) n := by
  induction shards generalizing shardCheckpoints n with
  | nil => trivial
  | cons shard shards ih =>
    have hread : Careful o (fun artifact n => n.live = some artifact) (readLive shard) n := by
      refine ⟨trivial,fun r => heeds_lift fun artifact hr => ?_⟩
      cases hr
      rfl
    refine hread.bind fun live n hlive => ?_
    have hdigest : Live o (o.fileHash live) n := ⟨live,hlive,Or.inr rfl⟩
    refine (careful_promoteArtifact shard hdigest).bind fun path n hpath => ?_
    exact (careful_insertCheckpoint hpath).bind fun _ n _ => ih _ n

theorem careful_loadRoutingScript : Minds noteWorker (Noted o) (loadRoutingScript o) := by
  have hload : (onFiles (Engine.loadRouting (D := D))).Performs WorkerOp.Unnoted := performs_embed (fun _ => trivial) _
  refine (careful_unnoted hload).bind fun routing => minds_withConn (fun _ => trivial) (fun _ => trivial) fun n => ?_
  have hsubjects : (execute (.upsertSubjects routing.entries) : WorkerM D _).Performs WorkerOp.Unnoted :=
    performs_execute _ trivial
  refine (careful_unnoted hsubjects n).bind fun _ n _ => (careful_recordLive _ _ n).bind fun recorded n _ => ?_
  refine careful_unnoted ((performs_execute _ trivial).bind fun _ => ?_) n
  exact (unnoted_recordEval _ _).bind fun _ => performs_pure _

/-- Whatever its role, a process heeds its notes. -/
theorem Role.careful (LEASE_SECONDS POLL_BATCH_SIZE : ℕ) (role : Role) :
    Minds noteWorker (Noted o) (role.program o LEASE_SECONDS POLL_BATCH_SIZE) := by
  have hserve : (Gateway.servedEnsemble o).Performs WorkerOp.Unnoted :=
    performs_serving o trivial (fun _ => trivial) trivial fun _ h => h.unnoted
  exact role.minds (fun _ => trivial) (fun _ => trivial) (fun _ => trivial) (fun _ _ _ _ => trivial)
    careful_processGroup careful_loadRoutingScript (careful_unnoted hserve) LEASE_SECONDS POLL_BATCH_SIZE

end Programs

section Runs
variable {o : Outside D} {pg : Postgres}

def World.Complete (w : World D ι) (path : String) : Prop :=
  ∃ artifact, w.cas.get? path = some artifact ∧ artifact ≠ .unfinished

/-- A checkpoint is at the path of its digest, and its file is complete. -/
def Write.Copied (o : Outside D) (w : World D ι) : Write → Prop
  | .checkpoint h row => row.filePath = casPath o h ∧ w.Complete row.filePath
  | _ => True

omit [DecidableEq ι] in
theorem Write.Copied.mono {w w' : World D ι} {x : Write} (h : Write.Copied o w x)
    (hkeep : ∀ path, w.Complete path → w'.Complete path) : Write.Copied o w' x := by
  cases x with
  | checkpoint digest row => exact ⟨h.1,hkeep _ h.2⟩
  | _ => trivial

/-- The fleet, with what each of its processes has noted. -/
abbrev Noting (D : Deployment) (ι : Type) := Fleet D ι × (ι → Notes D)

/-- No process finds a copy that is unfinished, or begins one where there is a file; and a process that completes
a copy finds the model file as it last wrote or read it. -/
def Settled (o : Outside D) (i : ι) : WorkerOp D → Noting D ι → Prop
  | .exists path, s => s.1.world.cas.get? path ≠ some .unfinished
  | .openCopy _ path, s => path ∉ s.1.world.cas
  | .finishCopy shard _, s => liveModel o.engine s.1.world.disk shard = (s.2 i).live
  | _, _ => True

structure Archive (o : Outside D) (s : Noting D ι) : Prop where
  named : ∀ path artifact, s.1.world.cas.get? path = some artifact → artifact ≠ .unfinished →
    ∃ h, path = casPath o h ∧ artifact.HasDigest o h
  complete : ∀ i, ∀ path ∈ (s.2 i).complete, s.1.world.Complete path
  rows : s.1.Only (Write.Copied o s.1.world)

variable {i : ι} {op : WorkerOp D} {r : op.Resp} {s t : Noting D ι}

theorem liveModel_ne_unfinished {engine : ModelEngine} {d : Disk D} {shard : ℕ} {artifact : Artifact D}
    (h : liveModel engine d shard = some artifact) : artifact ≠ .unfinished := by
  cases engine <;> obtain ⟨model,-,rfl⟩ := Option.map_eq_some_iff.mp h <;> exact fun h => by cases h

omit [DecidableEq ι] in
theorem copied_eq {shard : ℕ} {path : String} {content : Artifact D → Artifact D} {w w' : World D ι} {r : Py Unit}
    (h : copied o shard path content w = (r,w')) :
    (∃ artifact, liveModel o.engine w.disk shard = some artifact ∧ w'.cas = w.cas.insert path (content artifact)) ∨
      (∃ e, r = .error e) ∧ w'.cas = w.cas := by
  unfold copied at h
  split at h
  · next artifact hlive =>
    obtain ⟨-,rfl⟩ := Prod.mk.inj h
    exact Or.inl ⟨artifact,hlive,rfl⟩
  · obtain ⟨rfl,rfl⟩ := Prod.mk.inj h
    exact Or.inr ⟨⟨_,rfl⟩,rfl⟩

/-- A file is new only as an unfinished copy, or as the model a copy is completed with. -/
theorem artifact_exec {s t : Fleet D ι} (he : Fleet.exec o pg i op s = .ok (r,t)) {path : String}
    {artifact : Artifact D} (h : t.world.cas.get? path = some artifact) :
    s.world.cas.get? path = some artifact ∨ artifact = .unfinished ∨ ∃ shard,
      op = .finishCopy shard path ∧ liveModel o.engine s.world.disk shard = some artifact := by
  obtain ⟨hexec,-⟩ := Fleet.exec_eq_ok.mp he
  cases op with
  | openCopy shard path' =>
    rcases copied_eq (Except.ok.inj hexec) with ⟨live,-,hcas⟩ | ⟨-,hcas⟩
    · rw [hcas, Dict.get?_insert] at h
      split at h
      · exact Or.inr (Or.inl (Option.some.inj h).symm)
      · exact Or.inl h
    · exact Or.inl (hcas ▸ h)
  | finishCopy shard path' =>
    rcases copied_eq (Except.ok.inj hexec) with ⟨live,hlive,hcas⟩ | ⟨-,hcas⟩
    · rw [hcas, Dict.get?_insert] at h
      split at h
      · next heq =>
        subst heq
        cases h
        exact Or.inr (Or.inr ⟨shard,rfl,hlive⟩)
      · exact Or.inl h
    · exact Or.inl (hcas ▸ h)
  | _ =>
    rw [exec_noCopy (by trivial) hexec] at h
    exact Or.inl h

/-- A complete file stays complete. -/
theorem complete_exec (he : Fleet.exec o pg i op s.1 = .ok (r,t.1)) (hs : Settled o i op s) {path : String}
    (h : s.1.world.Complete path) : t.1.world.Complete path := by
  obtain ⟨hexec,-⟩ := Fleet.exec_eq_ok.mp he
  obtain ⟨artifact,hget,hfinished⟩ := h
  cases op with
  | openCopy shard path' =>
    rcases copied_eq (Except.ok.inj hexec) with ⟨live,-,hcas⟩ | ⟨-,hcas⟩
    · have hne : path ≠ path' := fun heq => hs (heq ▸ Dict.mem_of_get? hget)
      exact ⟨artifact,by rw [hcas, Dict.get?_insert, if_neg hne, hget],hfinished⟩
    · exact ⟨artifact,by rw [hcas, hget],hfinished⟩
  | finishCopy shard path' =>
    rcases copied_eq (Except.ok.inj hexec) with ⟨live,hlive,hcas⟩ | ⟨-,hcas⟩
    · by_cases heq : path = path'
      · exact ⟨live,by rw [hcas, Dict.get?_insert, if_pos heq]; rfl,liveModel_ne_unfinished hlive⟩
      · exact ⟨artifact,by rw [hcas, Dict.get?_insert, if_neg heq, hget],hfinished⟩
    · exact ⟨artifact,by rw [hcas, hget],hfinished⟩
  | _ =>
    rw [World.Complete, exec_noCopy (by trivial) hexec]
    exact ⟨artifact,hget,hfinished⟩

/-- What a process newly notes is complete. -/
theorem noted_exec (he : Fleet.exec o pg i op s.1 = .ok (r,t.1)) (hs : Settled o i op s) {n : Notes D} {path : String}
    (h : path ∈ (noteWorker op r n).complete) : path ∈ n.complete ∨ t.1.world.Complete path := by
  obtain ⟨hexec,-⟩ := Fleet.exec_eq_ok.mp he
  cases op with
  | file op =>
    cases r with
    | ok a => exact Or.inl (by cases op <;> exact h)
    | error e => exact Or.inl h
  | «exists» path' =>
    obtain ⟨hr,hw⟩ := Prod.mk.inj (Except.ok.inj hexec)
    cases r with
    | false => exact Or.inl h
    | true =>
      rcases List.mem_cons.mp h with rfl | hold
      · obtain ⟨artifact,hget⟩ := Dict.exists_get?_of_mem (of_decide_eq_true hr)
        refine Or.inr ⟨artifact,by rw [← hw]; exact hget,?_⟩
        rintro rfl
        exact hs hget
      · exact Or.inl hold
  | finishCopy shard path' =>
    rcases copied_eq (Except.ok.inj hexec) with ⟨live,hlive,hcas⟩ | ⟨⟨e,rfl⟩,-⟩
    · cases r with
      | error e => exact Or.inl h
      | ok u =>
        rcases List.mem_cons.mp h with rfl | hold
        · exact Or.inr ⟨live,by rw [hcas]; exact Dict.get?_insert_self ..,liveModel_ne_unfinished hlive⟩
        · exact Or.inl hold
    · exact Or.inl h
  | readLive shard =>
    cases r with
    | ok a => exact Or.inl h
    | error e => exact Or.inl h
  | _ => exact Or.inl h

namespace Archive

/-- The rows that a step adds are those its process may record. -/
theorem rows_step (h : Archive o s) (hkeep : ∀ path, s.1.world.Complete path → t.1.world.Complete path)
    (hm : s.1.Moves pg (fun _ op _ => op.Writes (Write.Copied o t.1.world)) t.1) :
    t.1.Only (Write.Copied o t.1.world) :=
  Fleet.Only.step ⟨fun x hx => Write.Copied.mono (h.rows.committed x hx) hkeep,
      fun j x hx => Write.Copied.mono (h.rows.written j x hx) hkeep⟩
    (fun _ _ => trivial) hm

theorem performed (h : Archive o s) (hs : Settled o i op s) (hn : Noted o op (s.2 i))
    (he : ((fleet o pg).watched noteWorker).exec i op s = .ok (r,t)) : Archive o t := by
  obtain ⟨hexec,hnotes⟩ := Machine.exec_watched.mp he
  have hkeep : ∀ path, s.1.world.Complete path → t.1.world.Complete path := fun path => complete_exec hexec hs
  refine ⟨fun path artifact hget hfinished => ?_,fun j path hpath => ?_,?_⟩
  · rcases artifact_exec hexec hget with hold | hbegun | ⟨shard,rfl,hlive⟩
    · exact h.named path artifact hold hfinished
    · exact absurd hbegun hfinished
    · obtain ⟨digest,live,hnoted,hpath,hdigest⟩ := hn
      have heq : some artifact = some live := hlive.symm.trans (hs.trans hnoted)
      cases heq
      exact ⟨digest,hpath,hdigest⟩
  · rw [hnotes] at hpath
    by_cases hj : j = i
    · subst hj
      rw [Function.update_self] at hpath
      rcases noted_exec hexec hs hpath with hold | hnew
      · exact hkeep path (h.complete j path hold)
      · exact hnew
    · rw [Function.update_of_ne hj] at hpath
      exact hkeep path (h.complete j path hpath)
  · have hwrites : op.Writes (Write.Copied o t.1.world) := by
      cases op with
      | sql stmt =>
        intro pg n now locked db answer ws heffect x hx
        cases x with
        | checkpoint digest row =>
          obtain ⟨rfl,-⟩ := Sql.wrote heffect _ hx
          exact ⟨hn.1,hkeep _ (h.complete i _ hn.2)⟩
        | _ => trivial
      | _ => trivial
    exact h.rows_step hkeep (Fleet.moves_of_exec hwrites hexec)

/-- What is not an operation touches no file. -/
theorem aside (h : Archive o s) (hcas : t.1.world.cas = s.1.world.cas) (hnotes : t.2 = s.2)
    (hm : s.1.Moves pg (fun _ op _ => op.Writes (Write.Copied o t.1.world)) t.1) : Archive o t := by
  have hkeep : ∀ path, s.1.world.Complete path → t.1.world.Complete path := by
    rintro path ⟨artifact,hget,hfinished⟩
    exact ⟨artifact,hcas ▸ hget,hfinished⟩
  exact ⟨hcas ▸ h.named,hnotes ▸ fun i path hpath => hkeep path (h.complete i path hpath),h.rows_step hkeep hm⟩

theorem step {α : Type} {p q : Pool ι (WorkerOp D) WorkerOp.Resp PyErr α (Noting D ι)} (h : Archive o p.2)
    (hstep : (((fleet o pg).watched noteWorker).within fun i op s =>
      Settled o i op s ∧ Noted o op (s.2 i)).Step p q) : Archive o q.2 := by
  cases hstep with
  | op _ he =>
    obtain ⟨⟨hs,hn⟩,he⟩ := Machine.exec_within.mp he
    exact h.performed hs hn he
  | @crash pool s i e =>
    have hm : s.1.Moves pg (fun _ op _ => op.Writes (Write.Copied o s.1.world)) (s.1.rollback i) := .rollback i
    exact h.aside rfl rfl hm
  | @env pool s t he =>
    have hcas : ∀ {s t : Fleet D ι}, s.Meanwhile t → t.world.cas = s.world.cas := by
      intro s t hmeanwhile
      cases hmeanwhile <;> rfl
    have hm : s.1.Moves pg (fun _ op _ => op.Writes (Write.Copied o t.1.world)) t.1 := .meanwhile he.1
    exact h.aside (hcas he.1) he.2 hm

theorem run {α : Type} {p q : Pool ι (WorkerOp D) WorkerOp.Resp PyErr α (Noting D ι)} (h : Archive o p.2)
    (hrun : (((fleet o pg).watched noteWorker).within fun i op s =>
      Settled o i op s ∧ Noted o op (s.2 i)).Reaches p q) : Archive o q.2 := by
  induction hrun with
  | refl => exact h
  | tail _ hstep ih => exact ih.step hstep

end Archive

/-- Every file is of the model its path names, and those of the checkpoints are complete. -/
structure World.Archived (o : Outside D) (w : World D ι) : Prop where
  named : ∀ path artifact, w.cas.get? path = some artifact → artifact ≠ .unfinished →
    ∃ h, path = casPath o h ∧ artifact.HasDigest o h
  rows : ∀ h row, w.server.committed.checkpoints.get? h = some row →
    row.filePath = casPath o h ∧ w.Complete row.filePath

/-- Nothing is noted yet. -/
def Fleet.unnoted (w : World D ι) : Noting D ι := (Fleet.start w,fun _ => ⟨none,[]⟩)

variable {LEASE_SECONDS POLL_BATCH_SIZE : ℕ} {roles : ι → Role}

/-- In a run in which no copy is disturbed, the file of every checkpoint holds, completely, a model of its digest. -/
theorem checkpoints_hold {w : World D ι} (hw : Quiescent w) (hfiles : w.Archived o)
    {q : Pool ι (WorkerOp D) WorkerOp.Resp PyErr Unit (Noting D ι)}
    (h : (((fleet o pg).watched noteWorker).within (Settled o)).Reaches
      (deployed o LEASE_SECONDS POLL_BATCH_SIZE roles,Fleet.unnoted w) q) {digest : String} {row : CheckpointRow}
    (hrow : q.2.1.server.committed.checkpoints.get? digest = some row) :
    ∃ artifact, q.2.1.world.cas.get? row.filePath = some artifact ∧ artifact ≠ .unfinished ∧
      artifact.HasDigest o digest := by
  have hstart : Archive o (Fleet.unnoted w) := by
    refine ⟨hfiles.named,fun i path hpath => (by cases hpath),Fleet.only_start hw fun x hx => ?_⟩
    cases x with
    | checkpoint digest row => exact hfiles.rows digest row hx
    | _ => trivial
  have hheeds : (((fleet o pg).watched noteWorker).within fun i op s => Settled o i op s ∧ Noted o op (s.2 i)).Reaches
      (deployed o LEASE_SECONDS POLL_BATCH_SIZE roles,Fleet.unnoted w) q :=
    h.heeds fun i => (roles i).careful LEASE_SECONDS POLL_BATCH_SIZE ⟨none,[]⟩
  have hend := hstart.run hheeds
  obtain ⟨hpath,artifact,hget,hfinished⟩ := hend.rows.committed (.checkpoint digest row) hrow
  obtain ⟨digest',hpath',hdigest⟩ := hend.named _ _ hget hfinished
  have hsame := casPath_injective o (hpath.symm.trans hpath')
  exact ⟨artifact,hget,hfinished,hsame ▸ hdigest⟩

end Runs

section Sample

instance [DecidableEq D.Weights] [DecidableEq D.Booster] : DecidableEq (Artifact D)
  | .weights v, .weights w => decidable_of_iff (v = w) ⟨congrArg _,fun h => by cases h; rfl⟩
  | .booster v, .booster w => decidable_of_iff (v = w) ⟨congrArg _,fun h => by cases h; rfl⟩
  | .unfinished, .unfinished => .isTrue rfl
  | .weights _, .booster _ | .weights _, .unfinished | .booster _, .weights _ | .booster _, .unfinished
  | .unfinished, .weights _ | .unfinished, .booster _ => .isFalse fun h => by cases h

instance : DecidableEq beginning.Weights := inferInstanceAs (DecidableEq (List ℕ))

instance : DecidableEq beginning.Booster := inferInstanceAs (DecidableEq (List (List ℕ)))

instance decidableSettled (i : Bool) (op : WorkerOp beginning) (s : Noting beginning Bool) :
    Decidable (Settled beginningOutside i op s) := by
  unfold Settled
  split <;> infer_instance

abbrev watchedFleet : Machine Bool (WorkerOp beginning) WorkerOp.Resp PyErr (Noting beginning Bool) :=
  (fleet beginningOutside Postgres.inOrder).watched noteWorker

def watchedWorker : Py Unit × Noting beginning Bool :=
  (deployed beginningOutside 300 8 sampleRoles false).run (watchedFleet.exec false) (Fleet.unnoted beginningWorld)

/-- The load, once the worker is done. -/
def watchedLoad : Py Unit × Noting beginning Bool :=
  (deployed beginningOutside 300 8 sampleRoles true).run (watchedFleet.exec true) watchedWorker.2

theorem checkpoints_hold_sample :
    ∃ q : Pool Bool (WorkerOp beginning) WorkerOp.Resp PyErr Unit (Noting beginning Bool),
    (watchedFleet.within (Settled beginningOutside)).Reaches
      (deployed beginningOutside 300 8 sampleRoles,Fleet.unnoted beginningWorld) q ∧
    q.2.1.server.committed.checkpoints.entries.length = 2 ∧
    ∀ digest row, q.2.1.server.committed.checkpoints.get? digest = some row → ∃ artifact,
      q.2.1.world.cas.get? row.filePath = some artifact ∧ artifact ≠ .unfinished ∧
      artifact.HasDigest beginningOutside digest := by
  have hworker : watchedWorker.1.isOk = true := by decide +kernel
  have hload : watchedLoad.1.isOk = true ∧ watchedLoad.2.1.server.committed.checkpoints.entries.length = 2 := by
    decide +kernel
  have hmay : (deployed beginningOutside 300 8 sampleRoles false).Along (watchedFleet.exec false)
      (Settled beginningOutside false) (Fleet.unnoted beginningWorld) := by decide +kernel
  have hmay' : (deployed beginningOutside 300 8 sampleRoles true).Along (watchedFleet.exec true)
      (Settled beginningOutside true) watchedWorker.2 := by decide +kernel
  let after : Bool → WorkerM beginning Unit :=
    Function.update (deployed beginningOutside 300 8 sampleRoles) false (.pure ())
  have hfirst : (watchedFleet.within (Settled beginningOutside)).Reaches
      (deployed beginningOutside 300 8 sampleRoles,Fleet.unnoted beginningWorld) (after,watchedWorker.2) :=
    Machine.reaches_of_along (returned_of_isOk hworker) hmay
  have hsecond : (watchedFleet.within (Settled beginningOutside)).Reaches (after,watchedWorker.2)
      (Function.update after true (.pure ()),watchedLoad.2) :=
    Machine.reaches_of_along (returned_of_isOk hload.1) hmay'
  have hfiles : beginningWorld.Archived beginningOutside :=
    ⟨fun path artifact hget => (by cases hget),fun digest row hrow => (by cases hrow)⟩
  exact ⟨_,hfirst.trans hsecond,hload.2,fun digest row hrow =>
    checkpoints_hold beginningWorld_atRest.quiescent hfiles (hfirst.trans hsecond) hrow⟩

/-- Two jobs of one shard, for two workers that take one each. -/
def twoJobs : World beginning Bool :=
  {beginningWorld with server := {beginningWorld.server with committed := {beginningWorld.server.committed with
    jobs := Dict.ofList [("a",queuedJob (sampleRef 3)),("b",queuedJob (sampleRef 2))]}}}

def oneEach : Pool Bool (WorkerOp beginning) WorkerOp.Resp PyErr Unit (Fleet beginning Bool) :=
  (deployed beginningOutside 300 1 twoWorkers,Fleet.start twoJobs)

/-- The first worker has rebuilt the shard for its job, then the second one for its own. -/
def rebuiltTwice : Pool Bool (WorkerOp beginning) WorkerOp.Resp PyErr Unit (Fleet beginning Bool) :=
  ((fleet beginningOutside Postgres.inOrder).next true)^[12]
    (((fleet beginningOutside Postgres.inOrder).next false)^[12] oneEach)

/-- The first worker copies the model that it finds. -/
def promotedFirst : Py Unit × Fleet beginning Bool :=
  (rebuiltTwice.1 false).run (Fleet.exec beginningOutside Postgres.inOrder false) rebuiltTwice.2

theorem oneEach_promotes : (fleet beginningOutside Postgres.inOrder).Reaches oneEach
    (Function.update rebuiltTwice.1 false (.pure ()),promotedFirst.2) := by
  have hfirst := Machine.reaches_iterate (M := fleet beginningOutside Postgres.inOrder) false 12 oneEach
  have hsecond := Machine.reaches_iterate (M := fleet beginningOutside Postgres.inOrder) true 12
    (((fleet beginningOutside Postgres.inOrder).next false)^[12] oneEach)
  have hok : promotedFirst.1.isOk = true := by decide +kernel
  exact (hfirst.trans hsecond).trans (Machine.reaches_of_run (returned_of_isOk hok))

theorem not_checkpoints_hold :
    ¬∀ q : Pool Bool (WorkerOp beginning) WorkerOp.Resp PyErr Unit (Noting beginning Bool),
    watchedFleet.Reaches (deployed beginningOutside 300 1 twoWorkers,Fleet.unnoted twoJobs) q →
    ∀ digest row, q.2.1.server.committed.checkpoints.get? digest = some row → ∃ artifact,
      q.2.1.world.cas.get? row.filePath = some artifact ∧ artifact ≠ .unfinished ∧
      artifact.HasDigest beginningOutside digest := by
  intro hall
  have hwrong : ∃ e ∈ promotedFirst.2.server.committed.checkpoints.entries,
      ∀ artifact ∈ promotedFirst.2.world.cas.get? e.2.filePath, ¬artifact.HasDigest beginningOutside e.1 := by
    decide +kernel
  obtain ⟨⟨digest,row⟩,hrow,hwrong⟩ := hwrong
  obtain ⟨notes,hreaches⟩ : ∃ notes, watchedFleet.Reaches
      (deployed beginningOutside 300 1 twoWorkers,Fleet.unnoted twoJobs)
      (Function.update rebuiltTwice.1 false (.pure ()),promotedFirst.2,notes) :=
    Machine.Reaches.watched noteWorker oneEach_promotes fun _ => ⟨none,[]⟩
  obtain ⟨artifact,hget,-,hdigest⟩ := hall _ hreaches digest row (Dict.get?_eq_some.mpr hrow)
  exact hwrong artifact hget hdigest

end Sample

end UnlearnShield.Worker
