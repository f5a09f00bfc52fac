import UnlearnShield.Inference.BatchedEnsemble

/-! # Processing a claimed batch

Rebuild each shard's subjects, promote the new weights, record the manifests and
re-run the rebuilds that the spot check selects, all in one transaction.
-/
namespace UnlearnShield.Worker
open Db Engine Deployment
variable {D : Deployment} (o : Outside D)

def casPath (resultWeights : String) : String :=
  match o.engine with
  | .mlp _ => s!"{o.CHECKPOINT_DIR}/cas/{resultWeights}.pt"
  | .gbdt _ => s!"{o.CHECKPOINT_DIR}/cas/{resultWeights}.json"

def pathExists (path : String) : WorkerM D Bool := .call (.exists path) .pure

/-- `shutil.copyfile`. -/
def copyfile (shard : ℕ) (path : String) : WorkerM D Unit := do
  (.call (.openCopy shard path) orRaise : WorkerM D Unit)
  .call (.finishCopy shard path) orRaise

def promoteArtifact (shard : ℕ) (resultWeights : String) : WorkerM D String := do
  if ← pathExists (casPath o resultWeights) then pure (casPath o resultWeights)
  else do
    copyfile shard (casPath o resultWeights)
    pure (casPath o resultWeights)

/-- `{str(shard): path for shard, path in cur.fetchall()}`. -/
def shardPaths (rows : List (ℕ × String)) : Dict String String := Dict.ofList (rows.map fun e => (toString e.1,e.2))

def recordEval (modelVersion : String) (shardCheckpoints : Dict String String) : WorkerM D String := do
  let rows ← execute (.checkpointPaths shardCheckpoints.values)
  let ensemble ← loadEnsemble o (shardPaths rows)
  let score ← (Program.lift (o.score ensemble) : WorkerM D String)
  execute (.insertEval modelVersion ⟨score,o.nEval⟩)
  pure score

def versionName (resultWeights : String) : String := "v-" ++ String.ofList (resultWeights.toList.take 12)

def carriedForward (latest : Option (String × VersionRow)) : Dict String String :=
  match latest with
  | some (_,row) => row.shardCheckpoints
  | none => Dict.empty

def promote (shard : ℕ) (resultWeights : String) : WorkerM D Unit := do
  let path ← promoteArtifact o shard resultWeights
  execute (.insertCheckpoint resultWeights ⟨shard,(D.settings.NUM_SLICES : ℤ) - 1,path,D.settings.CODE_DIGEST⟩)
  let latest ← execute .latestVersion
  let shardCheckpoints := (carriedForward latest).insert (toString shard) resultWeights
  let evalSetVersion := (latest.map fun e => e.2.evalSetVersion).getD "v0"
  execute (.insertVersion (versionName resultWeights) shardCheckpoints evalSetVersion)
  let _ ← recordEval o (versionName resultWeights) shardCheckpoints
  pure ()

def scratchDir : Process D := (⟨none,fun _ => none,fun _ => none,fun _ _ => none,fun _ => none⟩,fun _ => none)

/-- `digests[max(digests)]`. -/
def maxDigest (digests : List (ℕ × String)) : Py String :=
  match (digests.map Prod.fst).max? with
  | none => raise .valueError "max() iterable argument is empty"
  | some sliceIdx =>
    match (Dict.ofList digests).get? sliceIdx with
    | some digest => .ok digest
    | none => raise .keyError s!"{sliceIdx}"

def replayDigest (shard : ℕ) : Replay D → Py String
  | .mlp records fromSlice resumeState seed => do
    let digests ← ((trainShard shard (some records) fromSlice resumeState seed).run fileExec scratchDir).1
    maxDigest digests
  | .gbdt records fromSlice resumeBooster treesPerSlice => do
    let rebuilt ← Gbdt.trainShard records fromSlice resumeBooster treesPerSlice
    match rebuilt with
    | some booster => .ok (Gbdt.boosterDigest booster)
    | none => raise .attributeError "'NoneType' object has no attribute 'save_raw'"

def runSpotCheck (erasureId : Uuid) (shard : ℕ) (replay : Replay D) (expectedWeights : String) : WorkerM D Bool := do
  let observed ← (Program.lift (replayDigest shard replay) : WorkerM D String)
  execute (.insertCheck erasureId ⟨expectedWeights,observed,observed = expectedWeights,D.settings.CODE_DIGEST⟩)
  pure (observed = expectedWeights)

def manifestRow (m : Manifest.Pairs) : Py ManifestRow := do
  let shard ← (PyVal.dict m).subscript "shard"
  let resumedFrom ← (PyVal.dict m).subscript "resumed_from"
  let datasetRoot ← (PyVal.dict m).subscript "dataset_root"
  let absenceProof ← (PyVal.dict m).subscript "absence_proof"
  let codeDigest ← (PyVal.dict m).subscript "code_digest"
  let configDigest ← (PyVal.dict m).subscript "config_digest"
  let resultWeights ← (PyVal.dict m).subscript "result_weights"
  let modelVersion ← (PyVal.dict m).subscript "model_version"
  let signature ← (PyVal.dict m).subscript "signature"
  pure ⟨shard,resumedFrom,datasetRoot,absenceProof,codeDigest,configDigest,resultWeights,modelVersion,signature,m⟩

def manifestOf (manifests : Dict Ref Manifest.Pairs) (ref : Ref) : Py ManifestRow :=
  match manifests.get? ref with
  | some m => manifestRow m
  | none => raise .keyError s!"'{ref.val.hex}'"

def recordJobs (manifests : Dict Ref Manifest.Pairs) : List ClaimedJob → WorkerM D Unit
  | [] => pure ()
  | job :: jobs => do
    let row ← (Program.lift (manifestOf manifests job.subjectRef) : WorkerM D ManifestRow)
    execute (.insertManifest job.erasureId row)
    execute (.finishJob job.erasureId)
    recordJobs manifests jobs

def bookkeep (shard : ℕ) (group : List ClaimedJob) (result : Result D) : WorkerM D Unit := do
  promote o shard result.resultWeights
  recordJobs result.manifests group

/-- A spot check that cannot run is logged. -/
def spotChecks (shard : ℕ) (result : Result D) : List ClaimedJob → WorkerM D Unit
  | [] => pure ()
  | job :: jobs => do
    if o.shouldSpotCheck job.erasureId then
      let _ ← (runSpotCheck job.erasureId shard result.replay result.resultWeights).attempt
    spotChecks shard result jobs

/-- `active.rebuild_batch_by_ref`. -/
def rebuildBatchByRef (refs : List Ref) : WorkerM D (Result D) := do
  let clock ← (.call .clock .pure : WorkerM D Clock)
  onFiles (Call.program ⟨o.engine,refs,true,clock⟩)

/-- `str[:2000]`. -/
def truncated (message : String) : String := String.ofList (message.toList.take 2000)

def reconcileMessage (exc : PyErr) (shard : ℕ) : String :=
  truncated
    s!"rebuild completed but bookkeeping failed ({exc.message}); subject(s) already purged from shard {shard} -- do not blindly retry, reconcile manually"

def processGroup (shard : ℕ) (group : List ClaimedJob) : WorkerM D Unit := do
  match ← (rebuildBatchByRef o (group.map ClaimedJob.subjectRef)).attempt with
  | .error exc => execute (.failJobs (truncated exc.message) (group.map ClaimedJob.erasureId))
  | .ok result =>
    match ← (bookkeep o shard group result).attempt with
    | .error exc => execute (.failJobs (reconcileMessage exc shard) (group.map ClaimedJob.erasureId))
    | .ok _ => spotChecks o shard result group

/-- `itertools.groupby`: the runs of equal keys. -/
def groupby {α κ : Type} [DecidableEq κ] (key : α → κ) : List α → List (κ × List α)
  | [] => []
  | a :: rest =>
    match groupby key rest with
    | (k,group) :: groups => if key a = k then (k,a :: group) :: groups else (key a,[a]) :: (k,group) :: groups
    | [] => [(key a,[a])]

def shardGroups (jobs : List ClaimedJob) : List (ℕ × List ClaimedJob) :=
  groupby ClaimedJob.shard (jobs.insertionSort fun a b => a.shard ≤ b.shard)

def processGroups : List (ℕ × List ClaimedJob) → WorkerM D Unit
  | [] => pure ()
  | (shard,group) :: groups => do
    processGroup o shard group
    processGroups groups

def processClaimed (jobs : List ClaimedJob) : WorkerM D Unit := processGroups o (shardGroups jobs)

/-- `with conn`: commit on a normal exit, roll back on an exception. -/
def withConn {α : Type} (body : WorkerM D α) : WorkerM D α := do
  match ← body.attempt with
  | .ok a => .call .commit fun _ => .pure a
  | .error e => .call .rollback fun _ => .throw e

/-- The first transaction of a cycle. -/
def claimJobs (workerId : String) (LEASE_SECONDS POLL_BATCH_SIZE : ℕ) : WorkerM D (List ClaimedJob) := withConn do
  execute .reapExpired
  let rows ← execute (.claimBatch workerId LEASE_SECONDS POLL_BATCH_SIZE)
  pure (rows.insertionSort fun a b => a.shard ≤ b.shard)

/-- One claim-process cycle; a new connection, closed at the end. -/
def runOnce (workerId : String) (LEASE_SECONDS POLL_BATCH_SIZE : ℕ) : WorkerM D ℕ := do
  let jobs ← claimJobs workerId LEASE_SECONDS POLL_BATCH_SIZE
  if jobs = [] then pure 0
  else do
    withConn (processClaimed o jobs)
    pure jobs.length

end UnlearnShield.Worker
