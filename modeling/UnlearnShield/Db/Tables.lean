import UnlearnShield.Python.Value
import UnlearnShield.Verify.Manifest

/-! # The tables

A table is a dictionary from its primary key to the other columns the program reads or
writes. Times are counted from some fixed moment.
-/
namespace UnlearnShield.Db

abbrev Uuid := String
abbrev Time := ℕ

inductive Reason
  | consentRevocation | fraudExcision
  deriving DecidableEq

inductive JobStatus
  | queued | processing | done | failed
  deriving DecidableEq

/-- A row of `erasure_jobs`. -/
structure Job where
  subjectRef : Ref
  reason : Reason
  shard : ℕ
  status : JobStatus
  idempotencyKey : String
  leaseExpiresAt : Option Time
  leasedBy : Option String
  attempts : ℕ
  lastError : Option String
  slaDeadline : Time
  requestedBy : String
  completedAt : Option Time

/-- A row of `erasure_manifests`. -/
structure ManifestRow where
  shard : PyVal
  resumedFrom : PyVal
  datasetRoot : PyVal
  absenceProof : PyVal
  codeDigest : PyVal
  configDigest : PyVal
  resultWeights : PyVal
  modelVersion : PyVal
  signature : PyVal
  manifestJson : Manifest.Pairs

/-- A row of `checkpoints`. -/
structure CheckpointRow where
  shard : ℕ
  sliceIdx : ℤ
  filePath : String
  codeDigest : String

/-- A row of `model_versions`. -/
structure VersionRow where
  shardCheckpoints : Dict String String
  evalSetVersion : String
  promotedAt : Time

/-- A row of `eval_results`. -/
structure EvalRow where
  auc : String
  nEval : ℕ

/-- A row of `reproducibility_checks`. -/
structure CheckRow where
  expectedWeights : String
  observedWeights : String
  matched : Bool
  codeDigest : String

/-- `UNIQUE (requested_by, idempotency_key)` holds two rows apart by these columns. -/
def Job.SameKey (x y : Job) : Prop := x.requestedBy = y.requestedBy ∧ x.idempotencyKey = y.idempotencyKey

instance (x y : Job) : Decidable (x.SameKey y) := inferInstanceAs (Decidable (_ ∧ _))

end UnlearnShield.Db
