import UnlearnShield.Db.Tables
import UnlearnShield.Engine.Data

/-! # The database server

A connection's first statement opens a transaction, which keeps its start time. Its
writes are seen by others when it commits; until then nobody else writes the same rows: a
statement that would waits. A statement that fails aborts its transaction: later
statements fail too, and committing it rolls it back.
-/
namespace UnlearnShield.Db

structure Database where
  subjectShardMap : Dict Ref RoutingEntry
  jobs : Dict Uuid Job
  manifests : Dict Uuid ManifestRow
  checkpoints : Dict String CheckpointRow
  versions : Dict String VersionRow
  evals : Dict String EvalRow
  checks : Dict Uuid CheckRow

/-- One row as a transaction leaves it. -/
inductive Write
  | subject (ref : Ref) (entry : RoutingEntry)
  | job (erasureId : Uuid) (job : Job)
  | manifest (erasureId : Uuid) (row : ManifestRow)
  | checkpoint (checkpointHash : String) (row : CheckpointRow)
  | version (modelVersion : String) (row : VersionRow)
  | eval (modelVersion : String) (row : EvalRow)
  | check (erasureId : Uuid) (row : CheckRow)

inductive RowKey
  | subject (ref : Ref)
  | job (erasureId : Uuid)
  | manifest (erasureId : Uuid)
  | checkpoint (checkpointHash : String)
  | version (modelVersion : String)
  | eval (modelVersion : String)
  | check (erasureId : Uuid)
  deriving DecidableEq

def Write.key : Write → RowKey
  | .subject ref _ => .subject ref
  | .job erasureId _ => .job erasureId
  | .manifest erasureId _ => .manifest erasureId
  | .checkpoint checkpointHash _ => .checkpoint checkpointHash
  | .version modelVersion _ => .version modelVersion
  | .eval modelVersion _ => .eval modelVersion
  | .check erasureId _ => .check erasureId

def Database.write (db : Database) : Write → Database
  | .subject ref entry => {db with subjectShardMap := db.subjectShardMap.insert ref entry}
  | .job erasureId job => {db with jobs := db.jobs.insert erasureId job}
  | .manifest erasureId row => {db with manifests := db.manifests.insert erasureId row}
  | .checkpoint checkpointHash row => {db with checkpoints := db.checkpoints.insert checkpointHash row}
  | .version modelVersion row => {db with versions := db.versions.insert modelVersion row}
  | .eval modelVersion row => {db with evals := db.evals.insert modelVersion row}
  | .check erasureId row => {db with checks := db.checks.insert erasureId row}

def Database.writes (db : Database) (ws : List Write) : Database := ws.foldl Database.write db

@[simp] theorem Database.writes_nil (db : Database) : db.writes [] = db := rfl
@[simp] theorem Database.writes_cons (db : Database) (w : Write) (ws : List Write) :
    db.writes (w :: ws) = (db.write w).writes ws := rfl
theorem Database.writes_append (db : Database) (ws ws' : List Write) :
    db.writes (ws ++ ws') = (db.writes ws).writes ws' := List.foldl_append ..

structure Session where
  now : Time
  aborted : Bool
  writes : List Write

/-- What the server decides by itself: which statements fail and with what message, and the
order of rows that a query leaves open. -/
structure Postgres where
  fails : ℕ → Option String
  arrange : {α : Type} → ℕ → List α → List α
  perm : ∀ {α : Type} (n : ℕ) (rows : List α), (arrange n rows).Perm rows

def Postgres.inOrder : Postgres := ⟨fun _ => none,fun _ rows => rows,fun _ _ => List.Perm.refl _⟩

/-- What `claim_batch` returns of a job. -/
structure ClaimedJob where
  erasureId : Uuid
  subjectRef : Ref
  shard : ℕ
  deriving DecidableEq

inductive Sql
  | reapExpired
  | claimBatch (workerId : String) (leaseSeconds limit : ℕ)
  | failJobs (lastError : String) (erasureIds : List Uuid)
  | finishJob (erasureId : Uuid)
  | insertManifest (erasureId : Uuid) (row : ManifestRow)
  | insertCheckpoint (checkpointHash : String) (row : CheckpointRow)
  | latestVersion
  | insertVersion (modelVersion : String) (shardCheckpoints : Dict String String) (evalSetVersion : String)
  | checkpointPaths (hashes : List String)
  | insertEval (modelVersion : String) (row : EvalRow)
  | insertCheck (erasureId : Uuid) (row : CheckRow)
  | upsertSubjects (entries : List (Ref × RoutingEntry))

abbrev Sql.Answer : Sql → Type
  | .claimBatch .. => List ClaimedJob
  | .latestVersion => Option (String × VersionRow)
  | .checkpointPaths _ => List (ℕ × String)
  | _ => Unit

inductive Effect (α : Type)
  | waits
  | raises (e : PyErr)
  | does (answer : α) (writes : List Write)

def update (locked : RowKey → Bool) (writes : List Write) : Effect Unit :=
  if writes.any fun w => locked w.key then .waits else .does () writes

/-- `INSERT ... ON CONFLICT DO NOTHING`. -/
def insertNew (locked : RowKey → Bool) (present : Bool) (write : Write) : Effect Unit :=
  if locked write.key then .waits else if present then .does () [] else .does () [write]

def foreignKey (present : Bool) (effect : Effect Unit) : Effect Unit :=
  if present then effect else .raises ⟨.databaseError,"insert or update violates foreign key constraint"⟩

/-- The rows of `model_versions` that `ORDER BY promoted_at DESC LIMIT 1` may return. -/
def Database.latest (db : Database) : List (String × VersionRow) :=
  db.versions.entries.filter fun e => ∀ e' ∈ db.versions.entries, e'.2.promotedAt ≤ e.2.promotedAt

def Job.requeued (job : Job) : Job := {job with status := .queued, leasedBy := none, leaseExpiresAt := none}

def Job.claimed (job : Job) (workerId : String) (leaseExpiresAt : Time) : Job :=
  {job with status := .processing, leasedBy := some workerId, leaseExpiresAt := some leaseExpiresAt,
            attempts := job.attempts + 1}

def Job.failedWith (job : Job) (lastError : String) : Job :=
  {job with status := .failed, lastError := some lastError, leasedBy := none, leaseExpiresAt := none}

def Job.finished (job : Job) (now : Time) : Job :=
  {job with status := .done, completedAt := some now, leasedBy := none, leaseExpiresAt := none}

def Job.Expired (job : Job) (now : Time) : Prop := job.status = .processing ∧ ∃ t ∈ job.leaseExpiresAt, t < now

instance (job : Job) (now : Time) : Decidable (job.Expired now) := by
  unfold Job.Expired
  infer_instance

/-- `ORDER BY shard, sla_deadline`. -/
def Job.DueBefore (x y : Uuid × Job) : Prop :=
  x.2.shard < y.2.shard ∨ (x.2.shard = y.2.shard ∧ x.2.slaDeadline ≤ y.2.slaDeadline)

instance : DecidableRel Job.DueBefore := fun x y =>
  inferInstanceAs (Decidable (x.2.shard < y.2.shard ∨ (x.2.shard = y.2.shard ∧ x.2.slaDeadline ≤ y.2.slaDeadline)))

/-- The queued jobs that no other transaction holds, the most urgent of each shard first. -/
def claimable (locked : RowKey → Bool) (rows : List (Uuid × Job)) : List (Uuid × Job) :=
  (rows.filter fun e => e.2.status = .queued ∧ ¬locked (.job e.1)).insertionSort Job.DueBefore

def Sql.effect (pg : Postgres) (n : ℕ) (now : Time) (locked : RowKey → Bool) (db : Database) :
    (stmt : Sql) → Effect stmt.Answer
  | .reapExpired => update locked ((db.jobs.entries.filter fun e => e.2.Expired now).map fun e => .job e.1 e.2.requeued)
  | .claimBatch workerId leaseSeconds limit =>
    let chosen := (claimable locked (pg.arrange n db.jobs.entries)).take limit
    .does ((pg.arrange n chosen).map fun e => ⟨e.1,e.2.subjectRef,e.2.shard⟩)
      (chosen.map fun e => .job e.1 (e.2.claimed workerId (now + leaseSeconds)))
  | .failJobs lastError erasureIds =>
    update locked ((db.jobs.entries.filter fun e => e.1 ∈ erasureIds).map fun e => .job e.1 (e.2.failedWith lastError))
  | .finishJob erasureId =>
    update locked ((db.jobs.entries.filter fun e => e.1 = erasureId).map fun e => .job e.1 (e.2.finished now))
  | .insertManifest erasureId row => foreignKey (erasureId ∈ db.jobs)
    (if locked (.manifest erasureId) then .waits
    else if erasureId ∈ db.manifests then
      .raises ⟨.databaseError,"duplicate key value violates unique constraint \"erasure_manifests_pkey\""⟩
    else .does () [.manifest erasureId row])
  | .insertCheckpoint checkpointHash row =>
    insertNew locked (checkpointHash ∈ db.checkpoints) (.checkpoint checkpointHash row)
  | .latestVersion => .does (pg.arrange n db.latest).head? []
  | .insertVersion modelVersion shardCheckpoints evalSetVersion =>
    insertNew locked (modelVersion ∈ db.versions) (.version modelVersion ⟨shardCheckpoints,evalSetVersion,now⟩)
  | .checkpointPaths hashes =>
    .does (pg.arrange n ((db.checkpoints.entries.filter fun e => e.1 ∈ hashes).map fun e => (e.2.shard,e.2.filePath)))
      []
  | .insertEval modelVersion row => foreignKey (modelVersion ∈ db.versions)
    (insertNew locked (modelVersion ∈ db.evals) (.eval modelVersion row))
  | .insertCheck erasureId row => foreignKey (erasureId ∈ db.jobs)
    (insertNew locked (erasureId ∈ db.checks) (.check erasureId row))
  | .upsertSubjects entries => update locked (entries.map fun e =>
    .subject e.1 (match db.subjectShardMap.get? e.1 with
      | some old => {e.2 with tenantId := old.tenantId}
      | none => e.2))

structure Server (ι : Type) where
  committed : Database
  sessions : Dict ι Session
  clock : Time
  statements : ℕ

namespace Server
variable {ι : Type} [DecidableEq ι]

/-- The transaction of a connection; its next statement opens one if need be. -/
def session (s : Server ι) (i : ι) : Session := (s.sessions.get? i).getD ⟨s.clock,false,[]⟩

def view (s : Server ι) (i : ι) : Database := s.committed.writes (s.session i).writes

def locked (s : Server ι) (i : ι) (key : RowKey) : Bool :=
  s.sessions.entries.any fun e => e.1 ≠ i && e.2.writes.any fun w => w.key = key

def leave (s : Server ι) (i : ι) (session : Session) : Server ι :=
  {s with sessions := s.sessions.insert i session, statements := s.statements + 1}

def wrote (s : Server ι) (i : ι) (writes : List Write) : Server ι :=
  s.leave i ⟨(s.session i).now,false,(s.session i).writes ++ writes⟩

def abort (s : Server ι) (i : ι) : Server ι := s.leave i ⟨(s.session i).now,true,[]⟩

def inFailedTransaction : PyErr :=
  ⟨.databaseError,"current transaction is aborted, commands ignored until end of transaction block"⟩

def execute (pg : Postgres) (i : ι) (stmt : Sql) (s : Server ι) : Except PyErr (Py stmt.Answer × Server ι) :=
  if (s.session i).aborted then .ok (.error inFailedTransaction,s.abort i)
  else
    match pg.fails s.statements with
    | some message => .ok (raise .databaseError message,s.abort i)
    | none =>
      match stmt.effect pg s.statements (s.session i).now (s.locked i) (s.view i) with
      | .waits => .error ⟨.databaseError,"waiting for a row lock"⟩
      | .raises e => .ok (.error e,s.abort i)
      | .does answer writes => .ok (.ok answer,s.wrote i writes)

/-- `COMMIT`, which rolls back a transaction that was aborted. -/
def commit (s : Server ι) (i : ι) : Server ι :=
  {s with committed := if (s.session i).aborted then s.committed else s.view i, sessions := s.sessions.erase i}

def rollback (s : Server ι) (i : ι) : Server ι := {s with sessions := s.sessions.erase i}

end Server

end UnlearnShield.Db
