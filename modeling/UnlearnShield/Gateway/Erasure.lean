import UnlearnShield.Db.Tables
import UnlearnShield.Library.Pool

/-! # Erasure intake

`create_erasure` as the statements it sends over its connection. A row it has inserted is
seen by others once it commits, and an insert whose key another transaction has inserted
and not yet committed waits for that transaction.
-/
namespace UnlearnShield.Gateway
open Db Relation

inductive Sql
  | selectShard (ref : Ref)
  | insertJob (erasureId : Uuid) (job : Job)
  | selectByKey (requestedBy idempotencyKey : String)
  | commit
  | selectDeadline (erasureId : Uuid)

abbrev Sql.Resp : Sql → Type
  | .selectShard _ => Option ℕ
  | .insertJob _ _ => Py (Option Uuid)
  | .selectByKey _ _ => Option Uuid
  | .commit => Unit
  | .selectDeadline _ => Option Time

/-- What the handler raises: the status of an `HTTPException`, 500 for any other exception. -/
structure HttpError where
  status : ℕ
  detail : String

abbrev HandlerM := Program Sql Sql.Resp HttpError

/-- What is committed, and the rows that open transactions have inserted. -/
structure Tables (ι : Type) where
  jobs : Dict Uuid Job
  subjectShardMap : Dict Ref ℕ
  pending : Dict ι (Uuid × Job)

variable {ι : Type} [DecidableEq ι]

def Tables.view (s : Tables ι) (i : ι) : Dict Uuid Job :=
  match s.pending.get? i with
  | some (erasureId,job) => s.jobs.insert erasureId job
  | none => s.jobs

/-- The transaction of another connection holds a row with the id or the key of this one. -/
def Tables.Locked (s : Tables ι) (i : ι) (erasureId : Uuid) (job : Job) : Prop :=
  ∃ e ∈ s.pending.entries, e.1 ≠ i ∧ (e.2.1 = erasureId ∨ e.2.2.SameKey job)

instance (s : Tables ι) (i : ι) (erasureId : Uuid) (job : Job) : Decidable (s.Locked i erasureId job) :=
  inferInstanceAs (Decidable (∃ e ∈ _, _))

def exec (i : ι) : Exec Sql Sql.Resp HttpError (Tables ι)
  | .selectShard ref, s => .ok (s.subjectShardMap.get? ref,s)
  | .insertJob erasureId job, s =>
    if s.Locked i erasureId job then .error ⟨0,"waiting"⟩
    else if (s.view i).entries.any fun e => e.2.SameKey job then .ok (.ok none,s)
    else if erasureId ∈ s.view i then .ok (raise .runtimeError "duplicate key value violates unique constraint",s)
    else .ok (.ok (some erasureId),{s with pending := s.pending.insert i (erasureId,job)})
  | .selectByKey requestedBy idempotencyKey, s =>
    .ok (((s.view i).entries.find? fun e => e.2.requestedBy = requestedBy ∧ e.2.idempotencyKey = idempotencyKey).map
      Prod.fst,s)
  | .commit, s => .ok ((),{s with jobs := s.view i, pending := s.pending.erase i})
  | .selectDeadline erasureId, s => .ok (((s.view i).get? erasureId).map Job.slaDeadline,s)

def SameRequest (x y : Job) : Prop :=
  x.requestedBy = y.requestedBy ∧ x.idempotencyKey = y.idempotencyKey ∧ x.subjectRef = y.subjectRef ∧
    x.reason = y.reason

def Kept (jobs jobs' : Dict Uuid Job) : Prop := ∀ id x, jobs.get? id = some x → ∃ y, jobs'.get? id = some y ∧
    SameRequest x y

/-- What others may do to the tables: workers change the state of a job, and the shard map is reloaded. -/
def Elsewhere (s t : Tables ι) : Prop := t.pending = s.pending ∧ Kept s.jobs t.jobs ∧ Kept t.jobs s.jobs

/-- Handlers share the tables; the transaction of one that goes away is rolled back. -/
def machine : Machine ι Sql Sql.Resp HttpError (Tables ι) where
  exec := exec
  crash := fun i s => {s with pending := s.pending.erase i}
  env := Elsewhere

structure Post where
  principal : String
  idempotencyKey : String
  subjectId : String
  reason : Reason
  /-- `uuid4()`. -/
  uuid : Uuid
  /-- `datetime.now(timezone.utc)`. -/
  now : Time

structure ErasureAccepted where
  erasureId : Uuid
  slaDeadline : Time

variable (subjectRef : String → Ref) (SLA_HOURS : ℕ)

/-- `fetchone()[0]` of no row. -/
def noRow {α : Type} : HandlerM α := .throw ⟨500,"'NoneType' object is not subscriptable"⟩

def insertOrGet (erasureId : Uuid) (job : Job) : HandlerM (Uuid × Bool) :=
  .call (.insertJob erasureId job) fun
    | .error e => .throw ⟨500,e.message⟩
    | .ok (some id) => .pure (id,true)
    | .ok none => .call (.selectByKey job.requestedBy job.idempotencyKey) fun
      | some id => .pure (id,false)
      | none => noRow

def Post.job (p : Post) (shard : ℕ) : Job :=
  ⟨subjectRef p.subjectId,p.reason,shard,.queued,p.idempotencyKey,none,none,0,none,p.now + SLA_HOURS * 3600,
    p.principal,none⟩

def createErasure (p : Post) : HandlerM ErasureAccepted :=
  .call (.selectShard (subjectRef p.subjectId)) fun
    | none => .throw ⟨404,"unknown subject"⟩
    | some shard => do
      let (erasureId,_created) ← insertOrGet p.uuid (p.job subjectRef SLA_HOURS shard)
      .call .commit fun _ =>
        .call (.selectDeadline erasureId) fun
          | some actualDeadline => .pure ⟨erasureId,actualDeadline⟩
          | none => noRow

end UnlearnShield.Gateway
