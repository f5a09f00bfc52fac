import UnlearnShield.Gateway.Erasure
import UnlearnShield.Worker.Audit

/-! # What a requester is told

`get_erasure`, `get_certificate` and `attest` read what is committed. Once a requester has
been told that an erasure is done, its certificate and an attestation of its subject are
there for anyone who asks, and both can be checked.
-/
namespace UnlearnShield.Gateway
open Db Json Manifest

structure ErasureStatus where
  erasureId : Uuid
  status : JobStatus
  reason : Reason
  completedAt : Option Time
  lastError : Option String

def getErasure (erasureId : Uuid) (db : Database) : Except HttpError ErasureStatus :=
  match db.jobs.get? erasureId with
  | none => .error ⟨404,"no such erasure_id"⟩
  | some job => .ok ⟨erasureId,job.status,job.reason,job.completedAt,job.lastError⟩

def getCertificate (O : ObjectOrder) (erasureId : Uuid) (db : Database) : Except HttpError Pairs :=
  match db.manifests.get? erasureId with
  | none => .error ⟨404,"no certificate for this erasure_id yet"⟩
  | some row => .ok (storedPairs O row.manifestJson)

def manifestsOf (ref : Ref) (db : Database) : List (Uuid × ManifestRow) :=
  db.manifests.entries.filter fun e => ((db.jobs.get? e.1).map Job.subjectRef) = some ref

/-- Which manifest was created last is not on record here: any may be the first of the rows. -/
def attest (O : ObjectOrder) (subjectRef : String → Ref) (pg : Postgres) (n : ℕ) (subjectId : String) (db : Database) :
    Except HttpError Pairs :=
  match (pg.arrange n (manifestsOf (subjectRef subjectId) db)).head? with
  | none => .error ⟨404,"no completed erasure found for this subject"⟩
  | some e => .ok (storedPairs O e.2.manifestJson)

variable {O : ObjectOrder} {subjectRef : String → Ref} {pg : Postgres} {n : ℕ} {subjectId : String} {db : Database}

theorem getErasure_eq_ok {erasureId : Uuid} {status : ErasureStatus} (h : getErasure erasureId db = .ok status) :
    ∃ job, db.jobs.get? erasureId = some job ∧
      status = ⟨erasureId,job.status,job.reason,job.completedAt,job.lastError⟩ := by
  unfold getErasure at h
  split at h
  · cases h
  · next job hjob => exact ⟨job,hjob,(Except.ok.inj h).symm⟩

theorem mem_manifestsOf {ref : Ref} {e : Uuid × ManifestRow} : e ∈ manifestsOf ref db ↔
    db.manifests.get? e.1 = some e.2 ∧ ∃ job, db.jobs.get? e.1 = some job ∧ job.subjectRef = ref := by
  rw [manifestsOf, List.mem_filter, decide_eq_true_eq, Option.map_eq_some_iff, Dict.get?_eq_some]

theorem attest_eq_ok {certificate : Pairs} (h : attest O subjectRef pg n subjectId db = .ok certificate) :
    ∃ e ∈ manifestsOf (subjectRef subjectId) db, certificate = storedPairs O e.2.manifestJson := by
  unfold attest at h
  split at h
  · cases h
  · next e he => exact ⟨e,(pg.perm n _).mem_iff.mp (List.mem_of_mem_head? he),(Except.ok.inj h).symm⟩

theorem exists_attest {e : Uuid × ManifestRow} (h : e ∈ manifestsOf (subjectRef subjectId) db) :
    ∃ certificate, attest O subjectRef pg n subjectId db = .ok certificate := by
  unfold attest
  split
  · next hnone =>
    have hnil : pg.arrange n (manifestsOf (subjectRef subjectId) db) = [] := List.head?_eq_none_iff.mp hnone
    have hin := (pg.perm n (manifestsOf (subjectRef subjectId) db)).mem_iff.mpr h
    rw [hnil] at hin
    cases hin
  · exact ⟨_,rfl⟩

section Fleet
open Engine Worker Deployment
variable {D : Deployment} {ι : Type} [DecidableEq ι] {o : Outside D} {LEASE_SECONDS POLL_BATCH_SIZE : ℕ}
    {roles : ι → Role}

structure Certifies (H : Bytes → Digest) (db : Database) : Prop where
  receipted : Receipted db
  checkable : ∀ id row, db.manifests.get? id = some row → Checkable H row.manifestJson

theorem Certifies.vouches {H : Bytes → Digest} (h : Certifies H db) {id : Uuid} {row : ManifestRow} {job : Job}
    (hrow : db.manifests.get? id = some row) (hjob : db.jobs.get? id = some job) (O : ObjectOrder) :
    Vouches H job.subjectRef (storedPairs O row.manifestJson) := by
  obtain ⟨job',hjob',hnames⟩ := h.receipted.named id row hrow
  cases hjob.symm.trans hjob'
  exact (h.checkable id row hrow).vouches hnames O

/-- Whatever is attested vouches for the subject that was asked about. -/
theorem Certifies.attest {H : Bytes → Digest} (h : Certifies H db) {certificate : Pairs}
    (ha : Gateway.attest O subjectRef pg n subjectId db = .ok certificate) :
    Vouches H (subjectRef subjectId) certificate := by
  obtain ⟨e,he,rfl⟩ := attest_eq_ok ha
  obtain ⟨hrow,job,hjob,href⟩ := mem_manifestsOf.mp he
  exact href ▸ h.vouches hrow hjob O

theorem deployed_certifies {w : World D ι} (hw : AtRest o w) (hc : Certifies D.H w.server.committed)
    {q : Pool ι (WorkerOp D) WorkerOp.Resp PyErr Unit (Fleet D ι)}
    (hq : (fleet o pg).Reaches (deployed o LEASE_SECONDS POLL_BATCH_SIZE roles,Fleet.start w) q) :
    Certifies D.H q.2.server.committed :=
  ⟨(deployed_receipts hw hc.receipted hq).committed,
    fun id row hrow => (deployed_certified hw.quiescent hc.checkable hq).committed (.manifest id row) hrow⟩

/-- Once an erasure has been reported done, its certificate and an attestation of its subject are there and
can be checked. -/
theorem done_attested {w : World D ι} (hw : AtRest o w) (hc : Certifies D.H w.server.committed)
    {p q : Pool ι (WorkerOp D) WorkerOp.Resp PyErr Unit (Fleet D ι)}
    (hp : (fleet o pg).Reaches (deployed o LEASE_SECONDS POLL_BATCH_SIZE roles,Fleet.start w) p)
    (hq : (fleet o pg).Reaches p q) {erasureId : Uuid}
    {status : ErasureStatus} (hstatus : getErasure erasureId p.2.server.committed = .ok status)
    (hdone : status.status = .done) :
    ∃ job certificate, q.2.server.committed.jobs.get? erasureId = some job ∧
      getCertificate O erasureId q.2.server.committed = .ok certificate ∧ Vouches D.H job.subjectRef certificate ∧
      ∀ subjectId, subjectRef subjectId = job.subjectRef →
        ∃ attested, attest O subjectRef pg n subjectId q.2.server.committed = .ok attested ∧
        Vouches D.H (subjectRef subjectId) attested := by
  have hcertifies := deployed_certifies hw hc (hp.trans hq)
  obtain ⟨job,hjob,rfl⟩ := getErasure_eq_ok hstatus
  obtain ⟨row,hrow⟩ := Dict.exists_get?_of_mem ((deployed_certifies hw hc hp).receipted.done erasureId job hjob hdone)
  obtain ⟨hlocks,-⟩ := Fleet.Moves.run_locks (Fleet.moves_of_reaches hp.to_within) hw.quiescent.locks
  obtain ⟨-,hkeeps⟩ := Fleet.Moves.run_locks (Fleet.moves_of_reaches hq.to_within) hlocks
  have hrow' : q.2.server.committed.manifests.get? erasureId = some row :=
    hkeeps.rows (.manifest erasureId row) rfl hrow
  obtain ⟨job',hjob',-⟩ := hkeeps.jobs erasureId job hjob
  refine ⟨job',storedPairs O row.manifestJson,hjob',?_,hcertifies.vouches hrow' hjob' O,fun subjectId href => ?_⟩
  · rw [getCertificate, hrow']
  · have hin : (erasureId,row) ∈ manifestsOf (subjectRef subjectId) q.2.server.committed :=
      mem_manifestsOf.mpr ⟨hrow',job',hjob',href.symm⟩
    obtain ⟨attested,hattested⟩ := exists_attest hin
    exact ⟨attested,hattested,hcertifies.attest hattested⟩

theorem beginningWorld_certifies : Certifies beginning.H beginningWorld.server.committed := by
  refine ⟨⟨fun id row hrow => (by cases hrow),fun id job hjob hdone => ?_⟩,fun id row hrow => (by cases hrow)⟩
  have hqueued : ∀ e ∈ beginningWorld.server.committed.jobs.entries, e.2.status ≠ .done := by decide
  exact absurd hdone (hqueued _ (Dict.get?_eq_some.mp hjob))

theorem done_attested_sample : ∃ status certificate, getErasure "a" beginningRun.2.server.committed = .ok status ∧
    status.status = .done ∧
    getCertificate .written "a" beginningRun.2.server.committed = .ok certificate := by
  obtain ⟨pool,hreaches⟩ := beginningRun_reaches
  obtain ⟨job,hjob,hst⟩ := Option.map_eq_some_iff.mp beginningRun_records.2.2.2
  have hstatus : getErasure "a" beginningRun.2.server.committed =
    .ok ⟨"a",job.status,job.reason,job.completedAt,job.lastError⟩ := by
    rw [getErasure, hjob]
  obtain ⟨_,certificate,-,hcertificate,-⟩ : ∃ job certificate,
    beginningRun.2.server.committed.jobs.get? "a" = some job ∧
      getCertificate .written "a" beginningRun.2.server.committed = .ok certificate ∧
        Vouches beginning.H job.subjectRef certificate ∧
      ∀ subjectId, sampleRef 3 = job.subjectRef → ∃ attested,
        attest .written (fun _ => sampleRef 3) Postgres.inOrder 0 subjectId beginningRun.2.server.committed =
          .ok attested ∧
          Vouches beginning.H (sampleRef 3) attested :=
    done_attested beginningWorld_atRest beginningWorld_certifies hreaches .refl hstatus hst
  exact ⟨_,certificate,hstatus,hst,hcertificate⟩

end Fleet

end UnlearnShield.Gateway
