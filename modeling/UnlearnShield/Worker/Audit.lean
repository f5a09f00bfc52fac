import UnlearnShield.Worker.Issued
import UnlearnShield.Worker.Ledger

/-! # What an auditor finds

In every run of any number of workers, loads and servers, whatever they do to each other's
files: every certificate on record can be checked, what is accepted with its signature reads
as it does, and every re-run on record matched. All hold of what a worker writes because they
hold of whatever a rebuild hands it.
-/
namespace UnlearnShield.Worker
open Db Engine Deployment Program Relation Json Manifest VerifierCli
variable {D : Deployment} {ι : Type} [DecidableEq ι] {o : Outside D} {pg : Postgres}

section Rows
variable {P : Write → Prop} {s t : Fleet D ι}

def Sql.Writes (P : Write → Prop) (stmt : Sql) : Prop :=
  ∀ (pg : Postgres) (n : ℕ) (now : Time) (locked : RowKey → Bool) (db : Database) (answer : stmt.Answer)
    (ws : List Write),
    stmt.effect pg n now locked db = .does answer ws → ∀ w ∈ ws, P w

def WorkerOp.Writes (P : Write → Prop) : WorkerOp D → Prop
  | .sql stmt => Sql.Writes P stmt
  | _ => True

structure Fleet.Only (P : Write → Prop) (s : Fleet D ι) : Prop where
  committed : ∀ w, w.In s.server.committed → P w
  written : ∀ i, ∀ w ∈ s.server.writesOf i, P w

theorem Fleet.Only.mono (h : s.Only P) (hc : ∀ w, w.In t.server.committed → w.In s.server.committed ∨ P w)
    (hw : ∀ j, t.server.writesOf j = s.server.writesOf j ∨ t.server.writesOf j = []) : t.Only P := by
  refine ⟨fun w hin => (hc w hin).elim (h.committed w) id,fun j w hin => ?_⟩
  rcases hw j with heq | heq
  · exact h.written j w (heq ▸ hin)
  · rw [heq] at hin
    cases hin

theorem Fleet.Only.step (h : s.Only P) (hjob : ∀ id job, P (.job id job))
    (hm : s.Moves pg (fun _ op _ => op.Writes P) t) : t.Only P := by
  cases hm with
  | @wrote i stmt answer ws hmay heffect =>
    refine ⟨h.committed,fun j w hin => ?_⟩
    have hwrites := s.server.writesOf_wrote i j ws
    have hin' : w ∈ if j = i then s.server.writesOf i ++ ws else s.server.writesOf j := hwrites ▸ hin
    split at hin'
    · rcases List.mem_append.mp hin' with hold | hnew
      · exact h.written i w hold
      · exact hmay _ _ _ _ _ _ _ heffect w hnew
    · exact h.written j w hin'
  | abort i => exact h.mono (fun _ hin => Or.inl hin) (Server.kept_or_dropped (s.server.writesOf_abort i))
  | commit i _ =>
    refine h.mono (fun w hin => ?_) (Server.kept_or_dropped (s.server.writesOf_commit i))
    have hin : w.In (s.server.commit i).committed := hin
    rcases s.server.committed_commit i with hc | hc
    · rw [hc] at hin
      exact Or.inl hin
    · rw [hc] at hin
      exact (Write.in_or_mem hin).imp_right (h.written i w)
  | rollback i => exact h.mono (fun _ hin => Or.inl hin) (Server.kept_or_dropped (s.server.writesOf_rollback i))
  | elsewhere hserver _ _ => exact h.mono (fun _ hin => Or.inl (hserver ▸ hin)) fun j => Or.inl (by rw [hserver])
  | meanwhile he =>
    have hw : ∀ j, t.server.writesOf j = s.server.writesOf j :=
      fun j => (Prod.ext_iff.mp (Prod.ext_iff.mp (Fleet.own_meanwhile he j)).2).1
    refine h.mono (fun w hin => ?_) fun j => Or.inl (hw j)
    cases he with
    | tick clock => exact Or.inl hin
    | request erasureId job _ _ =>
      have hin : w.In (s.server.committed.write (.job erasureId job)) := hin
      rcases Write.in_or_eq hin with hold | rfl
      · exact Or.inl hold
      · exact Or.inr (hjob erasureId job)

theorem Fleet.Only.moves (h : s.Only P) (hjob : ∀ id job, P (.job id job))
    (hm : ReflTransGen (Fleet.Moves pg fun _ op _ => op.Writes P) s t) : t.Only P := by
  induction hm with
  | refl => exact h
  | tail _ hstep ih => exact ih.step hjob hstep

/-- Programs that write only rows in `P` leave only rows in `P`. -/
theorem Fleet.Only.run {α : Type} {pool : ι → WorkerM D α} (h : s.Only P) (hjob : ∀ id job, P (.job id job))
    (hpool : ∀ i, (pool i).Performs (WorkerOp.Writes P)) {q : Pool ι (WorkerOp D) WorkerOp.Resp PyErr α (Fleet D ι)}
    (hq : (fleet o pg).Reaches (pool,s) q) : q.2.Only P :=
  h.moves hjob (Fleet.moves_of_reaches (hq.performs hpool))

theorem Fleet.only_start {w : World D ι} (hw : Quiescent w) (h : ∀ x : Write, x.In w.server.committed → P x) :
    (Fleet.start w).Only P := by
  refine ⟨h,fun i x hin => ?_⟩
  rw [hw.writesOf] at hin
  cases hin

end Rows

section Audited

/-- The re-run ended in the weights that were to be expected. -/
def CheckRow.Agrees (row : CheckRow) : Prop := row.matched = true ∧ row.observedWeights = row.expectedWeights

/-- A manifest is that of a certificate that can be checked, a check is one that agrees. -/
def Write.Audited (D : Deployment) : Write → Prop
  | .manifest _ row => Issued D row.manifestJson
  | .check _ row => CheckRow.Agrees row
  | _ => True

def Sql.Audited (D : Deployment) : Sql → Prop
  | .insertManifest _ row => Issued D row.manifestJson
  | .insertCheck _ row => CheckRow.Agrees row
  | _ => True

theorem Sql.Audited.writes {stmt : Sql} (h : Sql.Audited D stmt) : Sql.Writes (Write.Audited D) stmt := by
  intro pg n now locked db answer ws he w hw
  cases stmt with
  | insertManifest erasureId row =>
    have heffect := foreignKey_eq_does he
    split at heffect
    · cases heffect
    · split at heffect
      · cases heffect
      · obtain ⟨-,rfl⟩ := Effect.does.inj heffect
        rw [List.mem_singleton.mp hw]
        exact h
  | insertCheck erasureId row =>
    obtain ⟨-,rfl⟩ := insertNew_eq_does (foreignKey_eq_does he) hw
    exact h
  | reapExpired | failJobs | finishJob | upsertSubjects =>
    obtain ⟨rfl,-⟩ := update_eq_does he
    obtain ⟨e,-,rfl⟩ := List.mem_map.mp hw
    trivial
  | claimBatch =>
    obtain ⟨-,rfl⟩ := Effect.does.inj he
    obtain ⟨e,-,rfl⟩ := List.mem_map.mp hw
    trivial
  | insertCheckpoint | insertVersion =>
    obtain ⟨-,rfl⟩ := insertNew_eq_does he hw
    trivial
  | insertEval =>
    obtain ⟨-,rfl⟩ := insertNew_eq_does (foreignKey_eq_does he) hw
    trivial
  | latestVersion | checkpointPaths =>
    obtain ⟨-,rfl⟩ := Effect.does.inj he
    cases hw

def WorkerOp.Audited : WorkerOp D → Prop
  | .sql stmt => Sql.Audited D stmt
  | _ => True

theorem WorkerOp.Audited.writes {op : WorkerOp D} (h : op.Audited) : op.Writes (Write.Audited D) := by
  cases op with
  | sql stmt => exact Sql.Audited.writes h
  | _ => trivial

theorem WorkerOp.Serves.audited {op : WorkerOp D} (h : op.Serves) : op.Audited := by
  cases op with
  | sql stmt => cases stmt <;> first | exact trivial | exact h.elim
  | _ => trivial

/-- The rows recorded are those of certificates that can be checked. -/
theorem performs_recordJobs_audited {manifests : Dict Ref Manifest.Pairs}
    (h : ∀ ref m, manifests.get? ref = some m → Issued D m)
    (group : List ClaimedJob) : (recordJobs manifests group : WorkerM D Unit).Performs WorkerOp.Audited := by
  induction group with
  | nil => exact performs_pure _
  | cons job group ih =>
    refine (performs_lift _).bind_yields (yields_lift fun row hrow => hrow) fun row hrow => ?_
    refine (performs_execute (.insertManifest job.erasureId row) ?_).bind fun _ =>
      (performs_execute _ trivial).bind fun _ => ih
    unfold manifestOf at hrow
    cases hm : manifests.get? job.subjectRef with
    | none =>
      rw [hm] at hrow
      cases hrow
    | some m =>
      rw [hm] at hrow
      have hjson : row.manifestJson = m := manifestJson_of_manifestRow hrow
      exact (show Issued D row.manifestJson from hjson ▸ h job.subjectRef m hm)

theorem performs_spotChecks_audited {result : Result D} (h : Repeats result.replay result.resultWeights) (shard : ℕ)
    (group : List ClaimedJob) :
    (spotChecks o shard result group).Performs WorkerOp.Audited := by
  induction group with
  | nil => exact performs_pure _
  | cons job group ih =>
    have hcheck : (runSpotCheck job.erasureId shard result.replay result.resultWeights).Performs WorkerOp.Audited := by
      rw [runSpotCheck, h shard]
      exact (performs_execute _ ⟨decide_eq_true rfl,rfl⟩).bind fun _ => performs_pure _
    rw [spotChecks]
    split
    · exact hcheck.attempt.bind fun _ => ih
    · exact ih

theorem yields_rebuildBatchByRef_accountable (refs : List Ref) : (rebuildBatchByRef o refs).Yields Accountable := by
  refine fun clock => yields_embed ?_
  rw [Call.program_eq]
  exact yields_accountable _ _ _

theorem performs_processGroup_audited (shard : ℕ) (group : List ClaimedJob) :
    (processGroup o shard group).Performs WorkerOp.Audited := by
  have hrebuild : (rebuildBatchByRef o (group.map ClaimedJob.subjectRef)).Performs WorkerOp.Audited :=
    Performs.bind ⟨trivial,fun _ => trivial⟩ fun _ => performs_embed (fun _ => trivial) _
  refine hrebuild.attempt.bind_yields (yields_rebuildBatchByRef_accountable _).attempt fun rebuilt haccountable => ?_
  cases rebuilt with
  | error exc => exact performs_execute _ trivial
  | ok result =>
    obtain ⟨hcertificates,hreplay⟩ := haccountable result rfl
    have hbookkeep : (bookkeep o shard group result).Performs WorkerOp.Audited :=
      ((performs_promote ..).mono fun _ h => h.serves.audited).bind fun _ =>
        performs_recordJobs_audited hcertificates group
    refine hbookkeep.attempt.bind fun booked => ?_
    cases booked with
    | error exc => exact performs_execute _ trivial
    | ok _ => exact performs_spotChecks_audited hreplay shard group

theorem performs_runOnce_audited (workerId : String) (LEASE_SECONDS POLL_BATCH_SIZE : ℕ) :
    (runOnce o workerId LEASE_SECONDS POLL_BATCH_SIZE).Performs WorkerOp.Audited := by
  have hclaim : (claimJobs workerId LEASE_SECONDS POLL_BATCH_SIZE : WorkerM D _).Performs WorkerOp.Audited :=
    performs_withConn ((performs_execute _ trivial).bind fun _ => (performs_execute _ trivial).bind fun _ =>
      performs_pure _) trivial trivial
  have hgroups : ∀ groups : List (ℕ × List ClaimedJob), (processGroups o groups).Performs WorkerOp.Audited := by
    intro groups
    induction groups with
    | nil => exact performs_pure _
    | cons g groups ih => exact (performs_processGroup_audited g.1 g.2).bind fun _ => ih
  refine hclaim.bind fun jobs => ?_
  split
  · exact performs_pure _
  · exact (performs_withConn (hgroups _) trivial trivial).bind fun _ => performs_pure _

/-- Whatever its role, a process records what an auditor can check. -/
theorem Role.audited (LEASE_SECONDS POLL_BATCH_SIZE : ℕ) (role : Role) :
    (role.program o LEASE_SECONDS POLL_BATCH_SIZE).Performs WorkerOp.Audited := by
  cases role with
  | worker workerId cycles =>
    rw [Role.program]
    induction cycles with
    | zero => exact performs_pure _
    | succ cycles ih => exact (performs_runOnce_audited workerId LEASE_SECONDS POLL_BATCH_SIZE).bind fun _ => ih
  | loader => exact (performs_loadRoutingScript o).mono fun _ h => h.audited
  | gateway requests => exact (performs_serveLoop o requests).mono fun _ h => h.audited

theorem WorkerOp.Writes.mono {P Q : Write → Prop} {op : WorkerOp D} (h : op.Writes P) (hpq : ∀ w, P w → Q w) :
    op.Writes Q := by
  cases op with
  | sql stmt => exact fun pg n now locked db answer ws he w hw => hpq w (h pg n now locked db answer ws he w hw)
  | _ => trivial

end Audited

section Runs
variable {LEASE_SECONDS POLL_BATCH_SIZE : ℕ} {roles : ι → Role}

/-- What an auditor can check of a row holds of every row, if it does at the start. -/
theorem deployed_only {P : Write → Prop} (hP : ∀ w, Write.Audited D w → P w) {w : World D ι} (hw : Quiescent w)
    (h : ∀ x : Write, x.In w.server.committed → P x) {q : Pool ι (WorkerOp D) WorkerOp.Resp PyErr Unit (Fleet D ι)}
    (hq : (fleet o pg).Reaches (deployed o LEASE_SECONDS POLL_BATCH_SIZE roles,Fleet.start w) q) : q.2.Only P := by
  refine (Fleet.only_start hw h).run (fun id job => hP _ trivial) (fun i => ?_) hq
  exact ((roles i).audited LEASE_SECONDS POLL_BATCH_SIZE).mono fun op hop => hop.writes.mono hP

def Write.Certified (H : Bytes → Digest) : Write → Prop
  | .manifest _ row => Checkable H row.manifestJson
  | _ => True

theorem deployed_certified {w : World D ι} (hw : Quiescent w)
    (hc : ∀ id row, w.server.committed.manifests.get? id = some row → Checkable D.H row.manifestJson)
    {q : Pool ι (WorkerOp D) WorkerOp.Resp PyErr Unit (Fleet D ι)}
    (hq : (fleet o pg).Reaches (deployed o LEASE_SECONDS POLL_BATCH_SIZE roles,Fleet.start w) q) :
    q.2.Only (Write.Certified D.H) := by
  refine deployed_only (fun x hx => ?_) hw (fun x hin => ?_) hq
  · cases x with
    | manifest id row => exact hx.1
    | _ => trivial
  · cases x with
    | manifest id row => exact hc id row hin
    | _ => trivial

/-- Every certificate on record is accepted by the standalone verifier once its signature fits. -/
theorem certificates_checkable {w : World D ι} (hw : Quiescent w)
    (hc : ∀ id row, w.server.committed.manifests.get? id = some row → Checkable D.H row.manifestJson)
    {q : Pool ι (WorkerOp D) WorkerOp.Resp PyErr Unit (Fleet D ι)}
    (hq : (fleet o pg).Reaches (deployed o LEASE_SECONDS POLL_BATCH_SIZE roles,Fleet.start w) q) :
    ∀ id row, q.2.server.committed.manifests.get? id = some row → Checkable D.H row.manifestJson :=
  fun id row hrow => (deployed_certified hw hc hq).committed (.manifest id row) hrow

theorem deployed_signed {w : World D ι} (hw : Quiescent w)
    (hc : ∀ id row, w.server.committed.manifests.get? id = some row → SignedBy D.signingKey row.manifestJson)
    {q : Pool ι (WorkerOp D) WorkerOp.Resp PyErr Unit (Fleet D ι)}
    (hq : (fleet o pg).Reaches (deployed o LEASE_SECONDS POLL_BATCH_SIZE roles,Fleet.start w) q) :
    ∀ id row, q.2.server.committed.manifests.get? id = some row → SignedBy D.signingKey row.manifestJson := by
  let P : Write → Prop := fun x => ∀ id row, x = .manifest id row → SignedBy D.signingKey row.manifestJson
  have hP : ∀ x, Write.Audited D x → P x := by
    rintro x hx id row rfl
    exact hx.2
  have hstart : ∀ x : Write, x.In w.server.committed → P x := by
    rintro x hx id row rfl
    exact hc id row hx
  exact fun id row hrow => (deployed_only hP hw hstart hq).committed (.manifest id row) hrow id row rfl

/-- A certificate that is accepted with the signature of a manifest on record reads as that manifest, or the
signature is forged. -/
theorem certificates_authentic {w : World D ι} (hw : Quiescent w)
    (hc : ∀ id row, w.server.committed.manifests.get? id = some row → SignedBy D.signingKey row.manifestJson)
    {q : Pool ι (WorkerOp D) WorkerOp.Resp PyErr Unit (Fleet D ι)}
    (hq : (fleet o pg).Reaches (deployed o LEASE_SECONDS POLL_BATCH_SIZE roles,Fleet.start w) q) {id : Uuid}
    {row : ManifestRow} (hrow : q.2.server.committed.manifests.get? id = some row)
    {key : KeyPair} (hkey : D.signingKey = some key) {certificate : Pairs}
    (hl : Loaded (.dict certificate)) (hsig : signatureOf certificate = signatureOf row.manifestJson)
    {legacy : PyVal → PyVal → PyVal → Py Bool} {findings : List Finding}
    (h : verifyCertificate D.H legacy key certificate = .ok (true,findings)) :
    Forged key (unsigned row.manifestJson) (unsigned certificate) ∨
      canonical (.dict (unsigned certificate)) = canonical (.dict (unsigned row.manifestJson)) := by
  obtain ⟨hprintable,signature,hsignature,hsigned⟩ := deployed_signed hw hc hq id row hrow
  rw [hkey] at hsigned
  exact accepted_content hprintable hsigned hl (hsig.trans hsignature) h

/-- Every re-run on record ended in the weights it was to end in, whatever became of the files meanwhile. -/
theorem checks_agree {w : World D ι} (hw : Quiescent w)
    (hc : ∀ id row, w.server.committed.checks.get? id = some row → CheckRow.Agrees row)
    {q : Pool ι (WorkerOp D) WorkerOp.Resp PyErr Unit (Fleet D ι)}
    (hq : (fleet o pg).Reaches (deployed o LEASE_SECONDS POLL_BATCH_SIZE roles,Fleet.start w) q) :
    ∀ id row, q.2.server.committed.checks.get? id = some row → CheckRow.Agrees row := by
  let P : Write → Prop := fun x => ∀ id row, x = .check id row → CheckRow.Agrees row
  have hP : ∀ x, Write.Audited D x → P x := by
    rintro x hx id row rfl
    exact hx
  have hstart : ∀ x : Write, x.In w.server.committed → P x := by
    rintro x hx id row rfl
    exact hc id row hx
  exact fun id row hrow => (deployed_only hP hw hstart hq).committed (.check id row) hrow id row rfl

end Runs

section Sample

theorem certificates_checkable_sample :
    ∃ q : Pool Bool (WorkerOp beginning) WorkerOp.Resp PyErr Unit (Fleet beginning Bool),
    q.2.server.committed.manifests.keys = ["a"] ∧
    ∀ id row, q.2.server.committed.manifests.get? id = some row → Checkable beginning.H row.manifestJson := by
  obtain ⟨pool,hreaches⟩ := beginningRun_reaches
  exact ⟨_,beginningRun_records.2.1,certificates_checkable (w := beginningWorld) rfl
    (fun id row hrow => by cases hrow) hreaches⟩

theorem checks_agree_sample : ∃ q : Pool Bool (WorkerOp beginning) WorkerOp.Resp PyErr Unit (Fleet beginning Bool),
    q.2.server.committed.checks.keys = ["a"] ∧ ∀ id row, q.2.server.committed.checks.get? id = some row →
      CheckRow.Agrees row := by
  obtain ⟨pool,hreaches⟩ := beginningRun_reaches
  exact ⟨_,beginningRun_records.2.2.1,checks_agree (w := beginningWorld) rfl
    (fun id row hrow => by cases hrow) hreaches⟩

/-- The manifest the worker recorded, as it is read back, is accepted. -/
theorem certificates_authentic_sample : ∃ row findings, beginningRun.2.server.committed.manifests.get? "a" = some row ∧
    verifyCertificate beginning.H (fun _ _ _ => .ok false) Storage.sampleKey (storedPairs .written row.manifestJson) =
      .ok (true,findings) ∧
    (Forged Storage.sampleKey (unsigned row.manifestJson) (unsigned (storedPairs .written row.manifestJson)) ∨
      canonical (.dict (unsigned (storedPairs .written row.manifestJson))) =
        canonical (.dict (unsigned row.manifestJson))) := by
  obtain ⟨pool,hreaches⟩ := beginningRun_reaches
  have hkeys : (beginningRun.2.server.committed.manifests.get? "a").map (fun row => row.manifestJson.map Prod.fst) =
      some (REQUIRED_FIELDS.map PyKey.str ++ [.str "signature"]) := by decide +kernel
  obtain ⟨row,hrow,hfields⟩ := Option.map_eq_some_iff.mp hkeys
  have hsigned := deployed_signed (w := beginningWorld) rfl (fun id row hrow => by cases hrow) hreaches "a" row hrow
  obtain ⟨_,-,hcheckable⟩ := (deployed_certified (w := beginningWorld) rfl (fun id row hrow => by cases hrow)
    hreaches).committed (.manifest "a" row) hrow
  obtain ⟨hloaded,hsame,message,hmessage⟩ := hsigned.stored hfields .written
  obtain ⟨signature,hsignature,hsign⟩ := hsigned.signed
  obtain ⟨_,-,rfl⟩ := signManifest_eq_ok.mp hsign
  have hfits : signatureFits Storage.sampleKey (unsigned (storedPairs .written row.manifestJson))
      (signatureOf (storedPairs .written row.manifestJson)) = true := by
    rw [hsame, hsignature]
    exact signatureFits_eq_true.mpr ⟨message,_,hmessage,Smt.PyVal.fromhex_hex _,
      Storage.sampleKey.verify_sign message⟩
  obtain ⟨findings,haccepted⟩ := (hcheckable .written).accepted (fun _ _ _ => .ok false) Storage.sampleKey
  rw [hfits, if_pos rfl] at haccepted
  exact ⟨row,findings,hrow,haccepted,certificates_authentic (w := beginningWorld) rfl (fun id row hrow => by cases hrow)
    hreaches hrow rfl hloaded hsame haccepted⟩

end Sample

end UnlearnShield.Worker
