import UnlearnShield.Worker.Claimed

/-! # Batches with statements that fail

A statement that fails aborts the transaction of the batch, with the promotions and the
records of all its groups. The handlers send their update over the same transaction, so
it fails too; and after a failed spot check the commit rolls back.
-/
namespace UnlearnShield.Worker
open Db Engine Deployment Program
variable {D : Deployment} {o : Outside D} {pg : Postgres} {w w' : Lone D}

def Succeeds (pg : Postgres) : WorkerOp D → Lone D → Prop
  | .sql stmt, w => ∃ answer server, w.server.execute pg () stmt = .ok (.ok answer,server)
  | _, _ => True

def rebuiltGroups (o : Outside D) (pg : Postgres) : List (ℕ × List ClaimedJob) → Lone D → List (ℕ × List ClaimedJob)
  | [], _ => []
  | (shard,group) :: groups, w =>
    let rest := match (processGroup o shard group).run (lone o pg) w with
      | (.ok _,w') => rebuiltGroups o pg groups w'
      | (.error _,_) => []
    if ((rebuildBatchByRef o (group.map ClaimedJob.subjectRef)).run (lone o pg) w).1.isOk then (shard,group) ::
      rest else rest

/-- The job is done with a manifest, or failed with the message that asks to reconcile. -/
def Recorded (db : Database) (shard : ℕ) (job : ClaimedJob) : Prop :=
  (∃ row, DoneWith db job.erasureId row) ∨ ∃ j exc, db.jobs.get? job.erasureId = some j ∧ j.status = .failed ∧
    j.lastError = some (reconcileMessage exc shard)

theorem Recorded.sameBut {db db' : Database} {ids : List Uuid} {shard : ℕ} {job : ClaimedJob}
    (h : Recorded db shard job) (hs : db.SameBut ids db') (hid : job.erasureId ∉ ids) : Recorded db' shard job := by
  rcases h with ⟨row,h⟩ | ⟨j,exc,hj,h⟩
  · exact Or.inl ⟨row,h.sameBut hs hid⟩
  · exact Or.inr ⟨j,exc,by rw [hs.jobs _ hid, hj],h⟩

theorem exec_sql_answer {stmt : Sql} {r : Py stmt.Answer} (h : lone o pg (.sql stmt) w = .ok (r,w')) :
    ∃ server, w.server.execute pg () stmt = .ok (r,server) := by
  rw [lone, exec] at h
  cases he : w.server.execute pg () stmt with
  | error e =>
    rw [he] at h
    cases h
  | ok p =>
    rw [he] at h
    obtain ⟨rfl,-⟩ := Prod.mk.inj (Except.ok.inj h)
    exact ⟨p.2,rfl⟩

/-- A transaction stays aborted until it ends. -/
theorem exec_aborted {op : WorkerOp D} {r : op.Resp} (hop : op.Within) (h : lone o pg op w = .ok (r,w'))
    (ha : w.aborted = true) :
    w'.aborted = true := by
  cases op with
  | sql stmt =>
    rcases exec_sql h with ⟨_,_,ha',-⟩ | ⟨_,-,rfl⟩
    · rw [ha] at ha'
      cases ha'
    · exact aborted_aborts w
  | commit | rollback => exact hop.elim
  | _ =>
    have hs : w'.server = w.server := exec_noSql (by trivial) h
    exact (congrArg (fun s : Server Unit => (s.session ()).aborted) hs).trans ha

/-- A statement fails when it aborts the transaction. -/
theorem succeeds_iff {op : WorkerOp D} {r : op.Resp} (hop : op.Within) (h : lone o pg op w = .ok (r,w'))
    (ha : w.aborted = false) :
    Succeeds pg op w ↔ w'.aborted = false := by
  cases op with
  | sql stmt =>
    obtain ⟨server,he⟩ := exec_sql_answer h
    rcases exec_sql h with ⟨answer,ws,-,-,rfl,rfl⟩ | ⟨e,rfl,rfl⟩
    · exact iff_of_true ⟨answer,server,he⟩ (aborted_wrote w ws)
    · refine iff_of_false ?_ (by simp)
      rintro ⟨answer,server',he'⟩
      cases he.symm.trans he'
  | commit | rollback => exact hop.elim
  | _ =>
    have hs : w'.server = w.server := exec_noSql (by trivial) h
    exact iff_of_true trivial ((congrArg (fun s : Server Unit => (s.session ()).aborted) hs).trans ha)

/-- Every statement of a program that stays within its transaction succeeds unless it is aborted at its end. -/
theorem along_succeeds_iff {α : Type} {p : WorkerM D α} (h : p.Performs WorkerOp.Within) (ha : w.aborted = false) :
    p.Along (lone o pg) (Succeeds pg) w ↔ (p.run (lone o pg) w).2.aborted = false :=
  along_iff Lone.aborted h (answers_lone o pg) (fun _ _ _ _ hop he ha => exec_aborted hop he ha)
    (fun _ _ _ _ hop he ha => succeeds_iff hop he ha) ha

theorem performs_processClaimed (o : Outside D) (jobs : List ClaimedJob) :
    (processClaimed o jobs).Performs WorkerOp.Within :=
  (performs_processGroups fun g hg _ hjob => List.mem_map_of_mem (List.mem_flatMap.mpr ⟨g,hg,hjob⟩)).mono
    fun _ h => WorkerOp.Sends.within h

/-- Once every statement of a group has succeeded, the group is recorded if its rebuild returned, and the
rows of its jobs are still there. -/
theorem run_processGroup_recorded {shard : ℕ} {group : List ClaimedJob} (hn : (group.map ClaimedJob.erasureId).Nodup)
    (hjobs : ∀ job ∈ group, job.erasureId ∈ w.view.jobs)
    (ha : ((processGroup o shard group).run (lone o pg) w).2.aborted = false) :
    ∃ w', (processGroup o shard group).run (lone o pg) w = (.ok (),w') ∧ w'.aborted = false ∧
      (((rebuildBatchByRef o (group.map ClaimedJob.subjectRef)).run (lone o pg) w).1.isOk = true →
        ∀ job ∈ group, Recorded w'.view shard job) := by
  rcases run_processGroup o pg shard group w with ⟨w',h,hp⟩ | ⟨e,w',h,ha'⟩
  · rw [h] at ha
    refine ⟨w',h,ha,fun hok job hjob => ?_⟩
    have hid : job.erasureId ∈ group.map ClaimedJob.erasureId := List.mem_map_of_mem hjob
    cases hp with
    | refused hre hfail =>
      rw [hre] at hok
      cases hok
    | @unrecorded result exc u v hre hbk hfail =>
      right
      have hbooks : (bookkeep o shard group result).Performs (WorkerOp.Touches (group.map ClaimedJob.erasureId)) :=
        performs_bookkeep (fun job hjob => List.mem_map_of_mem hjob) shard result
      have hav : v.aborted = false := (run_execute_ok hfail).1
      have hfollows := Performs.follows hbooks o pg u (by rw [hbk]; exact hav)
      rw [hbk] at hfollows
      have hview : u.view = w.view := congrArg (fun s : Server Unit => s.view ()) (server_rebuildBatchByRef hre)
      obtain ⟨j,hj⟩ := Dict.exists_get?_of_mem (hfollows.2.2.jobs _ (hview ▸ hjobs job hjob))
      obtain ⟨jobs,hv,hget⟩ := run_failJobs hfail
      refine ⟨j.failedWith (reconcileMessage exc shard),exc,?_,rfl,rfl⟩
      rw [hv, hget, if_pos hid, hj]
      rfl
    | @recorded result u v hre hbk hspot =>
      left
      obtain ⟨_,u',hpromote,hrecord⟩ := run_bind_eq_ok.mp hbk
      obtain ⟨-,hdone⟩ := run_recordJobs (run_promote hpromote).1 hn hrecord
      obtain ⟨row,-,hrow⟩ := hdone job hjob
      have hchecks : (spotChecks o shard result group).Performs (WorkerOp.Touches []) :=
        performs_spotChecks (fun _ _ => trivial) shard result group
      have hfollows := Performs.follows hchecks o pg v (by rw [hspot]; exact ha)
      rw [hspot] at hfollows
      exact ⟨row,hrow.sameBut hfollows.2.1 List.not_mem_nil⟩
  · rw [h, ha'] at ha
    cases ha

/-- Once every statement of the groups has succeeded, those whose rebuild returned are recorded. -/
theorem run_processGroups_recorded {groups : List (ℕ × List ClaimedJob)}
    (hn : ((groups.flatMap Prod.snd).map ClaimedJob.erasureId).Nodup)
    (hjobs : ∀ job ∈ groups.flatMap Prod.snd, job.erasureId ∈ w.view.jobs) (hw : w.aborted = false)
    (ha : ((processGroups o groups).run (lone o pg) w).2.aborted = false) :
    ∃ w', (processGroups o groups).run (lone o pg) w = (.ok (),w') ∧ w'.aborted = false ∧
      ∀ g ∈ rebuiltGroups o pg groups w, ∀ job ∈ g.2, Recorded w'.view g.1 job := by
  induction groups generalizing w with
  | nil => exact ⟨w,rfl,hw,by simp [rebuiltGroups]⟩
  | cons g groups ih =>
    obtain ⟨shard,group⟩ := g
    rw [List.flatMap_cons, List.map_append, List.nodup_append] at hn
    obtain ⟨hng,hnr,hdisj⟩ := hn
    rw [List.flatMap_cons] at hjobs
    have hids : ∀ job ∈ group, job.erasureId ∈ group.map ClaimedJob.erasureId :=
      fun job hjob => List.mem_map_of_mem hjob
    have hrest :
      (processGroups o groups).Performs (WorkerOp.Touches ((groups.flatMap Prod.snd).map ClaimedJob.erasureId)) :=
      performs_processGroups fun g hg job hjob => List.mem_map_of_mem (List.mem_flatMap.mpr ⟨g,hg,hjob⟩)
    have hgroup : ((processGroup o shard group).run (lone o pg) w).2.aborted = false := by
      rw [processGroups, run_bind] at ha
      rcases hr : (processGroup o shard group).run (lone o pg) w with ⟨e | ⟨⟩,w'⟩
      · rw [hr] at ha
        exact ha
      · rw [hr] at ha
        exact (Performs.follows hrest o pg w' ha).1
    obtain ⟨w',hrun,ha',hrec⟩ :=
      run_processGroup_recorded hng (fun job hjob => hjobs job (List.mem_append_left _ hjob)) hgroup
    have hfollows := Performs.follows (performs_processGroup hids shard) o pg w hgroup
    rw [hrun] at hfollows
    rw [processGroups, run_bind_of_ok hrun] at ha ⊢
    obtain ⟨t,hrun',hat,hrec'⟩ := ih hnr
      (fun job hjob => hfollows.2.2.jobs _ (hjobs job (List.mem_append_right _ hjob))) ha' ha
    have hlater := (Performs.follows hrest o pg w' ha).2.1
    rw [hrun'] at hlater
    refine ⟨t,hrun',hat,?_⟩
    rw [rebuiltGroups, hrun]
    dsimp only
    split
    · next hok =>
      refine List.forall_mem_cons.mpr ⟨fun job hjob => ?_,hrec'⟩
      refine (hrec hok job hjob).sameBut hlater fun hin => ?_
      exact hdisj _ (hids job hjob) _ hin rfl
    · exact hrec'

/-- What is said of every job of a group whose rebuild returned when `run_once` has ended. -/
def ErasuresRecorded (o : Outside D) (pg : Postgres) (workerId : String) (LEASE_SECONDS POLL_BATCH_SIZE : ℕ)
    (w : Lone D) : Prop :=
  ∀ jobs w₁, (claimJobs workerId LEASE_SECONDS POLL_BATCH_SIZE).run (lone o pg) w = (.ok jobs,w₁) →
    ∀ g ∈ rebuiltGroups o pg (shardGroups jobs) w₁, ∀ job ∈ g.2,
      Recorded ((runOnce o workerId LEASE_SECONDS POLL_BATCH_SIZE).run (lone o pg) w).2.server.committed g.1 job

theorem mem_rebuiltGroups {groups : List (ℕ × List ClaimedJob)} {g : ℕ × List ClaimedJob}
    (h : g ∈ rebuiltGroups o pg groups w) :
    g ∈ groups := by
  induction groups generalizing w with
  | nil => simp [rebuiltGroups] at h
  | cons g' groups ih =>
    obtain ⟨shard,group⟩ := g'
    have hrest : (g ∈ match (processGroup o shard group).run (lone o pg) w with
        | (.ok _,w') => rebuiltGroups o pg groups w'
        | (.error _,_) => []) → g ∈ groups := by
      intro h
      split at h
      · exact ih h
      · cases h
    rw [rebuiltGroups] at h
    split at h
    · rcases List.mem_cons.mp h with rfl | h
      · exact List.mem_cons_self
      · exact List.mem_cons_of_mem _ (hrest h)
    · exact List.mem_cons_of_mem _ (hrest h)

/-- When the transaction of a claimed batch has ended, the groups whose rebuild returned are recorded if
and only if it was not aborted, or there are none. -/
theorem recorded_iff {jobs : List ClaimedJob} (hidle : w.Idle) (hn : (jobs.map ClaimedJob.erasureId).Nodup)
    (hclaimed : ∀ job ∈ jobs, Claimed w.server.committed job) :
    (∀ g ∈ rebuiltGroups o pg (shardGroups jobs) w, ∀ job ∈ g.2,
        Recorded ((withConn (processClaimed o jobs)).run (lone o pg) w).2.server.committed g.1 job) ↔
      ((processClaimed o jobs).run (lone o pg) w).2.aborted = false ∨ rebuiltGroups o pg (shardGroups jobs) w = [] := by
  have hperm := shardGroups_perm jobs
  rw [run_withConn]
  cases ha : ((processClaimed o jobs).run (lone o pg) w).2.aborted with
  | false =>
    have hjobs : ∀ job ∈ (shardGroups jobs).flatMap Prod.snd, job.erasureId ∈ w.view.jobs := by
      intro job hjob
      obtain ⟨j,hj,-⟩ := hclaimed job (hperm.mem_iff.mp hjob)
      rw [hidle.view]
      exact Dict.mem_of_get? hj
    obtain ⟨t,hrun,hat,hrec⟩ := run_processGroups_recorded ((hperm.map _).nodup_iff.mpr hn) hjobs hidle.aborted ha
    have hcommit : t.commit.server.committed = t.view := committed_commit hat
    refine iff_of_true ?_ (Or.inl rfl)
    rw [processClaimed, hrun]
    dsimp only
    rw [hcommit]
    exact hrec
  | true =>
    have hcommitted := (Performs.within (performs_processClaimed o jobs) o pg w).2
    -- what was claimed is still processing
    have hkept : ∀ r t, (processClaimed o jobs).run (lone o pg) w = (r,t) →
        t.commit.server.committed = w.server.committed ∧ t.rollback.server.committed = w.server.committed := by
      intro r t hr
      rw [hr] at hcommitted ha
      exact ⟨(committed_commit_aborted ha).trans hcommitted,hcommitted⟩
    constructor
    · intro hall
      refine Or.inr (List.eq_nil_iff_forall_not_mem.mpr fun g hg => ?_)
      obtain ⟨hne,hgroup⟩ := mem_shardGroups (mem_rebuiltGroups hg)
      obtain ⟨job,hjob⟩ := List.exists_mem_of_ne_nil _ hne
      obtain ⟨j,hj,hstatus,-⟩ := hclaimed job (hgroup job hjob).1
      have hrec : Recorded w.server.committed g.1 job := by
        have hrec := hall g hg job hjob
        rcases hr : (processClaimed o jobs).run (lone o pg) w with ⟨e | ⟨⟩,t⟩
        · rw [hr] at hrec
          exact (hkept _ t hr).2 ▸ hrec
        · rw [hr] at hrec
          exact (hkept _ t hr).1 ▸ hrec
      rcases hrec with ⟨row,⟨j',hj',hdone⟩,-⟩ | ⟨j',exc,hj',hfailed,-⟩
      · cases hj.symm.trans hj'
        cases hstatus.symm.trans hdone
      · cases hj.symm.trans hj'
        cases hstatus.symm.trans hfailed
    · rintro (h | h)
      · cases h
      · simp [h]

theorem runOnce_committed {workerId : String} {LEASE_SECONDS POLL_BATCH_SIZE : ℕ} {jobs : List ClaimedJob} {w₁ : Lone D}
    (h : (claimJobs workerId LEASE_SECONDS POLL_BATCH_SIZE).run (lone o pg) w = (.ok jobs,w₁)) (hne : jobs ≠ []) :
    ((runOnce o workerId LEASE_SECONDS POLL_BATCH_SIZE).run (lone o pg) w).2 =
      ((withConn (processClaimed o jobs)).run (lone o pg) w₁).2 := by
  rw [runOnce, run_bind_of_ok h, if_neg hne, run_bind]
  rcases (withConn (processClaimed o jobs)).run (lone o pg) w₁ with ⟨e | ⟨⟩,t⟩ <;> rfl

/-- The record of the erasures of a batch survives exactly when no statement of its transaction fails,
or nothing was erased. -/
theorem erasuresRecorded_iff {workerId : String} {LEASE_SECONDS POLL_BATCH_SIZE : ℕ} :
    ErasuresRecorded o pg workerId LEASE_SECONDS POLL_BATCH_SIZE w ↔
      ∀ jobs w₁, (claimJobs workerId LEASE_SECONDS POLL_BATCH_SIZE).run (lone o pg) w = (.ok jobs,w₁) →
        (processClaimed o jobs).Along (lone o pg) (Succeeds pg) w₁ ∨ rebuiltGroups o pg (shardGroups jobs) w₁ = [] := by
  unfold ErasuresRecorded
  refine forall₃_congr fun jobs w₁ hclaim => ?_
  obtain ⟨hidle,hn,hclaimed⟩ := run_claimJobs hclaim
  rw [along_succeeds_iff (performs_processClaimed o jobs) hidle.aborted, ← recorded_iff hidle hn hclaimed]
  by_cases hne : jobs = []
  · subst hne
    have hgroups : rebuiltGroups o pg (shardGroups []) w₁ = [] := rfl
    simp [hgroups]
  · rw [runOnce_committed hclaim hne]

section Sample

/-- The bookkeeping of a group fails with its first statement, and the update of the jobs with it. -/
theorem processGroup_aborted {shard : ℕ} {group : List ClaimedJob} {message : String} {result : Result D} {u : Lone D}
    (hre : (rebuildBatchByRef o (group.map ClaimedJob.subjectRef)).run (lone o pg) w = (.ok result,u))
    (hf : pg.fails u.server.statements = some message) :
    ((processGroup o shard group).run (lone o pg) w).2.aborted = true := by
  have hbook : ∃ e v, (bookkeep o shard group result).run (lone o pg) u = (.error e,v) ∧
      (v.aborted = true ∨ v.server = u.server) := by
    have hserver : ((promoteArtifact o shard result.resultWeights).run (lone o pg) u).2.server = u.server :=
      Performs.server ((performs_promoteArtifact ..).mono fun _ h => h.noSql) u
    rw [bookkeep, run_bind, promote, run_bind]
    rcases hr : (promoteArtifact o shard result.resultWeights).run (lone o pg) u with ⟨e | path,v⟩
    · rw [hr] at hserver
      exact ⟨e,v,rfl,Or.inr hserver⟩
    · rw [hr] at hserver
      dsimp only
      rw [run_bind]
      rcases run_execute o pg v (.insertCheckpoint result.resultWeights
        ⟨shard,(D.settings.NUM_SLICES : ℤ) - 1,path,D.settings.CODE_DIGEST⟩) with ⟨_,_,-,hnone,-⟩ | ⟨e,-,hr'⟩
      · rw [hserver, hf] at hnone
        cases hnone
      · rw [hr']
        exact ⟨e,v.aborts,rfl,Or.inl (aborted_aborts v)⟩
  obtain ⟨e,v,hbk,hv⟩ := hbook
  rcases run_processGroup o pg shard group w with ⟨w',-,hp⟩ | ⟨e,w',h,ha⟩
  · cases hp with
    | refused hre' => cases (Prod.mk.inj (hre.symm.trans hre')).1
    | @unrecorded _ _ _ v' hre' hbk' hfail =>
      obtain ⟨hr,rfl⟩ := Prod.mk.inj (hre.symm.trans hre')
      cases hr
      obtain ⟨-,rfl⟩ := Prod.mk.inj (hbk.symm.trans hbk')
      obtain ⟨hav,hnone,-⟩ := run_execute_eq_ok.mp hfail
      rcases hv with hv | hv
      · rw [hv] at hav
        cases hav
      · rw [hv, hf] at hnone
        cases hnone
    | recorded hre' hbk' =>
      obtain ⟨hr,rfl⟩ := Prod.mk.inj (hre.symm.trans hre')
      cases hr
      cases (Prod.mk.inj (hbk.symm.trans hbk')).1
  · rw [h]
    exact ha

def sampleClaimed : ClaimedJob := ⟨"a",sampleRef 3,0⟩

theorem sampleClaim_run : ∃ w, sampleClaim (failingAt 2) [("a",queuedJob (sampleRef 3))] = (.ok [sampleClaimed],w) ∧
    w.files () = sampleBoosted ∧ w.server.statements = 2 := ⟨_,Prod.ext rfl rfl,rfl,rfl⟩

/-- One job, and the first statement of the transaction that processes it fails. -/
theorem not_erasuresRecorded : ¬∀ (D : Deployment) (o : Outside D) (pg : Postgres) (w : Lone D),
    ErasuresRecorded o pg "w" 300 8 w := by
  intro hall
  obtain ⟨w,hclaim,hfiles,hstatements⟩ := sampleClaim_run
  obtain ⟨hidle,hn,hclaimed⟩ := run_claimJobs hclaim
  have hgroups : shardGroups [sampleClaimed] = [(0,[sampleClaimed])] := rfl
  -- the rebuild itself returns
  obtain ⟨result,t,hrun⟩ := Call.returns sampleBoosted_ready
  rw [← hfiles] at hrun
  have hre : (rebuildBatchByRef sampleOutside ([sampleClaimed].map ClaimedJob.subjectRef)).run
      (lone sampleOutside (failingAt 2)) w = (.ok result,w.setFiles () t) := run_rebuildBatchByRef_of hrun
  have hfails : (failingAt 2).fails (w.setFiles () t).server.statements =
      some "canceling statement due to statement timeout" := if_pos hstatements
  have hfirst : ((processGroup sampleOutside 0 [sampleClaimed]).run (lone sampleOutside (failingAt 2)) w).2.aborted =
    true :=
    processGroup_aborted hre hfails
  have haborted : ((processClaimed sampleOutside [sampleClaimed]).run (lone sampleOutside (failingAt 2)) w).2.aborted =
    true := by
    rw [processClaimed, hgroups, processGroups, run_bind]
    rcases hr : (processGroup sampleOutside 0 [sampleClaimed]).run (lone sampleOutside (failingAt 2)) w with ⟨e | ⟨⟩,v⟩
    · rw [hr] at hfirst
      exact hfirst
    · rw [hr] at hfirst
      exact hfirst
  have hrec := hall _ sampleOutside (failingAt 2) (sampleQueue [("a",queuedJob (sampleRef 3))]) [sampleClaimed] w hclaim
  rw [runOnce_committed hclaim (List.cons_ne_nil _ _)] at hrec
  rcases (recorded_iff hidle hn hclaimed).mp hrec with h | h
  · rw [haborted] at h
    cases h
  · rw [hgroups, rebuiltGroups, hre] at h
    cases h

end Sample

end UnlearnShield.Worker
