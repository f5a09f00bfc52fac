import UnlearnShield.Worker.Promotion

/-! # The groups of a batch

What the bookkeeping of a group leaves in the rows its transaction sees, and that the rows
of other jobs stay as they were.
-/
namespace UnlearnShield.Worker
open Db Engine Deployment Program
variable {D : Deployment} {o : Outside D} {pg : Postgres} {w w' : Lone D}

/-- A rebuild is the engine's call on the files; the database is not involved. -/
theorem run_rebuildBatchByRef (o : Outside D) (pg : Postgres) (refs : List Ref) (w : Lone D) :
    (rebuildBatchByRef o refs).run (lone o pg) w =
      (((Call.mk o.engine refs true (o.clock w.server.statements)).program.run fileExec (w.files ())).1,
        w.setFiles ()
        ((Call.mk o.engine refs true (o.clock w.server.statements)).program.run fileExec (w.files ())).2) :=
  run_onFiles o pg () _ w

theorem run_rebuildBatchByRef_of {refs : List Ref} {result : Result D} {t : Process D}
    (h : (Call.mk o.engine refs true (o.clock w.server.statements)).program.run fileExec (w.files ()) =
      (.ok result,t)) :
    (rebuildBatchByRef o refs).run (lone o pg) w = (.ok result,w.setFiles () t) := by
  rw [run_rebuildBatchByRef, h]

/-- A rebuild leaves the transaction. -/
theorem server_rebuildBatchByRef {refs : List Ref} {r : Except PyErr (Result D)}
    (h : (rebuildBatchByRef o refs).run (lone o pg) w = (r,w')) : w'.server = w.server := by
  rw [run_rebuildBatchByRef] at h
  rw [← (Prod.mk.inj h).2]
  rfl

/-- What relates the rows before and after each statement relates those of a transaction that is not aborted. -/
theorem Performs.rows {P : Sql → Prop} {Q : Database → Database → Prop} {α : Type} {p : WorkerM D α}
    (h : p.Performs (WorkerOp.Sends P)) (hrefl : ∀ db, Q db db)
    (htrans : ∀ db db' db'', Q db db' → Q db' db'' → Q db db'')
    (hstep : ∀ (stmt : Sql) (pg : Postgres) n now db answer ws, P stmt →
      stmt.effect pg n now (fun _ => false) db = .does answer ws → Q db (db.writes ws))
    (o : Outside D) (pg : Postgres) (w : Lone D) (ha : (p.run (lone o pg) w).2.aborted = false) :
    w.aborted = false ∧ Q w.view (p.run (lone o pg) w).2.view := by
  let R : Lone D → Lone D → Prop := fun w w' => w'.aborted = false → w.aborted = false ∧ Q w.view w'.view
  have hR : R w (p.run (lone o pg) w).2 := by
    refine h.relates (R := R) (fun w ha => ⟨ha,hrefl _⟩) ?_ ?_ w
    · intro w w₁ w₂ h₁ h₂ ha
      obtain ⟨ha₁,hq₂⟩ := h₂ ha
      obtain ⟨ha₀,hq₁⟩ := h₁ ha₁
      exact ⟨ha₀,htrans _ _ _ hq₁ hq₂⟩
    · intro op w r w' hop he ha
      cases op with
      | sql stmt =>
        rcases exec_sql he with ⟨answer,ws,ha₀,heff,-,rfl⟩ | ⟨e,-,rfl⟩
        · rw [view_wrote]
          exact ⟨ha₀,hstep stmt pg _ _ _ answer ws hop heff⟩
        · rw [aborted_aborts] at ha
          cases ha
      | commit | rollback => exact hop.elim
      | _ =>
        have hs : w'.server = w.server := exec_noSql (by trivial) he
        have hv : w'.view = w.view := congrArg (fun s : Server Unit => s.view ()) hs
        have ha' : w'.aborted = w.aborted := congrArg (fun s : Server Unit => (s.session ()).aborted) hs
        rw [hv]
        exact ⟨ha'.symm.trans ha,hrefl _⟩
  exact hR ha

/-- Statements about some jobs leave the rows of others. -/
theorem Performs.follows {α : Type} {p : WorkerM D α} {ids : List Uuid} (h : p.Performs (WorkerOp.Touches ids))
    (o : Outside D) (pg : Postgres) (w : Lone D) (ha : (p.run (lone o pg) w).2.aborted = false) :
    w.aborted = false ∧ w.view.SameBut ids (p.run (lone o pg) w).2.view ∧ w.view.Grows (p.run (lone o pg) w).2.view :=
  Performs.rows (Q := fun db db' => db.SameBut ids db' ∧ db.Grows db') h (fun db => ⟨.refl ids db,.refl db⟩)
    (fun _ _ _ h h' => ⟨h.1.trans h'.1,h.2.trans h'.2⟩)
    (fun _ _ _ _ db _ ws hstmt he => ⟨db.sameBut_writes (hstmt.about he),db.grows_writes ws⟩) o pg w ha

/-- Bookkeeping statements leave the models. -/
theorem Performs.sameModels {α : Type} {p : WorkerM D α} (h : p.Performs WorkerOp.Books) (o : Outside D) (pg : Postgres)
    (w : Lone D) (ha : (p.run (lone o pg) w).2.aborted = false) :
    w.aborted = false ∧ w.view.SameModels (p.run (lone o pg) w).2.view :=
  Performs.rows (Q := Database.SameModels) h Database.SameModels.refl (fun _ _ _ => Database.SameModels.trans)
    (fun _ _ _ _ _ _ _ hstmt he => hstmt.sameModels he) o pg w ha

theorem run_insertManifest {erasureId : Uuid} {row : ManifestRow} {u : Unit}
    (h : (execute (.insertManifest erasureId row)).run (lone o pg) w = (.ok u,w')) :
    erasureId ∈ w.view.jobs ∧ erasureId ∉ w.view.manifests ∧
      w'.view = {w.view with manifests := w.view.manifests.insert erasureId row} := by
  obtain ⟨-,-,ws,he,hv⟩ := run_execute_ok h
  rw [effectOf, Sql.effect, foreignKey] at he
  split at he
  · next hjob =>
    rw [if_neg (by simp)] at he
    split at he
    · cases he
    · next hnew =>
      obtain ⟨-,rfl⟩ := Effect.does.inj he
      exact ⟨of_decide_eq_true hjob,by simpa using hnew,hv⟩
  · cases he

theorem run_finishJob {erasureId : Uuid} {u : Unit}
    (h : (execute (.finishJob erasureId)).run (lone o pg) w = (.ok u,w')) :
    ∃ jobs, w'.view = {w.view with jobs := jobs} ∧
      ∀ id, jobs.get? id = if id = erasureId then (w.view.jobs.get? id).map (Job.finished · w.now)
        else w.view.jobs.get? id := by
  obtain ⟨-,-,ws,he,hv⟩ := run_execute_ok h
  rw [effectOf, Sql.effect, update_free] at he
  obtain ⟨-,rfl⟩ := Effect.does.inj he
  obtain ⟨jobs,hw,hget⟩ := w.view.writes_update (fun id => decide (id = erasureId)) (Job.finished · w.now)
  refine ⟨jobs,hv.trans hw,fun id => ?_⟩
  simpa using hget id

theorem run_failJobs {lastError : String} {erasureIds : List Uuid} {u : Unit}
    (h : (execute (.failJobs lastError erasureIds)).run (lone o pg) w = (.ok u,w')) :
    ∃ jobs, w'.view = {w.view with jobs := jobs} ∧ ∀ id, jobs.get? id =
      if id ∈ erasureIds then (w.view.jobs.get? id).map (Job.failedWith · lastError) else w.view.jobs.get? id := by
  obtain ⟨-,-,ws,he,hv⟩ := run_execute_ok h
  rw [effectOf, Sql.effect, update_free] at he
  obtain ⟨-,rfl⟩ := Effect.does.inj he
  obtain ⟨jobs,hw,hget⟩ := w.view.writes_update (fun id => decide (id ∈ erasureIds)) (Job.failedWith · lastError)
  refine ⟨jobs,hv.trans hw,fun id => ?_⟩
  simpa using hget id

structure DoneWith (db : Database) (erasureId : Uuid) (row : ManifestRow) : Prop where
  job : ∃ job, db.jobs.get? erasureId = some job ∧ job.status = .done
  manifest : db.manifests.get? erasureId = some row

theorem DoneWith.sameBut {db db' : Database} {ids : List Uuid} {erasureId : Uuid} {row : ManifestRow}
    (h : DoneWith db erasureId row) (hs : db.SameBut ids db') (hid : erasureId ∉ ids) : DoneWith db' erasureId row := by
  refine ⟨?_,?_⟩
  · rw [hs.jobs erasureId hid]
    exact h.job
  · rw [hs.manifests erasureId hid]
    exact h.manifest

/-- Jobs that are recorded are done and have their subject's manifest. -/
theorem run_recordJobs {manifests : Dict Ref Manifest.Pairs} {group : List ClaimedJob} {u : Unit}
    (ha : w.aborted = false) (hn : (group.map ClaimedJob.erasureId).Nodup)
    (h : (recordJobs manifests group).run (lone o pg) w = (.ok u,w')) :
    w'.aborted = false ∧ ∀ job ∈ group, ∃ row, manifestOf manifests job.subjectRef = .ok row ∧
      DoneWith w'.view job.erasureId row := by
  induction group generalizing w with
  | nil =>
    obtain ⟨-,rfl⟩ := run_pure_eq_ok.mp h
    exact ⟨ha,by simp⟩
  | cons job group ih =>
    rw [List.map_cons, List.nodup_cons] at hn
    obtain ⟨row,_,h₀,h⟩ := run_bind_eq_ok.mp h
    obtain ⟨hrow,rfl⟩ := run_lift_eq_ok.mp h₀
    obtain ⟨_,w₁,h₁,h⟩ := run_bind_eq_ok.mp h
    obtain ⟨hjob,-,hv₁⟩ := run_insertManifest h₁
    obtain ⟨_,w₂,h₂,h⟩ := run_bind_eq_ok.mp h
    obtain ⟨jobs,hv₂,hget⟩ := run_finishJob h₂
    obtain ⟨ha',hrest⟩ := ih (run_execute_ok h₂).2.1 hn.2 h
    refine ⟨ha',List.forall_mem_cons.mpr ⟨⟨row,hrow,?_⟩,hrest⟩⟩
    have hdone : DoneWith w₂.view job.erasureId row := by
      obtain ⟨old,hold⟩ := Dict.exists_get?_of_mem hjob
      have hold₁ : w₁.view.jobs.get? job.erasureId = some old := by rw [hv₁, hold]
      refine ⟨⟨old.finished w₁.now,?_,rfl⟩,?_⟩
      · rw [hv₂, hget, if_pos rfl, hold₁]
        rfl
      · rw [hv₂, hv₁, Dict.get?_insert_self]
    have hperf : (recordJobs manifests group : WorkerM D Unit).Performs
      (WorkerOp.Touches (group.map ClaimedJob.erasureId)) :=
      performs_recordJobs (fun job hjob => List.mem_map_of_mem hjob) manifests
    have hfollows := Performs.follows hperf o pg w₂ (by rw [h]; exact ha')
    rw [h] at hfollows
    exact hdone.sameBut hfollows.2.1 hn.1

/-- Spot checks never raise. -/
theorem run_spotChecks (o : Outside D) (pg : Postgres) (shard : ℕ) (result : Result D) (group : List ClaimedJob)
    (w : Lone D) :
    ((spotChecks o shard result group).run (lone o pg) w).1 = .ok () := by
  induction group generalizing w with
  | nil => rfl
  | cons job group ih =>
    rw [spotChecks]
    split
    · rw [run_bind_of_ok (run_attempt (answers_lone o pg) _ w)]
      exact ih _
    · exact ih w

inductive Processed (o : Outside D) (pg : Postgres) (shard : ℕ) (group : List ClaimedJob) (w w' : Lone D) : Prop
  | refused {exc : PyErr} {u : Lone D} :
      (rebuildBatchByRef o (group.map ClaimedJob.subjectRef)).run (lone o pg) w = (.error exc,u) →
      (execute (.failJobs (truncated exc.message) (group.map ClaimedJob.erasureId))).run (lone o pg) u = (.ok (),w') →
      Processed o pg shard group w w'
  | unrecorded {result : Result D} {exc : PyErr} {u v : Lone D} :
      (rebuildBatchByRef o (group.map ClaimedJob.subjectRef)).run (lone o pg) w = (.ok result,u) →
      (bookkeep o shard group result).run (lone o pg) u = (.error exc,v) →
      (execute (.failJobs (reconcileMessage exc shard) (group.map ClaimedJob.erasureId))).run (lone o pg) v =
        (.ok (),w') →
      Processed o pg shard group w w'
  | recorded {result : Result D} {u v : Lone D} :
      (rebuildBatchByRef o (group.map ClaimedJob.subjectRef)).run (lone o pg) w = (.ok result,u) →
      (bookkeep o shard group result).run (lone o pg) u = (.ok (),v) →
      (spotChecks o shard result group).run (lone o pg) v = (.ok (),w') → Processed o pg shard group w w'

/-- A group is processed in one of three ways, or raises because its last statement fails. -/
theorem run_processGroup (o : Outside D) (pg : Postgres) (shard : ℕ) (group : List ClaimedJob) (w : Lone D) :
    (∃ w', (processGroup o shard group).run (lone o pg) w = (.ok (),w') ∧ Processed o pg shard group w w') ∨
    ∃ e w', (processGroup o shard group).run (lone o pg) w = (.error e,w') ∧ w'.aborted = true := by
  have hfail : ∀ (message : String) (u : Lone D),
      (∃ w', (execute (.failJobs message (group.map ClaimedJob.erasureId))).run (lone o pg) u = (.ok (),w')) ∨
      ∃ e w', (execute (.failJobs message (group.map ClaimedJob.erasureId))).run (lone o pg) u = (.error e,w') ∧
        w'.aborted = true := by
    intro message u
    rcases run_execute o pg u (.failJobs message (group.map ClaimedJob.erasureId)) with ⟨⟨⟩,ws,-,-,-,hr⟩ | ⟨e,-,hr⟩
    · exact Or.inl ⟨_,hr⟩
    · exact Or.inr ⟨e,_,hr,aborted_aborts u⟩
  unfold processGroup
  rw [run_bind_of_ok (run_attempt (answers_lone o pg) _ w)]
  rcases hre : (rebuildBatchByRef o (group.map ClaimedJob.subjectRef)).run (lone o pg) w with ⟨exc | result,u⟩
  · rcases hfail (truncated exc.message) u with ⟨w',h⟩ | ⟨e,w',h,ha⟩
    · exact Or.inl ⟨w',h,.refused hre h⟩
    · exact Or.inr ⟨e,w',h,ha⟩
  · dsimp only
    rw [run_bind_of_ok (run_attempt (answers_lone o pg) _ u)]
    rcases hbk : (bookkeep o shard group result).run (lone o pg) u with ⟨exc | ⟨⟩,v⟩
    · rcases hfail (reconcileMessage exc shard) v with ⟨w',h⟩ | ⟨e,w',h,ha⟩
      · exact Or.inl ⟨w',h,.unrecorded hre hbk h⟩
      · exact Or.inr ⟨e,w',h,ha⟩
    · have hs := run_spotChecks o pg shard result group v
      exact Or.inl ⟨_,Prod.ext hs rfl,.recorded hre hbk (Prod.ext hs rfl)⟩

end UnlearnShield.Worker
