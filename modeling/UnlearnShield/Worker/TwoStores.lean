import UnlearnShield.Worker.Batching
import UnlearnShield.Worker.Served
import UnlearnShield.Gateway.Erasure

/-! # The table of subjects and the routing table

Requests are admitted from `subject_shard_map` and processed from `routing.json`. Loading
copies the one into the other; an erasure takes its subject out of the file only.
-/
namespace UnlearnShield.Worker
open Db Engine Deployment Program
variable {D : Deployment} {o : Outside D} {pg : Postgres} {w w' : Lone D}

def Evolves (ids : List Uuid) : Sql → Prop
  | .finishJob erasureId => erasureId ∈ ids
  | .upsertSubjects _ => False
  | _ => True

structure Evolved (ids : List Uuid) (db db' : Database) : Prop where
  subjects : db'.subjectShardMap = db.subjectShardMap
  jobs : ∀ id job, db'.jobs.get? id = some job → ∃ old, db.jobs.get? id = some old ∧ job.subjectRef = old.subjectRef ∧
    (job.status = .done → old.status = .done ∨ id ∈ ids)

theorem Evolved.refl (ids : List Uuid) (db : Database) : Evolved ids db db := ⟨rfl,fun _ job h => ⟨job,h,rfl,Or.inl⟩⟩

theorem Evolved.trans {ids : List Uuid} {db db' db'' : Database} (h : Evolved ids db db') (h' : Evolved ids db' db'') :
    Evolved ids db db'' := by
  refine ⟨h'.subjects.trans h.subjects,fun id job hjob => ?_⟩
  obtain ⟨old,hold,hsubject,hdone⟩ := h'.jobs id job hjob
  obtain ⟨older,holder,hsubject',hdone'⟩ := h.jobs id old hold
  exact ⟨older,holder,hsubject.trans hsubject',fun h => (hdone h).elim hdone' Or.inr⟩

theorem Evolves.evolved {ids : List Uuid} {stmt : Sql} (h : Evolves ids stmt) {n : ℕ} {now : Time} {db : Database}
    {answer : stmt.Answer} {ws : List Write} (he : stmt.effect pg n now (fun _ => false) db = .does answer ws) :
    Evolved ids db (db.writes ws) := by
  refine ⟨Database.subjects_writes fun ref entry hin => ?_,fun id job hjob => ?_⟩
  · obtain ⟨entries,rfl⟩ := Sql.wrote he _ hin
    exact h
  · rcases Database.get?_jobs_writes hjob with hold | hin
    · exact ⟨job,hold,rfl,Or.inl⟩
    · obtain ⟨old,hold,hsubject,hfinish⟩ := Sql.wrote he _ hin
      refine ⟨old,hold,hsubject,fun hdone => Or.inr ?_⟩
      obtain rfl := hfinish hdone
      exact h

theorem Performs.evolved {α : Type} {p : WorkerM D α} {ids : List Uuid} (h : p.Performs (WorkerOp.Sends (Evolves ids)))
    (o : Outside D) (pg : Postgres) (w : Lone D) (ha : (p.run (lone o pg) w).2.aborted = false) :
    w.aborted = false ∧ Evolved ids w.view (p.run (lone o pg) w).2.view :=
  Performs.rows (Q := Evolved ids) h (.refl ids) (fun _ _ _ => .trans)
    (fun _ _ _ _ _ _ _ hstmt he => hstmt.evolved he) o pg w ha

theorem evolves_of_touches {ids : List Uuid} {op : WorkerOp D} (h : op.Touches ids) : op.Sends (Evolves ids) := by
  cases op with
  | sql stmt => cases stmt <;> first | exact h.elim | exact h | trivial
  | _ => first | exact h.elim | trivial

/-- Claiming finishes nothing. -/
theorem claimJobs_evolved {workerId : String} {LEASE_SECONDS POLL_BATCH_SIZE : ℕ} {jobs : List ClaimedJob} (hw : w.Idle)
    (h : (claimJobs workerId LEASE_SECONDS POLL_BATCH_SIZE).run (lone o pg) w = (.ok jobs,w')) :
    w'.files () = w.files () ∧ Evolved [] w.server.committed w'.server.committed := by
  obtain ⟨t,ht,rfl⟩ := run_withConn_eq_ok.mp h
  let body : WorkerM D (List ClaimedJob) := do
    execute .reapExpired
    let rows ← execute (.claimBatch workerId LEASE_SECONDS POLL_BATCH_SIZE)
    Pure.pure (rows.insertionSort fun a b => a.shard ≤ b.shard)
  have hbody : body.run (lone o pg) w = (.ok jobs,t) := ht
  have hsends : body.Performs (WorkerOp.Sends (Evolves [])) :=
    (performs_execute _ trivial).bind fun _ => (performs_execute _ trivial).bind fun _ => performs_pure _
  have hnoFile : body.Performs WorkerOp.NoFile :=
    (performs_execute _ trivial).bind fun _ => (performs_execute _ trivial).bind fun _ => performs_pure _
  have hfiles := Performs.files hnoFile o pg w
  have ha : t.aborted = false := by
    obtain ⟨_,_,-,ht⟩ := run_bind_eq_ok.mp hbody
    obtain ⟨_,_,hclaim,ht⟩ := run_bind_eq_ok.mp ht
    obtain ⟨-,rfl⟩ := run_pure_eq_ok.mp ht
    exact (run_execute_ok hclaim).2.1
  have hevolved := (Performs.evolved hsends o pg w (by rw [hbody]; exact ha)).2
  rw [hbody] at hfiles hevolved
  rw [hw.view] at hevolved
  exact ⟨hfiles,by rw [committed_commit ha]; exact hevolved⟩

/-- What loading leaves: the file as it was, the jobs as they were, and its entries in the table. -/
theorem run_loadRoutingScript {u : Unit} (hw : w.Idle) (h : (loadRoutingScript o).run (lone o pg) w = (.ok u,w')) :
    w'.Idle ∧ w'.files () = w.files () ∧ ∃ routing, w.disk.routing = some routing ∧
      w'.server.committed.subjectShardMap = w.server.committed.subjectShardMap.insertAll
        (upserted w.server.committed.subjectShardMap routing.entries) ∧
      ∀ id, w'.server.committed.jobs.get? id = w.server.committed.jobs.get? id := by
  obtain ⟨routing,w₁,h₁,hbase⟩ := run_bind_eq_ok.mp h
  rw [run_onFiles] at h₁
  obtain ⟨hload,hw₁⟩ := Prod.mk.inj h₁
  obtain ⟨hr,hread⟩ := run_loadRouting.mp (Prod.ext hload rfl)
  obtain rfl : w₁ = w := hw₁.symm.trans ((congrArg (w.setFiles ()) hread.symm).trans (World.setFiles_files ..))
  obtain ⟨t,ht,rfl⟩ := run_withConn_eq_ok.mp hbase
  obtain ⟨rest,hrest,hpromotes,hends⟩ := performs_recordBaseline (o := o) routing
  rw [hrest] at ht
  obtain ⟨_,w₂,h₂,ht⟩ := run_bind_eq_ok.mp ht
  have hv₂ := run_upsertSubjects h₂
  have hfiles₂ := Performs.files (performs_execute (.upsertSubjects routing.entries) trivial) o pg w₁
  have hfiles₃ := Performs.files (hpromotes.mono fun _ h => h.noFile) o pg w₂
  rw [h₂] at hfiles₂
  rw [ht] at hfiles₃
  have ha := hends ht
  have hsame := (Performs.follows (hpromotes.mono fun _ h => h.touches []) o pg w₂ (by rw [ht]; exact ha)).2.1
  rw [ht] at hsame
  have hcommit : t.commit.server.committed = t.view := committed_commit ha
  refine ⟨idle_commit t,hfiles₃.trans hfiles₂,routing,hr,?_,fun id => ?_⟩
  · rw [hcommit, hsame.subjects, hv₂, hw.view]
  · rw [hcommit, hsame.jobs id List.not_mem_nil, hv₂, hw.view]

def subjectsOf (groups : List (ℕ × List ClaimedJob)) : List Ref := (groups.flatMap Prod.snd).map ClaimedJob.subjectRef

/-- Groups processed with no error take their subjects out of the routing table, where they were. -/
theorem Completed.routing {groups : List (ℕ × List ClaimedJob)} {results : List (ℕ × Result D)} {t : Lone D}
    (h : Completed o pg groups w results t) {routing : Routing} (hr : w.disk.routing = some routing) :
    ∃ routing', t.disk.routing = some routing' ∧ (∀ ref ∈ subjectsOf groups, ref ∈ routing) ∧
      ∀ ref, routing'.get? ref = if ref ∈ subjectsOf groups then none else routing.get? ref := by
  induction h generalizing routing with
  | nil => exact ⟨routing,hr,by simp [subjectsOf],by simp [subjectsOf]⟩
  | @cons shard group groups result results w u v w' t hre hbk hspot hrest ih =>
    have hfiles := Processed.files (.recorded hre hbk hspot)
    rw [run_rebuildBatchByRef] at hre
    obtain ⟨x,hx,-⟩ := Call.returned (Prod.ext (Prod.mk.inj hre).1 rfl)
    have hrouting : some x.routing = some routing := hx.routing.symm.trans hr
    obtain rfl := Option.some.inj hrouting
    have hafter : w'.disk.routing = some (x.routing.without (group.map ClaimedJob.subjectRef)) := by
      have hdisk := congrArg (fun s : Process D => s.1.routing) (hfiles.trans hx.final)
      exact hdisk
    obtain ⟨routing',hr',hin,hget⟩ := ih hafter
    have hsplit : ∀ ref, ref ∈ subjectsOf ((shard,group) :: groups) ↔
      ref ∈ group.map ClaimedJob.subjectRef ∨ ref ∈ subjectsOf groups := by
      intro ref
      rw [subjectsOf, List.flatMap_cons, List.map_append, List.mem_append]
      rfl
    refine ⟨routing',hr',fun ref href => ?_,fun ref => ?_⟩
    · rcases (hsplit ref).mp href with href | href
      · obtain ⟨e,he,-⟩ := (locate_eq_ok.mp hx.batch).1 ref href
        exact Dict.mem_of_get? he
      · exact (Dict.mem_without.mp (hin ref href)).1
    · rw [hget, Dict.get?_without]
      by_cases h₁ : ref ∈ group.map ClaimedJob.subjectRef <;>
        by_cases h₂ : ref ∈ subjectsOf groups <;>
        simp [hsplit, h₁, h₂]

def tablesOf (db : Database) : Gateway.Tables Unit where
  jobs := db.jobs
  subjectShardMap := Dict.ofList (db.subjectShardMap.entries.map fun e => (e.1,e.2.shard))
  pending := Dict.empty

def World.setJobs (w : Lone D) (jobs : Dict Uuid Job) : Lone D :=
  {w with server := {w.server with committed := {w.server.committed with jobs := jobs}}}

section Requests
variable {subjectRef : String → Ref} {SLA_HOURS : ℕ} {post : Gateway.Post} {db : Database}

def request (subjectRef : String → Ref) (SLA_HOURS : ℕ) (post : Gateway.Post) (db : Database) :
    Except Gateway.HttpError Gateway.ErasureAccepted × Gateway.Tables Unit :=
  (Gateway.createErasure subjectRef SLA_HOURS post).run (Gateway.exec ()) (tablesOf db)

theorem mem_tablesOf {ref : Ref} : ref ∈ (tablesOf db).subjectShardMap ↔ ref ∈ db.subjectShardMap := by
  rw [tablesOf, Dict.mem_ofList, Dict.mem_iff_exists]
  constructor
  · rintro ⟨shard,h⟩
    obtain ⟨e,he,heq⟩ := List.mem_map.mp h
    cases heq
    exact ⟨e.2,he⟩
  · rintro ⟨e,he⟩
    exact ⟨_,List.mem_map_of_mem (f := fun e : Ref × RoutingEntry => (e.1,e.2.shard)) he⟩

/-- A subject that is not in the table is unknown. -/
theorem request_unknown (h : subjectRef post.subjectId ∉ db.subjectShardMap) :
    request subjectRef SLA_HOURS post db = (.error ⟨404,"unknown subject"⟩,tablesOf db) := by
  have hnone : (tablesOf db).subjectShardMap.get? (subjectRef post.subjectId) = none :=
    Dict.get?_eq_none.mpr fun hin => h (mem_tablesOf.mp hin)
  rw [request, Gateway.createErasure, Program.run]
  simp only [Gateway.exec, hnone]
  rfl

/-- The insert of a request adds its row, finds one with its key, or fails. -/
theorem exec_insertJob {id : Uuid} {job : Job} {r : Py (Option Uuid)} {s : Gateway.Tables Unit}
    (h : Gateway.exec () (.insertJob id job) (tablesOf db) = .ok (r,s)) :
    (r = .ok (some id) ∧ s = {tablesOf db with pending := Dict.empty.insert () (id,job)}) ∨
      (r = .ok none ∧ s = tablesOf db) ∨
      (∃ e, r = .error e) := by
  rw [Gateway.exec] at h
  split at h
  · cases h
  · split at h
    · obtain ⟨rfl,rfl⟩ := Prod.mk.inj (Except.ok.inj h)
      exact Or.inr (Or.inl ⟨rfl,rfl⟩)
    · split at h
      · obtain ⟨rfl,-⟩ := Prod.mk.inj (Except.ok.inj h)
        exact Or.inr (Or.inr ⟨_,rfl⟩)
      · obtain ⟨rfl,rfl⟩ := Prod.mk.inj (Except.ok.inj h)
        exact Or.inl ⟨rfl,rfl⟩

/-- An accepted request adds at most one job, a queued one. -/
theorem request_accepted {accepted : Gateway.ErasureAccepted} {s : Gateway.Tables Unit}
    (h : request subjectRef SLA_HOURS post db = (.ok accepted,s)) :
    s.jobs = db.jobs ∨ ∃ id job, job.status = .queued ∧ s.jobs = db.jobs.insert id job := by
  obtain ⟨found,_,hselect,h⟩ := run_call_eq_ok.mp h
  obtain ⟨-,rfl⟩ := Prod.mk.inj (Except.ok.inj hselect)
  cases found with
  | none => cases (Prod.mk.inj h).1
  | some shard =>
    obtain ⟨⟨id,_⟩,u,hinsert,h⟩ := run_bind_eq_ok.mp h
    -- what is left after the insert is a commit
    obtain ⟨_,_,hcommit,h⟩ := run_call_eq_ok.mp h
    obtain ⟨-,rfl⟩ := Prod.mk.inj (Except.ok.inj hcommit)
    obtain ⟨deadline,_,hdeadline,h⟩ := run_call_eq_ok.mp h
    obtain ⟨-,rfl⟩ := Prod.mk.inj (Except.ok.inj hdeadline)
    have hjobs : s.jobs = u.view () := by
      cases deadline with
      | none => cases (Prod.mk.inj h).1
      | some deadline => rw [← (Prod.mk.inj h).2]
    rw [hjobs]
    obtain ⟨r,v,hrow,hinsert⟩ := run_call_eq_ok.mp hinsert
    rcases exec_insertJob hrow with ⟨rfl,rfl⟩ | ⟨rfl,rfl⟩ | ⟨e,rfl⟩
    · obtain ⟨-,rfl⟩ := run_pure_eq_ok.mp hinsert
      exact Or.inr ⟨_,_,rfl,rfl⟩
    · obtain ⟨key,_,hkey,hinsert⟩ := run_call_eq_ok.mp hinsert
      obtain ⟨-,rfl⟩ := Prod.mk.inj (Except.ok.inj hkey)
      cases key with
      | none => cases (Prod.mk.inj hinsert).1
      | some id =>
        obtain ⟨-,rfl⟩ := run_pure_eq_ok.mp hinsert
        exact Or.inl rfl
    · cases (Prod.mk.inj hinsert).1

end Requests

structure Service (D : Deployment) where
  outside : Outside D
  subjectRef : String → Ref
  SLA_HOURS : ℕ
  workerId : String
  LEASE_SECONDS : ℕ
  POLL_BATCH_SIZE : ℕ

/-- Runs of one worker, with no errors, between loads and accepted requests. The list is of the subjects
of the batches processed. -/
inductive Operated (v : Service D) : Lone D → List Ref → Prop
  | loaded {pg : Postgres} {w w' : Lone D} : w.Idle → w.server.committed.subjectShardMap = Dict.empty →
      w.server.committed.jobs = Dict.empty → (loadRoutingScript v.outside).run (lone v.outside pg) w = (.ok (),w') →
      Operated v w' []
  | reloaded {pg : Postgres} {w w' : Lone D} {erased : List Ref} : Operated v w erased →
      (loadRoutingScript v.outside).run (lone v.outside pg) w = (.ok (),w') → Operated v w' erased
  | requested {w : Lone D} {erased : List Ref} {post : Gateway.Post} {accepted : Gateway.ErasureAccepted}
    {s : Gateway.Tables Unit} :
      Operated v w erased → request v.subjectRef v.SLA_HOURS post w.server.committed = (.ok accepted,s) →
      Operated v (w.setJobs s.jobs) erased
  | worked {pg : Postgres} {w w₁ t w' : Lone D} {erased : List Ref} {jobs : List ClaimedJob}
    {results : List (ℕ × Result D)} {n : ℕ} :
      Operated v w erased →
      (claimJobs v.workerId v.LEASE_SECONDS v.POLL_BATCH_SIZE).run (lone v.outside pg) w = (.ok jobs,w₁) →
      Completed v.outside pg (shardGroups jobs) w₁ results t → t.aborted = false →
      (runOnce v.outside v.workerId v.LEASE_SECONDS v.POLL_BATCH_SIZE).run (lone v.outside pg) w = (.ok n,w') →
      Operated v w' (erased ++ jobs.map ClaimedJob.subjectRef)
  | waited {w : Lone D} {erased : List Ref} : Operated v w erased → Operated v w.later erased

/-- The two stores have the same subjects in the same places; a subject that is done is in neither, and a
request for it is refused. -/
structure StoresAgree (v : Service D) (w : Lone D) : Prop where
  agree : ∃ routing, w.disk.routing = some routing ∧ (∀ ref, ref ∈ w.server.committed.subjectShardMap ↔ ref ∈ routing) ∧
    ∀ ref e e', w.server.committed.subjectShardMap.get? ref = some e → routing.get? ref = some e' →
      e.shard = e'.shard ∧ e.minSliceIdx = e'.minSliceIdx
  forgotten : ∀ id job, w.server.committed.jobs.get? id = some job → job.status = .done →
    job.subjectRef ∉ w.server.committed.subjectShardMap ∧ ∀ routing, w.disk.routing = some routing →
      job.subjectRef ∉ routing
  unknown : ∀ id job, w.server.committed.jobs.get? id = some job → job.status = .done →
    ∀ post, v.subjectRef post.subjectId = job.subjectRef →
      request v.subjectRef v.SLA_HOURS post w.server.committed =
        (.error ⟨404,"unknown subject"⟩,tablesOf w.server.committed)

structure Stores (map : Dict Ref RoutingEntry) (routing : Routing) (erased : List Ref) : Prop where
  listed : ∀ ref e, routing.get? ref = some e → ∃ e', map.get? ref = some e' ∧ e'.shard = e.shard ∧
    e'.minSliceIdx = e.minSliceIdx
  known : ∀ ref ∈ map, ref ∈ routing ∨ ref ∈ erased
  dropped : ∀ ref ∈ erased, ref ∈ map ∧ ref ∉ routing

structure Tracked (w : Lone D) (erased : List Ref) : Prop where
  idle : w.Idle
  stores : ∃ routing, w.disk.routing = some routing ∧ Stores w.server.committed.subjectShardMap routing erased
  done : ∀ id job, w.server.committed.jobs.get? id = some job → job.status = .done → job.subjectRef ∈ erased

theorem mem_upserted {old : Dict Ref RoutingEntry} {entries : List (Ref × RoutingEntry)} {ref : Ref} :
    ref ∈ (upserted old entries).map Prod.fst ↔ ref ∈ entries.map Prod.fst := by
  rw [upserted, List.map_map]
  rfl

theorem Stores.loaded {map : Dict Ref RoutingEntry} {routing : Routing} {erased : List Ref}
    (hknown : ∀ ref ∈ map, ref ∈ routing ∨ ref ∈ erased) (hdropped : ∀ ref ∈ erased, ref ∈ map ∧ ref ∉ routing) :
    Stores (map.insertAll (upserted map routing.entries)) routing erased := by
  have hn : ((upserted map routing.entries).map Prod.fst).Nodup := by
    rw [upserted, List.map_map]
    exact routing.nodup
  refine ⟨fun ref e he => ?_,fun ref href => ?_,fun ref href => ?_⟩
  · obtain ⟨e',hmem,hshard,hslice⟩ : ∃ e', (ref,e') ∈ upserted map routing.entries ∧ e'.shard = e.shard ∧
        e'.minSliceIdx = e.minSliceIdx := by
      refine ⟨_,List.mem_map_of_mem (Dict.get?_eq_some.mp he),?_⟩
      dsimp only
      split <;> exact ⟨rfl,rfl⟩
    exact ⟨e',Dict.get?_insertAll_of_mem hn hmem _,hshard,hslice⟩
  · rcases Dict.mem_insertAll.mp href with href | href
    · exact hknown ref href
    · exact Or.inl (mem_upserted.mp href)
  · obtain ⟨hmap,hrouting⟩ := hdropped ref href
    exact ⟨Dict.mem_insertAll.mpr (Or.inl hmap),hrouting⟩

theorem Stores.erased {map : Dict Ref RoutingEntry} {routing routing' : Routing} {erased refs : List Ref}
    (h : Stores map routing erased) (hin : ∀ ref ∈ refs, ref ∈ routing)
    (hget : ∀ ref, routing'.get? ref = if ref ∈ refs then none else routing.get? ref) :
    Stores map routing' (erased ++ refs) := by
  have hmem : ∀ ref, ref ∈ routing' ↔ ref ∈ routing ∧ ref ∉ refs := by
    intro ref
    rw [← Dict.get?_isSome, hget]
    split
    · next href => simp [href]
    · next href => simp [href, Dict.get?_isSome]
  refine ⟨fun ref e he => ?_,fun ref href => ?_,fun ref href => ?_⟩
  · rw [hget] at he
    split at he
    · cases he
    · exact h.listed ref e he
  · rw [hmem, List.mem_append]
    by_cases hr : ref ∈ refs
    · exact Or.inr (Or.inr hr)
    · exact (h.known ref href).imp (fun hin => ⟨hin,hr⟩) Or.inl
  · rw [hmem]
    rcases List.mem_append.mp href with hr | hr
    · exact ⟨(h.dropped ref hr).1,fun hin => (h.dropped ref hr).2 hin.1⟩
    · obtain ⟨e,he⟩ := Dict.exists_get?_of_mem (hin ref hr)
      obtain ⟨e',he',-⟩ := h.listed ref e he
      exact ⟨Dict.mem_of_get? he',fun hin => hin.2 hr⟩

/-- A cycle with no error leaves its last transaction committed. -/
theorem runOnce_completed {workerId : String} {LEASE_SECONDS POLL_BATCH_SIZE n : ℕ} {jobs : List ClaimedJob}
    {results : List (ℕ × Result D)} {w₁ t : Lone D}
    (hclaim : (claimJobs workerId LEASE_SECONDS POLL_BATCH_SIZE).run (lone o pg) w = (.ok jobs,w₁))
    (h : Completed o pg (shardGroups jobs) w₁ results t) (ha : t.aborted = false)
    (hrun : (runOnce o workerId LEASE_SECONDS POLL_BATCH_SIZE).run (lone o pg) w = (.ok n,w')) :
    w'.Idle ∧ w'.disk = t.disk ∧ w'.server.committed = t.view := by
  by_cases hne : jobs = []
  · subst hne
    rw [runOnce, run_bind_of_ok hclaim, if_pos rfl] at hrun
    obtain ⟨-,rfl⟩ := run_pure_eq_ok.mp hrun
    cases h
    have hidle := (run_claimJobs hclaim).1
    exact ⟨hidle,rfl,hidle.view.symm⟩
  · have hw' := runOnce_committed (o := o) hclaim hne
    rw [hrun, run_withConn, processClaimed, h.run] at hw'
    obtain rfl : w' = t.commit := hw'
    exact ⟨idle_commit t,rfl,committed_commit ha⟩

theorem Tracked.worked {workerId : String} {LEASE_SECONDS POLL_BATCH_SIZE n : ℕ} {jobs : List ClaimedJob}
    {results : List (ℕ × Result D)} {w₁ t : Lone D} {erased : List Ref} (hw : Tracked w erased)
    (hclaim : (claimJobs workerId LEASE_SECONDS POLL_BATCH_SIZE).run (lone o pg) w = (.ok jobs,w₁))
    (h : Completed o pg (shardGroups jobs) w₁ results t) (ha : t.aborted = false)
    (hrun : (runOnce o workerId LEASE_SECONDS POLL_BATCH_SIZE).run (lone o pg) w = (.ok n,w')) :
    Tracked w' (erased ++ jobs.map ClaimedJob.subjectRef) := by
  obtain ⟨hidle',hdisk,hcommitted⟩ := runOnce_completed hclaim h ha hrun
  obtain ⟨hfiles,hclaiming⟩ := claimJobs_evolved hw.idle hclaim
  obtain ⟨hidle,hn,hclaimed⟩ := run_claimJobs hclaim
  have hperm := shardGroups_perm jobs
  have hids : ∀ g ∈ shardGroups jobs, ∀ job ∈ g.2, job.erasureId ∈ jobs.map ClaimedJob.erasureId := fun g hg job hjob =>
    List.mem_map_of_mem (hperm.mem_iff.mp (List.mem_flatMap.mpr ⟨g,hg,hjob⟩))
  have hprocessing := (Performs.evolved ((performs_processGroups hids).mono fun _ => evolves_of_touches) o pg w₁
    (by rw [h.run]; exact ha)).2
  rw [h.run, hidle.view] at hprocessing
  obtain ⟨routing,hr,hstores⟩ := hw.stores
  have hr₁ : w₁.disk.routing = some routing := (congrArg (fun s : Process D => s.1.routing) hfiles).trans hr
  obtain ⟨routing',hr',hin,hget⟩ := h.routing hr₁
  have hsubjects : ∀ ref, ref ∈ subjectsOf (shardGroups jobs) ↔ ref ∈ jobs.map ClaimedJob.subjectRef := fun ref =>
    (hperm.map _).mem_iff
  simp only [hsubjects] at hin hget
  refine ⟨hidle',⟨routing',by rw [hdisk]; exact hr',?_⟩,fun id job hjob hdone => ?_⟩
  · have hmap : t.view.subjectShardMap = w.server.committed.subjectShardMap :=
      hprocessing.subjects.trans hclaiming.subjects
    rw [hcommitted, hmap]
    exact hstores.erased hin hget
  · rw [hcommitted] at hjob
    obtain ⟨old,hold,hsubject,hwas⟩ := hprocessing.jobs id job hjob
    rw [hsubject, List.mem_append]
    rcases hwas hdone with hdone | hid
    · obtain ⟨older,holder,hsubject',hwas'⟩ := hclaiming.jobs id old hold
      rw [hsubject']
      exact Or.inl (hw.done id older holder ((hwas' hdone).resolve_right List.not_mem_nil))
    · obtain ⟨c,hc,rfl⟩ := List.mem_map.mp hid
      obtain ⟨j,hj,-,hsubject',-⟩ := hclaimed c hc
      cases hold.symm.trans hj
      rw [hsubject']
      exact Or.inr (List.mem_map_of_mem hc)

theorem Operated.tracked {v : Service D} {erased : List Ref} (h : Operated v w erased) : Tracked w erased := by
  induction h with
  | loaded hw hmap hjobs hrun =>
    obtain ⟨hidle,hfiles,routing,hr,hloaded,hsame⟩ := run_loadRoutingScript hw hrun
    have hdisk := congrArg (fun s : Process D => s.1.routing) hfiles
    refine ⟨hidle,⟨routing,hdisk.trans hr,?_⟩,fun id job hjob _ => ?_⟩
    · rw [hloaded, hmap]
      exact .loaded (by simp [Dict.mem_iff, Dict.keys, Dict.empty]) (by simp)
    · rw [hsame, hjobs] at hjob
      cases hjob
  | reloaded h hrun ih =>
    obtain ⟨hidle,hfiles,routing,hr,hloaded,hsame⟩ := run_loadRoutingScript ih.idle hrun
    have hdisk := congrArg (fun s : Process D => s.1.routing) hfiles
    obtain ⟨routing',hr',hstores⟩ := ih.stores
    cases hr.symm.trans hr'
    refine ⟨hidle,⟨routing,hdisk.trans hr,?_⟩,fun id job hjob hdone => ?_⟩
    · rw [hloaded]
      exact .loaded hstores.known hstores.dropped
    · rw [hsame] at hjob
      exact ih.done id job hjob hdone
  | @requested w erased post accepted s h hrequest ih =>
    refine ⟨ih.idle,ih.stores,fun id job hjob hdone => ?_⟩
    have hjob' : s.jobs.get? id = some job := hjob
    rcases request_accepted hrequest with hsame | ⟨id',new,hqueued,hadded⟩
    · rw [hsame] at hjob'
      exact ih.done id job hjob' hdone
    · rw [hadded, Dict.get?_insert] at hjob'
      split at hjob'
      · obtain rfl := Option.some.inj hjob'
        cases hqueued.symm.trans hdone
      · exact ih.done id job hjob' hdone
  | worked h hclaim hcompleted ha hrun ih => exact ih.worked hclaim hcompleted ha hrun
  | waited h ih => exact ⟨ih.idle,ih.stores,ih.done⟩

/-- The two stores agree and forget exactly as long as nobody has been erased. -/
theorem storesAgree_iff {v : Service D} {erased : List Ref} (h : Operated v w erased) :
    StoresAgree v w ↔ erased = [] := by
  obtain ⟨hidle,⟨routing,hr,hstores⟩,hdone⟩ := h.tracked
  constructor
  · intro hagree
    obtain ⟨routing',hr',hsame,-⟩ := hagree.agree
    cases hr.symm.trans hr'
    refine List.eq_nil_iff_forall_not_mem.mpr fun ref href => ?_
    obtain ⟨hmap,hrouting⟩ := hstores.dropped ref href
    exact hrouting ((hsame ref).mp hmap)
  · rintro rfl
    have hnone : ∀ id job, w.server.committed.jobs.get? id = some job → job.status ≠ .done := fun id job hjob hd =>
      List.not_mem_nil (hdone id job hjob hd)
    refine ⟨⟨routing,hr,
      fun ref => ⟨fun href => (hstores.known ref href).resolve_right List.not_mem_nil,fun href => ?_⟩,?_⟩,
      fun id job hjob hd => absurd hd (hnone id job hjob),fun id job hjob hd => absurd hd (hnone id job hjob)⟩
    · obtain ⟨e,he⟩ := Dict.exists_get?_of_mem href
      obtain ⟨e',he',-⟩ := hstores.listed ref e he
      exact Dict.mem_of_get? he'
    · intro ref e e' he he'
      obtain ⟨e'',he'',hshard,hslice⟩ := hstores.listed ref e' he'
      cases he.symm.trans he''
      exact ⟨hshard,hslice⟩

section Sample

/-- The first request for a listed subject is accepted. -/
theorem request_first {subjectRef : String → Ref} {SLA_HOURS shard : ℕ} {post : Gateway.Post} {db : Database}
    (hjobs : db.jobs = Dict.empty)
    (hshard : (tablesOf db).subjectShardMap.get? (subjectRef post.subjectId) = some shard) :
    ∃ accepted s, request subjectRef SLA_HOURS post db = (.ok accepted,s) ∧
      s.jobs = Dict.empty.insert post.uuid (post.job subjectRef SLA_HOURS shard) := by
  have hempty : (tablesOf db).view () = Dict.empty := hjobs
  have hfree : ¬(tablesOf db).Locked () post.uuid (post.job subjectRef SLA_HOURS shard) := by
    simp [Gateway.Tables.Locked, tablesOf, Dict.empty]
  have hinsert : Gateway.exec () (.insertJob post.uuid (post.job subjectRef SLA_HOURS shard)) (tablesOf db) =
      .ok (.ok (some post.uuid),
        {tablesOf db with pending := Dict.empty.insert () (post.uuid,post.job subjectRef SLA_HOURS shard)}) := by
    rw [Gateway.exec, if_neg hfree, hempty, if_neg (by simp [Dict.empty]),
      if_neg (by simp [Dict.mem_iff, Dict.keys, Dict.empty])]
    rfl
  let t : Gateway.Tables Unit :=
    {tablesOf db with pending := Dict.empty.insert () (post.uuid,post.job subjectRef SLA_HOURS shard)}
  have hview : t.view () = Dict.empty.insert post.uuid (post.job subjectRef SLA_HOURS shard) := by
    rw [← hjobs]
    rfl
  let u : Gateway.Tables Unit := {t with jobs := t.view (), pending := t.pending.erase ()}
  have hdeadline : ((u.view ()).get? post.uuid).map Job.slaDeadline = some (post.now + SLA_HOURS * 3600) := by
    rw [show u.view () = t.view () from rfl, hview, Dict.get?_insert_self]
    rfl
  refine ⟨⟨post.uuid,post.now + SLA_HOURS * 3600⟩,u,?_,hview⟩
  refine run_call_eq_ok.mpr ⟨_,_,rfl,?_⟩
  dsimp only
  rw [hshard]
  refine run_bind_eq_ok.mpr ⟨(post.uuid,true),t,run_call_eq_ok.mpr ⟨_,_,hinsert,rfl⟩,?_⟩
  refine run_call_eq_ok.mpr ⟨(),u,rfl,run_call_eq_ok.mpr ⟨_,u,rfl,?_⟩⟩
  rw [hdeadline]
  rfl

/-- The only job there is, queued, is claimed. -/
theorem claimJobs_single {workerId : String} {LEASE_SECONDS POLL_BATCH_SIZE : ℕ} {id : Uuid} {job : Job} (o : Outside D)
    (hw : w.Idle) (hf : ∀ n, pg.fails n = none) (hjobs : w.server.committed.jobs = Dict.empty.insert id job)
    (hqueued : job.status = .queued) (hlimit : 0 < POLL_BATCH_SIZE) :
    ∃ w', (claimJobs workerId LEASE_SECONDS POLL_BATCH_SIZE).run (lone o pg) w =
      (.ok [⟨id,job.subjectRef,job.shard⟩],w') ∧
      w'.cas = w.cas ∧ w'.server.committed.manifests = w.server.committed.manifests ∧
      w'.server.committed.checkpoints = w.server.committed.checkpoints := by
  have hentries : w.view.jobs.entries = [(id,job)] := by
    rw [hw.view, hjobs]
    rfl
  have hreap : effectOf pg w .reapExpired = .does () [] := by
    simp [effectOf, Sql.effect, update_free, hentries, Job.Expired, hqueued]
  have hclaim : effectOf pg (w.wrote []) (.claimBatch workerId LEASE_SECONDS POLL_BATCH_SIZE) =
      .does [⟨id,job.subjectRef,job.shard⟩] [.job id (job.claimed workerId ((w.wrote []).now + LEASE_SECONDS))] := by
    have harrange : ∀ {α : Type} (n : ℕ) (a : α), pg.arrange n [a] = [a] :=
      fun n a => List.perm_singleton.mp (pg.perm n [a])
    have hchosen : (claimable (fun _ => false) [(id,job)]).take POLL_BATCH_SIZE = [(id,job)] := by
      have hone : claimable (fun _ => false) [(id,job)] = [(id,job)] := by simp [claimable, hqueued]
      rw [hone, List.take_of_length_le hlimit]
    rw [effectOf, view_wrote, Database.writes_nil, Sql.effect, hentries, harrange, hchosen]
    rw [harrange]
    rfl
  have h₁ : (execute .reapExpired).run (lone o pg) w = (.ok (),w.wrote []) := run_execute_of hf hw.aborted hreap
  have h₂ := run_execute_of (o := o) hf (aborted_wrote ..) hclaim
  refine ⟨((w.wrote []).wrote [.job id (job.claimed workerId ((w.wrote []).now + LEASE_SECONDS))]).commit,?_,rfl,?_,?_⟩
  · refine run_withConn_eq_ok.mpr ⟨_,?_,rfl⟩
    rw [run_bind_of_ok h₁, run_bind_of_ok h₂]
    rfl
  · rw [committed_commit (aborted_wrote ..), view_wrote, view_wrote, hw.view]
    rfl
  · rw [committed_commit (aborted_wrote ..), view_wrote, view_wrote, hw.view]
    rfl

def sampleService : Service (logging 2) := ⟨sampleOutside,fun _ => sampleRef 3,720,"w",300,8⟩

theorem sampleLoading_returns :
    (loadRoutingScript sampleOutside).run (lone sampleOutside Postgres.inOrder) sampleWorld =
    (.ok (),sampleLoading.2) := returned_of_isOk (by decide +kernel)

def Artifact.isBooster {D : Deployment} : Artifact D → Bool
  | .booster _ => true
  | _ => false

/-- What was loaded can be served. -/
theorem sampleLoading_servable : Servable sampleLoading.2 := by
  have hboosters : ∀ e ∈ sampleLoading.2.cas.entries, e.2.isBooster = true := by decide +kernel
  have hcopied : ∀ e ∈ sampleLoading.2.view.checkpoints.entries, e.2.filePath ∈ sampleLoading.2.cas ∧
    e.2.shard < 10 := by decide +kernel
  constructor
  · intro path artifact h
    have hbooster := hboosters _ (Dict.get?_eq_some.mp h)
    cases artifact with
    | booster booster => exact ⟨booster,rfl⟩
    | _ => cases hbooster
  · intro h row hrow
    obtain ⟨hpath,hshard⟩ := hcopied _ (Dict.get?_eq_some.mp hrow)
    exact ⟨hpath,lt_maxDigits hshard⟩

theorem sampleService_loaded : Operated sampleService sampleLoading.2 [] :=
  .loaded (show sampleWorld.Idle from rfl) rfl rfl sampleLoading_returns

/-- The models are loaded, one request is made and processed. -/
theorem sampleService_operated : ∃ w, Operated sampleService w [sampleRef 3] := by
  have hfresh : sampleWorld.Idle := rfl
  obtain ⟨hidle,hfiles,-⟩ := run_loadRoutingScript hfresh sampleLoading_returns
  have hempty : sampleLoading.2.server.committed.jobs = Dict.empty := Dict.ext (List.isEmpty_iff.mp (by decide +kernel))
  have hmanifests : sampleLoading.2.server.committed.manifests = Dict.empty :=
    Dict.ext (List.isEmpty_iff.mp (by decide +kernel))
  have hshard : (tablesOf sampleLoading.2.server.committed).subjectShardMap.get? (sampleRef 3) = some 0 := by
    decide +kernel
  obtain ⟨accepted,s,hrequest,hs⟩ : ∃ accepted s, request (fun _ => sampleRef 3) 720
    ⟨"tenant-a","k","s",.fraudExcision,"a",0⟩
      sampleLoading.2.server.committed = (.ok accepted,s) ∧ s.jobs = Dict.empty.insert "a" _ :=
        request_first hempty hshard
  have hrequested : Operated sampleService (sampleLoading.2.setJobs s.jobs) [] :=
    .requested sampleService_loaded hrequest
  have hready : (sampleLoading.2.setJobs s.jobs).Idle := hidle
  have hclaimed : ∃ w₁,
    (claimJobs "w" 300 8).run (lone sampleOutside Postgres.inOrder) (sampleLoading.2.setJobs s.jobs) =
      (.ok [⟨"a",sampleRef 3,0⟩],w₁) ∧ w₁.cas = sampleLoading.2.cas ∧ w₁.server.committed.manifests = Dict.empty ∧
      w₁.server.committed.checkpoints = sampleLoading.2.server.committed.checkpoints := by
    rw [← hmanifests]
    exact claimJobs_single sampleOutside hready (fun _ => rfl) hs rfl (by decide)
  obtain ⟨w₁,hclaim,hcas,hm,hc⟩ := hclaimed
  obtain ⟨hfiles₁,-⟩ := claimJobs_evolved hready hclaim
  obtain ⟨hidle₁,-,hprocessing⟩ := run_claimJobs hclaim
  have hservable : Servable w₁ := by
    refine ⟨by rw [hcas]; exact sampleLoading_servable.boosters,?_⟩
    rw [hidle₁.view, hc, hcas, ← hidle.view]
    exact sampleLoading_servable.copied
  have hboosted : w₁.files () = sampleBoosted := hfiles₁.trans hfiles
  obtain ⟨result,u,v,hre,hbk,hspot,hv⟩ :=
    exists_sampleGroup hboosted hidle₁ hservable (hprocessing _ (List.mem_singleton_self _)) hm
  have hgroups : shardGroups [⟨"a",sampleRef 3,0⟩] = [(0,[⟨"a",sampleRef 3,0⟩])] := rfl
  have hcompleted : Completed sampleOutside Postgres.inOrder (shardGroups [⟨"a",sampleRef 3,0⟩]) w₁ [(0,result)] v := by
    rw [hgroups]
    exact .cons hre hbk hspot .nil
  have hrun : (runOnce sampleOutside "w" 300 8).run (lone sampleOutside Postgres.inOrder)
    (sampleLoading.2.setJobs s.jobs) =
      (.ok 1,v.commit) := by
    rw [runOnce, run_bind_of_ok hclaim, if_neg (List.cons_ne_nil _ _), run_bind, run_withConn, processClaimed,
      hcompleted.run]
    rfl
  exact ⟨_,.worked hrequested hclaim hcompleted hv hrun⟩

/-- After an erasure, and before any. -/
theorem storesAgree_iff_sample :
    (∃ w, Operated sampleService w [sampleRef 3] ∧ (StoresAgree sampleService w ↔ [sampleRef 3] = [])) ∧
    Operated sampleService sampleLoading.2 [] ∧ StoresAgree sampleService sampleLoading.2 := by
  obtain ⟨w,h⟩ := sampleService_operated
  exact ⟨⟨w,h,storesAgree_iff h⟩,sampleService_loaded,(storesAgree_iff sampleService_loaded).mpr rfl⟩

/-- After one erasure the table of subjects still lists its subject. -/
theorem not_storesAgree : ¬∀ (D : Deployment) (v : Service D) (w : Lone D) (erased : List Ref), Operated v w erased →
    StoresAgree v w := by
  intro hall
  obtain ⟨w,h⟩ := sampleService_operated
  obtain ⟨routing,hr,hstores⟩ := h.tracked.stores
  obtain ⟨routing',hr',hsame,-⟩ := (hall _ _ _ _ h).agree
  cases hr.symm.trans hr'
  obtain ⟨hmap,hrouting⟩ := hstores.dropped _ (List.mem_singleton_self _)
  exact hrouting ((hsame _).mp hmap)

end Sample

end UnlearnShield.Worker
