import UnlearnShield.Db.Statements

/-! # Transactions side by side

A statement writes no row that another open transaction has written, inserts no row that
is there, and gives a job a later state of the same request. So what is committed only
grows: manifests, checkpoints, versions, evaluations and checks are never written over, and
a job stays the job it was.
-/
namespace UnlearnShield.Db

/-- The tables whose rows are inserted and not updated. -/
def RowKey.once : RowKey → Bool
  | .subject _ | .job _ => false
  | _ => true

def Database.Has (db : Database) : RowKey → Prop
  | .subject ref => ref ∈ db.subjectShardMap
  | .job erasureId => erasureId ∈ db.jobs
  | .manifest erasureId => erasureId ∈ db.manifests
  | .checkpoint checkpointHash => checkpointHash ∈ db.checkpoints
  | .version modelVersion => modelVersion ∈ db.versions
  | .eval modelVersion => modelVersion ∈ db.evals
  | .check erasureId => erasureId ∈ db.checks

def Write.In (db : Database) : Write → Prop
  | .subject ref entry => db.subjectShardMap.get? ref = some entry
  | .job erasureId row => db.jobs.get? erasureId = some row
  | .manifest erasureId row => db.manifests.get? erasureId = some row
  | .checkpoint checkpointHash row => db.checkpoints.get? checkpointHash = some row
  | .version modelVersion row => db.versions.get? modelVersion = some row
  | .eval modelVersion row => db.evals.get? modelVersion = some row
  | .check erasureId row => db.checks.get? erasureId = some row

theorem Write.In.has {db : Database} {w : Write} (h : w.In db) : db.Has w.key := by
  cases w <;> exact Dict.mem_of_get? h

theorem Database.has_write {db : Database} {w : Write} {key : RowKey} :
    (db.write w).Has key ↔ key = w.key ∨ db.Has key := by
  cases w <;> cases key <;> simp [Database.write, Database.Has, Write.key]

theorem Database.has_writes {db : Database} {ws : List Write} {key : RowKey} :
    (db.writes ws).Has key ↔ (∃ w ∈ ws, w.key = key) ∨ db.Has key := by
  induction ws generalizing db with
  | nil => simp
  | cons w ws ih =>
    rw [Database.writes_cons, ih, Database.has_write, List.exists_mem_cons_iff, eq_comm (a := key), ← or_assoc,
      or_comm (a := ∃ w ∈ ws, w.key = key)]

/-- A write to another row leaves a row as it is. -/
theorem Write.in_write {db : Database} {w w' : Write} (h : w'.key ≠ w.key) : w'.In (db.write w) ↔ w'.In db := by
  cases w <;> cases w' <;> first
    | exact Iff.rfl
    | exact iff_of_eq (congrArg (· = _) (Dict.get?_insert_of_ne (fun he => h (by rw [he]; rfl)) _))

theorem Write.in_writes {db : Database} {ws : List Write} {w : Write} (h : ∀ w' ∈ ws, w'.key ≠ w.key) :
    w.In (db.writes ws) ↔ w.In db := by
  induction ws generalizing db with
  | nil => rfl
  | cons w' ws ih =>
    obtain ⟨hw',hws⟩ := List.forall_mem_cons.mp h
    rw [Database.writes_cons, ih hws, Write.in_write (Ne.symm hw')]

theorem Write.in_or_eq {db : Database} {w w' : Write} (h : w.In (db.write w')) : w.In db ∨ w = w' := by
  cases w <;> cases w' <;> first
    | exact Or.inl h
    | skip
  all_goals
    rw [Write.In, Database.write, Dict.get?_insert] at h
    split at h
    · next heq =>
      rw [heq, Option.some.inj h]
      exact Or.inr rfl
    · exact Or.inl h

/-- A row is as it was or as one of the writes. -/
theorem Write.in_or_mem {db : Database} {ws : List Write} {w : Write} (h : w.In (db.writes ws)) : w.In db ∨ w ∈ ws := by
  induction ws generalizing db with
  | nil => exact Or.inl h
  | cons w' ws ih =>
    rcases ih h with h | h
    · rcases Write.in_or_eq h with h | rfl
      · exact Or.inl h
      · exact Or.inr List.mem_cons_self
    · exact Or.inr (List.mem_cons_of_mem _ h)

def jobWritten (id : Uuid) : List Write → Option Job
  | [] => none
  | .job erasureId job :: ws => (jobWritten id ws).or (if erasureId = id then some job else none)
  | _ :: ws => jobWritten id ws

@[simp] theorem jobWritten_nil (id : Uuid) : jobWritten id [] = none := rfl

theorem jobWritten_cons_job (id erasureId : Uuid) (job : Job) (ws : List Write) :
    jobWritten id (.job erasureId job :: ws) = (jobWritten id ws).or (if erasureId = id then some job else none) := rfl

theorem jobWritten_append (id : Uuid) (ws ws' : List Write) :
    jobWritten id (ws ++ ws') = (jobWritten id ws').or (jobWritten id ws) := by
  induction ws with
  | nil => simp
  | cons w ws ih =>
    rw [List.cons_append]
    cases w with
    | job erasureId job => rw [jobWritten_cons_job, jobWritten_cons_job, ih, Option.or_assoc]
    | _ => exact ih

theorem Database.get?_jobs_writes_eq (db : Database) (ws : List Write) (id : Uuid) :
    (db.writes ws).jobs.get? id = (jobWritten id ws).or (db.jobs.get? id) := by
  induction ws generalizing db with
  | nil => simp
  | cons w ws ih =>
    rw [Database.writes_cons, ih]
    cases w with
    | job erasureId job =>
      rw [jobWritten_cons_job, Option.or_assoc,
        show (db.write (.job erasureId job)).jobs = db.jobs.insert erasureId job from rfl,
        Dict.get?_insert]
      by_cases hid : id = erasureId
      · rw [if_pos hid, if_pos hid.symm, Option.some_or]
      · rw [if_neg hid, if_neg (Ne.symm hid), Option.none_or]
    | _ => rfl

theorem mem_of_jobWritten {id : Uuid} {ws : List Write} {job : Job} (h : jobWritten id ws = some job) :
    .job id job ∈ ws := by
  induction ws with
  | nil => cases h
  | cons w ws ih =>
    cases w with
    | job erasureId job' =>
      rw [jobWritten_cons_job, Option.or_eq_some_iff] at h
      rcases h with h | ⟨-,h⟩
      · exact List.mem_cons_of_mem _ (ih h)
      · split at h
        · next hid =>
          rw [hid, Option.some.inj h]
          exact List.mem_cons_self
        · cases h
    | _ => exact List.mem_cons_of_mem _ (ih h)

theorem jobWritten_eq_none {id : Uuid} {ws : List Write} : jobWritten id ws = none ↔ ∀ job, .job id job ∉ ws := by
  constructor
  · intro h
    induction ws with
    | nil => simp
    | cons w ws ih =>
      intro job hin
      cases w with
      | job erasureId job' =>
        rw [jobWritten_cons_job, Option.or_eq_none_iff] at h
        rcases List.mem_cons.mp hin with heq | hin
        · obtain ⟨rfl,-⟩ := Write.job.inj heq
          simp at h
        · exact ih h.1 job hin
      | _ =>
        rcases List.mem_cons.mp hin with heq | hin
        · cases heq
        · exact ih h job hin
  · intro h
    cases hj : jobWritten id ws with
    | none => rfl
    | some job => exact absurd (mem_of_jobWritten hj) (h job)

structure Job.Continues (job old : Job) : Prop where
  subjectRef : job.subjectRef = old.subjectRef
  reason : job.reason = old.reason
  shard : job.shard = old.shard
  idempotencyKey : job.idempotencyKey = old.idempotencyKey
  slaDeadline : job.slaDeadline = old.slaDeadline
  requestedBy : job.requestedBy = old.requestedBy
  attempts : old.attempts ≤ job.attempts

theorem Job.Continues.refl (job : Job) : job.Continues job := ⟨rfl,rfl,rfl,rfl,rfl,rfl,le_rfl⟩

theorem Job.Continues.trans {x y z : Job} (h : x.Continues y) (h' : y.Continues z) : x.Continues z :=
  ⟨h.subjectRef.trans h'.subjectRef,h.reason.trans h'.reason,h.shard.trans h'.shard,
    h.idempotencyKey.trans h'.idempotencyKey,
    h.slaDeadline.trans h'.slaDeadline,h.requestedBy.trans h'.requestedBy,h'.attempts.trans h.attempts⟩

/-- What a statement may make of a row of the tables it sees. -/
def Write.Extends (db : Database) : Write → Prop
  | .subject .. => True
  | .job erasureId row => ∃ old, db.jobs.get? erasureId = some old ∧ row.Continues old
  | w => ¬db.Has w.key

/-- A statement writes rows that no other transaction has written, and writes over none but jobs and subjects. -/
theorem Sql.extends {stmt : Sql} {pg : Postgres} {n : ℕ} {now : Time} {locked : RowKey → Bool} {db : Database}
    {answer : stmt.Answer} {ws : List Write} (he : stmt.effect pg n now locked db = .does answer ws) :
    ∀ w ∈ ws, locked w.key = false ∧ w.Extends db := by
  intro w hw
  have hnew : ∀ {present : Bool} {write : Write}, insertNew locked present write = .does () ws →
    locked w.key = false := by
    intro present write he
    have hwrite := (insertNew_eq_does he hw).2
    rw [insertNew] at he
    split at he
    · cases he
    · next hfree =>
      rw [hwrite]
      simpa using hfree
  cases stmt with
  | reapExpired | failJobs =>
    obtain ⟨rfl,hfree⟩ := update_eq_does he
    obtain ⟨e,hmem,rfl⟩ := List.mem_map.mp hw
    exact ⟨hfree _ hw,e.2,Dict.get?_eq_some.mpr (List.mem_filter.mp hmem).1,⟨rfl,rfl,rfl,rfl,rfl,rfl,le_rfl⟩⟩
  | finishJob erasureId =>
    obtain ⟨rfl,hfree⟩ := update_eq_does he
    obtain ⟨e,hmem,rfl⟩ := List.mem_map.mp hw
    exact ⟨hfree _ hw,e.2,Dict.get?_eq_some.mpr (List.mem_filter.mp hmem).1,⟨rfl,rfl,rfl,rfl,rfl,rfl,le_rfl⟩⟩
  | claimBatch workerId leaseSeconds limit =>
    obtain ⟨-,rfl⟩ := Effect.does.inj he
    obtain ⟨e,hmem,rfl⟩ := List.mem_map.mp hw
    have hin := (List.perm_insertionSort _ _).mem_iff.mp (List.mem_of_mem_take hmem)
    obtain ⟨hrow,hqueued⟩ := List.mem_filter.mp hin
    have hentry := Dict.get?_eq_some.mpr ((pg.perm n db.jobs.entries).mem_iff.mp hrow)
    exact ⟨by simpa [Write.key] using (of_decide_eq_true hqueued).2,e.2,hentry,⟨rfl,rfl,rfl,rfl,rfl,rfl,Nat.le_succ _⟩⟩
  | insertManifest erasureId row =>
    have heffect := foreignKey_eq_does he
    split at heffect
    · cases heffect
    · next hfree =>
      split at heffect
      · cases heffect
      · next hfresh =>
        obtain ⟨-,rfl⟩ := Effect.does.inj heffect
        rw [List.mem_singleton.mp hw]
        exact ⟨by simpa [Write.key] using hfree,hfresh⟩
  | insertCheckpoint | insertVersion =>
    obtain ⟨hfresh,heq⟩ := insertNew_eq_does he hw
    refine ⟨hnew he,?_⟩
    rw [heq]
    have habsent := of_decide_eq_false hfresh
    exact habsent
  | insertEval | insertCheck =>
    have heffect := foreignKey_eq_does he
    obtain ⟨hfresh,heq⟩ := insertNew_eq_does heffect hw
    refine ⟨hnew heffect,?_⟩
    rw [heq]
    have habsent := of_decide_eq_false hfresh
    exact habsent
  | latestVersion | checkpointPaths =>
    obtain ⟨-,rfl⟩ := Effect.does.inj he
    cases hw
  | upsertSubjects entries =>
    obtain ⟨rfl,hfree⟩ := update_eq_does he
    obtain ⟨e,-,rfl⟩ := List.mem_map.mp hw
    exact ⟨hfree _ hw,trivial⟩

/-- What was inserted is still there as it was, and the jobs are the jobs they were. -/
structure Database.Keeps (db db' : Database) : Prop where
  rows : ∀ w : Write, w.key.once = true → w.In db → w.In db'
  jobs : ∀ id old, db.jobs.get? id = some old → ∃ job, db'.jobs.get? id = some job ∧ job.Continues old

theorem Database.Keeps.refl (db : Database) : db.Keeps db := ⟨fun _ _ h => h,fun _ old h => ⟨old,h,.refl old⟩⟩

theorem Database.Keeps.trans {db db' db'' : Database} (h : db.Keeps db') (h' : db'.Keeps db'') : db.Keeps db'' := by
  refine ⟨fun w hw hin => h'.rows w hw (h.rows w hw hin),fun id old hold => ?_⟩
  obtain ⟨job,hjob,hc⟩ := h.jobs id old hold
  obtain ⟨job',hjob',hc'⟩ := h'.jobs id job hjob
  exact ⟨job',hjob',hc'.trans hc⟩

section Server
variable {ι : Type} [DecidableEq ι]

namespace Server

def writesOf (s : Server ι) (i : ι) : List Write := (s.session i).writes

theorem session_leave_any (s : Server ι) (i j : ι) (session : Session) :
    (s.leave i session).session j = if j = i then session else s.session j := by
  rw [Server.session, leave, Dict.get?_insert]
  split
  · rfl
  · rfl

theorem writesOf_wrote (s : Server ι) (i j : ι) (ws : List Write) :
    (s.wrote i ws).writesOf j = if j = i then s.writesOf i ++ ws else s.writesOf j := by
  rw [writesOf, wrote, session_leave_any]
  split <;> rfl

theorem view_wrote_self (s : Server ι) (i : ι) (ws : List Write) : (s.wrote i ws).view i = (s.view i).writes ws := by
  rw [view, show ((s.wrote i ws).session i).writes = (s.wrote i ws).writesOf i from rfl, writesOf_wrote, if_pos rfl,
    Database.writes_append]
  rfl

theorem writesOf_abort (s : Server ι) (i j : ι) : (s.abort i).writesOf j = if j = i then [] else s.writesOf j := by
  rw [writesOf, abort, session_leave_any]
  split <;> rfl

theorem writesOf_erase (s : Server ι) (i j : ι) (committed : Database) :
    Server.writesOf {s with committed := committed, sessions := s.sessions.erase i} j =
      if j = i then [] else s.writesOf j := by
  rw [writesOf, Server.session]
  by_cases hj : j = i
  · rw [if_pos hj, hj, Dict.get?_erase_self]
    rfl
  · rw [if_neg hj, Dict.get?_erase_of_ne hj]
    rfl

theorem writesOf_commit (s : Server ι) (i j : ι) : (s.commit i).writesOf j = if j = i then [] else s.writesOf j :=
  s.writesOf_erase i j _

theorem writesOf_rollback (s : Server ι) (i j : ι) : (s.rollback i).writesOf j = if j = i then [] else s.writesOf j :=
  s.writesOf_erase i j _

/-- A transaction that ends is dropped, the others are kept. -/
theorem kept_or_dropped {s t : Server ι} {i : ι} (h : ∀ j, t.writesOf j = if j = i then [] else s.writesOf j) (j : ι) :
    t.writesOf j = s.writesOf j ∨ t.writesOf j = [] := by
  rw [h]
  split
  · exact Or.inr rfl
  · exact Or.inl rfl

theorem committed_commit (s : Server ι) (i : ι) :
    (s.commit i).committed = s.committed ∨ (s.commit i).committed = s.committed.writes (s.writesOf i) := by
  rw [commit]
  dsimp only
  split
  · exact Or.inl rfl
  · exact Or.inr rfl

/-- Nobody else has written a row that is not locked. -/
theorem key_ne_of_unlocked {s : Server ι} {i j : ι} {key : RowKey} (h : s.locked i key = false) (hj : j ≠ i) :
    ∀ w ∈ s.writesOf j, w.key ≠ key := by
  intro w hin hkey
  rw [writesOf, Server.session] at hin
  cases hs : s.sessions.get? j with
  | none =>
    rw [hs] at hin
    cases hin
  | some session =>
    rw [hs] at hin
    rw [locked, List.any_eq_false] at h
    refine h _ (Dict.get?_eq_some.mp hs) ?_
    rw [Bool.and_eq_true, List.any_eq_true]
    exact ⟨by simpa using hj,w,hin,by simpa using hkey⟩

inductive Steps (pg : Postgres) (s : Server ι) : Server ι → Prop
  | wrote (i : ι) {stmt : Sql} {answer : stmt.Answer} {ws : List Write} :
      stmt.effect pg s.statements (s.session i).now (s.locked i) (s.view i) = .does answer ws →
        Steps pg s (s.wrote i ws)
  | abort (i : ι) : Steps pg s (s.abort i)
  | commit (i : ι) : Steps pg s (s.commit i)
  | rollback (i : ι) : Steps pg s (s.rollback i)

theorem steps_of_execute {pg : Postgres} {i : ι} {stmt : Sql} {s t : Server ι} {r : Py stmt.Answer}
    (h : s.execute pg i stmt = .ok (r,t)) :
    (∃ answer ws, r = .ok answer ∧ t = s.wrote i ws ∧
      stmt.effect pg s.statements (s.session i).now (s.locked i) (s.view i) = .does answer ws) ∨
    (∃ e, r = .error e) ∧ t = s.abort i := by
  rw [execute] at h
  split at h
  · obtain ⟨rfl,rfl⟩ := Prod.mk.inj (Except.ok.inj h)
    exact Or.inr ⟨⟨_,rfl⟩,rfl⟩
  · split at h
    · obtain ⟨rfl,rfl⟩ := Prod.mk.inj (Except.ok.inj h)
      exact Or.inr ⟨⟨_,rfl⟩,rfl⟩
    · split at h
      · cases h
      · obtain ⟨rfl,rfl⟩ := Prod.mk.inj (Except.ok.inj h)
        exact Or.inr ⟨⟨_,rfl⟩,rfl⟩
      · next answer ws he =>
        obtain ⟨rfl,rfl⟩ := Prod.mk.inj (Except.ok.inj h)
        exact Or.inl ⟨answer,ws,rfl,rfl,he⟩

end Server

structure Locks (s : Server ι) : Prop where
  exclusive : ∀ i j, i ≠ j → ∀ w ∈ s.writesOf i, ∀ w' ∈ s.writesOf j, w.key ≠ w'.key
  fresh : ∀ i, ∀ w ∈ s.writesOf i, w.key.once = true → ¬s.committed.Has w.key
  continues : ∀ i id job, .job id job ∈ s.writesOf i → ∃ old, s.committed.jobs.get? id = some old ∧ job.Continues old

namespace Locks
variable {s t : Server ι}

theorem mono (h : Locks s) (hc : t.committed = s.committed)
    (hw : ∀ j, t.writesOf j = s.writesOf j ∨ t.writesOf j = []) : Locks t := by
  have hin : ∀ j, ∀ w ∈ t.writesOf j, w ∈ s.writesOf j := by
    intro j w hw'
    rcases hw j with heq | heq
    · rwa [heq] at hw'
    · rw [heq] at hw'
      cases hw'
  refine ⟨fun i j hij w hw w' hw' => h.exclusive i j hij w (hin i w hw) w' (hin j w' hw'),fun i w hw => ?_,
    fun i id job hw => ?_⟩
  · rw [hc]
    exact h.fresh i w (hin i w hw)
  · rw [hc]
    exact h.continues i id job (hin i _ hw)

theorem erased (h : Locks s) {i : ι} (hc : t.committed = s.committed)
    (hw : ∀ j, t.writesOf j = if j = i then [] else s.writesOf j) :
    Locks t :=
  h.mono hc (Server.kept_or_dropped hw)

/-- A row a transaction sees is committed or its own. -/
theorem continues_view (h : Locks s) {i : ι} {id : Uuid} {old : Job} (hv : (s.view i).jobs.get? id = some old) :
    ∃ first, s.committed.jobs.get? id = some first ∧ old.Continues first := by
  rw [Server.view, Database.get?_jobs_writes_eq, Option.or_eq_some_iff] at hv
  rcases hv with hv | ⟨-,hv⟩
  · exact h.continues i id old (mem_of_jobWritten hv)
  · exact ⟨old,hv,.refl old⟩

theorem wrote (h : Locks s) {i : ι} {pg : Postgres} {stmt : Sql} {answer : stmt.Answer} {ws : List Write}
    (he : stmt.effect pg s.statements (s.session i).now (s.locked i) (s.view i) = .does answer ws) :
    Locks (s.wrote i ws) := by
  have hlegal := Sql.extends he
  have hin : ∀ j, ∀ w ∈ (s.wrote i ws).writesOf j, w ∈ s.writesOf j ∨ (j = i ∧ w ∈ ws) := by
    intro j w hw
    rw [Server.writesOf_wrote] at hw
    split at hw
    · next hj =>
      rcases List.mem_append.mp hw with hw | hw
      · exact Or.inl (hj ▸ hw)
      · exact Or.inr ⟨hj,hw⟩
    · exact Or.inl hw
  constructor
  · intro j k hjk w hw w' hw'
    rcases hin j w hw with hw | ⟨hj,hw⟩
    · rcases hin k w' hw' with hw' | ⟨hk,hw'⟩
      · exact h.exclusive j k hjk w hw w' hw'
      · exact Server.key_ne_of_unlocked (hlegal w' hw').1 (hk ▸ hjk) w hw
    · rcases hin k w' hw' with hw' | ⟨hk,-⟩
      · exact Ne.symm (Server.key_ne_of_unlocked (hlegal w hw).1 (hj ▸ Ne.symm hjk) w' hw')
      · exact absurd (hj.trans hk.symm) hjk
  · intro j w hw honce hhas
    rcases hin j w hw with hw | ⟨-,hw⟩
    · exact h.fresh j w hw honce hhas
    · have hext := (hlegal w hw).2
      have hview : (s.view i).Has w.key := Database.has_writes.mpr (Or.inr hhas)
      cases w with
      | subject | job => cases honce
      | _ => exact hext hview
  · intro j id job hw
    rcases hin j _ hw with hw | ⟨-,hw⟩
    · exact h.continues j id job hw
    · obtain ⟨old,hold,hcont⟩ := (hlegal _ hw).2
      obtain ⟨first,hfirst,hcont'⟩ := h.continues_view hold
      exact ⟨first,hfirst,hcont.trans hcont'⟩

/-- What a transaction leaves if it commits. -/
theorem keeps (h : Locks s) (i : ι) : s.committed.Keeps (s.committed.writes (s.writesOf i)) := by
  constructor
  · intro w honce hw
    refine (Write.in_writes fun w' hw' heq => ?_).mpr hw
    exact h.fresh i w' hw' (heq ▸ honce) (heq ▸ hw.has)
  · intro id old hold
    rw [Database.get?_jobs_writes_eq]
    cases hj : jobWritten id (s.writesOf i) with
    | none => exact ⟨old,hold,.refl old⟩
    | some job =>
      obtain ⟨old',hold',hcont⟩ := h.continues i id job (mem_of_jobWritten hj)
      rw [hold] at hold'
      exact ⟨job,rfl,Option.some.inj hold' ▸ hcont⟩

theorem commit (h : Locks s) (i : ι) : Locks (s.commit i) ∧ s.committed.Keeps (s.commit i).committed := by
  rcases s.committed_commit i with hc | hc
  · exact ⟨h.erased hc (s.writesOf_commit i),hc ▸ .refl _⟩
  · have hin : ∀ j, ∀ w ∈ (s.commit i).writesOf j, j ≠ i ∧ w ∈ s.writesOf j := by
      intro j w hw
      rw [Server.writesOf_commit] at hw
      split at hw
      · cases hw
      · next hj => exact ⟨hj,hw⟩
    rw [hc]
    refine ⟨⟨?_,?_,?_⟩,h.keeps i⟩
    · exact fun j k hjk w hw w' hw' => h.exclusive j k hjk w (hin j w hw).2 w' (hin k w' hw').2
    · intro j w hw honce
      obtain ⟨hj,hw⟩ := hin j w hw
      rw [hc, Database.has_writes]
      rintro (⟨w',hw',heq⟩ | hhas)
      · exact h.exclusive i j (Ne.symm hj) w' hw' w hw heq
      · exact h.fresh j w hw honce hhas
    · intro j id job hw
      obtain ⟨hj,hw⟩ := hin j _ hw
      have hnone : jobWritten id (s.writesOf i) = none :=
        jobWritten_eq_none.mpr fun job' hw' => h.exclusive i j (Ne.symm hj) _ hw' _ hw rfl
      rw [hc, Database.get?_jobs_writes_eq, hnone, Option.none_or]
      exact h.continues j id job hw

theorem step (h : Locks s) {pg : Postgres} (hs : s.Steps pg t) : Locks t ∧ s.committed.Keeps t.committed := by
  cases hs with
  | wrote i he => exact ⟨h.wrote he,.refl _⟩
  | abort i => exact ⟨h.erased rfl (s.writesOf_abort i),.refl _⟩
  | commit i => exact h.commit i
  | rollback i => exact ⟨h.erased rfl (s.writesOf_rollback i),.refl _⟩

/-- A job is added. -/
theorem queue (h : Locks s) {id : Uuid} {job : Job} (hfresh : id ∉ s.committed.jobs)
    (hc : t.committed = {s.committed with jobs := s.committed.jobs.insert id job})
    (hw : ∀ j, t.writesOf j = s.writesOf j) :
    Locks t ∧ s.committed.Keeps t.committed := by
  have hkept : ∀ id' old, s.committed.jobs.get? id' = some old → t.committed.jobs.get? id' = some old := by
    intro id' old hold
    rw [hc]
    refine (Dict.get?_insert_of_ne ?_ _).trans hold
    rintro rfl
    exact hfresh (Dict.mem_of_get? hold)
  have hwrite : t.committed = s.committed.write (.job id job) := hc
  refine ⟨⟨?_,?_,?_⟩,?_,fun id' old hold => ⟨old,hkept id' old hold,.refl old⟩⟩
  · intro j k hjk
    rw [hw, hw]
    exact h.exclusive j k hjk
  · intro j w hwj honce
    rw [hw] at hwj
    rw [hwrite, Database.has_write]
    rintro (heq | hhas)
    · rw [heq] at honce
      cases honce
    · exact h.fresh j w hwj honce hhas
  · intro j id' job' hwj
    rw [hw] at hwj
    obtain ⟨old,hold,hcont⟩ := h.continues j id' job' hwj
    exact ⟨old,hkept id' old hold,hcont⟩
  · intro w honce hin
    rw [hwrite, Write.in_write]
    · exact hin
    · intro heq
      rw [heq] at honce
      cases honce

end Locks

def VersionRow.Backed (db : Database) (row : VersionRow) : Prop :=
  ∀ h ∈ row.shardCheckpoints.values, db.Has (.checkpoint h)

theorem VersionRow.Backed.mono {db db' : Database} {row : VersionRow} (h : row.Backed db)
    (hmono : ∀ hash, db.Has (.checkpoint hash) → db'.Has (.checkpoint hash)) : row.Backed db' :=
  fun hash hin => hmono hash (h hash hin)

def Database.Backed (db : Database) : Prop := ∀ v row, db.versions.get? v = some row → row.Backed db

/-- Every version names checkpoints that are on record, also for a transaction that has not ended. -/
structure Backed (s : Server ι) : Prop where
  committed : s.committed.Backed
  written : ∀ i v row, .version v row ∈ s.writesOf i → row.Backed (s.view i)

namespace Backed
variable {s t : Server ι}

theorem mono (h : Backed s) (hc : t.committed = s.committed)
    (hw : ∀ j, t.writesOf j = s.writesOf j ∨ t.writesOf j = []) : Backed t := by
  refine ⟨fun v row hrow => ?_,fun j v row hin => ?_⟩
  · rw [hc] at hrow ⊢
    exact h.committed v row hrow
  · rcases hw j with heq | heq
    · rw [heq] at hin
      have hview : t.view j = s.view j := by
        rw [Server.view, Server.view, hc]
        exact congrArg s.committed.writes heq
      rw [hview]
      exact h.written j v row hin
    · rw [heq] at hin
      cases hin

theorem erased (h : Backed s) {i : ι} (hc : t.committed = s.committed)
    (hw : ∀ j, t.writesOf j = if j = i then [] else s.writesOf j) :
    Backed t :=
  h.mono hc (Server.kept_or_dropped hw)

/-- What a transaction sees is backed by what it sees. -/
theorem view (h : Backed s) {i : ι} {v : String} {row : VersionRow} (hrow : (s.view i).versions.get? v = some row) :
    row.Backed (s.view i) := by
  have hin : (Write.version v row).In (s.committed.writes (s.writesOf i)) := hrow
  rcases Write.in_or_mem hin with hin | hin
  · exact (h.committed v row hin).mono fun _ hhas => Database.has_writes.mpr (Or.inr hhas)
  · exact h.written i v row hin

theorem wrote (h : Backed s) {i : ι} {ws : List Write} (hws : ∀ v row, .version v row ∈ ws → row.Backed (s.view i)) :
    Backed (s.wrote i ws) := by
  refine ⟨h.committed,fun j v row hin => ?_⟩
  rw [Server.writesOf_wrote] at hin
  by_cases hj : j = i
  · rw [if_pos hj] at hin
    have hview : (s.wrote i ws).view j = (s.view i).writes ws := hj ▸ s.view_wrote_self i ws
    have hbacked : row.Backed (s.view i) := by
      rcases List.mem_append.mp hin with hin | hin
      · exact h.written i v row hin
      · exact hws v row hin
    rw [hview]
    exact hbacked.mono fun _ hhas => Database.has_writes.mpr (Or.inr hhas)
  · rw [if_neg hj] at hin
    have hview : (s.wrote i ws).view j = s.view j := by
      rw [Server.view, show ((s.wrote i ws).session j).writes = (s.wrote i ws).writesOf j from rfl,
        Server.writesOf_wrote, if_neg hj]
      rfl
    rw [hview]
    exact h.written j v row hin

theorem commit (h : Backed s) (i : ι) : Backed (s.commit i) := by
  rcases s.committed_commit i with hc | hc
  · exact h.erased hc (s.writesOf_commit i)
  · have hgrows : ∀ hash, s.committed.Has (.checkpoint hash) → (s.commit i).committed.Has (.checkpoint hash) := by
      intro hash hhas
      rw [hc]
      exact Database.has_writes.mpr (Or.inr hhas)
    refine ⟨fun v row hrow => ?_,fun j v row hin => ?_⟩
    · rw [hc] at hrow ⊢
      exact h.view (i := i) hrow
    · rw [Server.writesOf_commit] at hin
      split at hin
      · cases hin
      · next hj =>
        refine (h.written j v row hin).mono fun hash hhas => ?_
        have hwrites : ((s.commit i).session j).writes = s.writesOf j := (s.writesOf_commit i j).trans (if_neg hj)
        rw [Server.view, hwrites]
        rcases Database.has_writes.mp hhas with hw | hhas
        · exact Database.has_writes.mpr (Or.inl hw)
        · exact Database.has_writes.mpr (Or.inr (hgrows hash hhas))

/-- Another table may change. -/
theorem add (h : Backed s) {w : Write} (hc : t.committed = s.committed.write w) (hw : ∀ j, t.writesOf j = s.writesOf j)
    (hother : ∀ v row, w ≠ .version v row) : Backed t := by
  have hgrows : ∀ {db : Database} {hash : String}, db.Has (.checkpoint hash) → (db.write w).Has (.checkpoint hash) :=
    fun hhas => Database.has_write.mpr (Or.inr hhas)
  refine ⟨fun v row hrow => ?_,fun j v row hin => ?_⟩
  · rw [hc] at hrow ⊢
    have hin : (Write.version v row).In (s.committed.write w) := hrow
    rcases Write.in_or_eq hin with hin | heq
    · exact (h.committed v row hin).mono fun _ => hgrows
    · exact absurd heq.symm (hother v row)
  · rw [hw] at hin
    refine (h.written j v row hin).mono fun hash hhas => ?_
    rw [Server.view, show (t.session j).writes = s.writesOf j from hw j, hc]
    rcases Database.has_writes.mp hhas with hw | hhas
    · exact Database.has_writes.mpr (Or.inl hw)
    · exact Database.has_writes.mpr (Or.inr (hgrows hhas))

end Backed

end Server

end UnlearnShield.Db
