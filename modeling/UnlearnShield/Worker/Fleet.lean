import UnlearnShield.Library.Contract
import UnlearnShield.Db.Leases
import UnlearnShield.Engine.Shrinking
import UnlearnShield.Gateway.Predict
import UnlearnShield.Worker.Returns

/-! # Workers, loads and servers side by side

Any number of processes on one world, each a worker, a load of the routing table or a
server of predictions, in any interleaving of their operations, with crashes, statements
that fail, time that passes and requests that come in. Each process keeps to what it may
do: it ends only jobs it has claimed, a job only after its manifest, and it records a
checkpoint or a version only when what that names is there, and it reads only copies that
are there.
-/
namespace UnlearnShield.Worker
open Db Engine Deployment Program Relation
variable {D : Deployment} {ι : Type} [DecidableEq ι]

instance : Inhabited PyErr := ⟨⟨.databaseError,""⟩⟩

/-- The world, with the jobs each process holds. No operation reads who holds what. -/
structure Fleet (D : Deployment) (ι : Type) where
  world : World D ι
  held : Held ι

namespace Fleet

def server (s : Fleet D ι) : Server ι := s.world.server

def setServer (s : Fleet D ι) (server : Server ι) (held : Held ι) : Fleet D ι := ⟨{s.world with server := server},held⟩

/-- A commit leaves a process with the jobs it left as processing, a rollback with none. -/
def heldAfter (s : Fleet D ι) (i : ι) : WorkerOp D → Held ι
  | .commit => Function.update s.held i (s.server.claims i)
  | .rollback => Function.update s.held i fun _ => none
  | _ => s.held

def commit (s : Fleet D ι) (i : ι) : Fleet D ι := s.setServer (s.server.commit i) (s.heldAfter i .commit)

def rollback (s : Fleet D ι) (i : ι) : Fleet D ι := s.setServer (s.server.rollback i) (s.heldAfter i .rollback)

def exec (o : Outside D) (pg : Postgres) (i : ι) : Exec (WorkerOp D) WorkerOp.Resp PyErr (Fleet D ι) := fun op s =>
  match Worker.exec o pg i op s.world with
  | .ok (r,w) => .ok (r,⟨w,s.heldAfter i op⟩)
  | .error e => .error e

/-- Time passes, and a request that is accepted adds a job. -/
inductive Meanwhile (s : Fleet D ι) : Fleet D ι → Prop
  | tick (clock : Time) : Meanwhile s (s.setServer {s.server with clock := clock} s.held)
  | request (erasureId : Uuid) (job : Job) : erasureId ∉ s.server.committed.jobs → job.status = .queued →
      Meanwhile s (s.setServer {s.server with committed := s.server.committed.write (.job erasureId job)} s.held)

end Fleet

/-- The transaction of a process that goes away is rolled back. -/
def fleet (o : Outside D) (pg : Postgres) : Machine ι (WorkerOp D) WorkerOp.Resp PyErr (Fleet D ι) where
  exec := Fleet.exec o pg
  crash := fun i s => s.rollback i
  env := Fleet.Meanwhile

section Programs
variable (o : Outside D)

/-- The loop of `main` of a worker, `cycles` times round. -/
def workerLoop (workerId : String) (LEASE_SECONDS POLL_BATCH_SIZE : ℕ) : ℕ → WorkerM D Unit
  | 0 => Pure.pure ()
  | cycles + 1 => do
    let _ ← runOnce o workerId LEASE_SECONDS POLL_BATCH_SIZE
    workerLoop workerId LEASE_SECONDS POLL_BATCH_SIZE cycles

/-- Predictions served one after the other; an exception is one response. -/
def serveLoop : ℕ → WorkerM D Unit
  | 0 => Pure.pure ()
  | requests + 1 => do
    let _ ← (Gateway.servedEnsemble o).attempt
    serveLoop requests

inductive Role
  | worker (workerId : String) (cycles : ℕ)
  | loader
  | gateway (requests : ℕ)

def Role.program (LEASE_SECONDS POLL_BATCH_SIZE : ℕ) : Role → WorkerM D Unit
  | .worker workerId cycles => workerLoop o workerId LEASE_SECONDS POLL_BATCH_SIZE cycles
  | .loader => loadRoutingScript o
  | .gateway requests => serveLoop o requests

def Sql.Serves : Sql → Prop
  | .reapExpired | .claimBatch .. | .failJobs .. | .finishJob _ | .insertManifest .. | .insertCheck .. => False
  | _ => True

def WorkerOp.Serves : WorkerOp D → Prop
  | .file op => FileOp.Leaves op
  | .sql stmt => Sql.Serves stmt
  | _ => True

theorem WorkerOp.Promotes.serves {op : WorkerOp D} (h : op.Promotes) : op.Serves := by
  cases op with
  | file op => exact h.elim
  | sql stmt => cases stmt <;> first | exact trivial | cases h
  | _ => trivial

theorem performs_withConn {α : Type} {P : WorkerOp D → Prop} {body : WorkerM D α} (h : body.Performs P)
    (hcommit : P .commit) (hrollback : P .rollback) : (withConn body).Performs P := by
  refine h.attempt.bind fun outcome => ?_
  cases outcome with
  | ok a => exact ⟨hcommit,fun _ => trivial⟩
  | error e => exact ⟨hrollback,fun _ => trivial⟩

theorem performs_loadRoutingScript : (loadRoutingScript o).Performs WorkerOp.Serves := by
  have hload : (onFiles (Engine.loadRouting (D := D))).Performs WorkerOp.Serves := by
    unfold onFiles Engine.loadRouting Program.embed
    refine ⟨trivial,fun r => ?_⟩
    cases r <;> trivial
  have hlive : ∀ recorded shards, (recordLive o recorded shards).Performs WorkerOp.Serves :=
    performs_recordLive_of (fun _ => trivial) (fun _ => trivial) (fun _ _ => trivial) (fun _ _ => trivial)
      fun _ _ => trivial
  refine hload.bind fun routing => performs_withConn ?_ trivial trivial
  refine (performs_execute _ trivial).bind fun _ => (hlive _ _).bind fun recorded =>
    (performs_execute _ trivial).bind fun _ => ?_
  exact ((performs_recordEval ..).mono fun _ h => h.serves).bind fun _ => performs_pure _

section Serving
variable {P : WorkerOp D → Prop} (hlatest : P (.sql .latestVersion))
  (hpaths : ∀ hashes, P (.sql (.checkpointPaths hashes)))
include hlatest hpaths

theorem performs_currentModel : (Gateway.currentModel : WorkerM D _).Performs P := by
  refine (performs_execute _ hlatest).bind fun latest => ?_
  cases latest with
  | none => exact performs_lift _
  | some e =>
    refine (performs_execute _ (hpaths _)).bind fun rows => ?_
    dsimp only
    split
    · exact performs_pure _
    · exact performs_lift _

variable (hrollback : P .rollback) (hreads : ∀ op : WorkerOp D, op.Reads → P op)
include hrollback hreads

/-- Serving reads, and rolls back. -/
theorem performs_serving : (Gateway.servedEnsemble o).Performs P := by
  have hcurrent : (Gateway.currentModel : WorkerM D _).Performs P := performs_currentModel hlatest hpaths
  refine hcurrent.attempt.bind fun current => ?_
  cases current with
  | error e => exact ⟨hrollback,fun _ => trivial⟩
  | ok served =>
    refine Performs.bind ⟨hrollback,fun _ => trivial⟩ fun _ => ?_
    exact ((performs_loadEnsemble _).mono hreads).bind fun _ => performs_pure _

theorem performs_serveLoop_of (requests : ℕ) : (serveLoop o requests).Performs P := by
  induction requests with
  | zero => exact performs_pure _
  | succ requests ih => exact (performs_serving o hlatest hpaths hrollback hreads).attempt.bind fun _ => ih

end Serving

theorem performs_serveLoop (requests : ℕ) : (serveLoop o requests).Performs WorkerOp.Serves :=
  performs_serveLoop_of o trivial (fun _ => trivial) trivial (fun _ h => h.copies.promotes.serves) requests

end Programs

def Names (row : ManifestRow) (ref : Ref) : Prop :=
  (PyVal.dict row.manifestJson).subscript "subject_ref" = .ok (.str ref.val.hex)

def Closed (ws : List Write) : Prop := ∀ id row, .manifest id row ∈ ws → ∃ job, jobWritten id ws = some job ∧
    job.status = .done

namespace Fleet

def Allowed (o : Outside D) (i : ι) : WorkerOp D → Fleet D ι → Prop
  | .sql (.failJobs _ erasureIds), s => ∀ id ∈ erasureIds, s.held i id ≠ none
  | .sql (.finishJob erasureId), s => s.held i erasureId ≠ none ∧ ∃ row, .manifest erasureId row ∈ s.server.writesOf i
  | .sql (.insertManifest erasureId row), s => ∃ job, s.held i erasureId = some job ∧ Names row job.subjectRef
  | .sql (.insertCheckpoint checkpointHash row), s =>
    row.filePath = casPath o checkpointHash ∧ row.filePath ∈ s.world.cas
  | .sql (.insertVersion _ shardCheckpoints _), s =>
    ∀ h ∈ shardCheckpoints.values, (s.server.view i).Has (.checkpoint h)
  | .commit, s => Closed (s.server.writesOf i)
  | .readCopy path, s => path ∈ s.world.cas
  | _, _ => True

def own (s : Fleet D ι) (i : ι) : Bool × List Write × (Uuid → Option Job) :=
  ((s.server.session i).aborted,s.server.writesOf i,s.held i)

structure Rely (i : ι) (s t : Fleet D ι) : Prop where
  own : t.own i = s.own i
  rows : ∀ key, s.server.committed.Has key → t.server.committed.Has key
  cas : ∀ path ∈ s.world.cas, path ∈ t.world.cas

variable {o : Outside D} {pg : Postgres} {i j : ι} {s t : Fleet D ι}

theorem exec_eq_ok {op : WorkerOp D} {r : op.Resp} :
    exec o pg i op s = .ok (r,t) ↔ Worker.exec o pg i op s.world = .ok (r,t.world) ∧ t.held = s.heldAfter i op := by
  obtain ⟨w,held⟩ := t
  rw [exec]
  cases Worker.exec o pg i op s.world with
  | error e => simp
  | ok p => simp [Prod.ext_iff, and_assoc, eq_comm]

/-- A statement returns with its writes, or raises and aborts the transaction. -/
theorem exec_sql {stmt : Sql} {r : Py stmt.Answer} (h : exec o pg i (.sql stmt) s = .ok (r,t)) :
    (∃ answer ws, r = .ok answer ∧ t = s.setServer (s.server.wrote i ws) s.held ∧
      stmt.effect pg s.server.statements (s.server.session i).now (s.server.locked i) (s.server.view i) =
        .does answer ws) ∨
    (∃ e, r = .error e) ∧ t = s.setServer (s.server.abort i) s.held := by
  obtain ⟨h,hheld⟩ := exec_eq_ok.mp h
  rw [Worker.exec] at h
  cases he : s.world.server.execute pg i stmt with
  | error e =>
    rw [he] at h
    cases h
  | ok p =>
    rw [he] at h
    obtain ⟨rfl,hw⟩ := Prod.mk.inj (Except.ok.inj h)
    obtain ⟨w,held⟩ := t
    obtain rfl : held = s.held := hheld
    obtain rfl : _ = w := hw
    rcases Server.steps_of_execute he with ⟨answer,ws,hr,hs,heffect⟩ | ⟨hr,hs⟩
    · exact Or.inl ⟨answer,ws,hr,by rw [hs]; rfl,heffect⟩
    · exact Or.inr ⟨hr,by rw [hs]; rfl⟩

theorem exec_noSql {op : WorkerOp D} {r : op.Resp} (hop : op.NoSql) (h : exec o pg i op s = .ok (r,t)) :
    t.server = s.server ∧ t.held = s.held := by
  obtain ⟨h,hheld⟩ := exec_eq_ok.mp h
  refine ⟨Worker.exec_noSql hop h,hheld.trans ?_⟩
  cases op with
  | commit | rollback => exact hop.elim
  | _ => rfl

theorem exec_commit {r : Unit} (h : exec o pg i .commit s = .ok (r,t)) :
    t = s.commit i := by
  obtain ⟨-,ht⟩ := Prod.mk.inj (Except.ok.inj h)
  exact ht.symm

theorem exec_rollback {r : Unit} (h : exec o pg i .rollback s = .ok (r,t)) :
    t = s.rollback i := by
  obtain ⟨-,ht⟩ := Prod.mk.inj (Except.ok.inj h)
  exact ht.symm

/-- After a commit a process holds what it claimed, and the others what they held. -/
theorem held_commit {id : Uuid} {job : Job} (h : (s.commit i).held j id = some job) :
    s.held j id = some job ∨ j = i ∧ s.server.claims i id = some job := by
  by_cases hj : j = i
  · subst hj
    exact Or.inr ⟨rfl,(congrFun (Function.update_self ..) id).symm.trans h⟩
  · exact Or.inl ((congrFun (Function.update_of_ne hj _ _) id).symm.trans h)

theorem held_rollback {id : Uuid} {job : Job} (h : (s.rollback i).held j id = some job) : s.held j id = some job := by
  by_cases hj : j = i
  · subst hj
    cases (congrFun (Function.update_self ..) id).symm.trans h
  · exact (congrFun (Function.update_of_ne hj _ _) id).symm.trans h

/-- Copies stay. -/
theorem exec_cas {op : WorkerOp D} {r : op.Resp} (h : exec o pg i op s = .ok (r,t)) :
    ∀ path ∈ s.world.cas, path ∈ t.world.cas := by
  obtain ⟨h,-⟩ := exec_eq_ok.mp h
  intro path hpath
  cases op with
  | openCopy shard path' | finishCopy shard path' =>
    obtain ⟨-,hw⟩ := Prod.mk.inj (Except.ok.inj h)
    rw [← hw]
    split
    · exact Dict.mem_insert.mpr (Or.inr hpath)
    · exact hpath
  | _ =>
    rw [exec_noCopy (by trivial) h]
    exact hpath

theorem own_setServer {server : Server ι} {held : Held ι} (hsession : server.session j = s.server.session j)
    (hheld : held j = s.held j) :
    (s.setServer server held).own j = s.own j :=
  Prod.ext (congrArg Session.aborted hsession) (Prod.ext (congrArg Session.writes hsession) hheld)

/-- A statement of one is nothing to the others. -/
theorem own_leave {session : Session} (hj : j ≠ i) :
    (s.setServer (s.server.leave i session) s.held).own j = s.own j := by
  refine own_setServer ?_ rfl
  rw [Server.session_leave_any, if_neg hj]

/-- Nor is the end of a transaction. -/
theorem own_erase {committed : Database} {mine : Uuid → Option Job} (hj : j ≠ i) :
    (s.setServer {s.server with committed := committed, sessions := s.server.sessions.erase i}
      (Function.update s.held i mine)).own j =
      s.own j := by
  refine own_setServer ?_ (Function.update_of_ne hj _ _)
  rw [Server.session, Dict.get?_erase_of_ne hj]
  rfl

theorem own_meanwhile (h : s.Meanwhile t) (j : ι) : t.own j = s.own j := by
  cases h with
  | tick clock =>
    rw [own, own, Server.writesOf, Server.writesOf, Server.session, Server.session]
    cases hs : s.server.sessions.get? j <;> simp [setServer, server] at hs ⊢ <;> simp [hs]
  | request => rfl

inductive Moves (pg : Postgres) (may : ι → WorkerOp D → Fleet D ι → Prop) (s : Fleet D ι) : Fleet D ι → Prop
  | wrote (i : ι) {stmt : Sql} {answer : stmt.Answer} {ws : List Write} : may i (.sql stmt) s →
      stmt.effect pg s.server.statements (s.server.session i).now (s.server.locked i) (s.server.view i) =
        .does answer ws →
      Moves pg may s (s.setServer (s.server.wrote i ws) s.held)
  | abort (i : ι) : Moves pg may s (s.setServer (s.server.abort i) s.held)
  | commit (i : ι) : may i .commit s → Moves pg may s (s.commit i)
  | rollback (i : ι) : Moves pg may s (s.rollback i)
  | elsewhere {t : Fleet D ι} : t.server = s.server → t.held = s.held → (∀ path ∈ s.world.cas, path ∈ t.world.cas) →
    Moves pg may s t
  | meanwhile {t : Fleet D ι} : s.Meanwhile t → Moves pg may s t

/-- What an operation that may be performed does. -/
theorem moves_of_exec {op : WorkerOp D} {r : op.Resp} {may : ι → WorkerOp D → Fleet D ι → Prop} (hmay : may i op s)
    (he : Fleet.exec o pg i op s = .ok (r,t)) : s.Moves pg may t := by
  cases op with
  | sql stmt =>
    rcases exec_sql he with ⟨answer,ws,rfl,rfl,heffect⟩ | ⟨-,rfl⟩
    · exact .wrote i hmay heffect
    · exact .abort i
  | commit =>
    rw [exec_commit he]
    exact .commit i hmay
  | rollback =>
    rw [exec_rollback he]
    exact .rollback i
  | _ =>
    obtain ⟨hserver,hheld⟩ := exec_noSql (by trivial) he
    exact .elsewhere hserver hheld (exec_cas he)

/-- The checkpoints on record are at the paths of their digests, and the files are there. -/
def OnRecord (o : Outside D) (checkpoints : Dict String CheckpointRow) (cas : Dict String (Artifact D)) : Prop :=
  ∀ h row, checkpoints.get? h = some row → row.filePath = casPath o h ∧ row.filePath ∈ cas

structure Filed (o : Outside D) (s : Fleet D ι) : Prop where
  committed : OnRecord o s.server.committed.checkpoints s.world.cas
  written : ∀ i h row, .checkpoint h row ∈ s.server.writesOf i → row.filePath = casPath o h ∧ row.filePath ∈ s.world.cas

namespace Filed

theorem keeps (h : Filed o s) (hcas : ∀ path ∈ s.world.cas, path ∈ t.world.cas)
    (hw : ∀ j, t.server.writesOf j = s.server.writesOf j ∨ t.server.writesOf j = [])
    (hc : ∀ h row, t.server.committed.checkpoints.get? h = some row → s.server.committed.checkpoints.get? h = some row ∨
      ∃ i, .checkpoint h row ∈ s.server.writesOf i) : Filed o t := by
  refine ⟨fun hash row hrow => ?_,fun i hash row hin => ?_⟩
  · rcases hc hash row hrow with hold | ⟨i,hin⟩
    · exact (h.committed hash row hold).imp_right (hcas _)
    · exact (h.written i hash row hin).imp_right (hcas _)
  · rcases hw i with heq | heq
    · exact (h.written i hash row (heq ▸ hin)).imp_right (hcas _)
    · rw [heq] at hin
      cases hin

theorem step (h : Filed o s) (hm : s.Moves pg (fun i op s => s.Allowed o i op) t) : Filed o t := by
  cases hm with
  | @wrote i stmt answer ws hmay heffect =>
    refine ⟨h.committed,fun j hash row hin => ?_⟩
    have hwrites := s.server.writesOf_wrote i j ws
    have hin' : .checkpoint hash row ∈ if j = i then s.server.writesOf i ++ ws else s.server.writesOf j := hwrites ▸ hin
    split at hin'
    · rcases List.mem_append.mp hin' with hold | hnew
      · exact h.written i hash row hold
      · obtain ⟨rfl,-⟩ := Sql.wrote heffect _ hnew
        exact hmay
    · exact h.written j hash row hin'
  | abort i =>
    exact h.keeps (fun _ h => h) (Server.kept_or_dropped (s.server.writesOf_abort i)) fun _ _ hrow => Or.inl hrow
  | commit i _ =>
    refine h.keeps (fun _ h => h) (Server.kept_or_dropped (s.server.writesOf_commit i)) fun hash row hrow => ?_
    have hin : (Write.checkpoint hash row).In (s.server.commit i).committed := hrow
    rcases s.server.committed_commit i with hc | hc
    · rw [hc] at hin
      exact Or.inl hin
    · rw [hc] at hin
      exact (Write.in_or_mem hin).imp_right fun hin => ⟨i,hin⟩
  | rollback i =>
    exact h.keeps (fun _ h => h) (Server.kept_or_dropped (s.server.writesOf_rollback i)) fun _ _ hrow => Or.inl hrow
  | elsewhere hserver _ hcas =>
    exact h.keeps hcas (fun j => Or.inl (by rw [hserver])) fun _ _ hrow => Or.inl (hserver ▸ hrow)
  | meanwhile he =>
    have hw : ∀ j, t.server.writesOf j = s.server.writesOf j :=
      fun j => (Prod.ext_iff.mp (Prod.ext_iff.mp (own_meanwhile he j)).2).1
    cases he with
    | tick clock => exact h.keeps (fun _ h => h) (fun j => Or.inl (hw j)) fun _ _ hrow => Or.inl hrow
    | request => exact h.keeps (fun _ h => h) (fun j => Or.inl (hw j)) fun _ _ hrow => Or.inl hrow

end Filed

theorem backed_step (h : Backed s.server) (hm : s.Moves pg (fun i op s => s.Allowed o i op) t) : Backed t.server := by
  cases hm with
  | wrote i hmay heffect =>
    refine h.wrote fun v row hin => ?_
    obtain ⟨map,eval,rfl,rfl,-⟩ := Sql.wrote heffect _ hin
    exact hmay
  | abort i => exact h.erased rfl (s.server.writesOf_abort i)
  | commit i _ => exact h.commit i
  | rollback i => exact h.erased rfl (s.server.writesOf_rollback i)
  | elsewhere hserver _ _ => exact hserver ▸ h
  | meanwhile he =>
    have hw : ∀ j, t.server.writesOf j = s.server.writesOf j :=
      fun j => (Prod.ext_iff.mp (Prod.ext_iff.mp (own_meanwhile he j)).2).1
    cases he with
    | tick clock => exact h.mono rfl fun j => Or.inl (hw j)
    | request erasureId job _ _ => exact Backed.add (w := .job erasureId job) h rfl hw fun v row heq => by cases heq

structure Consistent (o : Outside D) (s : Fleet D ι) : Prop where
  backed : Backed s.server
  filed : Filed o s

theorem Consistent.step (h : Consistent o s) (hm : s.Moves pg (fun i op s => s.Allowed o i op) t) : Consistent o t :=
  ⟨backed_step h.backed hm,h.filed.step hm⟩

/-- What a process does is nothing to what the others have of their own. -/
theorem own_exec {op : WorkerOp D} {r : op.Resp} (he : exec o pg i op s = .ok (r,t)) (hj : j ≠ i) :
    t.own j = s.own j := by
  cases op with
  | sql stmt =>
    rcases exec_sql he with ⟨answer,ws,rfl,rfl,-⟩ | ⟨-,rfl⟩
    · exact own_leave hj
    · exact own_leave hj
  | commit =>
    obtain rfl := exec_commit he
    exact own_erase hj
  | rollback =>
    obtain rfl := exec_rollback he
    exact own_erase hj
  | _ =>
    obtain ⟨hs,hheld⟩ := exec_noSql (by trivial) he
    rw [own, own, hs, hheld]

/-- What a process does keeps what the others rely on, and what it does where it may keeps the fleet consistent. -/
theorem respects (o : Outside D) (pg : Postgres) :
    (fleet o pg : Machine ι _ _ _ _).Respects (Consistent o) Rely (fun i op s => s.Allowed o i op) := by
  constructor
  · intro i op s r t hI hmay h
    have he : exec o pg i op s = .ok (r,t) := h
    have hmoves : s.Moves pg (fun i op s => s.Allowed o i op) t := moves_of_exec hmay he
    refine ⟨hI.step hmoves,fun j hj => ⟨own_exec he hj,fun key hhas => ?_,exec_cas he⟩⟩
    cases op with
    | sql stmt =>
      rcases exec_sql he with ⟨answer,ws,rfl,rfl,-⟩ | ⟨-,rfl⟩
      · exact hhas
      · exact hhas
    | commit =>
      obtain rfl := exec_commit he
      rcases s.server.committed_commit i with hc | hc
      · exact hc ▸ hhas
      · exact hc ▸ Database.has_writes.mpr (Or.inr hhas)
    | rollback =>
      obtain rfl := exec_rollback he
      exact hhas
    | _ =>
      obtain ⟨hs,-⟩ := exec_noSql (by trivial) he
      exact hs ▸ hhas
  · intro i s hI
    have hmoves : s.Moves pg (fun i op s => s.Allowed o i op) (s.rollback i) := .rollback i
    exact ⟨hI.step hmoves,fun j hj => ⟨own_erase hj,fun _ h => h,fun _ h => h⟩⟩
  · intro s t hI he
    have hown := own_meanwhile he
    have hmoves : s.Moves pg (fun i op s => s.Allowed o i op) t := .meanwhile he
    refine ⟨hI.step hmoves,fun j => ⟨hown j,fun key hhas => ?_,?_⟩⟩
    · cases he with
      | tick clock => exact hhas
      | request erasureId job _ _ => exact Database.has_write.mpr (Or.inr hhas)
    · cases he with
      | tick clock => exact fun _ h => h
      | request erasureId job _ _ => exact fun _ h => h

end Fleet

end UnlearnShield.Worker
