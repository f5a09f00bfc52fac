import UnlearnShield.Worker.Jobs

/-! # One worker alone

With a single connection no statement waits, so every operation is answered and a run of
the worker's code is a function of the state. What a statement does is said once here;
the promotions, batches and failures of a lone worker are read off from it.
-/
namespace UnlearnShield.Db.Server
variable {s : Server Unit}

theorem locked_unit (s : Server Unit) (key : RowKey) : s.locked () key = false := by
  unfold locked
  rw [List.any_eq_false]
  intro e _
  simp

@[simp] theorem session_leave (s : Server Unit) (x : Session) : (s.leave () x).session () = x := by
  simp [session, leave]

@[simp] theorem committed_leave (s : Server Unit) (x : Session) : (s.leave () x).committed = s.committed := rfl
@[simp] theorem clock_leave (s : Server Unit) (x : Session) : (s.leave () x).clock = s.clock := rfl
@[simp] theorem statements_leave (s : Server Unit) (x : Session) : (s.leave () x).statements = s.statements + 1 := rfl

@[simp] theorem view_wrote (s : Server Unit) (ws : List Write) : (s.wrote () ws).view () = (s.view ()).writes ws := by
  simp [view, wrote, Database.writes_append]

@[simp] theorem now_wrote (s : Server Unit) (ws : List Write) :
    ((s.wrote () ws).session ()).now = (s.session ()).now := by
  simp [wrote]

@[simp] theorem aborted_wrote (s : Server Unit) (ws : List Write) : ((s.wrote () ws).session ()).aborted = false := by
  simp [wrote]

@[simp] theorem aborted_abort (s : Server Unit) : ((s.abort ()).session ()).aborted = true := by
  simp [abort]

@[simp] theorem now_abort (s : Server Unit) : ((s.abort ()).session ()).now = (s.session ()).now := by
  simp [abort]

@[simp] theorem committed_wrote (s : Server Unit) (ws : List Write) : (s.wrote () ws).committed = s.committed := rfl
@[simp] theorem committed_abort (s : Server Unit) : (s.abort ()).committed = s.committed := rfl
@[simp] theorem clock_wrote (s : Server Unit) (ws : List Write) : (s.wrote () ws).clock = s.clock := rfl
@[simp] theorem clock_abort (s : Server Unit) : (s.abort ()).clock = s.clock := rfl

end UnlearnShield.Db.Server

namespace UnlearnShield.Db

/-- Nothing waits when no row is locked. -/
theorem Sql.effect_ne_waits (pg : Postgres) (n : ℕ) (now : Time) (db : Database) (stmt : Sql) :
    stmt.effect pg n now (fun _ => false) db ≠ .waits := by
  cases stmt <;> simp only [Sql.effect, update, insertNew, foreignKey] <;> (repeat' split) <;> simp_all

end UnlearnShield.Db

namespace UnlearnShield.Worker
open Db Engine Deployment
variable {D : Deployment} {o : Outside D} {pg : Postgres}

abbrev Lone (D : Deployment) := World D Unit

namespace Lone

def view (w : Lone D) : Database := w.server.view ()
def now (w : Lone D) : Time := (w.server.session ()).now
def aborted (w : Lone D) : Bool := (w.server.session ()).aborted

end Lone

abbrev lone (o : Outside D) (pg : Postgres) : Exec (WorkerOp D) WorkerOp.Resp PyErr (Lone D) := exec o pg ()

def effectOf (pg : Postgres) (w : Lone D) (stmt : Sql) : Effect stmt.Answer :=
  stmt.effect pg w.server.statements w.now (fun _ => false) w.view

theorem execute_eq (pg : Postgres) (w : Lone D) (stmt : Sql) : w.server.execute pg () stmt =
    if w.aborted then .ok (.error Server.inFailedTransaction,w.server.abort ())
    else match pg.fails w.server.statements with
      | some message => .ok (raise .databaseError message,w.server.abort ())
      | none => match effectOf pg w stmt with
        | .waits => .error ⟨.databaseError,"waiting for a row lock"⟩
        | .raises e => .ok (.error e,w.server.abort ())
        | .does answer ws => .ok (.ok answer,w.server.wrote () ws) := by
  have hfree : w.server.locked () = fun _ => false := funext fun key => w.server.locked_unit key
  unfold Server.execute effectOf
  rw [hfree]
  rfl

theorem answers_lone (o : Outside D) (pg : Postgres) : Program.Answers (lone o pg) := by
  intro op w
  cases op with
  | file op =>
    unfold lone exec
    dsimp only
    cases fileExec op (w.files ()) with
    | ok p => exact ⟨(.ok p.1,w.setFiles () p.2),rfl⟩
    | error e => exact ⟨(.error e,w),rfl⟩
  | sql stmt =>
    have hw := Sql.effect_ne_waits pg w.server.statements w.now w.view stmt
    unfold lone exec
    dsimp only
    rw [execute_eq]
    split
    · exact ⟨_,rfl⟩
    · split
      · exact ⟨_,rfl⟩
      · cases he : effectOf pg w stmt with
        | waits => exact absurd he hw
        | raises e => exact ⟨_,rfl⟩
        | does answer ws => exact ⟨_,rfl⟩
  | commit => exact ⟨_,rfl⟩
  | rollback => exact ⟨_,rfl⟩
  | «exists» path => exact ⟨_,rfl⟩
  | openCopy shard path => exact ⟨_,rfl⟩
  | finishCopy shard path => exact ⟨_,rfl⟩
  | readLive shard => exact ⟨_,rfl⟩
  | readCopy path => exact ⟨_,rfl⟩
  | readPreproc shard => exact ⟨_,rfl⟩
  | cachedEnsemble key => exact ⟨_,rfl⟩
  | cacheEnsemble key ensemble => exact ⟨_,rfl⟩
  | clock => exact ⟨_,rfl⟩

def World.wrote (w : Lone D) (ws : List Write) : Lone D := {w with server := w.server.wrote () ws}

def World.aborts (w : Lone D) : Lone D := {w with server := w.server.abort ()}

@[simp] theorem view_wrote (w : Lone D) (ws : List Write) : (w.wrote ws).view = w.view.writes ws := Server.view_wrote ..
@[simp] theorem now_wrote (w : Lone D) (ws : List Write) : (w.wrote ws).now = w.now := Server.now_wrote ..
@[simp] theorem aborted_wrote (w : Lone D) (ws : List Write) : (w.wrote ws).aborted = false := Server.aborted_wrote ..
@[simp] theorem aborted_aborts (w : Lone D) : w.aborts.aborted = true := Server.aborted_abort ..
@[simp] theorem now_aborts (w : Lone D) : w.aborts.now = w.now := Server.now_abort ..
@[simp] theorem committed_wrote (w : Lone D) (ws : List Write) :
    (w.wrote ws).server.committed = w.server.committed := rfl
@[simp] theorem committed_aborts (w : Lone D) : w.aborts.server.committed = w.server.committed := rfl

/-- A statement has its effect and is answered, or is answered with an error and aborts the transaction. -/
theorem exec_sql {w w' : Lone D} {stmt : Sql} {r : Py stmt.Answer} (h : lone o pg (.sql stmt) w = .ok (r,w')) :
    (∃ answer ws, w.aborted = false ∧ effectOf pg w stmt = .does answer ws ∧ r = .ok answer ∧ w' = w.wrote ws) ∨
    ∃ e, r = .error e ∧ w' = w.aborts := by
  unfold lone exec at h
  dsimp only at h
  rw [execute_eq] at h
  split at h
  · cases h
    exact Or.inr ⟨_,rfl,rfl⟩
  next ha =>
    split at h
    · cases h
      exact Or.inr ⟨_,rfl,rfl⟩
    · split at h
      · cases h
      · cases h
        exact Or.inr ⟨_,rfl,rfl⟩
      next he =>
        cases h
        exact Or.inl ⟨_,_,by simpa using ha,he,rfl,rfl⟩

theorem run_sql (w : Lone D) (stmt : Sql) : (execute stmt).run (lone o pg) w =
    match w.server.execute pg () stmt with
    | .ok (answer,server) => (answer,{w with server := server})
    | .error e => (.error e,w) := by
  unfold execute
  rw [Program.run]
  unfold lone exec
  dsimp only
  cases w.server.execute pg () stmt with
  | error e => rfl
  | ok p =>
    obtain ⟨answer,server⟩ := p
    cases answer <;> rfl

def Lone.Idle (w : Lone D) : Prop := w.server.sessions.get? () = none

def World.commit (w : Lone D) : Lone D := {w with server := w.server.commit ()}
def World.rollback (w : Lone D) : Lone D := {w with server := w.server.rollback ()}

theorem Lone.Idle.session {w : Lone D} (h : w.Idle) : w.server.session () = ⟨w.server.clock,false,[]⟩ := by
  rw [Server.session, h]
  rfl

theorem Lone.Idle.view {w : Lone D} (h : w.Idle) : w.view = w.server.committed := by
  rw [Lone.view, Server.view, h.session]
  rfl

theorem Lone.Idle.now {w : Lone D} (h : w.Idle) : w.now = w.server.clock := by
  rw [Lone.now, h.session]

theorem Lone.Idle.aborted {w : Lone D} (h : w.Idle) : w.aborted = false := by
  rw [Lone.aborted, h.session]

theorem idle_commit (w : Lone D) : w.commit.Idle := Dict.get?_erase_self ..
theorem idle_rollback (w : Lone D) : w.rollback.Idle := Dict.get?_erase_self ..

theorem committed_commit {w : Lone D} (h : w.aborted = false) : w.commit.server.committed = w.view :=
  if_neg (by rw [show (w.server.session ()).aborted = false from h]; simp)

theorem committed_commit_aborted {w : Lone D} (h : w.aborted = true) : w.commit.server.committed = w.server.committed :=
  if_pos h

/-- `with conn` commits what its body leaves, or rolls it back. -/
theorem run_withConn {α : Type} (body : WorkerM D α) (w : Lone D) :
    (withConn body).run (lone o pg) w = match body.run (lone o pg) w with
      | (.ok a,t) => (.ok a,t.commit)
      | (.error e,t) => (.error e,t.rollback) := by
  rw [withConn, Program.run_bind_of_ok (Program.run_attempt (answers_lone o pg) body w)]
  rcases body.run (lone o pg) w with ⟨_ | _,t⟩ <;> rfl

theorem idle_withConn {α : Type} (body : WorkerM D α) (w : Lone D) : ((withConn body).run (lone o pg) w).2.Idle := by
  rw [run_withConn]
  rcases body.run (lone o pg) w with ⟨_ | _,t⟩
  · exact idle_rollback t
  · exact idle_commit t

theorem run_withConn_eq_ok {α : Type} {body : WorkerM D α} {w w' : Lone D} {a : α} :
    (withConn body).run (lone o pg) w = (.ok a,w') ↔ ∃ t, body.run (lone o pg) w = (.ok a,t) ∧ w' = t.commit := by
  rw [run_withConn]
  rcases body.run (lone o pg) w with ⟨_ | _,t⟩ <;> simp [eq_comm]

/-- A statement is answered with rows written, or with an error and the transaction aborted. -/
theorem run_execute (o : Outside D) (pg : Postgres) (w : Lone D) (stmt : Sql) :
    (∃ answer ws, w.aborted = false ∧ pg.fails w.server.statements = none ∧ effectOf pg w stmt = .does answer ws ∧
      (execute stmt).run (lone o pg) w = (.ok answer,w.wrote ws)) ∨
    ∃ e, (w.aborted = true ∨ pg.fails w.server.statements ≠ none ∨ effectOf pg w stmt = .raises e) ∧
      (execute stmt).run (lone o pg) w = (.error e,w.aborts) := by
  have hw := Sql.effect_ne_waits pg w.server.statements w.now w.view stmt
  rw [run_sql, execute_eq]
  by_cases ha : w.aborted = true
  · right
    exact ⟨Server.inFailedTransaction,Or.inl ha,by rw [if_pos ha]; rfl⟩
  rw [if_neg ha]
  cases hf : pg.fails w.server.statements with
  | some message =>
    right
    exact ⟨⟨.databaseError,message⟩,Or.inr (Or.inl (by simp)),rfl⟩
  | none =>
    cases he : effectOf pg w stmt with
    | waits => exact absurd he hw
    | raises e =>
      right
      exact ⟨e,Or.inr (Or.inr rfl),rfl⟩
    | does answer ws =>
      left
      exact ⟨answer,ws,by simpa using ha,rfl,rfl,rfl⟩

/-- A statement that returns has had its effect. -/
theorem run_execute_eq_ok {w w' : Lone D} {stmt : Sql} {answer : stmt.Answer} :
    (execute stmt).run (lone o pg) w = (.ok answer,w') ↔ w.aborted = false ∧ pg.fails w.server.statements = none ∧
      ∃ ws, effectOf pg w stmt = .does answer ws ∧ w' = w.wrote ws := by
  rcases run_execute o pg w stmt with ⟨a,ws,ha,hf,he,hr⟩ | ⟨e,hcause,hr⟩
  · rw [hr]
    constructor
    · intro h
      obtain ⟨h₁,h₂⟩ := Prod.mk.inj h
      cases h₁
      exact ⟨ha,hf,ws,he,h₂.symm⟩
    · rintro ⟨-,-,ws',he',rfl⟩
      rw [he] at he'
      cases he'
      rfl
  · rw [hr]
    constructor
    · intro h
      exact absurd (Prod.mk.inj h).1 (by simp)
    · rintro ⟨ha,hf,ws,he,-⟩
      rcases hcause with h | h | h
      · rw [ha] at h
        cases h
      · exact absurd hf h
      · rw [he] at h
        cases h

end UnlearnShield.Worker
