import UnlearnShield.Db.Statements
import UnlearnShield.Worker.Alone
import UnlearnShield.Worker.Frames

/-! # One promotion

What a promotion that returns has written, when nobody else writes.
-/
namespace UnlearnShield.Worker
open Db Engine Deployment Program
variable {D : Deployment} {o : Outside D} {pg : Postgres} {w w' : Lone D}

/-- The rows a statement that returned has written are those its transaction now sees. -/
theorem run_execute_ok {stmt : Sql} {answer : stmt.Answer} (h : (execute stmt).run (lone o pg) w = (.ok answer,w')) :
    w.aborted = false ∧ w'.aborted = false ∧ ∃ ws, effectOf pg w stmt = .does answer ws ∧
      w'.view = w.view.writes ws := by
  obtain ⟨ha,-,ws,he,rfl⟩ := run_execute_eq_ok.mp h
  exact ⟨ha,aborted_wrote w ws,ws,he,view_wrote w ws⟩

theorem run_insertCheckpoint {checkpointHash : String} {row : CheckpointRow} {u : Unit}
    (h : (execute (.insertCheckpoint checkpointHash row)).run (lone o pg) w = (.ok u,w')) :
    w'.view = {w.view with checkpoints := w.view.checkpoints.setdefault checkpointHash row} := by
  obtain ⟨-,-,ws,he,hv⟩ := run_execute_ok h
  rw [effectOf, Sql.effect, insertNew_free] at he
  obtain ⟨-,rfl⟩ := Effect.does.inj he
  rw [hv]
  by_cases hp : checkpointHash ∈ w.view.checkpoints <;> simp [hp, Dict.setdefault, Database.write]

theorem run_insertVersion {modelVersion evalSetVersion : String} {shardCheckpoints : Dict String String} {u : Unit}
    (h : (execute (.insertVersion modelVersion shardCheckpoints evalSetVersion)).run (lone o pg) w = (.ok u,w')) :
    w'.view = {w.view with
      versions := w.view.versions.setdefault modelVersion ⟨shardCheckpoints,evalSetVersion,w.now⟩} := by
  obtain ⟨-,-,ws,he,hv⟩ := run_execute_ok h
  rw [effectOf, Sql.effect, insertNew_free] at he
  obtain ⟨-,rfl⟩ := Effect.does.inj he
  rw [hv]
  by_cases hp : modelVersion ∈ w.view.versions <;> simp [hp, Dict.setdefault, Database.write]

theorem run_insertEval {modelVersion : String} {row : EvalRow} {u : Unit}
    (h : (execute (.insertEval modelVersion row)).run (lone o pg) w = (.ok u,w')) :
    w'.view = {w.view with evals := w.view.evals.setdefault modelVersion row} := by
  obtain ⟨-,-,ws,he,hv⟩ := run_execute_ok h
  rw [effectOf, Sql.effect, foreignKey, insertNew_free] at he
  split at he
  · obtain ⟨-,rfl⟩ := Effect.does.inj he
    rw [hv]
    by_cases hp : modelVersion ∈ w.view.evals <;> simp [hp, Dict.setdefault, Database.write]
  · cases he

theorem run_latestVersion {latest : Option (String × VersionRow)}
    (h : (execute .latestVersion).run (lone o pg) w = (.ok latest,w')) : w'.view = w.view ∧ w.view.Latest latest := by
  obtain ⟨-,-,ws,he,hv⟩ := run_execute_ok h
  obtain ⟨rfl,rfl⟩ := Effect.does.inj he
  exact ⟨hv,pg.head?_arrange ..⟩

theorem run_checkpointPaths {hashes : List String} {rows : List (ℕ × String)}
    (h : (execute (.checkpointPaths hashes)).run (lone o pg) w = (.ok rows,w')) :
    w'.view = w.view ∧ rows.Perm (w.view.paths hashes) := by
  obtain ⟨-,-,ws,he,hv⟩ := run_execute_ok h
  obtain ⟨rfl,rfl⟩ := Effect.does.inj he
  exact ⟨hv,pg.perm ..⟩

theorem run_upsertSubjects {entries : List (Ref × RoutingEntry)} {u : Unit}
    (h : (execute (.upsertSubjects entries)).run (lone o pg) w = (.ok u,w')) :
    w'.view = {w.view with subjectShardMap :=
      w.view.subjectShardMap.insertAll (upserted w.view.subjectShardMap entries)} := by
  obtain ⟨-,-,ws,he,hv⟩ := run_execute_ok h
  rw [effectOf, Sql.effect, update_free] at he
  obtain ⟨-,rfl⟩ := Effect.does.inj he
  rw [hv, ← Database.writes_subjects, upserted, List.map_map]
  rfl

/-- A program that sends no statement leaves the transaction as it was. -/
theorem Performs.server {α : Type} {p : WorkerM D α} (h : p.Performs WorkerOp.NoSql) (w : Lone D) :
    (p.run (lone o pg) w).2.server = w.server :=
  h.frame (f := fun w : Lone D => w.server) (fun _ _ _ _ => exec_noSql) w

/-- A program that does not end the transaction leaves its start time and what is committed. -/
theorem Performs.within {α : Type} {p : WorkerM D α} (h : p.Performs WorkerOp.Within) (o : Outside D) (pg : Postgres)
    (w : Lone D) :
    (p.run (lone o pg) w).2.now = w.now ∧ (p.run (lone o pg) w).2.server.committed = w.server.committed := by
  have hop : ∀ (op : WorkerOp D) (w : Lone D) (r : op.Resp) (w' : Lone D), op.Within → lone o pg op w = .ok (r,w') →
      (w'.now,w'.server.committed) = (w.now,w.server.committed) := by
    intro op w r w' hop he
    cases op with
    | sql stmt => rcases exec_sql he with ⟨_,ws,-,-,-,rfl⟩ | ⟨_,-,rfl⟩ <;> simp
    | commit | rollback => exact hop.elim
    | _ =>
      have hs : w'.server = w.server := exec_noSql (by trivial) he
      simp [Lone.now, hs]
  exact Prod.mk.inj (h.frame hop w)

theorem run_recordEval {modelVersion score : String} {shardCheckpoints : Dict String String}
    (h : (recordEval o modelVersion shardCheckpoints).run (lone o pg) w = (.ok score,w')) :
    w'.aborted = false ∧
      w'.view = {w.view with evals := w.view.evals.setdefault modelVersion ⟨score,o.nEval⟩} := by
  obtain ⟨rows,w₁,h₁,h⟩ := run_bind_eq_ok.mp h
  obtain ⟨ensemble,w₂,h₂,h⟩ := run_bind_eq_ok.mp h
  obtain ⟨_,_,h₃,h⟩ := run_bind_eq_ok.mp h
  obtain ⟨-,rfl⟩ := run_lift_eq_ok.mp h₃
  obtain ⟨_,w₄,h₄,h⟩ := run_bind_eq_ok.mp h
  obtain ⟨rfl,rfl⟩ := run_pure_eq_ok.mp h
  have hload : ((loadEnsemble o (shardPaths rows)).run (lone o pg) w₁).2.server = w₁.server :=
    Performs.server ((performs_loadEnsemble _).mono fun _ h => h.copies.noSql) w₁
  rw [h₂] at hload
  have hview : w₂.view = w.view := by
    rw [← (run_checkpointPaths h₁).1]
    exact congrArg (fun s : Server Unit => s.view ()) hload
  refine ⟨(run_execute_ok h₄).2.1,?_⟩
  rw [run_insertEval h₄, hview]

/-- `eval_set_version` is carried forward too. -/
def evalSetVersion (latest : Option (String × VersionRow)) : String :=
  (latest.map fun e => e.2.evalSetVersion).getD "v0"

/-- The rows of a promotion: a checkpoint, a version that carries `latest` forward, and its evaluation. -/
def promoted (o : Outside D) (db : Database) (now : Time) (shard : ℕ) (resultWeights : String)
    (latest : Option (String × VersionRow)) (score : String) : Database :=
  {db with
    checkpoints := db.checkpoints.setdefault resultWeights
      ⟨shard,(D.settings.NUM_SLICES : ℤ) - 1,casPath o resultWeights,D.settings.CODE_DIGEST⟩
    versions := db.versions.setdefault (versionName resultWeights)
      ⟨(carriedForward latest).insert (toString shard) resultWeights,evalSetVersion latest,now⟩
    evals := db.evals.setdefault (versionName resultWeights) ⟨score,o.nEval⟩}

theorem run_promoteArtifact {shard : ℕ} {resultWeights path : String}
    (h : (promoteArtifact o shard resultWeights).run (lone o pg) w = (.ok path,w')) :
    path = casPath o resultWeights ∧ w'.server = w.server := by
  have hserver : ((promoteArtifact o shard resultWeights).run (lone o pg) w).2.server = w.server :=
    Performs.server ((performs_promoteArtifact ..).mono fun _ h => h.noSql) w
  rw [h] at hserver
  refine ⟨?_,hserver⟩
  obtain ⟨present,w₁,-,h⟩ := run_bind_eq_ok.mp h
  split at h
  · exact (run_pure_eq_ok.mp h).1.symm
  · obtain ⟨_,_,-,h⟩ := run_bind_eq_ok.mp h
    exact (run_pure_eq_ok.mp h).1.symm

/-- What a promotion that returns has written. -/
theorem run_promote {shard : ℕ} {resultWeights : String}
    (h : (promote o shard resultWeights).run (lone o pg) w = (.ok (),w')) :
    w'.aborted = false ∧ ∃ latest score, w.view.Latest latest ∧
      w'.view = promoted o w.view w.now shard resultWeights latest score := by
  obtain ⟨path,w₁,h₁,h⟩ := run_bind_eq_ok.mp h
  obtain ⟨rfl,hs⟩ := run_promoteArtifact h₁
  have hv₁ : w₁.view = w.view := congrArg (fun s : Server Unit => s.view ()) hs
  have hn₁ : w₁.now = w.now := congrArg (fun s : Server Unit => (s.session ()).now) hs
  obtain ⟨_,w₂,h₂,h⟩ := run_bind_eq_ok.mp h
  have hv₂ := run_insertCheckpoint h₂
  obtain ⟨latest,w₃,h₃,h⟩ := run_bind_eq_ok.mp h
  obtain ⟨hv₃,hlatest⟩ := run_latestVersion h₃
  obtain ⟨_,w₄,h₄,h⟩ := run_bind_eq_ok.mp h
  have hv₄ := run_insertVersion h₄
  obtain ⟨score,w₅,h₅,h⟩ := run_bind_eq_ok.mp h
  obtain ⟨ha,hv₅⟩ := run_recordEval h₅
  obtain ⟨-,rfl⟩ := run_pure_eq_ok.mp h
  have hn₃ : w₃.now = w.now := by
    obtain ⟨-,-,_,-,rfl⟩ := run_execute_eq_ok.mp h₂
    obtain ⟨-,-,_,-,rfl⟩ := run_execute_eq_ok.mp h₃
    rw [now_wrote, now_wrote, hn₁]
  refine ⟨ha,latest,score,?_,?_⟩
  · rw [hv₂, hv₁] at hlatest
    exact hlatest
  · rw [hv₅, hv₄, hv₃, hv₂, hv₁, hn₃]
    rfl

end UnlearnShield.Worker
