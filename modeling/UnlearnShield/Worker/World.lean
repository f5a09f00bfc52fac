import UnlearnShield.Library.Effects
import UnlearnShield.Db.Server
import UnlearnShield.Engine.Active

/-! # What a worker works on

The shard and model files, the content-addressed copies of models, the database server,
and what each process has cached: its trees and its ensembles. Each operation answers with
a value or an exception.
-/
namespace UnlearnShield.Worker
open Db Engine Deployment

/-- The content of a content-addressed file. `unfinished` is a copy that was begun and not completed. -/
inductive Artifact (D : Deployment)
  | weights (weights : D.Weights)
  | booster (booster : D.Booster)
  | unfinished

/-- `ShardEnsemble`, each model with the text its preprocessor was read from, or `GBDTEnsemble`. -/
inductive Ensemble (D : Deployment)
  | shards (models : List (D.Weights × String))
  | boosters (models : List D.Booster)

/-- Whether the key starts with `"gbdt"`, and the sorted items of `shard_paths`. -/
abbrev EnsembleKey := Bool × List (String × String)

structure World (D : Deployment) (ι : Type) where
  disk : Disk D
  cas : Dict String (Artifact D)
  server : Server ι
  caches : ι → Smt.TreeCache D.H
  ensembles : ι → Dict EnsembleKey (Ensemble D)

/-- What the worker takes from outside the modelled code. -/
structure Outside (D : Deployment) where
  engine : ModelEngine
  CHECKPOINT_DIR : String
  /-- `_should_spot_check`, a keyed hash of the id against a rate. -/
  shouldSpotCheck : Uuid → Bool
  /-- Score the evaluation rows and take the area under the curve. -/
  score : Ensemble D → Py String
  nEval : ℕ
  /-- `_file_hash` of a file with this content. -/
  fileHash : Artifact D → String
  /-- `datetime.now` at the start and the end of a rebuild. -/
  clock : ℕ → Clock

inductive WorkerOp (D : Deployment)
  | file (op : FileOp D)
  | sql (stmt : Sql)
  | commit
  | rollback
  | exists (path : String)
  | openCopy (shard : ℕ) (path : String)
  | finishCopy (shard : ℕ) (path : String)
  | readLive (shard : ℕ)
  | readCopy (path : String)
  | readPreproc (shard : String)
  | cachedEnsemble (key : EnsembleKey)
  | cacheEnsemble (key : EnsembleKey) (ensemble : Ensemble D)
  | clock

variable {D : Deployment}

abbrev WorkerOp.Resp : WorkerOp D → Type
  | .file op => Py op.Resp
  | .sql stmt => Py stmt.Answer
  | .exists _ => Bool
  | .openCopy .. => Py Unit
  | .finishCopy .. => Py Unit
  | .readLive _ => Py (Artifact D)
  | .readCopy _ => Py (Artifact D)
  | .readPreproc _ => Py String
  | .cachedEnsemble _ => Option (Ensemble D)
  | .cacheEnsemble .. => Ensemble D
  | .clock => Clock
  | _ => Unit

abbrev WorkerM (D : Deployment) := Program (WorkerOp D) WorkerOp.Resp PyErr

/-- The model file at the shard's conventional path. -/
def liveModel (engine : ModelEngine) (d : Disk D) (shard : ℕ) : Option (Artifact D) :=
  match engine with
  | .mlp _ => (d.checkpoints shard (D.settings.NUM_SLICES - 1)).map .weights
  | .gbdt _ => (d.boosters shard).map .booster

variable {ι : Type} [DecidableEq ι]

namespace World

def files (w : World D ι) (i : ι) : Process D := (w.disk,w.caches i)

def setFiles (w : World D ι) (i : ι) (s : Process D) : World D ι :=
  {w with disk := s.1, caches := Function.update w.caches i s.2}

@[simp] theorem files_setFiles (w : World D ι) (i : ι) (s : Process D) : (w.setFiles i s).files i = s := by
  simp [files, setFiles]

@[simp] theorem setFiles_setFiles (w : World D ι) (i : ι) (s t : Process D) :
    (w.setFiles i s).setFiles i t = w.setFiles i t := by
  simp [setFiles]

@[simp] theorem setFiles_files (w : World D ι) (i : ι) : w.setFiles i (w.files i) = w := by
  simp [setFiles, files]

end World

variable (o : Outside D)

def found {α : Type} (path : String) : Option α → Py α
  | some a => .ok a
  | none => raise .fileNotFoundError s!"[Errno 2] No such file or directory: '{path}'"

def livePath (shard : ℕ) : String :=
  match o.engine with
  | .mlp _ => s!"shard{shard}_slice{D.settings.NUM_SLICES - 1}.pt"
  | .gbdt _ => s!"shard{shard}_gbdt.json"

/-- Copy the live model, or what a copy holds until it is completed. -/
def copied (shard : ℕ) (path : String) (content : Artifact D → Artifact D) (w : World D ι) : Py Unit × World D ι :=
  match liveModel o.engine w.disk shard with
  | some artifact => (.ok (),{w with cas := w.cas.insert path (content artifact)})
  | none => (found (livePath o shard) none,w)

/-- The shards of a deployment are named by numbers. -/
def preprocOf (d : Disk D) (shard : String) : Option String :=
  match PyInt.ofString shard with
  | some (.ofNat k) => if toString k = shard then d.preproc k else none
  | _ => none

/-- `_cache.setdefault(key, ensemble)`. -/
def World.cacheEnsemble (w : World D ι) (i : ι) (key : EnsembleKey) (ensemble : Ensemble D) : World D ι :=
  if key ∈ w.ensembles i then w
  else {w with ensembles := Function.update w.ensembles i ((w.ensembles i).insert key ensemble)}

def exec (pg : Postgres) (i : ι) : Exec (WorkerOp D) WorkerOp.Resp PyErr (World D ι)
  | .file op, w =>
    match fileExec op (w.files i) with
    | .ok (r,s) => .ok (.ok r,w.setFiles i s)
    | .error e => .ok (.error e,w)
  | .sql stmt, w => (w.server.execute pg i stmt).map fun p => (p.1,{w with server := p.2})
  | .commit, w => .ok ((),{w with server := w.server.commit i})
  | .rollback, w => .ok ((),{w with server := w.server.rollback i})
  | .exists path, w => .ok (decide (path ∈ w.cas),w)
  -- Both files are opened first; the target is then empty.
  | .openCopy shard path, w => .ok (copied o shard path (fun _ => .unfinished) w)
  | .finishCopy shard path, w => .ok (copied o shard path id w)
  | .readLive shard, w => .ok (found (livePath o shard) (liveModel o.engine w.disk shard),w)
  | .readCopy path, w => .ok (found path (w.cas.get? path),w)
  | .readPreproc shard, w => .ok (found s!"shard{shard}_preproc.json" (preprocOf w.disk shard),w)
  | .cachedEnsemble key, w => .ok ((w.ensembles i).get? key,w)
  | .cacheEnsemble key ensemble, w => .ok (((w.ensembles i).get? key).getD ensemble,w.cacheEnsemble i key ensemble)
  | .clock, w => .ok (o.clock w.server.statements,w)

def orRaise {α : Type} : Py α → WorkerM D α := Program.lift

/-- `cur.execute(...)`. -/
def execute (stmt : Sql) : WorkerM D stmt.Answer := .call (.sql stmt) orRaise

def onFiles {α : Type} : FileM D α → WorkerM D α := Program.embed WorkerOp.file fun _ r => r

/-- An engine call does to the files of the process what it does on its own. -/
theorem run_onFiles {α : Type} (pg : Postgres) (i : ι) (p : FileM D α) (w : World D ι) :
    (onFiles p).run (exec o pg i) w = ((p.run fileExec (w.files i)).1,w.setFiles i (p.run fileExec (w.files i)).2) := by
  apply Program.run_embed
  · exact fun w s => w.files_setFiles i s
  · exact fun w s t => w.setFiles_setFiles i s t
  · exact fun w => w.setFiles_files i
  · intro op w r t h
    exact ⟨.ok r,by simp only [exec, h],rfl⟩
  · intro op w e h
    exact ⟨.error e,by simp only [exec, h],rfl⟩

end UnlearnShield.Worker
