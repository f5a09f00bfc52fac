import UnlearnShield.Library.Program
import UnlearnShield.Verify.Manifest
import UnlearnShield.Verify.SmtProof

/-! # The data of the engines

Shard files, the routing table and the model files of a deployment, and the file
operations of the engines. The learners are parameters: what the code relies on is
only which data each of their functions is given.
-/
namespace UnlearnShield

/-- One row of a shard file. `values` are the feature columns and `isFraud`. -/
structure Row (V : Type) where
  subjectRef : Ref
  sliceIdx : ℕ
  values : V

abbrev Records (V : Type) := List (Row V)

/-- `records["subject_ref"]`. -/
abbrev subjectRefs {V : Type} (records : Records V) : List Ref := records.map Row.subjectRef

structure RoutingEntry where
  tenantId : String
  shard : ℕ
  minSliceIdx : ℕ
  recordCount : ℕ
  deriving DecidableEq

abbrev Routing := Dict Ref RoutingEntry

structure Settings where
  NUM_SHARDS : ℕ
  NUM_SLICES : ℕ
  EPOCHS_PER_SLICE : ℕ
  BATCH_SIZE : ℕ
  /-- `float.__repr__` of the learning rate. -/
  LEARNING_RATE : String
  SEED : ℤ
  CODE_DIGEST : String
  TREES_PER_SLICE : ℕ
  PYTHONHASHSEED : Option String

/-- The network, its optimiser and its data loader, as functions of what `train_shard` passes them. -/
structure MlpLearner (V : Type) where
  Preproc : Type
  Example : Type
  Model : Type
  Optimizer : Type
  Generator : Type
  Weights : Type
  /-- `ShardPreprocessor.fit` on at least one row. -/
  fit : List V → Preproc
  toJson : Preproc → String
  /-- One row of `transform` with its label. -/
  transform : Preproc → V → Example
  /-- `build_model()` after `torch.manual_seed(seed)`. -/
  buildModel : ℤ → Model
  loadStateDict : Model → Weights → Model
  adam : Model → String → Optimizer
  manualSeed : ℤ → Generator
  /-- One pass over a shuffling `DataLoader`: its batches, and the generator afterwards. -/
  loader : ℕ → List Example → Generator → List (List Example) × Generator
  step : Model × Optimizer → List Example → Model × Optimizer
  stateDict : Model → Weights
  /-- The bytes `state_dict_digest` hashes. -/
  tensorBytes : Weights → Bytes

/-- Boosting: each new tree is determined by the data and the trees so far. -/
structure GbdtLearner (V : Type) where
  Tree : Type
  nextTree : List V → List Tree → Tree
  saveRaw : List Tree → Bytes

/-- One deployment: its settings, its learners, the hash and the signing key of its environment. -/
structure Deployment where
  V : Type
  settings : Settings
  mlp : MlpLearner V
  gbdt : GbdtLearner V
  H : Bytes → Digest
  signingKey : Option Manifest.KeyPair

namespace Deployment
variable (D : Deployment)

abbrev Weights := D.mlp.Weights
abbrev Booster := List D.gbdt.Tree

/-- `SHARD_DIR` and `CHECKPOINT_DIR`. -/
@[ext] structure Disk where
  routing : Option Routing
  shards : ℕ → Option (Records D.V)
  preproc : ℕ → Option String
  checkpoints : ℕ → ℕ → Option D.Weights
  boosters : ℕ → Option D.Booster

variable {D} in
def Disk.setCheckpoint (d : Disk D) (shard sliceIdx : ℕ) (weights : D.Weights) : Disk D :=
  {d with checkpoints := fun k i => if k = shard ∧ i = sliceIdx then some weights else d.checkpoints k i}

inductive FileOp
  | loadRouting
  | saveRouting (routing : Routing)
  | loadShard (shard : ℕ)
  | saveShard (shard : ℕ) (records : Records D.V)
  | writePreproc (shard : ℕ) (text : String)
  | loadCheckpoint (shard sliceIdx : ℕ)
  | saveCheckpoint (shard sliceIdx : ℕ) (weights : D.Weights)
  | loadBooster (shard : ℕ)
  | saveBooster (shard : ℕ) (booster : D.Booster)
  | treeForShard (shard : ℕ) (subjectRefs : List Ref)
  | cacheTree (shard : ℕ) (tree : Smt.SparseMerkleTree D.H)

variable {D}

abbrev FileOp.Resp : FileOp D → Type
  | .loadRouting => Routing
  | .loadShard _ => Records D.V
  | .loadCheckpoint _ _ => D.Weights
  | .loadBooster _ => D.Booster
  | .treeForShard _ _ => Smt.SparseMerkleTree D.H
  | _ => Unit

variable (D)

/-- The files, shared by all processes, and the tree cache of one process. -/
abbrev Process := Disk D × Smt.TreeCache D.H

abbrev FileM := Program (FileOp D) FileOp.Resp PyErr

variable {D}

def readFile {α : Type} (content : Option α) (path : String) (s : Process D) : Py (α × Process D) :=
  match content with
  | some a => .ok (a,s)
  | none => raise .fileNotFoundError s!"[Errno 2] No such file or directory: '{path}'"

@[simp] theorem readFile_eq_ok {α : Type} {content : Option α} {path : String} {s t : Process D} {a : α} :
    readFile content path s = .ok (a,t) ↔ content = some a ∧ s = t := by
  cases content <;> simp [readFile, raise]

def fileExec : Exec (FileOp D) FileOp.Resp PyErr (Process D)
  | .loadRouting, s => readFile s.1.routing "routing.json" s
  | .saveRouting routing, (d,c) => .ok ((),({d with routing := some routing},c))
  | .loadShard shard, s => readFile (s.1.shards shard) s!"shard{shard}.npz" s
  | .saveShard shard records, (d,c) =>
    .ok ((),({d with shards := Function.update d.shards shard (some records)},c))
  | .writePreproc shard text, (d,c) =>
    .ok ((),({d with preproc := Function.update d.preproc shard (some text)},c))
  | .loadCheckpoint shard sliceIdx, s =>
    readFile (s.1.checkpoints shard sliceIdx) s!"shard{shard}_slice{sliceIdx}.pt" s
  | .saveCheckpoint shard sliceIdx weights, (d,c) =>
    .ok ((),(d.setCheckpoint shard sliceIdx weights,c))
  | .loadBooster shard, s => readFile (s.1.boosters shard) s!"shard{shard}_gbdt.json" s
  | .saveBooster shard booster, (d,c) =>
    .ok ((),({d with boosters := Function.update d.boosters shard (some booster)},c))
  | .treeForShard shard subjectRefs, s => (Smt.treeForShard s.2 shard subjectRefs).map fun tree => (tree,s)
  | .cacheTree shard tree, (d,c) => .ok ((),(d,Smt.cacheTree c shard tree))

end Deployment

namespace Engine
open Deployment
variable {D : Deployment}

def loadRouting : FileM D Routing := .call .loadRouting .pure
def saveRouting (routing : Routing) : FileM D Unit := .call (.saveRouting routing) .pure
def loadShard (shard : ℕ) : FileM D (Records D.V) := .call (.loadShard shard) .pure
def saveShard (shard : ℕ) (records : Records D.V) : FileM D Unit := .call (.saveShard shard records) .pure
def loadCheckpoint (shard sliceIdx : ℕ) : FileM D D.Weights := .call (.loadCheckpoint shard sliceIdx) .pure
def saveCheckpoint (shard sliceIdx : ℕ) (weights : D.Weights) : FileM D Unit :=
  .call (.saveCheckpoint shard sliceIdx weights) .pure
def writePreproc (shard : ℕ) (text : String) : FileM D Unit := .call (.writePreproc shard text) .pure
def loadBooster (shard : ℕ) : FileM D D.Booster := .call (.loadBooster shard) .pure
def saveBooster (shard : ℕ) (booster : D.Booster) : FileM D Unit := .call (.saveBooster shard booster) .pure
def treeForShard (shard : ℕ) (subjectRefs : List Ref) : FileM D (Smt.SparseMerkleTree D.H) :=
  .call (.treeForShard shard subjectRefs) .pure
def cacheTree (shard : ℕ) (tree : Smt.SparseMerkleTree D.H) : FileM D Unit := .call (.cacheTree shard tree) .pure

section Run
variable {s t : Process D}

@[simp] theorem run_loadRouting {routing : Routing} :
    (loadRouting : FileM D Routing).run fileExec s = (.ok routing,t) ↔ s.1.routing = some routing ∧ s = t := by
  rw [loadRouting, Program.run_call_eq_ok]
  simp [fileExec, Program.run]

@[simp] theorem run_loadShard {shard : ℕ} {records : Records D.V} :
    (loadShard shard).run fileExec s = (.ok records,t) ↔ s.1.shards shard = some records ∧ s = t := by
  rw [loadShard, Program.run_call_eq_ok]
  simp [fileExec, Program.run]

@[simp] theorem run_loadCheckpoint {shard sliceIdx : ℕ} {weights : D.Weights} :
    (loadCheckpoint shard sliceIdx).run fileExec s = (.ok weights,t) ↔
      s.1.checkpoints shard sliceIdx = some weights ∧ s = t := by
  rw [loadCheckpoint, Program.run_call_eq_ok]
  simp [fileExec, Program.run]

@[simp] theorem run_loadBooster {shard : ℕ} {booster : D.Booster} :
    (loadBooster shard).run fileExec s = (.ok booster,t) ↔ s.1.boosters shard = some booster ∧ s = t := by
  rw [loadBooster, Program.run_call_eq_ok]
  simp [fileExec, Program.run]

@[simp] theorem run_treeForShard {shard : ℕ} {refs : List Ref} {tree : Smt.SparseMerkleTree D.H} :
    (treeForShard shard refs).run fileExec s = (.ok tree,t) ↔ Smt.treeForShard s.2 shard refs = .ok tree ∧ s = t := by
  rw [treeForShard, Program.run_call_eq_ok]
  cases h : Smt.treeForShard s.2 shard refs <;> simp [fileExec, h, Except.map, Program.run]

@[simp] theorem run_saveRouting (routing : Routing) :
    (saveRouting routing).run fileExec s = (.ok (),({s.1 with routing := some routing},s.2)) := rfl

@[simp] theorem run_saveShard (shard : ℕ) (records : Records D.V) :
    (saveShard shard records).run fileExec s =
      (.ok (),({s.1 with shards := Function.update s.1.shards shard (some records)},s.2)) := rfl

@[simp] theorem run_writePreproc (shard : ℕ) (text : String) :
    (writePreproc shard text).run fileExec s =
      (.ok (),({s.1 with preproc := Function.update s.1.preproc shard (some text)},s.2)) := rfl

@[simp] theorem run_saveCheckpoint (shard sliceIdx : ℕ) (weights : D.Weights) :
    (saveCheckpoint shard sliceIdx weights).run fileExec s =
      (.ok (),(s.1.setCheckpoint shard sliceIdx weights,s.2)) := rfl

@[simp] theorem run_saveBooster (shard : ℕ) (booster : D.Booster) :
    (saveBooster shard booster).run fileExec s =
      (.ok (),({s.1 with boosters := Function.update s.1.boosters shard (some booster)},s.2)) := rfl

@[simp] theorem run_cacheTree (shard : ℕ) (tree : Smt.SparseMerkleTree D.H) :
    (cacheTree shard tree).run fileExec s = (.ok (),(s.1,Smt.cacheTree s.2 shard tree)) := rfl

end Run

end Engine

end UnlearnShield
