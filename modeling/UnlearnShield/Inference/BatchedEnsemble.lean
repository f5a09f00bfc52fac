import UnlearnShield.Worker.World

/-! # Loading an ensemble

The models of a version with, for the MLP, the preprocessor file of each shard. A process
caches what it loaded under the paths of the models.
-/
namespace UnlearnShield.Worker
open Db Engine Deployment
variable {D : Deployment} (o : Outside D)

def isGbdt : Bool :=
  match o.engine with
  | .mlp _ => false
  | .gbdt _ => true

def ensembleKey (shardPaths : Dict String String) : EnsembleKey :=
  (isGbdt o,shardPaths.entries.insertionSort fun a b => a.1 ≤ b.1)

/-- `sorted(shard_paths, key=int)`, with the path of each. -/
def byShard (shardPaths : Dict String String) : Py (List (String × String)) := do
  let numbered ← shardPaths.entries.mapM fun e => do
    let n ← (PyKey.str e.1).toInt
    pure (n,e)
  pure ((numbered.insertionSort fun a b => a.1 ≤ b.1).map Prod.snd)

def readCopy (path : String) : WorkerM D (Artifact D) := .call (.readCopy path) orRaise
def readPreproc (shard : String) : WorkerM D String := .call (.readPreproc shard) orRaise

/-- `load_state_dict(torch.load(path))`. -/
def stateDictOf (path : String) : Artifact D → Py D.Weights
  | .weights weights => .ok weights
  | _ => raise .runtimeError s!"not a state dict: {path}"

/-- `booster.load_model(path)`. -/
def boosterOf (path : String) : Artifact D → Py D.Booster
  | .booster booster => .ok booster
  | _ => raise .valueError s!"not a booster: {path}"

def loadShardModels : List (String × String) → WorkerM D (List (D.Weights × String))
  | [] => pure []
  | (shard,path) :: rest => do
    let artifact ← readCopy path
    let weights ← Program.lift (stateDictOf path artifact)
    let text ← readPreproc shard
    let models ← loadShardModels rest
    pure ((weights,text) :: models)

def loadBoosters : List (String × String) → WorkerM D (List D.Booster)
  | [] => pure []
  | (_,path) :: rest => do
    let artifact ← readCopy path
    let booster ← Program.lift (boosterOf path artifact)
    let models ← loadBoosters rest
    pure (booster :: models)

def newEnsemble (shardPaths : Dict String String) : WorkerM D (Ensemble D) := do
  let paths ← Program.lift (byShard shardPaths)
  match o.engine with
  | .mlp _ => do
    let models ← loadShardModels paths
    if models.isEmpty then Program.lift (raise .valueError "ShardEnsemble needs at least one shard model")
    else pure (.shards models)
  | .gbdt _ => do
    let models ← loadBoosters paths
    if models.isEmpty then Program.lift (raise .valueError "GBDTEnsemble needs at least one shard booster")
    else pure (.boosters models)

/-- `active.load_ensemble`. -/
def loadEnsemble (shardPaths : Dict String String) : WorkerM D (Ensemble D) := do
  match ← (.call (.cachedEnsemble (ensembleKey o shardPaths)) .pure : WorkerM D (Option (Ensemble D))) with
  | some hit => pure hit
  | none => do
    let ensemble ← newEnsemble o shardPaths
    .call (.cacheEnsemble (ensembleKey o shardPaths) ensemble) .pure

end UnlearnShield.Worker
