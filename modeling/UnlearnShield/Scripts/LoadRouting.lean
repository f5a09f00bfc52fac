import UnlearnShield.Worker.Jobs

/-! # Loading a deployment into the database

`scripts/load_routing.py`: the routing table, the live models and the baseline version.
-/
namespace UnlearnShield.Worker
open Db Engine Deployment
variable {D : Deployment} (o : Outside D)

def readLive (shard : ℕ) : WorkerM D (Artifact D) := .call (.readLive shard) orRaise

def recordLive (shardCheckpoints : Dict String String) : List ℕ → WorkerM D (Dict String String)
  | [] => pure shardCheckpoints
  | shard :: shards => do
    let live ← readLive shard
    let path ← promoteArtifact o shard (o.fileHash live)
    execute (.insertCheckpoint (o.fileHash live) ⟨shard,(D.settings.NUM_SLICES : ℤ) - 1,path,D.settings.CODE_DIGEST⟩)
    recordLive (shardCheckpoints.insert (toString shard) (o.fileHash live)) shards

/-- The transaction of `main`. -/
def recordBaseline (routing : Routing) : WorkerM D Unit := do
  execute (.upsertSubjects routing.entries)
  let shardCheckpoints ← recordLive o Dict.empty (List.range D.settings.NUM_SHARDS)
  execute (.insertVersion "v0-baseline" shardCheckpoints "v0")
  let _ ← recordEval o "v0-baseline" shardCheckpoints
  pure ()

/-- `main`. -/
def loadRoutingScript : WorkerM D Unit := do
  let routing ← onFiles Engine.loadRouting
  withConn (recordBaseline o routing)

end UnlearnShield.Worker
