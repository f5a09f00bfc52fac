import UnlearnShield.Worker.Jobs

/-! # Serving

`_current_model` and the ensemble `predict` scores with.
-/
namespace UnlearnShield.Gateway
open Db Worker Deployment
variable {D : Deployment} (o : Outside D)

def serviceUnavailable {α : Type} (detail : String) : WorkerM D α :=
  Program.lift (raise .httpException s!"503: {detail}")

/-- `sorted(missing)` as it is printed. -/
def printed (missing : List String) : String :=
  "[" ++ ", ".intercalate ((missing.insertionSort (· ≤ ·)).map fun s => s!"'{s}'") ++ "]"

def currentModel : WorkerM D (String × Dict String String) := do
  match ← (execute .latestVersion : WorkerM D (Option (String × VersionRow))) with
  | none => serviceUnavailable "no promoted model_version -- run scripts.load_routing after a build"
  | some (modelVersion,row) => do
    let rows ← execute (.checkpointPaths row.shardCheckpoints.values)
    let missing := row.shardCheckpoints.keys.filter (· ∉ shardPaths rows)
    if missing.isEmpty then pure (modelVersion,shardPaths rows)
    else
      serviceUnavailable
        s!"model_version {modelVersion} references checkpoints with no file on record for shard(s) {printed missing}"

/-- The connection goes back to its pool, rolled back; then the models are loaded. -/
def servedEnsemble : WorkerM D (String × Ensemble D) := do
  match ← (currentModel : WorkerM D (String × Dict String String)).attempt with
  | .error e => .call .rollback fun _ => .throw e
  | .ok (modelVersion,paths) => do
    (.call .rollback .pure : WorkerM D Unit)
    let ensemble ← loadEnsemble o paths
    pure (modelVersion,ensemble)

end UnlearnShield.Gateway
