import UnlearnShield.Engine.Gbdt
import UnlearnShield.Verify.SmtSound

/-! # The active engine

A call of either engine, and what both leave behind when they return: a purged shard
file, an updated routing table and a cached tree.
-/
namespace UnlearnShield.Engine
open Deployment
variable {D : Deployment}

/-- `MODEL_ENGINE`, with the argument only that engine takes. -/
inductive ModelEngine
  | mlp (seed : ℤ)
  | gbdt (treesPerSlice : ℕ)

structure Call where
  engine : ModelEngine
  refs : List Ref
  sign : Bool
  clock : Clock

variable (D) in
def ModelEngine.seed : ModelEngine → ℤ
  | .mlp seed => seed
  | .gbdt _ => D.settings.SEED

def ModelEngine.parts : ModelEngine → EngineParts D
  | .mlp seed => Rebuild.parts seed
  | .gbdt treesPerSlice => Gbdt.parts treesPerSlice

def Call.program (c : Call) : FileM D (Result D) :=
  match c.engine with
  | .mlp seed => Rebuild.rebuildBatchByRef c.refs seed c.sign c.clock
  | .gbdt treesPerSlice => Gbdt.rebuildBatchByRef c.refs treesPerSlice c.sign c.clock

theorem Call.program_eq (c : Call) : (c.program : FileM D _) = rebuildBatch c.engine.parts c.refs c.sign c.clock := by
  unfold Call.program
  cases c.engine <;> rfl

/-- Retraining purges the shard and touches neither the routing table nor the other shards. -/
structure Purged (refs : List Ref) (batch : Batch) (records : Records D.V) (s t : Process D) (r : Retrained D) :
    Prop where
  found : ∃ row ∈ records, row.subjectRef ∈ refs
  retained : r.retained = retain records refs
  shards : t.1.shards = Function.update s.1.shards batch.shard (some (retain records refs))
  routing : t.1.routing = s.1.routing
  cache : t.2 = s.2

theorem ModelEngine.purged (engine : ModelEngine) {refs : List Ref} {batch : Batch} {records : Records D.V}
    {s t : Process D} {r : Retrained D} (hne : refs ≠ [])
    (h : ((engine.parts : EngineParts D).retrain refs batch records).run fileExec s = (.ok r,t)) :
    Purged refs batch records s t r := by
  cases engine with
  | mlp seed =>
    obtain ⟨-,hmem,-,-,_,_,_,-,-,-,rfl,rfl⟩ := Rebuild.run_retrain.mp h
    obtain ⟨ref,href⟩ := List.exists_mem_of_ne_nil refs hne
    obtain ⟨row,hrow,rfl⟩ := List.mem_map.mp (hmem ref href)
    exact ⟨⟨row,hrow,href⟩,rfl,rfl,rfl,rfl⟩
  | gbdt treesPerSlice =>
    obtain ⟨hfound,_,_,_,-,-,-,rfl,rfl⟩ := Gbdt.run_retrain.mp h
    exact ⟨hfound,rfl,rfl,rfl,rfl⟩

/-- What a returned call leaves on disk. -/
theorem Call.returned {c : Call} {s t : Process D} {result : Result D}
    (h : c.program.run fileExec s = (.ok result,t)) : ∃ x, Rebuilds c.engine.parts c.refs c.sign c.clock s t result x ∧
      Purged c.refs x.batch x.records s x.retrainedAt x.retrained := by
  rw [c.program_eq] at h
  obtain ⟨x,hx⟩ := run_rebuildBatch.mp h
  exact ⟨x,hx,c.engine.purged hx.nonempty hx.retrain⟩

/-- The cached tree of a shard has other keys than the shard file, but the same fingerprint. -/
def CacheCollision (s : Process D) (shard : ℕ) : Prop :=
  ∃ cached records, s.2 shard = some cached ∧ s.1.shards shard = some records ∧
    Smt.Collision D.H [Smt.joinKeys cached.keys, Smt.joinKeys (Smt.keys (subjectRefs records))]

theorem subjectRefs_retain (records : Records D.V) (refs : List Ref) :
    subjectRefs (retain records refs) = (subjectRefs records).filter (· ∉ refs) := by
  rw [retain, subjectRefs, subjectRefs, List.filter_map]
  rfl

/-- Unless two key lists collide, the tree a rebuild starts from has the keys of the shard file. -/
theorem treeForShard_keys {s : Process D} {shard : ℕ} {records : Records D.V} {tree : Smt.SparseMerkleTree D.H}
    (hs : s.1.shards shard = some records) (h : Smt.treeForShard s.2 shard (subjectRefs records) = .ok tree) :
    tree.keys = Smt.keys (subjectRefs records) ∨ CacheCollision s shard := by
  unfold Smt.treeForShard at h
  cases hc : s.2 shard with
  | none =>
    rw [hc] at h
    exact Or.inl (Smt.SparseMerkleTree.ofRefs_keys h)
  | some cached =>
    rw [hc] at h
    dsimp only at h
    split at h
    · next hfp =>
      cases h
      by_cases hk : tree.keys = Smt.keys (subjectRefs records)
      · exact Or.inl hk
      · right
        refine ⟨tree,records,hc,hs,_,List.mem_cons_self,_,List.mem_cons_of_mem _ List.mem_cons_self,?_,hfp⟩
        exact fun he => hk (Smt.joinKeys_injective he)
    · exact Or.inl (Smt.SparseMerkleTree.ofRefs_keys h)

/-- The tree of a returned call holds the references of the file it saved. -/
theorem Call.tree_keys {c : Call} {s t : Process D} {result : Result D} {x : Stages D}
    (hx : Rebuilds c.engine.parts c.refs c.sign c.clock s t result x) :
    x.tree.keys = Smt.keys (subjectRefs (retain x.records c.refs)) ∨ CacheCollision s x.batch.shard := by
  rcases treeForShard_keys hx.records hx.treeBefore with hk | hc
  · left
    rw [Smt.SparseMerkleTree.remove_keys hx.tree, hk, subjectRefs_retain, Smt.keys_filter]
  · exact Or.inr hc

end UnlearnShield.Engine
