import UnlearnShield.Engine.Progress

/-! # Calls that return and calls that raise

Nothing is written before the purged shard file, so a call whose batch is not located
leaves the disk as it was. One that purges its subjects returns exactly when it has what
it needs afterwards.
-/
namespace UnlearnShield.Engine
open Deployment
variable {D : Deployment}

structure Located (refs : List Ref) (s : Process D) (batch : Batch) (records : Records D.V) : Prop where
  nonempty : refs ≠ []
  located : ∃ routing, s.1.routing = some routing ∧ locate routing refs = .ok batch
  shardFile : s.1.shards batch.shard = some records

theorem Located.unique {refs : List Ref} {s : Process D} {batch batch' : Batch} {records records' : Records D.V}
    (h : Located refs s batch records) (h' : Located refs s batch' records') : batch = batch' ∧ records = records' := by
  obtain ⟨routing,hr,hb⟩ := h.located
  obtain ⟨routing',hr',hb'⟩ := h'.located
  cases hr.symm.trans hr'
  cases hb.symm.trans hb'
  exact ⟨rfl,Option.some.inj (h.shardFile.symm.trans h'.shardFile)⟩

section Errors
variable {s t : Process D} {e : PyErr}

theorem loadRouting_error (h : (loadRouting : FileM D Routing).run fileExec s = (.error e,t)) : t = s :=
  Program.eq_of_run_call_error h

theorem loadShard_error {shard : ℕ} (h : (loadShard shard).run fileExec s = (.error e,t)) : t = s :=
  Program.eq_of_run_call_error h

theorem loadBooster_error {shard : ℕ} (h : (loadBooster shard).run fileExec s = (.error e,t)) : t = s :=
  Program.eq_of_run_call_error h

theorem lift_error {α : Type} {x : Py α} (h : (Program.lift x : FileM D α).run fileExec s = (.error e,t)) : t = s :=
  (Program.run_lift_eq_error.mp h).2.symm

def finish (parts : EngineParts D) (refs : List Ref) (sign : Bool) (clock : Clock) (routing : Routing) (batch : Batch)
    (treeBefore : Smt.SparseMerkleTree D.H) (retrained : Retrained D) : FileM D (Result D) := do
  let tree ← Program.lift (treeBefore.remove refs)
  cacheTree batch.shard tree
  let cfgDigest ← Program.lift parts.configDigest
  let manifests ← Program.lift
    (issueManifests (manifestFor parts tree batch cfgDigest retrained.resultWeights sign clock) refs Dict.empty)
  let routing' ← Program.lift (popAll routing refs)
  saveRouting routing'
  pure ⟨batch.shard,resumedFrom batch,retrained.rowsPurged,
    List.range' batch.minSlice (D.settings.NUM_SLICES - batch.minSlice),retrained.resultWeights,manifests,
    retrained.replay⟩

/-- The routing table is written last, so what raises after retraining writes nothing more. -/
theorem finish_error {parts : EngineParts D} {refs : List Ref} {sign : Bool} {clock : Clock} {routing : Routing}
    {batch : Batch} {treeBefore : Smt.SparseMerkleTree D.H} {retrained : Retrained D}
    (h : (finish parts refs sign clock routing batch treeBefore retrained).run fileExec s = (.error e,t)) :
    t.1 = s.1 := by
  rcases Program.run_bind_eq_error.mp h with h | ⟨tree,_,htree,h⟩
  · rw [lift_error h]
  obtain ⟨-,rfl⟩ := Program.run_lift_eq_ok.mp htree
  rw [Program.run_bind_of_ok (run_cacheTree ..)] at h
  rcases Program.run_bind_eq_error.mp h with h | ⟨_,_,hc,h⟩
  · rw [lift_error h]
  obtain ⟨-,rfl⟩ := Program.run_lift_eq_ok.mp hc
  rcases Program.run_bind_eq_error.mp h with h | ⟨_,_,hm,h⟩
  · rw [lift_error h]
  obtain ⟨-,rfl⟩ := Program.run_lift_eq_ok.mp hm
  rcases Program.run_bind_eq_error.mp h with h | ⟨_,_,hp,h⟩
  · rw [lift_error h]
  rw [Program.run_bind_of_ok (run_saveRouting ..)] at h
  exact absurd h Program.run_pure_ne_error

/-- On a located batch the work begins with retraining. -/
theorem Located.run_eq {refs : List Ref} {batch : Batch} {records : Records D.V} (h : Located refs s batch records)
    (parts : EngineParts D) (sign : Bool) (clock : Clock) : ∃ routing treeBefore, s.1.routing = some routing ∧
      locate routing refs = .ok batch ∧ Smt.treeForShard s.2 batch.shard (subjectRefs records) = .ok treeBefore ∧
      (rebuildBatch parts refs sign clock).run fileExec s =
        (parts.retrain refs batch records >>= finish parts refs sign clock routing batch treeBefore).run
        fileExec s := by
  obtain ⟨routing,hr,hb⟩ := h.located
  obtain ⟨treeBefore,ht,-⟩ := Smt.exists_treeForShard s.2 batch.shard (subjectRefs records)
  refine ⟨routing,treeBefore,hr,hb,ht,?_⟩
  rw [rebuildBatch, if_neg h.nonempty, Program.run_bind_of_ok (run_loadRouting.mpr ⟨hr,rfl⟩),
    Program.run_bind_of_ok (Program.run_lift_eq_ok.mpr ⟨hb,rfl⟩),
    Program.run_bind_of_ok (run_loadShard.mpr ⟨h.shardFile,rfl⟩),
    Program.run_bind_of_ok (run_treeForShard.mpr ⟨ht,rfl⟩)]
  rfl

/-- A call whose batch is not located raises before it writes anything. -/
theorem run_of_not_located {parts : EngineParts D} {refs : List Ref} {sign : Bool} {clock : Clock}
    (hno : ∀ batch records, ¬Located refs s batch records) :
    ∃ e, (rebuildBatch parts refs sign clock).run fileExec s = (.error e,s) := by
  rcases hrun : (rebuildBatch parts refs sign clock).run fileExec s with ⟨result,t⟩
  cases result with
  | ok result =>
    obtain ⟨x,hx⟩ := run_rebuildBatch.mp hrun
    exact absurd ⟨hx.nonempty,⟨x.routing,hx.routing,hx.batch⟩,hx.records⟩ (hno x.batch x.records)
  | error e =>
    refine ⟨e,?_⟩
    unfold rebuildBatch at hrun
    split at hrun
    · rw [(Prod.mk.inj hrun).2]
    next hne =>
    rcases Program.run_bind_eq_error.mp hrun with h | ⟨routing,_,hr,h⟩
    · rw [loadRouting_error h]
    obtain ⟨hroute,rfl⟩ := run_loadRouting.mp hr
    rcases Program.run_bind_eq_error.mp h with h | ⟨batch,_,hb,h⟩
    · rw [lift_error h]
    obtain ⟨hbatch,rfl⟩ := Program.run_lift_eq_ok.mp hb
    rcases Program.run_bind_eq_error.mp h with h | ⟨records,_,hs,h⟩
    · rw [loadShard_error h]
    obtain ⟨hshard,rfl⟩ := run_loadShard.mp hs
    exact absurd ⟨hne,⟨routing,hroute,hbatch⟩,hshard⟩ (hno batch records)

end Errors

namespace Rebuild

/-- The subjects of the batch are on disk, so the call purges them. -/
structure Purges (refs : List Ref) (s : Process D) (batch : Batch) (records : Records D.V) : Prop
    extends Located refs s batch records where
  nodup : refs.Nodup
  present : ∀ ref ∈ refs, ref ∈ subjectRefs records

structure Completes (refs : List Ref) (seed : ℤ) (sign : Bool) (s : Process D) (batch : Batch)
    (records : Records D.V) : Prop where
  deterministic : enforceDeterminism D seed = .ok ()
  slice : batch.minSlice < D.settings.NUM_SLICES
  fitted : sliceZero (retain records refs) ≠ []
  checkpoint : 0 < batch.minSlice → (s.1.checkpoints batch.shard (batch.minSlice - 1)).isSome
  tree : ∀ tree, Smt.treeForShard s.2 batch.shard (subjectRefs records) = .ok tree → ∀ ref ∈ refs, ref ∈ tree.keys
  key : sign = true → D.signingKey.isSome

theorem Purges.retain_ne {refs : List Ref} {s : Process D} {batch : Batch} {records : Records D.V}
    (h : Purges refs s batch records) : retain records refs ≠ records := by
  intro he
  obtain ⟨ref,href⟩ := List.exists_mem_of_ne_nil _ h.nonempty
  have hin := h.present ref href
  rw [← he, subjectRefs_retain, List.mem_filter] at hin
  exact of_decide_eq_true hin.2 href

theorem Purges.exists_retrain {refs : List Ref} {seed : ℤ} {sign : Bool} {s : Process D} {batch : Batch}
    {records : Records D.V} (h : Purges refs s batch records) (hc : Completes refs seed sign s batch records) :
    ∃ r t, (retrain seed refs batch records).run fileExec s = (.ok r,t) := by
  obtain ⟨start,hstart⟩ := exists_startTraining (resumeState s.1 batch.shard batch.minSlice) seed fun hm => by
    rw [resumeState, if_pos hm]
    exact hc.checkpoint hm
  exact ⟨_,_,run_retrain.mpr ⟨h.nodup,h.present,hc.deterministic,hc.slice,_,start,
    records.length - (retain records refs).length,if_neg hc.fitted,hstart,
    Nat.sub_add_cancel (length_retain_le ..),rfl,rfl⟩⟩

/-- A call that purges its subjects returns exactly when it has what it needs afterwards. -/
theorem Purges.returns_iff {refs : List Ref} {seed : ℤ} {sign : Bool} {clock : Clock} {s : Process D} {batch : Batch}
    {records : Records D.V} (h : Purges refs s batch records) :
    (∃ result t, (rebuildBatchByRef refs seed sign clock).run fileExec s = (.ok result,t)) ↔
      Completes refs seed sign s batch records := by
  constructor
  · rintro ⟨result,t,hrun⟩
    obtain ⟨x,hx⟩ := run_rebuildBatch.mp hrun
    obtain ⟨rfl,rfl⟩ := h.toLocated.unique ⟨hx.nonempty,⟨x.routing,hx.routing,hx.batch⟩,hx.records⟩
    obtain ⟨-,-,hd,hlt,preproc,start,-,hfit,hstart,-,-,-⟩ := run_retrain.mp hx.retrain
    refine ⟨hd,hlt,?_,?_,?_,?_⟩
    · intro hz
      rw [fitPreprocessor, if_pos hz] at hfit
      cases hfit
    · intro hm
      have hsome := startTraining_isSome hstart hm
      rwa [resumeState, if_pos hm] at hsome
    · intro tree ht
      cases hx.treeBefore.symm.trans ht
      exact Smt.SparseMerkleTree.mem_keys_of_remove hx.tree
    · intro hsign
      obtain ⟨ref,href⟩ := List.exists_mem_of_ne_nil _ h.nonempty
      obtain ⟨m,hm,-⟩ := issueManifests_get? hx.manifests (Or.inl href)
      obtain ⟨proof,-,hm⟩ := bind_eq_ok.mp hm
      rw [hsign, withSignature, if_pos rfl] at hm
      obtain ⟨signature,hsig,-⟩ := bind_eq_ok.mp hm
      unfold Manifest.signManifest at hsig
      cases hk : D.signingKey with
      | none =>
        rw [hk] at hsig
        cases hsig
      | some key => rfl
  · intro hc
    obtain ⟨routing,hr,hb⟩ := h.located
    obtain ⟨treeBefore,ht,-⟩ := Smt.exists_treeForShard s.2 batch.shard (subjectRefs records)
    obtain ⟨tree,htree,-⟩ := Smt.SparseMerkleTree.exists_remove (hc.tree treeBefore ht)
    obtain ⟨r,u,hre⟩ := h.exists_retrain hc
    exact ModelEngine.returns_of_retrain (.mlp seed) h.nonempty h.nodup hr hb h.shardFile ht htree hre hc.key

end Rebuild

end UnlearnShield.Engine
