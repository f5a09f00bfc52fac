import UnlearnShield.Engine.Active
import UnlearnShield.Verify.ManifestStorage

/-! # Calls that return

When its subjects are on disk where the routing table says, and the model file it
resumes from is there, a call runs to its end and issues its manifests. A shard with a
model of every slice has one again after the call, and is ready for the next.
-/
namespace UnlearnShield.Engine
open Deployment
variable {D : Deployment}

theorem exists_dumps (pairs : List (PyKey × PyVal)) (hn : (pairs.map Prod.fst).Nodup)
    (hk : ∀ e ∈ pairs, Json.isIntKey e.1 = false) (hv : ∀ e ∈ pairs, ∃ text, Json.dumps e.2 = .ok text) :
    ∃ text, Json.dumps (.dict pairs) = .ok text := by
  have hkind : Json.OneKind (pairs.map fun e => (e.1,Json.textOf e.2)) := by
    right
    intro e he
    obtain ⟨e',he',rfl⟩ := List.mem_map.mp he
    exact hk e' he'
  exact ⟨_,(Json.dumps_eq_ok hn hv).trans (Json.objectText_ok hkind)⟩

theorem ModelEngine.exists_configDigest (engine : ModelEngine) :
    ∃ digest, (engine.parts : EngineParts D).configDigest = .ok digest := by
  cases engine with
  | mlp seed =>
    obtain ⟨text,ht⟩ := exists_dumps [
      (.str "num_shards",.int D.settings.NUM_SHARDS), (.str "num_slices",.int D.settings.NUM_SLICES),
      (.str "epochs_per_slice",.int D.settings.EPOCHS_PER_SLICE), (.str "batch_size",.int D.settings.BATCH_SIZE),
      (.str "learning_rate",.float D.settings.LEARNING_RATE), (.str "seed",.int D.settings.SEED)]
      (by simp) (by simp [Json.isIntKey]) (by simp [Json.dumps])
    exact ⟨_,bind_eq_ok.mpr ⟨text,ht,rfl⟩⟩
  | gbdt treesPerSlice =>
    obtain ⟨text,ht⟩ := exists_dumps [
      (.str "num_shards",.int D.settings.NUM_SHARDS), (.str "num_slices",.int D.settings.NUM_SLICES),
      (.str "trees_per_slice",.int D.settings.TREES_PER_SLICE), (.str "seed",.int D.settings.SEED),
      (.str "objective",.str "binary:logistic"), (.str "max_depth",.int 4), (.str "eta",.float "0.1"),
      (.str "tree_method",.str "hist"), (.str "nthread",.int 1), (.str "base_score",.float "0.5")]
      (by simp) (by simp [Json.isIntKey]) (by simp [Json.dumps])
    exact ⟨_,bind_eq_ok.mpr ⟨text,ht,rfl⟩⟩

/-- A manifest about an absent subject is issued, and signed when there is a key. -/
theorem exists_manifestFor {parts : EngineParts D} {tree : Smt.SparseMerkleTree D.H} {batch : Batch}
    {cfgDigest weights : String} {sign : Bool} {clock : Clock} {ref : Ref} (href : ref ∉ tree.keys)
    (hkey : sign = true → D.signingKey.isSome) :
    ∃ m, manifestFor parts tree batch cfgDigest weights sign clock ref = .ok m := by
  have hrep : Smt.Represents D.H tree.node 0 (Smt.onPath D.H ref 0 tree.keys) := by
    rw [show Smt.onPath D.H ref 0 tree.keys = tree.keys from (Smt.trie D.H).onPath_zero ref tree.keys]
    exact tree.represents
  obtain ⟨p,hw,-⟩ := Smt.walk_eq (Nat.zero_add Smt.DEPTH) hrep
  have hproof : tree.proveAbsence ref = .ok (Smt.proofOf (Smt.walk D.H ref tree.node 0)) := if_neg href
  unfold manifestFor
  rw [hproof, ok_bind]
  unfold withSignature
  cases hs : sign with
  | false => exact ⟨_,rfl⟩
  | true =>
    obtain ⟨key,hk⟩ := Option.isSome_iff_exists.mp (hkey hs)
    obtain ⟨⟨text,ht⟩,⟨text',ht'⟩,-⟩ := Storage.dumps_reload_proofOf .written
      (Smt.siblingsAt_pairwise (H := D.H) (fun i => p i = true) ref tree.keys 0 Smt.DEPTH)
    rw [← hw] at ht ht'
    obtain ⟨message,hc⟩ := (Storage.canonicalBytes_stored ref.val.hex tree.root
      ⟨batch.shard,resumedFrom batch,D.settings.CODE_DIGEST,cfgDigest,weights,
        s!"{parts.versionPrefix}shard{batch.shard}-{String.ofList (weights.toList.take 12)}",clock.purgedAt,
        clock.completedAt⟩ .written ht ht').1
    refine ⟨_,bind_eq_ok.mpr ⟨(key.sign message).hex,?_,rfl⟩⟩
    rw [hk]
    exact bind_eq_ok.mpr ⟨message,hc,rfl⟩

/-- What a call finds on disk when nothing is missing. -/
structure Ready (c : Call) (s : Process D) (batch : Batch) (records : Records D.V) : Prop where
  nonempty : c.refs ≠ []
  nodup : c.refs.Nodup
  located : ∃ routing, s.1.routing = some routing ∧ locate routing c.refs = .ok batch
  shardFile : s.1.shards batch.shard = some records
  present : ∀ ref ∈ c.refs, ref ∈ subjectRefs records
  cache : ¬CacheCollision s batch.shard
  key : c.sign = true → D.signingKey.isSome
  deterministic : enforceDeterminism D (c.engine.seed D) = .ok ()
  slice : batch.minSlice < D.settings.NUM_SLICES
  model : match c.engine with
    | .mlp _ => sliceZero (retain records c.refs) ≠ [] ∧
        (0 < batch.minSlice → (s.1.checkpoints batch.shard (batch.minSlice - 1)).isSome)
    | .gbdt treesPerSlice => ∃ booster, s.1.boosters batch.shard = some booster ∧
        batch.minSlice * treesPerSlice ≤ booster.length

theorem exists_startTraining {fromSlice : ℕ} (resume : Option D.Weights) (seed : ℤ)
    (h : 0 < fromSlice → resume.isSome) : ∃ start, startTraining fromSlice resume seed = .ok start := by
  unfold startTraining
  by_cases hz : fromSlice = 0
  · exact ⟨_,if_pos hz⟩
  · obtain ⟨w,rfl⟩ := Option.isSome_iff_exists.mp (h (Nat.pos_of_ne_zero hz))
    exact ⟨_,if_neg hz⟩

theorem ModelEngine.exists_retrain {c : Call} {s : Process D} {batch : Batch} {records : Records D.V}
    (h : Ready c s batch records) : ∃ r t,
      ((c.engine.parts : EngineParts D).retrain c.refs batch records).run fileExec s = (.ok r,t) := by
  have hmodel := h.model
  cases he : c.engine with
  | mlp seed =>
    have hdeterministic := h.deterministic
    rw [he] at hmodel hdeterministic
    obtain ⟨hslice,hck⟩ := hmodel
    obtain ⟨start,hstart⟩ := exists_startTraining (Rebuild.resumeState s.1 batch.shard batch.minSlice) seed
      fun hm => by rw [Rebuild.resumeState, if_pos hm]; exact hck hm
    refine ⟨_,_,Rebuild.run_retrain.mpr ⟨h.nodup,h.present,hdeterministic,h.slice,_,start,
      records.length - (retain records c.refs).length,if_neg hslice,hstart,?_,rfl,rfl⟩⟩
    exact Nat.sub_add_cancel (length_retain_le ..)
  | gbdt treesPerSlice =>
    have hdeterministic := h.deterministic
    rw [he] at hmodel hdeterministic
    obtain ⟨booster,hb,hle⟩ := hmodel
    obtain ⟨ref,href⟩ := List.exists_mem_of_ne_nil _ h.nonempty
    obtain ⟨row,hrow,hr⟩ := List.mem_map.mp (h.present ref href)
    obtain ⟨kept,hk,hsome⟩ : ∃ kept, Gbdt.rollback booster batch.minSlice treesPerSlice = .ok kept ∧
        (0 < batch.minSlice → kept ≠ none) := by
      by_cases hz : batch.minSlice = 0
      · exact ⟨none,Gbdt.rollback_eq_ok.mpr (by rw [if_pos hz]),fun hm => absurd hz hm.ne'⟩
      · exact ⟨_,Gbdt.rollback_eq_ok.mpr (by rw [if_neg hz]; exact ⟨hle,rfl⟩),fun _ => Option.some_ne_none _⟩
    have htrain : ∃ rebuilt, Gbdt.trainShard (retain records c.refs) batch.minSlice kept treesPerSlice =
        .ok (some rebuilt) := ⟨_,Gbdt.trainShard_eq_ok.mpr ⟨hsome,hdeterministic,by rw [if_pos h.slice]⟩⟩
    obtain ⟨rebuilt,htrain⟩ := htrain
    exact ⟨_,_,Gbdt.run_retrain.mpr ⟨⟨row,hrow,hr ▸ href⟩,booster,kept,rebuilt,hb,hk,htrain,rfl,rfl⟩⟩

/-- Once a shard is retrained, a call returns if the tree holds its subjects and there is a signing key. -/
theorem ModelEngine.returns_of_retrain (engine : ModelEngine) {refs : List Ref} {sign : Bool} {clock : Clock}
    {s u : Process D} {routing : Routing} {batch : Batch} {records : Records D.V}
    {treeBefore tree : Smt.SparseMerkleTree D.H} {retrained : Retrained D}
    (hne : refs ≠ []) (hn : refs.Nodup) (hr : s.1.routing = some routing)
    (hb : locate routing refs = .ok batch) (hs : s.1.shards batch.shard = some records)
    (ht : Smt.treeForShard s.2 batch.shard (subjectRefs records) = .ok treeBefore)
    (htree : treeBefore.remove refs = .ok tree)
    (hre : ((engine.parts : EngineParts D).retrain refs batch records).run fileExec s = (.ok retrained,u))
    (hkey : sign = true → D.signingKey.isSome) :
    ∃ result t, (rebuildBatch engine.parts refs sign clock).run fileExec s = (.ok result,t) := by
  obtain ⟨cfg,hcfg⟩ := ModelEngine.exists_configDigest (D := D) engine
  have htk := Smt.SparseMerkleTree.remove_keys htree
  have hissued : ∀ ref ∈ refs, ∃ m, manifestFor engine.parts tree batch cfg retrained.resultWeights sign clock ref =
    .ok m :=
    fun ref href => exists_manifestFor
      (fun hin => by rw [htk, List.mem_filter] at hin; exact of_decide_eq_true hin.2 href) hkey
  obtain ⟨manifests,hm⟩ := exists_issueManifests Dict.empty hissued
  exact ⟨_,_,run_rebuildBatch.mpr ⟨⟨routing,batch,records,treeBefore,retrained,u,tree,cfg,manifests⟩,
    ⟨hne,hn,hr,hb,hs,ht,hre,htree,hcfg,hm,rfl,rfl⟩⟩⟩

/-- A call that finds its subjects and its model on disk returns. -/
theorem Call.returns {c : Call} {s : Process D} {batch : Batch} {records : Records D.V}
    (h : Ready c s batch records) : ∃ result t, c.program.run fileExec s = (.ok result,t) := by
  obtain ⟨routing,hr,hb⟩ := h.located
  obtain ⟨treeBefore,ht,-⟩ := Smt.exists_treeForShard s.2 batch.shard (subjectRefs records)
  have hkeys := (treeForShard_keys h.shardFile ht).resolve_right h.cache
  obtain ⟨retrained,u,hre⟩ := ModelEngine.exists_retrain h
  have hin : ∀ ref ∈ c.refs, ref ∈ treeBefore.keys :=
    fun ref href => by rw [hkeys, Smt.mem_keys]; exact h.present ref href
  obtain ⟨tree,htree,-⟩ := Smt.SparseMerkleTree.exists_remove hin
  rw [c.program_eq]
  exact ModelEngine.returns_of_retrain c.engine h.nonempty h.nodup hr hb h.shardFile ht htree hre h.key

section Continuing

def Modelled (engine : ModelEngine) (shard : ℕ) (s : Process D) : Prop :=
  match engine with
  | .mlp _ => ∀ i < D.settings.NUM_SLICES, (s.1.checkpoints shard i).isSome
  | .gbdt treesPerSlice => ∃ booster, s.1.boosters shard = some booster ∧
      D.settings.NUM_SLICES * treesPerSlice ≤ booster.length

/-- A shard between two calls: the cached tree, if there is one, is of the shard file. -/
structure Stocked (engine : ModelEngine) (shard : ℕ) (routing : Routing) (records : Records D.V) (s : Process D) :
    Prop where
  routed : s.1.routing = some routing
  shardFile : s.1.shards shard = some records
  cached : ∀ tree, s.2 shard = some tree → tree.keys = Smt.keys (subjectRefs records)
  models : Modelled engine shard s

structure Call.Fits (c : Call) (routing : Routing) (batch : Batch) (records : Records D.V) : Prop where
  nonempty : c.refs ≠ []
  nodup : c.refs.Nodup
  located : locate routing c.refs = .ok batch
  present : ∀ ref ∈ c.refs, ref ∈ subjectRefs records
  key : c.sign = true → D.signingKey.isSome
  deterministic : enforceDeterminism D (c.engine.seed D) = .ok ()
  slice : batch.minSlice < D.settings.NUM_SLICES
  fitted : ∀ seed, c.engine = .mlp seed → sliceZero (retain records c.refs) ≠ []

variable {c : Call} {s t : Process D} {routing : Routing} {batch : Batch} {records : Records D.V}

theorem Modelled.rebuilt {result : Result D} {x : Stages D}
    (hx : Rebuilds c.engine.parts c.refs c.sign c.clock s t result x)
    (hslice : x.batch.minSlice < D.settings.NUM_SLICES)
    (h : Modelled c.engine x.batch.shard s) : Modelled c.engine x.batch.shard t := by
  obtain ⟨engine,refs,sign,clock⟩ := c
  rw [hx.final]
  cases engine with
  | mlp seed =>
    intro i hi
    obtain ⟨-,-,-,-,preproc,start,total,-,-,-,-,hat⟩ := Rebuild.run_retrain.mp hx.retrain
    dsimp only
    rw [hat, trained_checkpoints]
    split
    · rfl
    · exact h i hi
  | gbdt treesPerSlice =>
    obtain ⟨booster,hbooster,hlength⟩ := h
    obtain ⟨-,booster',kept,rebuilt,hb,hk,htrain,-,hat⟩ := Gbdt.run_retrain.mp hx.retrain
    cases hbooster.symm.trans hb
    obtain ⟨-,-,hrebuilt⟩ := Gbdt.trainShard_eq_ok.mp htrain
    rw [if_pos hslice] at hrebuilt
    refine ⟨rebuilt,?_,?_⟩
    · rw [hat]
      exact Function.update_self ..
    · have hkept : x.batch.minSlice * treesPerSlice ≤ (kept.getD []).length := by
        have hrollback := Gbdt.rollback_eq_ok.mp hk
        split at hrollback
        · next hzero =>
          rw [hzero, Nat.zero_mul]
          exact Nat.zero_le _
        · rw [hrollback.2, Option.getD_some, List.length_take, min_eq_left hrollback.1]
      rw [hrebuilt, Gbdt.length_boostSlices, Nat.sub_mul]
      omega

/-- A call that finds everything leaves the shard ready for the next one. -/
theorem Ready.stocked (h : Ready c s batch records) (hr : s.1.routing = some routing)
    (hm : Modelled c.engine batch.shard s) : ∃ result t, c.program.run fileExec s = (.ok result,t) ∧
      result.shard = batch.shard ∧ Stocked c.engine batch.shard (routing.without c.refs) (retain records c.refs) t := by
  obtain ⟨result,t,hrun⟩ := Call.returns h
  obtain ⟨x,hx,hp⟩ := Call.returned hrun
  obtain ⟨routing',hr',hloc⟩ := h.located
  obtain rfl : routing = routing' := Option.some.inj (hr.symm.trans hr')
  obtain rfl : routing = x.routing := Option.some.inj (hr.symm.trans hx.routing)
  obtain rfl : batch = x.batch := Except.ok.inj (hloc.symm.trans hx.batch)
  obtain rfl : records = x.records := Option.some.inj (h.shardFile.symm.trans hx.records)
  have htree := (Call.tree_keys hx).resolve_right h.cache
  have hmodels := hm.rebuilt hx h.slice
  refine ⟨result,t,hrun,by rw [hx.result],?_,?_,?_,hmodels⟩
  · rw [hx.final]
  · rw [hx.final, hp.shards]
    exact Function.update_self ..
  · intro tree hcached
    rw [hx.final] at hcached
    dsimp only at hcached
    rw [Smt.cacheTree, Function.update_self] at hcached
    rw [← Option.some.inj hcached, htree]

theorem Stocked.not_cacheCollision {engine : ModelEngine} {shard : ℕ} (h : Stocked engine shard routing records s) :
    ¬CacheCollision s shard := by
  rintro ⟨tree,records',htree,hrecords,a,ha,b,hb,hne,-⟩
  obtain rfl : records = records' := Option.some.inj (h.shardFile.symm.trans hrecords)
  rw [h.cached tree htree, List.mem_pair, or_self] at ha hb
  exact hne (ha.trans hb.symm)

theorem Stocked.ready (h : Stocked c.engine batch.shard routing records s) (hc : c.Fits routing batch records) :
    Ready c s batch records := by
  have hmodels := h.models
  refine ⟨hc.nonempty,hc.nodup,⟨routing,h.routed,hc.located⟩,h.shardFile,hc.present,h.not_cacheCollision,hc.key,
    hc.deterministic,hc.slice,?_⟩
  have hslice := hc.slice
  cases he : c.engine with
  | mlp seed =>
    rw [he] at hmodels
    exact ⟨hc.fitted seed he,fun hpos => hmodels _ (by omega)⟩
  | gbdt treesPerSlice =>
    rw [he] at hmodels
    obtain ⟨booster,hbooster,hlength⟩ := hmodels
    exact ⟨booster,hbooster,(Nat.mul_le_mul_right _ hslice.le).trans hlength⟩

/-- One call after the other returns. -/
theorem Stocked.returns {engine : ModelEngine} {shard minSlice : ℕ} (h : Stocked engine shard routing records s)
    (he : c.engine = engine) (hc : c.Fits routing ⟨shard,minSlice⟩ records) :
    ∃ result t, c.program.run fileExec s = (.ok result,t) ∧ result.shard = shard ∧
      Stocked engine shard (routing.without c.refs) (retain records c.refs) t := by
  subst he
  exact (Stocked.ready h hc).stocked h.routed h.models

/-- So does a training from nothing, in a fresh process. -/
theorem Stocked.trained {shard : ℕ} {seed : ℤ} {digests : List (ℕ × String)} (hr : s.1.routing = some routing)
    (hs : s.1.shards shard = some records) (hc : s.2 shard = none)
    (h : (trainShard shard none 0 none seed).run fileExec s = (.ok digests,t)) :
    Stocked (.mlp seed) shard routing records t := by
  obtain ⟨records',-,hrun⟩ := run_trainShard_none.mp h
  obtain ⟨-,preproc,start,-,-,-,rfl⟩ := run_trainShard.mp hrun
  refine ⟨hr,hs,fun tree htree => ?_,fun i hi => ?_⟩
  · cases hc.symm.trans htree
  · rw [trained_checkpoints, if_pos ⟨Nat.zero_le i,by omega⟩]
    rfl

end Continuing

section Sample

/-- A deployment with one shard whose models are the values they were trained on. -/
def logging (numSlices : ℕ) : Deployment where
  V := ℕ
  settings := ⟨1,numSlices,1,256,"0.001",1337,"git:0",1,some "0"⟩
  mlp := {
    Preproc := List ℕ, Example := ℕ, Model := List ℕ, Optimizer := Unit, Generator := ℤ, Weights := List ℕ
    fit := id, toJson := fun values => toString values, transform := fun _ v => v
    buildModel := fun _ => [], loadStateDict := fun _ weights => weights, adam := fun _ _ => ()
    manualSeed := id, loader := fun _ examples g => ([examples],g)
    step := fun t batch => (t.1 ++ batch,t.2), stateDict := id, tensorBytes := fun w => w.map UInt8.ofNat}
  gbdt := ⟨List ℕ,fun data _ => data,fun trees => trees.flatten.map UInt8.ofNat⟩
  H := sha256
  signingKey := some Storage.sampleKey

def sampleRef (n : UInt8) : Ref := ⟨n :: List.replicate 31 0,rfl⟩

def sampleRouting : Routing := Dict.ofList [
  (sampleRef 1,⟨"dev",0,0,1⟩), (sampleRef 2,⟨"dev",0,0,1⟩), (sampleRef 3,⟨"dev",0,1,1⟩)]

def sampleRecords : Records ℕ := [⟨sampleRef 1,0,10⟩, ⟨sampleRef 2,0,20⟩, ⟨sampleRef 3,1,30⟩]

def partitioned (records : Records ℕ) : Process (logging 2) :=
  (⟨some sampleRouting,fun shard => if shard = 0 then some records else none,fun _ => none,fun _ _ => none,
    fun _ => none⟩,fun _ => none)

def sampleProcess : Process (logging 2) := partitioned sampleRecords

def trained (records : Records ℕ) : Process (logging 2) :=
  ((trainShard (D := logging 2) 0 none 0 none 1337).run fileExec (partitioned records)).2

def sampleTrained : Process (logging 2) := trained sampleRecords

def sampleBoosted : Process (logging 2) := ((Gbdt.build sampleRouting 1).run fileExec sampleProcess).2

def sampleCall (engine : ModelEngine) (refs : List Ref) : Call := ⟨engine,refs,true,⟨"2024-01-01","2024-01-02"⟩⟩

theorem not_cacheCollision {s : Process D} {shard : ℕ} (h : s.2 shard = none) : ¬CacheCollision s shard := by
  rintro ⟨cached,records,hc,-⟩
  rw [h] at hc
  cases hc

theorem sampleTrained_ready : Ready (sampleCall (.mlp 1337) [sampleRef 3]) sampleTrained ⟨0,1⟩ sampleRecords where
  nonempty := List.cons_ne_nil _ _
  nodup := List.nodup_singleton _
  located := ⟨sampleRouting,rfl,rfl⟩
  shardFile := rfl
  present := by decide
  cache := not_cacheCollision rfl
  key := fun _ => rfl
  deterministic := rfl
  slice := Nat.one_lt_two
  model := ⟨by decide,fun _ => rfl⟩

theorem sampleBoosted_ready : Ready (sampleCall (.gbdt 1) [sampleRef 3]) sampleBoosted ⟨0,1⟩ sampleRecords where
  nonempty := List.cons_ne_nil _ _
  nodup := List.nodup_singleton _
  located := ⟨sampleRouting,rfl,rfl⟩
  shardFile := rfl
  present := by decide
  cache := not_cacheCollision rfl
  key := fun _ => rfl
  deterministic := rfl
  slice := Nat.one_lt_two
  model := ⟨_,rfl,by decide⟩

theorem sampleBoosted_stocked : Stocked (.gbdt 1) 0 sampleRouting sampleRecords sampleBoosted where
  routed := rfl
  shardFile := rfl
  cached := fun _ htree => by cases htree
  models := ⟨_,rfl,by decide⟩

theorem boostedCall_fits (minSlice : ℕ) {refs : List Ref} {routing : Routing} {records : Records ℕ}
    (hne : refs ≠ []) (hn : refs.Nodup) (hloc : locate routing refs = .ok ⟨0,minSlice⟩)
    (hmem : ∀ ref ∈ refs, ref ∈ subjectRefs records) (hslice : minSlice < 2) :
    (sampleCall (.gbdt 1) refs).Fits (D := logging 2) routing ⟨0,minSlice⟩ records :=
  ⟨hne,hn,hloc,hmem,fun _ => rfl,rfl,hslice,fun _ h => by cases h⟩

def pairRouting : Routing := Dict.ofList [(sampleRef 1,⟨"dev",0,0,1⟩), (sampleRef 2,⟨"dev",0,0,1⟩),
  (sampleRef 3,⟨"dev",0,1,1⟩), (sampleRef 4,⟨"dev",0,1,1⟩)]

def pairRecords : Records ℕ :=
  [⟨sampleRef 1,0,10⟩, ⟨sampleRef 2,0,20⟩, ⟨sampleRef 3,1,30⟩, ⟨sampleRef 4,1,40⟩]

def pairs (records : Records ℕ) : Process (logging 2) :=
  (⟨some pairRouting,fun shard => if shard = 0 then some records else none,fun _ => none,fun _ _ => none,
    fun _ => none⟩,fun _ => none)

def pairsTrained (records : Records ℕ) : Process (logging 2) :=
  ((trainShard (D := logging 2) 0 none 0 none 1337).run fileExec (pairs records)).2

theorem pairsTrained_run (records : Records ℕ) (h : sliceZero records ≠ []) : ∃ digests,
    (trainShard (D := logging 2) 0 none 0 none 1337).run fileExec (pairs records) =
      (.ok digests,pairsTrained records) := by
  have hrun : ∃ digests t, (trainShard (D := logging 2) 0 (some records) 0 none 1337).run fileExec (pairs records) =
      (.ok digests,t) := ⟨_,_,run_trainShard.mpr ⟨rfl,_,_,if_neg h,rfl,rfl,rfl⟩⟩
  obtain ⟨digests,t,hrun⟩ := hrun
  have hfile := (run_trainShard_none (D := logging 2) (s := pairs records)).mpr ⟨records,rfl,hrun⟩
  refine ⟨digests,?_⟩
  rw [pairsTrained, hfile]

theorem pairsTrained_stocked {records : Records ℕ} (h : sliceZero records ≠ []) :
    Stocked (.mlp 1337) 0 pairRouting records (pairsTrained records) := by
  obtain ⟨digests,hrun⟩ := pairsTrained_run records h
  exact Stocked.trained rfl rfl rfl hrun

theorem sampleCall_fits (minSlice : ℕ) {seed : ℤ} {refs : List Ref} {routing : Routing} {records : Records D.V}
    (hkey : D.signingKey.isSome) (hseed : enforceDeterminism D seed = .ok ()) (hne : refs ≠ []) (hn : refs.Nodup)
    (hloc : locate routing refs = .ok ⟨0,minSlice⟩) (hmem : ∀ ref ∈ refs, ref ∈ subjectRefs records)
    (hslice : minSlice < D.settings.NUM_SLICES) (hfit : sliceZero (retain records refs) ≠ []) :
    (sampleCall (.mlp seed) refs).Fits routing ⟨0,minSlice⟩ records :=
  ⟨hne,hn,hloc,hmem,fun _ => hkey,hseed,hslice,fun _ _ => hfit⟩

end Sample

end UnlearnShield.Engine
