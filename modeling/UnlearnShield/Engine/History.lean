import UnlearnShield.Engine.Progress

/-! # Histories of one shard

A shard is trained and then sees batches of erasures. A batch that rolls back to slice
0 trains on the retained rows from nothing, and its weights are a function of those
rows. A batch that resumes from a checkpoint continues with a new optimiser, where a
training from nothing would carry the one it has.
-/
namespace UnlearnShield.Engine
open Deployment
variable {D : Deployment}

namespace Rebuild

structure LastBatch where
  minSlice : ℕ
  resultWeights : String

/-- Successful calls with one seed: what they erased from the shard, and the last of them on it. -/
inductive History (shard : ℕ) (seed : ℤ) : Process D → List Ref → Option LastBatch → Process D → Prop
  | nil {s : Process D} : History shard seed s [] none s
  | onShard {s t u : Process D} {erased refs : List Ref} {last : Option LastBatch} {routing : Routing} {minSlice : ℕ}
      {sign : Bool} {clock : Clock} {result : Result D} : History shard seed s erased last t →
      t.1.routing = some routing → locate routing refs = .ok ⟨shard,minSlice⟩ →
      (rebuildBatchByRef refs seed sign clock).run fileExec t = (.ok result,u) →
      History shard seed s (erased ++ refs) (some ⟨minSlice,result.resultWeights⟩) u
  | elsewhere {s t u : Process D} {erased refs : List Ref} {last : Option LastBatch} {routing : Routing} {batch : Batch}
      {sign : Bool} {clock : Clock} {result : Result D} : History shard seed s erased last t →
      t.1.routing = some routing → locate routing refs = .ok batch → batch.shard ≠ shard →
      (rebuildBatchByRef refs seed sign clock).run fileExec t = (.ok result,u) → History shard seed s erased last u

/-- The digest of the model the shard ends with; `digests` are those of its training. -/
def finalWeights (D : Deployment) (digests : List (ℕ × String)) : Option LastBatch → Py String
  | none => lastDigest D.settings.NUM_SLICES digests
  | some last => .ok last.resultWeights

/-- `weights` is the last digest of `train_shard(shard, retained rows, from_slice=0)`. -/
def ScratchWeights (shard : ℕ) (seed : ℤ) (retained : Records D.V) (s : Process D) (weights : Py String) : Prop :=
  ∃ digests t, (trainShard shard (some retained) 0 none seed).run fileExec s = (.ok digests,t) ∧
    lastDigest D.settings.NUM_SLICES digests = weights

variable {shard : ℕ} {seed : ℤ} {s t : Process D} {erased : List Ref} {last : Option LastBatch}

/-- The shard file is the initial one without what was erased from it. -/
theorem History.shardFile (h : History shard seed s erased last t) {records : Records D.V}
    (hs : s.1.shards shard = some records) : t.1.shards shard = some (retain records erased) := by
  induction h with
  | nil => rw [hs, retain_eq_self fun _ _ => List.not_mem_nil]
  | onShard _ hroute hloc hrun ih =>
    obtain ⟨x,preproc,start,hx⟩ := Request.returned (c := ⟨_,seed,_,_⟩) hrun
    cases hroute.symm.trans hx.routing
    have hb := Except.ok.inj (hloc.symm.trans hx.batch)
    have hrecords := hx.records
    rw [← hb, ih] at hrecords
    rw [hx.shardsAfter, ← hb, Function.update_self, ← Option.some.inj hrecords, retain_append]
  | elsewhere _ hroute hloc hne hrun ih =>
    obtain ⟨x,preproc,start,hx⟩ := Request.returned (c := ⟨_,seed,_,_⟩) hrun
    cases hroute.symm.trans hx.routing
    have hb := Except.ok.inj (hloc.symm.trans hx.batch)
    rw [hx.shardsAfter, ← hb, Function.update_of_ne hne.symm]
    exact ih

/-- A training that starts at slice 0 needs no checkpoint, and every process computes the same digests. -/
theorem scratchWeights_of_fit {retained : Records D.V} {preproc : D.mlp.Preproc}
    (hd : enforceDeterminism D seed = .ok ()) (hfit : fitPreprocessor retained = .ok preproc)
    (s : Process D) : ScratchWeights shard seed retained s
      (lastDigest D.settings.NUM_SLICES (digestsFrom 0 (afterSlices preproc retained seed 0
        (D.mlp.buildModel seed,D.mlp.adam (D.mlp.buildModel seed) D.settings.LEARNING_RATE)))) :=
  ⟨_,_,run_trainShard.mpr ⟨hd,preproc,_,hfit,rfl,rfl,rfl⟩,rfl⟩

theorem ScratchWeights.unique {retained : Records D.V} {s' : Process D} {weights weights' : Py String}
    (h : ScratchWeights shard seed retained s weights) (h' : ScratchWeights shard seed retained s' weights') :
    weights = weights' := by
  obtain ⟨ds,t,hrun,rfl⟩ := h
  obtain ⟨ds',t',hrun',rfl⟩ := h'
  obtain ⟨-,preproc,start,hfit,hstart,rfl,-⟩ := run_trainShard.mp hrun
  obtain ⟨-,preproc',start',hfit',hstart',rfl,-⟩ := run_trainShard.mp hrun'
  cases hfit.symm.trans hfit'
  cases hstart.symm.trans hstart'
  rfl

/-- A history whose last batch on the shard rolled back to slice 0 ends with the weights of a
training from nothing on what it retains. -/
theorem History.scratchWeights (h : History shard seed s erased last t) {records : Records D.V} {p : Process D}
    {digests : List (ℕ × String)} (hp : p.1.shards shard = some records)
    (htrain : (trainShard shard none 0 none seed).run fileExec p = (.ok digests,s))
    (hlast : ∀ l, last = some l → l.minSlice = 0) :
    ScratchWeights shard seed (retain records erased) p (finalWeights D digests last) := by
  obtain ⟨records',hp',hrun⟩ := run_trainShard_none.mp htrain
  cases hp.symm.trans hp'
  have hs : s.1.shards shard = some records := by
    obtain ⟨-,preproc,start,-,-,-,rfl⟩ := run_trainShard.mp hrun
    exact hp
  induction h with
  | nil =>
    rw [retain_eq_self fun _ _ => List.not_mem_nil]
    exact ⟨_,_,hrun,rfl⟩
  | elsewhere _ _ _ _ _ ih => exact ih hlast
  | onShard h hroute hloc hcall _ =>
    obtain ⟨x,preproc,start,hx⟩ := Request.returned (c := ⟨_,seed,_,_⟩) hcall
    cases hroute.symm.trans hx.routing
    have hb := Except.ok.inj (hloc.symm.trans hx.batch)
    have hrecords := hx.records
    rw [← hb, h.shardFile hs] at hrecords
    have hzero : x.batch.minSlice = 0 := by
      rw [← hb]
      exact hlast _ rfl
    have hfit := hx.fitted
    have hstart := hx.start
    have hslice := hx.slice
    have hweights := hx.weights
    rw [← Option.some.inj hrecords, ← retain_append] at hfit hweights
    rw [hzero] at hstart hweights hslice
    cases hstart
    have hscratch : ScratchWeights shard seed _ p _ := scratchWeights_of_fit hx.deterministic hfit p
    rw [lastDigest_eq_ok.mpr ⟨hslice,hweights⟩] at hscratch
    exact hscratch

/-- Two histories that erase the same subjects from a trained shard, each with its last batch on the
shard at slice 0 or with none, end with the same weights, those of a training from nothing. -/
theorem weights_determined {shard : ℕ} {seed : ℤ} {p s t t' : Process D} {records : Records D.V}
    {digests : List (ℕ × String)} {erased erased' : List Ref} {last last' : Option LastBatch}
    (hp : p.1.shards shard = some records)
    (htrain : (trainShard shard none 0 none seed).run fileExec p = (.ok digests,s))
    (h : History shard seed s erased last t) (h' : History shard seed s erased' last' t')
    (hsame : ∀ ref, ref ∈ erased ↔ ref ∈ erased') (hlast : ∀ l, last = some l → l.minSlice = 0)
    (hlast' : ∀ l, last' = some l → l.minSlice = 0) :
    finalWeights D digests last = finalWeights D digests last' ∧
      ScratchWeights shard seed (retain records erased) p (finalWeights D digests last) := by
  have hscratch := h.scratchWeights hp htrain hlast
  have hscratch' := h'.scratchWeights hp htrain hlast'
  rw [← retain_congr records hsame] at hscratch'
  exact ⟨hscratch.unique hscratch',hscratch⟩

section Sample

/-- A learner whose optimiser counts its steps, as Adam does, and whose model logs the count of each. -/
def counting : Deployment := {logging 2 with
  mlp := {
    Preproc := List ℕ, Example := ℕ, Model := List ℕ, Optimizer := ℕ, Generator := ℤ, Weights := List ℕ
    fit := id, toJson := fun values => toString values, transform := fun _ v => v
    buildModel := fun _ => [], loadStateDict := fun _ weights => weights, adam := fun _ _ => 0
    manualSeed := id, loader := fun _ examples g => ([examples],g)
    step := fun t batch => (t.1 ++ t.2 :: batch,t.2+1), stateDict := id, tensorBytes := fun w => w.map UInt8.ofNat}}

def countingShard : Process counting :=
  (⟨some sampleRouting,fun shard => if shard = 0 then some sampleRecords else none,fun _ => none,fun _ _ => none,
    fun _ => none⟩,fun _ => none)

def countingTrained : Process counting := ((trainShard 0 none 0 none 1337).run fileExec countingShard).2

theorem countingTrained_run : ∃ digests,
    (trainShard 0 none 0 none 1337).run fileExec countingShard = (.ok digests,countingTrained) := ⟨_,rfl⟩

theorem countingTrained_stocked : Stocked (.mlp 1337) 0 sampleRouting sampleRecords countingTrained := by
  obtain ⟨digests,hrun⟩ := countingTrained_run
  exact Stocked.trained rfl rfl rfl hrun

/-- The third subject and then the first are erased, or both in one batch. -/
theorem weights_determined_sample : ∃ last last' t t',
    History 0 1337 countingTrained [sampleRef 3,sampleRef 1] (some last) t ∧
    History 0 1337 countingTrained [sampleRef 1,sampleRef 3] (some last') t' ∧
    last.resultWeights = last'.resultWeights ∧
    ScratchWeights 0 1337 (retain sampleRecords [sampleRef 3,sampleRef 1]) countingShard (.ok last.resultWeights) := by
  obtain ⟨digests,htrain⟩ := countingTrained_run
  obtain ⟨result₃,s₃,hrun₃,-,hstocked⟩ := countingTrained_stocked.returns rfl (sampleCall_fits 1 rfl rfl
    (List.cons_ne_nil (sampleRef 3) _) (List.nodup_singleton _) rfl (by decide) Nat.one_lt_two (by decide))
  obtain ⟨result,t,hrun,-⟩ := hstocked.returns rfl (sampleCall_fits 0 rfl rfl
    (List.cons_ne_nil (sampleRef 1) _) (List.nodup_singleton _) rfl (by decide) Nat.two_pos (by decide))
  obtain ⟨result',t',hrun',-⟩ := countingTrained_stocked.returns rfl (sampleCall_fits 0 rfl rfl
    (List.cons_ne_nil (sampleRef 1) [sampleRef 3]) (by decide) rfl (by decide) Nat.two_pos (by decide))
  have hboth : History 0 1337 countingTrained [sampleRef 3,sampleRef 1] (some ⟨0,result.resultWeights⟩) t :=
    .onShard (.onShard .nil rfl rfl hrun₃) hstocked.routed rfl hrun
  have hbatch : History 0 1337 countingTrained [sampleRef 1,sampleRef 3] (some ⟨0,result'.resultWeights⟩) t' :=
    .onShard .nil rfl rfl hrun'
  have hzero : ∀ weights l, some (LastBatch.mk 0 weights) = some l → l.minSlice = 0 := fun weights l hl => by
    cases hl
    rfl
  have hsame : ∀ ref, ref ∈ [sampleRef 3,sampleRef 1] ↔ ref ∈ [sampleRef 1,sampleRef 3] := fun ref => by
    simp only [List.mem_cons, List.not_mem_nil, or_false]
    exact or_comm
  obtain ⟨heq,hscratch⟩ := weights_determined rfl htrain hboth hbatch hsame (hzero _) (hzero _)
  exact ⟨_,_,t,t',hboth,hbatch,Except.ok.inj heq,hscratch⟩

theorem counting_digests_ne : stateDictDigest (D := counting) ([0,10,20,0,10,20] : List ℕ) ≠
    stateDictDigest (D := counting) ([0,10,20,1,10,20] : List ℕ) := by
  have hne : (sha256 [0,10,20,0,10,20]).val ≠ (sha256 [0,10,20,1,10,20]).val := by decide +kernel
  exact fun h => hne (Bytes.hex_injective h)

/-- After an erasure from slice 1 the optimiser is new where a training from nothing has one that has
taken steps, and the weights differ. -/
theorem not_weights_determined : ∃ last t, History 0 1337 countingTrained [sampleRef 3] (some last) t ∧
    ¬ScratchWeights 0 1337 (retain sampleRecords [sampleRef 3]) countingShard (.ok last.resultWeights) := by
  obtain ⟨result,t,hrun,-⟩ := countingTrained_stocked.returns rfl (sampleCall_fits 1 rfl rfl
    (List.cons_ne_nil (sampleRef 3) _) (List.nodup_singleton _) rfl (by decide) Nat.one_lt_two (by decide))
  have h : History 0 1337 countingTrained [sampleRef 3] (some ⟨1,result.resultWeights⟩) t :=
    .onShard .nil rfl rfl hrun
  refine ⟨_,t,h,fun hscratch => counting_digests_ne ?_⟩
  have hfresh : ScratchWeights 0 1337 (retain sampleRecords [sampleRef 3]) countingShard _ :=
    scratchWeights_of_fit rfl rfl countingShard
  have hweights := lastDigest_eq_ok.mp (hfresh.unique hscratch)
  obtain ⟨x,preproc,start,hx⟩ := Request.returned (c := ⟨_,1337,_,_⟩) hrun
  have hroute : sampleRouting = x.routing := Option.some.inj hx.routing
  have hlocated := hx.batch
  rw [← hroute] at hlocated
  have hb : (⟨0,1⟩ : Batch) = x.batch := Except.ok.inj hlocated
  have hrecords := hx.records
  have hstart := hx.start
  have hresumed := hx.weights
  rw [← hb] at hrecords hstart hresumed
  have hrows : sampleRecords = x.records := Option.some.inj hrecords
  rw [← hrows] at hresumed
  cases hstart
  exact hresumed.symm.trans hweights.2

end Sample

end Rebuild

end UnlearnShield.Engine
