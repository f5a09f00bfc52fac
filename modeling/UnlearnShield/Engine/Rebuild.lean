import UnlearnShield.Engine.Batch

/-! # The MLP engine

`rebuild_batch_by_ref` purges the subjects, resumes from the checkpoint before their
earliest slice and trains the later slices again on what is left.
-/
namespace UnlearnShield.Engine
open Deployment
variable {D : Deployment} {V : Type}

def retain (records : Records V) (refs : List Ref) : Records V := records.filter fun r => r.subjectRef ∉ refs

theorem retain_append {V : Type} (records : Records V) (erased refs : List Ref) :
    retain records (erased ++ refs) = retain (retain records erased) refs := by
  unfold retain
  rw [List.filter_filter]
  apply List.filter_congr
  intro row _
  simp [Bool.and_comm]

theorem mem_retain {V : Type} {records : Records V} {refs : List Ref} {row : Row V} :
    row ∈ retain records refs ↔ row ∈ records ∧ row.subjectRef ∉ refs := by
  simp [retain]

theorem retain_eq_self {V : Type} {records : Records V} {refs : List Ref}
    (h : ∀ row ∈ records, row.subjectRef ∉ refs) : retain records refs = records := by
  rw [retain, List.filter_eq_self]
  simpa using h

/-- What is retained depends on the set of the purged subjects. -/
theorem retain_congr (records : Records V) {refs refs' : List Ref} (h : ∀ ref, ref ∈ refs ↔ ref ∈ refs') :
    retain records refs = retain records refs' := by
  apply List.filter_congr
  intro row _
  simp only [h]

theorem length_retain_le (records : Records V) (refs : List Ref) : (retain records refs).length ≤ records.length :=
  List.length_filter_le ..

theorem retain_comm (records : Records V) (a b : List Ref) :
    retain (retain records a) b = retain (retain records b) a := by
  unfold retain
  rw [List.filter_comm]

/-- Purging leaves alone the rows of the slices before the first one of the purged subjects. -/
theorem upto_retain {V : Type} {records : Records V} {refs : List Ref} {j : ℕ}
    (h : ∀ row ∈ records, row.subjectRef ∈ refs → j < row.sliceIdx) :
    upto (retain records refs) j = upto records j := by
  unfold upto retain
  rw [List.filter_filter]
  congr 1
  apply List.filter_congr
  intro row hrow
  by_cases hr : row.subjectRef ∈ refs
  · have hlt := h row hrow hr
    simp [hr, hlt]
  · simp [hr]

namespace Rebuild

variable (D) in
def configDigest : Py String := do
  let config ← Json.dumps (.dict [
    (.str "num_shards",.int D.settings.NUM_SHARDS), (.str "num_slices",.int D.settings.NUM_SLICES),
    (.str "epochs_per_slice",.int D.settings.EPOCHS_PER_SLICE), (.str "batch_size",.int D.settings.BATCH_SIZE),
    (.str "learning_rate",.float D.settings.LEARNING_RATE), (.str "seed",.int D.settings.SEED)])
  pure ("sha256:" ++ (D.H (Manifest.encode config)).val.hex)

def purge (records : Records V) (ref : Ref) : Records V × ℕ :=
  (records.filter fun r => r.subjectRef ≠ ref,(records.filter fun r => r.subjectRef = ref).length)

def purgeAll (shard : ℕ) : List Ref → Records V → ℕ → Py (Records V × ℕ)
  | [], records, droppedTotal => .ok (records,droppedTotal)
  | ref :: refs, records, droppedTotal =>
    let (records',dropped) := purge records ref
    if dropped = 0 then
      raise .valueError s!"routing says shard {shard} holds {ref.short}... but no rows matched"
    else purgeAll shard refs records' (droppedTotal + dropped)

/-- The checkpoint to resume from; there is none before slice 0. -/
def loadResumeState (shard minSlice : ℕ) : FileM D (Option D.Weights) :=
  if 0 < minSlice then do
    let weights ← loadCheckpoint shard (minSlice - 1)
    pure (some weights)
  else pure none

/-- `digests[NUM_SLICES - 1]`. -/
def lastDigest (numSlices : ℕ) (digests : List (ℕ × String)) : Py String :=
  match (Dict.ofList digests).get? (numSlices - 1) with
  | some digest => .ok digest
  | none => raise .keyError (toString ((numSlices : ℤ) - 1))

def retrain (seed : ℤ) (refs : List Ref) (batch : Batch) (records : Records D.V) : FileM D (Retrained D) := do
  let (retained,droppedTotal) ← Program.lift (purgeAll batch.shard refs records 0)
  saveShard batch.shard retained
  let resumeState ← loadResumeState batch.shard batch.minSlice
  let digests ← trainShard batch.shard (some retained) batch.minSlice resumeState seed
  let resultWeights ← Program.lift (lastDigest D.settings.NUM_SLICES digests)
  pure ⟨retained,droppedTotal,resultWeights,.mlp retained batch.minSlice resumeState seed⟩

def parts (seed : ℤ) : EngineParts D := ⟨configDigest D,"",retrain seed⟩

def rebuildBatchByRef (refs : List Ref) (seed : ℤ) (sign : Bool) (clock : Clock) : FileM D (Result D) :=
  rebuildBatch (parts seed) refs sign clock

theorem length_purge (records : Records V) (ref : Ref) :
    (purge records ref).2 + (purge records ref).1.length = records.length := by
  have h := List.length_eq_length_filter_add (l := records) fun r => decide (r.subjectRef = ref)
  rw [h]
  simp [purge]

theorem purge_eq_zero {records : Records V} {ref : Ref} :
    (purge records ref).2 = 0 ↔ ref ∉ subjectRefs records := by
  simp [purge, List.filter_eq_nil_iff]

theorem mem_purge {records : Records V} {ref r : Ref} :
    r ∈ subjectRefs (purge records ref).1 ↔ r ∈ subjectRefs records ∧ r ≠ ref := by
  simp only [purge, List.mem_map, List.mem_filter, decide_eq_true_eq]
  constructor
  · rintro ⟨row,⟨hrow,hne⟩,rfl⟩
    exact ⟨⟨row,hrow,rfl⟩,hne⟩
  · rintro ⟨⟨row,hrow,rfl⟩,hne⟩
    exact ⟨row,⟨hrow,hne⟩,rfl⟩

theorem retain_purge (records : Records V) (ref : Ref) (refs : List Ref) :
    retain (purge records ref).1 refs = retain records (ref :: refs) := by
  rw [retain, purge, List.filter_filter]
  apply List.filter_congr
  intro r _
  simp [Bool.and_comm]

theorem purgeAll_eq_ok {shard : ℕ} {refs : List Ref} {records retained : Records V} {n total : ℕ} :
    purgeAll shard refs records n = .ok (retained,total) ↔
      refs.Nodup ∧ (∀ ref ∈ refs, ref ∈ subjectRefs records) ∧ retained = retain records refs ∧
      total + retained.length = n + records.length := by
  induction refs generalizing records n with
  | nil =>
    have hr : retain records [] = records := by simp [retain]
    simp only [purgeAll, hr, Except.ok.injEq, Prod.mk.injEq, List.nodup_nil, List.not_mem_nil]
    constructor
    · rintro ⟨rfl,rfl⟩
      exact ⟨trivial,fun _ h => h.elim,rfl,rfl⟩
    · rintro ⟨-,-,rfl,h⟩
      exact ⟨rfl,(Nat.add_right_cancel h).symm⟩
  | cons ref refs ih =>
    have hlen := length_purge records ref
    rw [purgeAll, List.nodup_cons, List.forall_mem_cons, ← retain_purge]
    by_cases hd : (purge records ref).2 = 0
    · have hnot := purge_eq_zero.mp hd
      simp only [if_pos hd, raise, hnot, false_and, and_false, iff_false]
      rintro ⟨⟩
    · have hin : ref ∈ subjectRefs records := by
        by_contra h
        exact hd (purge_eq_zero.mpr h)
      simp only [if_neg hd, ih]
      constructor
      · rintro ⟨hn,hmem,hr,ht⟩
        exact ⟨⟨fun h => (mem_purge.mp (hmem ref h)).2 rfl,hn⟩,⟨hin,fun r h => (mem_purge.mp (hmem r h)).1⟩,hr,by omega⟩
      · rintro ⟨⟨hnew,hn⟩,⟨-,hmem⟩,hr,ht⟩
        exact ⟨hn,fun r h => mem_purge.mpr ⟨hmem r h,fun he => hnew (he ▸ h)⟩,hr,by omega⟩

def resumeState (d : Disk D) (shard minSlice : ℕ) : Option D.Weights :=
  if 0 < minSlice then d.checkpoints shard (minSlice - 1) else none

theorem run_loadResumeState {shard minSlice : ℕ} {s t : Process D} {resume : Option D.Weights} :
    (loadResumeState shard minSlice).run fileExec s = (.ok resume,t) ↔
      resume = resumeState s.1 shard minSlice ∧ (0 < minSlice → resume.isSome) ∧ s = t := by
  unfold resumeState loadResumeState
  by_cases hm : 0 < minSlice
  · simp only [if_pos hm, Program.run_bind_eq_ok, run_loadCheckpoint, Program.run_pure_eq_ok]
    constructor
    · rintro ⟨w,_,⟨hw,rfl⟩,rfl,rfl⟩
      exact ⟨hw.symm,fun _ => rfl,rfl⟩
    · rintro ⟨rfl,hs,rfl⟩
      obtain ⟨w,hw⟩ := Option.isSome_iff_exists.mp (hs hm)
      exact ⟨w,s,⟨hw,rfl⟩,hw.symm,rfl⟩
  · rw [if_neg hm, if_neg hm, Program.run_pure_eq_ok]
    constructor
    · rintro ⟨rfl,rfl⟩
      exact ⟨rfl,fun h => absurd h hm,rfl⟩
    · rintro ⟨rfl,-,rfl⟩
      exact ⟨rfl,rfl⟩

theorem lastDigest_eq_ok {fromSlice : ℕ} {after : ℕ → Training D} {digest : String} :
    lastDigest D.settings.NUM_SLICES (digestsFrom fromSlice after) = .ok digest ↔
      fromSlice < D.settings.NUM_SLICES ∧
      digest = stateDictDigest (D.mlp.stateDict (after (D.settings.NUM_SLICES - fromSlice)).1) := by
  rw [← get?_digestsFrom, lastDigest]
  cases (Dict.ofList (digestsFrom fromSlice after)).get? (D.settings.NUM_SLICES - 1) <;> simp [raise]

theorem startTraining_isSome {fromSlice : ℕ} {resume : Option D.Weights} {seed : ℤ} {start : Training D}
    (h : startTraining fromSlice resume seed = .ok start) (hm : 0 < fromSlice) : resume.isSome := by
  unfold startTraining at h
  rw [if_neg hm.ne'] at h
  cases resume with
  | none => cases h
  | some w => rfl

/-- What a retraining that returns computed and left on disk. -/
theorem run_retrain {seed : ℤ} {refs : List Ref} {batch : Batch} {records : Records D.V} {s t : Process D}
    {r : Retrained D} : (retrain seed refs batch records).run fileExec s = (.ok r,t) ↔
      refs.Nodup ∧ (∀ ref ∈ refs, ref ∈ subjectRefs records) ∧ enforceDeterminism D seed = .ok () ∧
      batch.minSlice < D.settings.NUM_SLICES ∧ ∃ preproc start total,
        fitPreprocessor (retain records refs) = .ok preproc ∧
        startTraining batch.minSlice (resumeState s.1 batch.shard batch.minSlice) seed = .ok start ∧
        total + (retain records refs).length = records.length ∧
        r = ⟨retain records refs,total,
          stateDictDigest (D.mlp.stateDict (afterSlices preproc (retain records refs) seed batch.minSlice start
            (D.settings.NUM_SLICES - batch.minSlice)).1),
          .mlp (retain records refs) batch.minSlice (resumeState s.1 batch.shard batch.minSlice) seed⟩ ∧
        t = (Disk.trained {s.1 with
            shards := Function.update s.1.shards batch.shard (some (retain records refs))
            preproc := Function.update s.1.preproc batch.shard (some (D.mlp.toJson preproc))}
          batch.shard batch.minSlice (D.settings.NUM_SLICES - batch.minSlice)
          (afterSlices preproc (retain records refs) seed batch.minSlice start),s.2) := by
  simp only [retrain, Program.run_bind_eq_ok, Program.run_lift_eq_ok, Program.run_pure_eq_ok, run_saveShard,
    run_loadResumeState, run_trainShard]
  constructor
  · rintro ⟨⟨retained,total⟩,_,⟨hpurge,rfl⟩,_,_,hsave,resume,_,⟨rfl,-,rfl⟩,digests,_,
      ⟨hd,preproc,start,hp,hs,rfl,rfl⟩,weights,_,⟨hw,rfl⟩,rfl,rfl⟩
    obtain ⟨hn,hmem,rfl,htotal⟩ := purgeAll_eq_ok.mp hpurge
    obtain ⟨hlt,rfl⟩ := lastDigest_eq_ok.mp hw
    obtain ⟨-,rfl⟩ := Prod.mk.inj hsave
    exact ⟨hn,hmem,hd,hlt,preproc,start,total,hp,hs,by rw [htotal, Nat.zero_add],rfl,rfl⟩
  · rintro ⟨hn,hmem,hd,hlt,preproc,start,total,hp,hs,htotal,rfl,rfl⟩
    exact ⟨(retain records refs,total),s,⟨purgeAll_eq_ok.mpr ⟨hn,hmem,rfl,by rw [htotal, Nat.zero_add]⟩,rfl⟩,
      (),_,rfl,_,_,
      ⟨rfl,startTraining_isSome hs,rfl⟩,_,_,⟨hd,preproc,start,hp,hs,rfl,rfl⟩,_,_,⟨lastDigest_eq_ok.mpr ⟨hlt,rfl⟩,rfl⟩,
      rfl,rfl⟩

structure Request where
  refs : List Ref
  seed : ℤ
  sign : Bool
  clock : Clock

def Request.program (c : Request) : FileM D (Result D) := rebuildBatchByRef c.refs c.seed c.sign c.clock

inductive Runs : Process D → List Request → Process D → Prop
  | nil {s : Process D} : Runs s [] s
  | cons {s t u : Process D} {c : Request} {calls : List Request} {result : Result D} :
      c.program.run fileExec s = (.ok result,t) → Runs t calls u → Runs s (c :: calls) u

structure Returned (c : Request) (s t : Process D) (res : Result D) (x : Stages D) (preproc : D.mlp.Preproc)
    (startAt : Training D) : Prop extends Rebuilds (parts c.seed) c.refs c.sign c.clock s t res x where
  present : ∀ ref ∈ c.refs, ref ∈ subjectRefs x.records
  deterministic : enforceDeterminism D c.seed = .ok ()
  slice : x.batch.minSlice < D.settings.NUM_SLICES
  fitted : fitPreprocessor (retain x.records c.refs) = .ok preproc
  start : startTraining x.batch.minSlice (resumeState s.1 x.batch.shard x.batch.minSlice) c.seed = .ok startAt
  weights : res.resultWeights = stateDictDigest (D.mlp.stateDict (afterSlices preproc (retain x.records c.refs) c.seed
    x.batch.minSlice startAt (D.settings.NUM_SLICES - x.batch.minSlice)).1)
  routingAfter : t.1.routing = some (x.routing.without c.refs)
  shardsAfter : t.1.shards = Function.update s.1.shards x.batch.shard (some (retain x.records c.refs))
  preprocAfter : t.1.preproc = Function.update s.1.preproc x.batch.shard (some (D.mlp.toJson preproc))
  checkpointsAfter : t.1.checkpoints = (Disk.trained s.1 x.batch.shard x.batch.minSlice
    (D.settings.NUM_SLICES - x.batch.minSlice)
    (afterSlices preproc (retain x.records c.refs) c.seed x.batch.minSlice startAt)).checkpoints
  cacheAfter : t.2 = Smt.cacheTree s.2 x.batch.shard x.tree

theorem Request.returned {c : Request} {s t : Process D} {result : Result D}
    (h : c.program.run fileExec s = (.ok result,t)) :
    ∃ x preproc startAt, Returned c s t result x preproc startAt := by
  obtain ⟨x,hx⟩ := run_rebuildBatch.mp h
  obtain ⟨-,hmem,hd,hlt,preproc,start,total,hp,hs,-,hr,ht⟩ := run_retrain.mp hx.retrain
  have hat : t = ({x.retrainedAt.1 with routing := some (x.routing.without c.refs)},
      Smt.cacheTree x.retrainedAt.2 x.batch.shard x.tree) := hx.final
  rw [ht] at hat
  subst hat
  refine ⟨x,preproc,start,⟨hx,hmem,hd,hlt,hp,hs,?_,rfl,rfl,rfl,rfl,rfl⟩⟩
  rw [hx.result, hr]

end Rebuild

end UnlearnShield.Engine
