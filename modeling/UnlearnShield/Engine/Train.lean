import UnlearnShield.Engine.Data

/-! # Training a shard slice by slice

`train_shard` keeps the network and its optimiser in memory from one slice to the
next and writes a checkpoint of the network after each. `afterSlices` is what it
holds in memory, as a function of the rows, and `run_trainShard` says what it leaves
on disk in terms of it.
-/
namespace UnlearnShield.Engine
open Deployment
variable {D : Deployment}

variable (D) in
/-- The check of the environment, and the one `np.random.seed` makes. -/
def enforceDeterminism (seed : ℤ) : Py Unit :=
  if D.settings.PYTHONHASHSEED ≠ some "0" then raise .determinismError
    ("PYTHONHASHSEED must be 0 and can only be set before the interpreter starts. " ++
      "Re-run as: PYTHONHASHSEED=0 <command>")
  else if 0 ≤ seed ∧ seed < 2^32 then .ok ()
  else raise .valueError "Seed must be between 0 and 2**32 - 1"

theorem enforceDeterminism_eq_ok {seed : ℤ} :
    enforceDeterminism D seed = .ok () ↔ D.settings.PYTHONHASHSEED = some "0" ∧ 0 ≤ seed ∧ seed < 2^32 := by
  unfold enforceDeterminism
  by_cases hhash : D.settings.PYTHONHASHSEED = some "0"
  · by_cases hseed : 0 ≤ seed ∧ seed < 2^32 <;> simp [hhash, hseed, raise]
  · simp [hhash, raise]

/-- `records["slice_idx"] <= slice_idx`: at step `i` SISA trains on slices `0..i`. -/
def upto {V : Type} (records : Records V) (sliceIdx : ℕ) : List V :=
  (records.filter fun r => r.sliceIdx ≤ sliceIdx).map Row.values

def sliceZero {V : Type} (records : Records V) : List V :=
  (records.filter fun r => r.sliceIdx = 0).map Row.values

theorem sliceZero_eq_upto {V : Type} (records : Records V) : sliceZero records = upto records 0 := by
  simp [sliceZero, upto]

def fitPreprocessor (records : Records D.V) : Py D.mlp.Preproc :=
  if sliceZero records = [] then raise .valueError "cannot fit a preprocessor on zero rows"
  else .ok (D.mlp.fit (sliceZero records))

variable (D) in
/-- The network and its optimiser, as they are in memory. -/
abbrev Training := D.mlp.Model × D.mlp.Optimizer

def epochs (examples : List D.mlp.Example) : ℕ → D.mlp.Generator → Training D → Training D
  | 0, _, t => t
  | n + 1, g, t =>
    let (batches,g') := D.mlp.loader D.settings.BATCH_SIZE examples g
    epochs examples n g' (batches.foldl D.mlp.step t)

def trainSlice (preproc : D.mlp.Preproc) (records : Records D.V) (seed : ℤ) (sliceIdx : ℕ) (t : Training D) :
    Training D :=
  epochs ((upto records sliceIdx).map (D.mlp.transform preproc)) D.settings.EPOCHS_PER_SLICE
    (D.mlp.manualSeed (seed + sliceIdx)) t

def startTraining (fromSlice : ℕ) (resumeState : Option D.Weights) (seed : ℤ) : Py (Training D) :=
  let optimised (model : D.mlp.Model) := (model,D.mlp.adam model D.settings.LEARNING_RATE)
  if fromSlice = 0 then .ok (optimised (D.mlp.buildModel seed))
  else
    match resumeState with
    | none => raise .valueError s!"resuming at slice {fromSlice} needs a checkpoint"
    | some weights => .ok (optimised (D.mlp.loadStateDict (D.mlp.buildModel seed) weights))

def stateDictDigest (weights : D.Weights) : String := (D.H (D.mlp.tensorBytes weights)).val.hex

def trainSlices (shard : ℕ) (preproc : D.mlp.Preproc) (records : Records D.V) (seed : ℤ) :
    ℕ → ℕ → Training D → FileM D (List (ℕ × String))
  | 0, _, _ => pure []
  | n + 1, sliceIdx, t => do
    let t' := trainSlice preproc records seed sliceIdx t
    saveCheckpoint shard sliceIdx (D.mlp.stateDict t'.1)
    let digests ← trainSlices shard preproc records seed n (sliceIdx+1) t'
    pure ((sliceIdx,stateDictDigest (D.mlp.stateDict t'.1)) :: digests)

def trainShard (shard : ℕ) (records : Option (Records D.V)) (fromSlice : ℕ) (resumeState : Option D.Weights)
    (seed : ℤ) : FileM D (List (ℕ × String)) := do
  Program.lift (enforceDeterminism D seed)
  let records ← match records with
    | some records => pure records
    | none => loadShard shard
  let preproc ← Program.lift (fitPreprocessor records)
  let start ← Program.lift (startTraining fromSlice resumeState seed)
  writePreproc shard (D.mlp.toJson preproc)
  trainSlices shard preproc records seed (D.settings.NUM_SLICES - fromSlice) fromSlice start

def afterSlices (preproc : D.mlp.Preproc) (records : Records D.V) (seed : ℤ) (sliceIdx : ℕ) (t : Training D) :
    ℕ → Training D
  | 0 => t
  | n + 1 => trainSlice preproc records seed (sliceIdx+n) (afterSlices preproc records seed sliceIdx t n)

theorem afterSlices_succ (preproc : D.mlp.Preproc) (records : Records D.V) (seed : ℤ) (i : ℕ) (t : Training D)
    (n : ℕ) : afterSlices preproc records seed i t (n+1) =
      afterSlices preproc records seed (i+1) (trainSlice preproc records seed i t) n := by
  induction n with
  | zero => rfl
  | succ n ih =>
    rw [afterSlices, ih, afterSlices, show i + (n+1) = i + 1 + n by omega]

/-- Training depends on the rows of the slices trained on and on nothing else. -/
theorem afterSlices_congr {preproc : D.mlp.Preproc} {records records' : Records D.V} {seed : ℤ} {i n : ℕ}
    {t : Training D} (h : ∀ j < i + n, upto records j = upto records' j) :
    afterSlices preproc records seed i t n = afterSlices preproc records' seed i t n := by
  induction n with
  | zero => rfl
  | succ n ih =>
    have hn := ih fun j hj => h j (by omega)
    rw [afterSlices, afterSlices, hn, trainSlice, trainSlice, h (i+n) (by omega)]

def Disk.trained (d : Disk D) (shard sliceIdx n : ℕ) (after : ℕ → Training D) : Disk D :=
  {d with checkpoints := fun k j =>
    if k = shard ∧ sliceIdx ≤ j ∧ j < sliceIdx + n then some (D.mlp.stateDict (after (j + 1 - sliceIdx)).1)
    else d.checkpoints k j}

theorem trained_zero (d : Disk D) (shard i : ℕ) (after : ℕ → Training D) : Disk.trained d shard i 0 after = d := by
  refine Disk.ext rfl rfl rfl ?_ rfl
  funext k j
  exact if_neg fun h => by omega

theorem trained_succ (d : Disk D) (shard i n : ℕ) (after : ℕ → Training D) :
    Disk.trained (d.setCheckpoint shard i (D.mlp.stateDict (after 1).1)) shard (i+1) n (fun j => after (j+1)) =
      Disk.trained d shard i (n+1) after := by
  unfold Disk.trained Disk.setCheckpoint
  congr 1
  funext k j
  by_cases hk : k = shard
  · by_cases hi : j = i
    · subst hi
      simp [hk]
    · simp only [hk, hi, true_and, and_false, ↓reduceIte]
      have hle : i + 1 ≤ j ∧ j < i + 1 + n ↔ i ≤ j ∧ j < i + (n+1) := by omega
      simp only [hle]
      split
      · next h => rw [show j + 1 - (i+1) + 1 = j + 1 - i by omega]
      · rfl
  · simp [hk]

theorem trained_checkpoints (d : Disk D) (shard i n j : ℕ) (after : ℕ → Training D) :
    (Disk.trained d shard i n after).checkpoints shard j =
      if i ≤ j ∧ j < i + n then some (D.mlp.stateDict (after (j + 1 - i)).1) else d.checkpoints shard j := by
  simp [Disk.trained]

theorem trained_checkpoints_of_ne (d : Disk D) {shard k : ℕ} (h : k ≠ shard) (i n j : ℕ) (after : ℕ → Training D) :
    (Disk.trained d shard i n after).checkpoints k j = d.checkpoints k j := by
  simp [Disk.trained, h]

theorem run_trainSlices (shard : ℕ) (preproc : D.mlp.Preproc) (records : Records D.V) (seed : ℤ) (n i : ℕ)
    (t : Training D) (s : Process D) :
    (trainSlices shard preproc records seed n i t).run fileExec s =
      (.ok ((List.range n).map fun j =>
          (i + j,stateDictDigest (D.mlp.stateDict (afterSlices preproc records seed i t (j+1)).1))),
        (Disk.trained s.1 shard i n (afterSlices preproc records seed i t),s.2)) := by
  induction n generalizing i t s with
  | zero =>
    rw [trained_zero]
    rfl
  | succ n ih =>
    rw [trainSlices, Program.run_bind_of_ok (run_saveCheckpoint _ _ _), Program.run_bind_of_ok (ih _ _ _)]
    have hafter : ∀ j, afterSlices preproc records seed (i+1) (trainSlice preproc records seed i t) j =
        afterSlices preproc records seed i t (j+1) := fun j => (afterSlices_succ ..).symm
    have hone : trainSlice preproc records seed i t = afterSlices preproc records seed i t 1 := rfl
    have hdisk := trained_succ s.1 shard i n (afterSlices preproc records seed i t)
    rw [← funext hafter, ← hone] at hdisk
    dsimp only
    rw [hdisk, funext hafter, List.range_succ_eq_map, Program.pure_eq, Program.run, List.map_cons, List.map_map]
    have htail : ∀ j, i + 1 + j = i + (j+1) := fun j => by omega
    simp only [htail]
    rfl

def digestsFrom (fromSlice : ℕ) (after : ℕ → Training D) : List (ℕ × String) :=
  (List.range (D.settings.NUM_SLICES - fromSlice)).map fun j =>
    (fromSlice + j,stateDictDigest (D.mlp.stateDict (after (j+1)).1))

/-- `digests[NUM_SLICES - 1]` is there when at least one slice was trained. -/
theorem get?_digestsFrom {fromSlice : ℕ} {after : ℕ → Training D} {digest : String} :
    (Dict.ofList (digestsFrom fromSlice after)).get? (D.settings.NUM_SLICES - 1) = some digest ↔
      fromSlice < D.settings.NUM_SLICES ∧
      digest = stateDictDigest (D.mlp.stateDict (after (D.settings.NUM_SLICES - fromSlice)).1) := by
  have hkeys : (digestsFrom fromSlice after).map Prod.fst =
      (List.range (D.settings.NUM_SLICES - fromSlice)).map (fromSlice + ·) := by
    rw [digestsFrom, List.map_map]
    rfl
  have hn : ((digestsFrom fromSlice after).map Prod.fst).Nodup := by
    rw [hkeys]
    exact List.nodup_range.map fun a b h => Nat.add_left_cancel h
  rw [Dict.get?_eq_some, Dict.entries_ofList hn, digestsFrom, List.mem_map]
  constructor
  · rintro ⟨j,hj,h⟩
    have hlt := List.mem_range.mp hj
    obtain ⟨hi,rfl⟩ := Prod.mk.inj h
    exact ⟨by omega,by rw [show D.settings.NUM_SLICES - fromSlice = j + 1 by omega]⟩
  · rintro ⟨hlt,rfl⟩
    refine ⟨D.settings.NUM_SLICES - fromSlice - 1,List.mem_range.mpr (by omega),Prod.ext (by dsimp; omega) ?_⟩
    dsimp only
    rw [Nat.sub_add_cancel (by omega)]

/-- A call that returns has fitted the scaler, written it, and left every checkpoint from
`fromSlice` on as the slices were trained. -/
theorem run_trainShard {shard fromSlice : ℕ} {records : Records D.V} {resumeState : Option D.Weights} {seed : ℤ}
    {s t : Process D} {digests : List (ℕ × String)} :
    (trainShard shard (some records) fromSlice resumeState seed).run fileExec s = (.ok digests,t) ↔
      enforceDeterminism D seed = .ok () ∧ ∃ preproc start, fitPreprocessor records = .ok preproc ∧
        startTraining fromSlice resumeState seed = .ok start ∧
        digests = digestsFrom fromSlice (afterSlices preproc records seed fromSlice start) ∧
        t = (Disk.trained {s.1 with preproc := Function.update s.1.preproc shard (some (D.mlp.toJson preproc))}
          shard fromSlice (D.settings.NUM_SLICES - fromSlice) (afterSlices preproc records seed fromSlice start),
            s.2) := by
  simp only [trainShard, Program.run_bind_eq_ok, Program.run_lift_eq_ok, Program.run_pure_eq_ok, run_writePreproc,
    run_trainSlices, Prod.mk.injEq, Except.ok.injEq]
  constructor
  · rintro ⟨_,_,⟨hd,rfl⟩,_,_,⟨rfl,rfl⟩,preproc,_,⟨hp,rfl⟩,start,_,⟨hs,rfl⟩,_,_,⟨-,rfl⟩,rfl,rfl⟩
    exact ⟨hd,preproc,start,hp,hs,rfl,rfl⟩
  · rintro ⟨hd,preproc,start,hp,hs,rfl,rfl⟩
    exact ⟨(),s,⟨hd,rfl⟩,records,s,⟨rfl,rfl⟩,preproc,s,⟨hp,rfl⟩,start,s,⟨hs,rfl⟩,(),_,⟨trivial,rfl⟩,rfl,rfl⟩

/-- Without records, `train_shard` loads those of the shard file. -/
theorem run_trainShard_none {shard fromSlice : ℕ} {resumeState : Option D.Weights} {seed : ℤ} {s t : Process D}
    {digests : List (ℕ × String)} :
    (trainShard shard none fromSlice resumeState seed).run fileExec s = (.ok digests,t) ↔
      ∃ records, s.1.shards shard = some records ∧
        (trainShard shard (some records) fromSlice resumeState seed).run fileExec s = (.ok digests,t) := by
  simp only [trainShard, Program.run_bind_eq_ok, Program.run_lift_eq_ok, Program.run_pure_eq_ok, run_loadShard]
  constructor
  · rintro ⟨_,_,⟨hd,rfl⟩,records,_,⟨hs,rfl⟩,rest⟩
    exact ⟨records,hs,(),s,⟨hd,rfl⟩,records,s,⟨rfl,rfl⟩,rest⟩
  · rintro ⟨records,hs,_,_,⟨hd,rfl⟩,_,_,⟨rfl,rfl⟩,rest⟩
    exact ⟨(),s,⟨hd,rfl⟩,records,s,⟨hs,rfl⟩,rest⟩

end UnlearnShield.Engine
