import UnlearnShield.Engine.Rebuild

/-! # The GBDT engine

A booster is its list of trees, so rolling back to a slice is keeping a prefix.
-/
namespace UnlearnShield.Engine.Gbdt
open Deployment
variable {D : Deployment}

variable (D) in
def configDigest : Py String := do
  let config ← Json.dumps (.dict [
    (.str "num_shards",.int D.settings.NUM_SHARDS), (.str "num_slices",.int D.settings.NUM_SLICES),
    (.str "trees_per_slice",.int D.settings.TREES_PER_SLICE), (.str "seed",.int D.settings.SEED),
    (.str "objective",.str "binary:logistic"), (.str "max_depth",.int 4), (.str "eta",.float "0.1"),
    (.str "tree_method",.str "hist"), (.str "nthread",.int 1), (.str "base_score",.float "0.5")])
  pure ("sha256:" ++ (D.H (Manifest.encode config)).val.hex)

/-- `xgb.train`: `rounds` more trees on `data`. -/
def boost (data : List D.V) : ℕ → D.Booster → D.Booster
  | 0, booster => booster
  | n + 1, booster => boost data n (booster ++ [D.gbdt.nextTree data booster])

def boostSlices (records : Records D.V) (treesPerSlice : ℕ) : ℕ → ℕ → D.Booster → D.Booster
  | 0, _, booster => booster
  | n + 1, sliceIdx, booster =>
    boostSlices records treesPerSlice n (sliceIdx+1) (boost (upto records sliceIdx) treesPerSlice booster)

/-- `None` is the booster before any training. -/
def trainShard (records : Records D.V) (fromSlice : ℕ) (booster : Option D.Booster) (treesPerSlice : ℕ) :
    Py (Option D.Booster) :=
  if 0 < fromSlice ∧ booster = none then
    raise .valueError s!"resuming at slice {fromSlice} needs a booster to continue from"
  else do
    enforceDeterminism D D.settings.SEED
    if fromSlice < D.settings.NUM_SLICES then
      pure (some (boostSlices records treesPerSlice (D.settings.NUM_SLICES - fromSlice) fromSlice (booster.getD [])))
    else pure booster

/-- `booster[0:n]`. -/
def firstTrees (booster : D.Booster) (n : ℕ) : Py D.Booster :=
  if n ≤ booster.length then .ok (booster.take n) else raise .indexError "Layer index out of range"

def rollback (booster : D.Booster) (toSlice treesPerSlice : ℕ) : Py (Option D.Booster) :=
  if toSlice = 0 then .ok none
  else do
    let kept ← firstTrees booster (toSlice * treesPerSlice)
    pure (some kept)

def rebuildBooster (shard : ℕ) (refs : List Ref) (records : Records D.V) (minSlice : ℕ) (booster : D.Booster)
    (treesPerSlice : ℕ) : Py (Option D.Booster × Records D.V) := do
  if ∀ r ∈ records, r.subjectRef ∉ refs then
    raise .valueError s!"none of {refs.length} subject(s) found in shard {shard}"
  else
    let kept ← rollback booster minSlice treesPerSlice
    let rebuilt ← trainShard (retain records refs) minSlice kept treesPerSlice
    pure (rebuilt,retain records refs)

/-- `save_booster(rebuilt, shard)`, and the digest of what was saved. -/
def savedBooster (rebuilt : Option D.Booster) : Py D.Booster :=
  match rebuilt with
  | some booster => .ok booster
  | none => raise .attributeError "'NoneType' object has no attribute 'save_model'"

def boosterDigest (booster : D.Booster) : String := (D.H (D.gbdt.saveRaw booster)).val.hex

def build (routing : Routing) (treesPerSlice : ℕ) : FileM D Unit :=
  buildShards treesPerSlice ((routing.values.map RoutingEntry.shard).dedup.insertionSort (· ≤ ·))
where
  buildShards (treesPerSlice : ℕ) : List ℕ → FileM D Unit
    | [] => pure ()
    | shard :: shards => do
      let records ← loadShard shard
      let trained ← Program.lift (trainShard records 0 none treesPerSlice)
      let booster ← Program.lift (savedBooster trained)
      saveBooster shard booster
      buildShards treesPerSlice shards

def retrain (treesPerSlice : ℕ) (refs : List Ref) (batch : Batch) (records : Records D.V) : FileM D (Retrained D) := do
  let booster ← loadBooster batch.shard
  let (rebuilt,retained) ← Program.lift
    (rebuildBooster batch.shard refs records batch.minSlice booster treesPerSlice)
  saveShard batch.shard retained
  let saved ← Program.lift (savedBooster rebuilt)
  saveBooster batch.shard saved
  let resumeBooster ← Program.lift (rollback booster batch.minSlice treesPerSlice)
  pure ⟨retained,records.length - retained.length,boosterDigest saved,
    .gbdt retained batch.minSlice resumeBooster treesPerSlice⟩

def parts (treesPerSlice : ℕ) : EngineParts D := ⟨configDigest D,"gbdt-",retrain treesPerSlice⟩

def rebuildBatchByRef (refs : List Ref) (treesPerSlice : ℕ) (sign : Bool) (clock : Clock) : FileM D (Result D) :=
  rebuildBatch (parts treesPerSlice) refs sign clock

theorem trainShard_eq_ok {records : Records D.V} {fromSlice treesPerSlice : ℕ} {booster : Option D.Booster}
    {trained : D.Booster} : trainShard records fromSlice booster treesPerSlice = .ok (some trained) ↔
      (0 < fromSlice → booster ≠ none) ∧ enforceDeterminism D D.settings.SEED = .ok () ∧
      if fromSlice < D.settings.NUM_SLICES then
        trained = boostSlices records treesPerSlice (D.settings.NUM_SLICES - fromSlice) fromSlice (booster.getD [])
      else booster = some trained := by
  unfold trainShard
  by_cases hb : 0 < fromSlice ∧ booster = none
  · rw [if_pos hb]
    exact ⟨fun h => (nomatch h),fun h => absurd hb.2 (h.1 hb.1)⟩
  · have hb' : 0 < fromSlice → booster ≠ none := fun h he => hb ⟨h,he⟩
    rw [if_neg hb, bind_eq_ok]
    by_cases hlt : fromSlice < D.settings.NUM_SLICES
    · rw [if_pos hlt, if_pos hlt]
      constructor
      · rintro ⟨_,hd,h⟩
        exact ⟨hb',hd,(Option.some.inj (Except.ok.inj h)).symm⟩
      · rintro ⟨-,hd,rfl⟩
        exact ⟨(),hd,rfl⟩
    · rw [if_neg hlt, if_neg hlt]
      constructor
      · rintro ⟨_,hd,h⟩
        exact ⟨hb',hd,Except.ok.inj h⟩
      · rintro ⟨-,hd,rfl⟩
        exact ⟨(),hd,rfl⟩

theorem rollback_eq_ok {booster : D.Booster} {toSlice treesPerSlice : ℕ} {kept : Option D.Booster} :
    rollback booster toSlice treesPerSlice = .ok kept ↔
      if toSlice = 0 then kept = none
      else toSlice * treesPerSlice ≤ booster.length ∧ kept = some (booster.take (toSlice * treesPerSlice)) := by
  unfold rollback firstTrees
  by_cases hz : toSlice = 0
  · rw [if_pos hz, if_pos hz, Except.ok.injEq, eq_comm]
  · rw [if_neg hz, if_neg hz, bind_eq_ok]
    by_cases hle : toSlice * treesPerSlice ≤ booster.length
    · rw [if_pos hle]
      constructor
      · rintro ⟨trees,ht,h⟩
        cases ht
        exact ⟨hle,(Except.ok.inj h).symm⟩
      · rintro ⟨-,rfl⟩
        exact ⟨_,rfl,rfl⟩
    · rw [if_neg hle]
      constructor
      · rintro ⟨trees,ht,-⟩
        cases ht
      · exact fun h => absurd h.1 hle

theorem rebuildBooster_eq_ok {shard minSlice treesPerSlice : ℕ} {refs : List Ref} {records retained : Records D.V}
    {booster : D.Booster} {rebuilt : Option D.Booster} :
    rebuildBooster shard refs records minSlice booster treesPerSlice = .ok (rebuilt,retained) ↔
      (∃ row ∈ records, row.subjectRef ∈ refs) ∧ retained = retain records refs ∧
      ∃ kept, rollback booster minSlice treesPerSlice = .ok kept ∧
        trainShard (retain records refs) minSlice kept treesPerSlice = .ok rebuilt := by
  unfold rebuildBooster
  by_cases hnone : ∀ r ∈ records, r.subjectRef ∉ refs
  · rw [if_pos hnone]
    refine ⟨fun h => (nomatch h),?_⟩
    rintro ⟨⟨row,hrow,hin⟩,-⟩
    exact absurd hin (hnone row hrow)
  · rw [if_neg hnone, bind_eq_ok]
    push Not at hnone
    constructor
    · rintro ⟨kept,hk,h⟩
      obtain ⟨b,hb,h⟩ := bind_eq_ok.mp h
      obtain ⟨rfl,rfl⟩ := Prod.mk.inj (Except.ok.inj h)
      exact ⟨hnone,rfl,kept,hk,hb⟩
    · rintro ⟨-,rfl,kept,hk,hb⟩
      exact ⟨kept,hk,bind_eq_ok.mpr ⟨rebuilt,hb,rfl⟩⟩

theorem savedBooster_eq_ok {rebuilt : Option D.Booster} {booster : D.Booster} :
    savedBooster rebuilt = .ok booster ↔ rebuilt = some booster := by
  cases rebuilt <;> simp [savedBooster, raise]

theorem length_boost (data : List D.V) (n : ℕ) (booster : D.Booster) :
    (boost data n booster).length = booster.length + n := by
  induction n generalizing booster with
  | zero => rfl
  | succ n ih =>
    rw [boost, ih, List.length_append, List.length_singleton]
    omega

theorem length_boostSlices (records : Records D.V) (treesPerSlice n i : ℕ) (booster : D.Booster) :
    (boostSlices records treesPerSlice n i booster).length = booster.length + n * treesPerSlice := by
  induction n generalizing i booster with
  | zero => simp [boostSlices]
  | succ n ih =>
    rw [boostSlices, ih, length_boost]
    ring

/-- What a retraining that returns computed and left on disk. -/
theorem run_retrain {treesPerSlice : ℕ} {refs : List Ref} {batch : Batch} {records : Records D.V} {s t : Process D}
    {r : Retrained D} : (retrain treesPerSlice refs batch records).run fileExec s = (.ok r,t) ↔
      (∃ row ∈ records, row.subjectRef ∈ refs) ∧ ∃ booster kept rebuilt, s.1.boosters batch.shard = some booster ∧
        rollback booster batch.minSlice treesPerSlice = .ok kept ∧
        trainShard (retain records refs) batch.minSlice kept treesPerSlice = .ok (some rebuilt) ∧
        r = ⟨retain records refs,records.length - (retain records refs).length,boosterDigest rebuilt,
          .gbdt (retain records refs) batch.minSlice kept treesPerSlice⟩ ∧
        t = ({s.1 with
            shards := Function.update s.1.shards batch.shard (some (retain records refs))
            boosters := Function.update s.1.boosters batch.shard (some rebuilt)},s.2) := by
  simp only [retrain, Program.run_bind_eq_ok, Program.run_lift_eq_ok, Program.run_pure_eq_ok, run_loadBooster,
    run_saveShard, run_saveBooster, savedBooster_eq_ok]
  constructor
  · rintro ⟨booster,_,⟨hb,rfl⟩,⟨_,retained⟩,_,⟨hre,rfl⟩,_,_,hsave,rebuilt,_,⟨rfl,rfl⟩,_,_,hsave',kept,_,
      ⟨hk,rfl⟩,rfl,rfl⟩
    obtain ⟨hrow,rfl,kept',hk',ht⟩ := rebuildBooster_eq_ok.mp hre
    obtain ⟨-,rfl⟩ := Prod.mk.inj hsave
    obtain ⟨-,rfl⟩ := Prod.mk.inj hsave'
    cases hk.symm.trans hk'
    exact ⟨hrow,booster,kept,rebuilt,hb,hk,ht,rfl,rfl⟩
  · rintro ⟨hrow,booster,kept,rebuilt,hb,hk,ht,rfl,rfl⟩
    exact ⟨booster,s,⟨hb,rfl⟩,(some rebuilt,retain records refs),s,
      ⟨rebuildBooster_eq_ok.mpr ⟨hrow,rfl,kept,hk,ht⟩,rfl⟩,(),_,rfl,
      rebuilt,_,⟨rfl,rfl⟩,(),_,rfl,kept,_,⟨hk,rfl⟩,rfl,rfl⟩

end UnlearnShield.Engine.Gbdt
