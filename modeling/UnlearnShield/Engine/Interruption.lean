import UnlearnShield.Engine.Certificates
import UnlearnShield.Engine.Provenance

/-! # Calls that stop half way

A call writes the purged shard file first, its model files next and the routing table
last. One that stops in between leaves model files that were trained on rows the shard
file no longer has. How many leading slices of a shard have a model trained on the rows
of its file alone depends on the writes made so far, and a later call is safe as long as
it rolls back to one of these.
-/
namespace UnlearnShield.Engine
open Deployment
variable {D : Deployment}

def Call.minSlice (c : Call) (s : Process D) : ℕ :=
  match s.1.routing with
  | none => 0
  | some routing =>
    match locate routing c.refs with
    | .ok batch => batch.minSlice
    | .error _ => 0

variable (D) in
/-- How a write of a call that rolls back to slice `m` changes the number of sound slices of each shard. -/
def observeWrite (m : ℕ) : FileOp D → (ℕ → ℕ) → ℕ → ℕ
  | .saveShard shard _, sound => Function.update sound shard (min (sound shard) m)
  | .saveCheckpoint shard i _, sound => if sound shard = i then Function.update sound shard (i+1) else sound
  | .saveBooster shard _, sound =>
    if sound shard = m then Function.update sound shard D.settings.NUM_SLICES else sound
  | _, sound => sound

abbrev Observed (D : Deployment) := Process D × (ℕ → ℕ)

/-- Calls of one engine, each stopped after some number of its operations or not at all; a new
process starts with an empty tree cache. -/
inductive InterruptedRun (engine : ModelEngine) (s : Observed D) : Observed D → Prop
  | start : InterruptedRun engine s s
  | call {t : Observed D} (c : Call) (n : ℕ) : InterruptedRun engine s t → c.engine = engine →
      InterruptedRun engine s (c.program.stopAfter (Program.observed fileExec (observeWrite D (c.minSlice t.1))) n t)
  | restart {t : Observed D} : InterruptedRun engine s t → InterruptedRun engine s ((t.1.1,fun _ => none),t.2)

/-- No subject has a row before the slice its routing entry names. -/
def RollsBack (routing : Routing) (shard : ℕ) (records : Records D.V) : Prop :=
  ∀ row ∈ records, ∀ e, routing.get? row.subjectRef = some e → e.shard = shard → e.minSliceIdx ≤ row.sliceIdx

/-- The models of the first `n` slices were trained on rows of `records` in these slices. -/
def SoundModels (engine : ModelEngine) (shard : ℕ) (records : Records D.V) (s : Process D) (n : ℕ) : Prop :=
  match engine with
  | .mlp _ => ∀ i < n, ∃ t, TrainedOn (fun row => row ∈ records ∧ row.sliceIdx ≤ i) t ∧
      s.1.checkpoints shard i = some (D.mlp.stateDict t.1)
  | .gbdt treesPerSlice => ∃ booster, s.1.boosters shard = some booster ∧ n * treesPerSlice ≤ booster.length ∧
      ∀ j ≤ n, BoostedOn (fun row => row ∈ records ∧ row.sliceIdx < j) (booster.take (j * treesPerSlice))

structure SoundAt (engine : ModelEngine) (routing : Routing) (shard : ℕ) (s : Observed D) : Prop where
  bound : s.2 shard ≤ D.settings.NUM_SLICES
  routed : s.1.1.routing = some routing
  models : ∃ records, s.1.1.shards shard = some records ∧ RollsBack routing shard records ∧
    SoundModels engine shard records s.1 (s.2 shard)

def Sound (engine : ModelEngine) (shard : ℕ) (s : Observed D) : Prop := ∃ routing, SoundAt engine routing shard s

section Invariant
variable {engine : ModelEngine} {routing : Routing} {shard m : ℕ} {records : Records D.V}

theorem RollsBack.least {batch : Batch} {refs : List Ref} (h : RollsBack routing batch.shard records)
    (hloc : locate routing refs = .ok batch) :
    ∀ row ∈ records, row.subjectRef ∈ refs → batch.minSlice ≤ row.sliceIdx := by
  intro row hrow hin
  obtain ⟨e,he,hs,hm⟩ := (locate_eq_ok.mp hloc).1 _ hin
  exact hm.trans (h row hrow e he hs)

theorem RollsBack.retain (h : RollsBack routing shard records) (refs : List Ref) :
    RollsBack routing shard (retain records refs) := fun row hrow => h row (mem_retain.mp hrow).1

theorem RollsBack.without (h : RollsBack routing shard records) (refs : List Ref) :
    RollsBack (routing.without refs) shard records := by
  intro row hrow e he
  rw [Dict.get?_without] at he
  split at he
  · cases he
  · exact h row hrow e he

/-- Purging rows from slice `m` on leaves the models of the earlier slices sound. -/
theorem SoundModels.purge {s : Process D} {n : ℕ} {refs : List Ref} (h : SoundModels engine shard records s n)
    (hm : ∀ row ∈ records, row.subjectRef ∈ refs → m ≤ row.sliceIdx) :
    SoundModels engine shard (retain records refs) s (min n m) := by
  have hkeep : ∀ row ∈ records, row.sliceIdx < m → row ∈ retain records refs := fun row hrow hlt =>
    mem_retain.mpr ⟨hrow,fun hin => absurd (hm row hrow hin) (Nat.not_le_of_lt hlt)⟩
  cases engine with
  | mlp seed =>
    intro i hi
    obtain ⟨t,ht,hck⟩ := h i (lt_of_lt_of_le hi (min_le_left ..))
    have him : i < m := lt_of_lt_of_le hi (min_le_right ..)
    exact ⟨t,ht.mono fun row hrow => ⟨hkeep row hrow.1 (lt_of_le_of_lt hrow.2 him),hrow.2⟩,hck⟩
  | gbdt treesPerSlice =>
    obtain ⟨booster,hb,hlen,hall⟩ := h
    refine ⟨booster,hb,(Nat.mul_le_mul_right _ (min_le_left ..)).trans hlen,fun j hj => ?_⟩
    have hjm : j ≤ m := hj.trans (min_le_right ..)
    exact (hall j (hj.trans (min_le_left ..))).mono fun row hrow =>
      ⟨hkeep row hrow.1 (lt_of_lt_of_le hrow.2 hjm),hrow.2⟩

/-- The model files are all that `SoundModels` looks at. -/
theorem SoundModels.congr {s t : Process D} {n : ℕ} (h : SoundModels engine shard records s n)
    (hck : t.1.checkpoints shard = s.1.checkpoints shard) (hb : t.1.boosters shard = s.1.boosters shard) :
    SoundModels engine shard records t n := by
  cases engine with
  | mlp seed =>
    intro i hi
    obtain ⟨t,ht,hs⟩ := h i hi
    exact ⟨t,ht,by rw [hck]; exact hs⟩
  | gbdt treesPerSlice =>
    obtain ⟨booster,hs,rest⟩ := h
    exact ⟨booster,hb.trans hs,rest⟩

/-- What does not touch the files of the shard keeps it sound. -/
theorem SoundAt.congr {s t : Observed D} (h : SoundAt engine routing shard s) (hr : t.1.1.routing = s.1.1.routing)
    (hs : t.1.1.shards shard = s.1.1.shards shard) (hck : t.1.1.checkpoints shard = s.1.1.checkpoints shard)
    (hb : t.1.1.boosters shard = s.1.1.boosters shard) (hn : t.2 shard = s.2 shard) :
    SoundAt engine routing shard t := by
  obtain ⟨hbound,hroute,records,hfile,hroll,hmodels⟩ := h
  refine ⟨hn ▸ hbound,hr.trans hroute,records,hs.trans hfile,hroll,?_⟩
  rw [hn]
  exact hmodels.congr hck hb

/-- A read, a computation or a write to the tree cache. -/
theorem safe_untouched {op : FileOp D} {I : Observed D → Prop} {Q : op.Resp → Observed D → Prop} {s : Observed D}
    (hobs : observeWrite D m op s.2 = s.2) (h : ∀ r t, fileExec op s.1 = .ok (r,t) → I (t,s.2) ∧ Q r (t,s.2)) :
    (Program.call op .pure).Safe (Program.observed fileExec (observeWrite D m)) I Q s := by
  refine Program.safe_call fun r t he => ?_
  obtain ⟨he,hg⟩ := Program.observed_eq_ok.mp he
  rw [hobs] at hg
  have hboth := h r t.1 he
  rw [hg] at hboth
  exact hboth

/-- The next slice of a rebuild: sound if the slices before it are. -/
theorem SoundAt.saveCheckpoint {seed : ℤ} {k i : ℕ} {t : Training D} {s : Observed D}
    (h : SoundAt (.mlp seed) routing shard s) (hfile : k = shard → s.1.1.shards shard = some records)
    (hle : k = shard → s.2 shard ≤ i) (hi : i < D.settings.NUM_SLICES)
    (ht : k = shard → s.2 shard = i → TrainedOn (fun row => row ∈ records ∧ row.sliceIdx ≤ i) t) :
    SoundAt (.mlp seed) routing shard ((s.1.1.setCheckpoint k i (D.mlp.stateDict t.1),s.1.2),
      observeWrite D m (.saveCheckpoint k i (D.mlp.stateDict t.1)) s.2) := by
  unfold observeWrite
  by_cases hk : k = shard
  · subst hk
    obtain ⟨hbound,hroute,records',hs,hroll,hmodels⟩ := h
    cases (hfile rfl).symm.trans hs
    by_cases hsi : s.2 k = i
    · -- the first slice that was not sound
      dsimp only
      rw [if_pos hsi]
      have hsound : Function.update s.2 k (i+1) k = i + 1 := Function.update_self ..
      refine ⟨hsound.trans_le hi,hroute,records,hs,hroll,?_⟩
      intro j hj
      dsimp only at hj
      rw [hsound] at hj
      by_cases hji : j = i
      · subst hji
        exact ⟨t,ht rfl hsi,by simp [Disk.setCheckpoint]⟩
      · obtain ⟨t',ht',hck⟩ := hmodels j (by omega)
        exact ⟨t',ht',by simp [Disk.setCheckpoint, hji, hck]⟩
    · dsimp only
      rw [if_neg hsi]
      refine ⟨hbound,hroute,records,hs,hroll,?_⟩
      intro j hj
      obtain ⟨t',ht',hck⟩ := hmodels j hj
      have hji : j ≠ i := fun he => by
        have := hle rfl
        dsimp only at hj
        omega
      exact ⟨t',ht',by simp [Disk.setCheckpoint, hji, hck]⟩
  · refine h.congr rfl rfl ?_ rfl ?_
    · funext j
      simp [Disk.setCheckpoint, Ne.symm hk]
    · dsimp only
      split
      · exact Function.update_of_ne (Ne.symm hk) ..
      · rfl

/-- The loop over the slices, from a training whose slices before are sound if there are that many. -/
theorem trainSlices_sound {preproc : D.mlp.Preproc} {seed seed' : ℤ} {k : ℕ}
    (hfit : fitPreprocessor records = .ok preproc) (n i : ℕ)
    {t : Training D} {s : Observed D} (h : SoundAt (.mlp seed) routing shard s)
    (hfile : k = shard → s.1.1.shards shard = some records) (hle : k = shard → s.2 shard ≤ i)
    (ht : k = shard → s.2 shard = i → TrainedOn (fun row => row ∈ records ∧ row.sliceIdx < i) t)
    (hn : n ≤ D.settings.NUM_SLICES - i) :
    (trainSlices k preproc records seed' n i t).Safe (Program.observed fileExec (observeWrite D m))
      (SoundAt (.mlp seed) routing shard) (fun _ t => SoundAt (.mlp seed) routing shard t) s := by
  induction n generalizing i t s with
  | zero => exact h
  | succ n ih =>
    have ht' : k = shard → s.2 shard = i →
        TrainedOn (fun row => row ∈ records ∧ row.sliceIdx ≤ i) (trainSlice preproc records seed' i t) := fun hk hsi =>
      .slice seed' ((ht hk hsi).mono fun row hrow => ⟨hrow.1,hrow.2.le⟩) hfit fun row hrow hri => ⟨hrow,hri⟩
    refine Program.safe_bind (Program.safe_call fun _ u hu => ?_)
    obtain ⟨hu,hg⟩ := Program.observed_eq_ok.mp hu
    obtain ⟨u,g⟩ := u
    cases hu
    cases hg
    have hi := h.saveCheckpoint (m := m) hfile hle (by omega) ht'
    refine ⟨hi,Program.safe_bind ((ih (i+1) hi hfile ?_ ?_ (by omega)).mono fun _ _ h => h)⟩
    · intro hk
      have := hle hk
      subst hk
      simp only [observeWrite]
      split
      · rw [Function.update_self]
      · omega
    · intro hk hsi
      have hle' := hle hk
      subst hk
      simp only [observeWrite] at hsi
      split at hsi
      · next he => exact (ht' rfl he).mono fun row hrow => ⟨hrow.1,Nat.lt_succ_of_le hrow.2⟩
      · omega

/-- The purge of a batch on some shard. -/
theorem SoundAt.saveShard {s : Observed D} {batch : Batch} {refs : List Ref} (h : SoundAt engine routing shard s)
    (hloc : locate routing refs = .ok batch) (hfile : s.1.1.shards batch.shard = some records) :
    SoundAt engine routing shard
      (({s.1.1 with shards := Function.update s.1.1.shards batch.shard (some (retain records refs))},s.1.2),
        Function.update s.2 batch.shard (min (s.2 batch.shard) batch.minSlice)) := by
  by_cases hk : batch.shard = shard
  · subst hk
    obtain ⟨hbound,hroute,records',hs,hroll,hmodels⟩ := h
    cases hfile.symm.trans hs
    have hsound : Function.update s.2 batch.shard (min (s.2 batch.shard) batch.minSlice) batch.shard =
        min (s.2 batch.shard) batch.minSlice := Function.update_self ..
    refine ⟨?_,hroute,retain records refs,Function.update_self ..,hroll.retain refs,?_⟩
    · dsimp only
      rw [hsound]
      exact (min_le_left ..).trans hbound
    · dsimp only
      rw [hsound]
      exact (hmodels.purge (hroll.least hloc)).congr rfl rfl
  · exact h.congr rfl (Function.update_of_ne (Ne.symm hk) ..) rfl rfl (Function.update_of_ne (Ne.symm hk) ..)

/-- A training that resumes after sound slices was trained on the rows of the shard file. -/
theorem SoundModels.start {seed seed' : ℤ} {s : Process D} {n : ℕ} {start : Training D}
    (h : SoundModels (.mlp seed) shard records s n)
    (hstart : startTraining n (Rebuild.resumeState s.1 shard n) seed' = .ok start) :
    TrainedOn (fun row => row ∈ records ∧ row.sliceIdx < n) start := by
  cases n with
  | zero =>
    cases hstart
    exact .fresh seed'
  | succ n =>
    obtain ⟨t,ht,hck⟩ := h n (Nat.lt_succ_self n)
    rw [Rebuild.resumeState, if_pos (Nat.succ_pos n), Nat.add_sub_cancel, hck] at hstart
    cases hstart
    exact .resumed seed' (ht.mono fun row hrow => ⟨hrow.1,Nat.lt_succ_of_le hrow.2⟩)

/-- Retraining by the MLP engine, stopped anywhere. -/
theorem Rebuild.retrain_sound {seed seed' : ℤ} {s : Observed D} {batch : Batch} {refs : List Ref}
    (h : SoundAt (.mlp seed') routing shard s) (hloc : locate routing refs = .ok batch)
    (hfile : s.1.1.shards batch.shard = some records) :
    (Rebuild.retrain seed refs batch records).Safe (Program.observed fileExec (observeWrite D batch.minSlice))
      (SoundAt (.mlp seed') routing shard) (fun _ t => SoundAt (.mlp seed') routing shard t) s := by
  refine Program.safe_bind (Program.safe_lift fun p hpurge => ?_)
  obtain ⟨retained,total⟩ := p
  obtain ⟨-,-,rfl,-⟩ := Rebuild.purgeAll_eq_ok.mp hpurge
  refine Program.safe_bind (Program.safe_call fun _ u hu => ?_)
  obtain ⟨hu,hg⟩ := Program.observed_eq_ok.mp hu
  obtain ⟨u,g⟩ := u
  cases hu
  cases hg
  have hs := h.saveShard hloc hfile
  refine ⟨hs,?_⟩
  have hresume : ∀ {I : Observed D → Prop} {Q : Option D.Weights → Observed D → Prop} {u : Observed D}, I u →
      (∀ resume, resume = Rebuild.resumeState u.1.1 batch.shard batch.minSlice → Q resume u) →
      (Rebuild.loadResumeState batch.shard batch.minSlice : FileM D _).Safe
        (Program.observed fileExec (observeWrite D batch.minSlice)) I Q u := by
    intro I Q u hu hQ
    unfold Rebuild.loadResumeState
    unfold Rebuild.resumeState at hQ
    split
    · next hm =>
      rw [if_pos hm] at hQ
      refine Program.safe_bind (safe_untouched rfl fun w t he => ?_)
      obtain ⟨hw,rfl⟩ := readFile_eq_ok.mp he
      exact ⟨hu,hQ _ hw.symm⟩
    · next hm =>
      rw [if_neg hm] at hQ
      exact hQ _ rfl
  refine Program.safe_bind (hresume hs ?_)
  rintro resume rfl
  refine Program.safe_bind ?_
  refine Program.safe_bind (Program.safe_lift fun _ _ => ?_)
  refine Program.safe_bind (show (Program.pure (retain records refs)).Safe _ _ _ _ from ?_)
  refine Program.safe_bind (Program.safe_lift fun preproc hfit => ?_)
  refine Program.safe_bind (Program.safe_lift fun start hstart => ?_)
  refine Program.safe_bind (safe_untouched rfl fun _ t he => ?_)
  cases he
  have hpre := hs.congr (t := (({s.1.1 with
      shards := Function.update s.1.1.shards batch.shard (some (retain records refs))
      preproc := Function.update s.1.1.preproc batch.shard (some (D.mlp.toJson preproc))},s.1.2),
    Function.update s.2 batch.shard (min (s.2 batch.shard) batch.minSlice))) rfl rfl rfl rfl rfl
  refine ⟨hpre,(trainSlices_sound hfit _ _ hpre ?_ ?_ ?_ le_rfl).mono fun digests t ht => ?_⟩
  · intro hk
    rw [← hk]
    exact Function.update_self ..
  · intro hk
    rw [← hk]
    dsimp only
    rw [Function.update_self]
    exact min_le_right ..
  · intro hk hsound
    subst hk
    obtain ⟨-,-,records',hfile',-,hmodels⟩ := hpre
    cases (Function.update_self ..).symm.trans hfile'
    rw [hsound] at hmodels
    exact hmodels.start hstart
  · exact Program.safe_bind (Program.safe_lift fun _ _ => ht)

section Boosters
variable {treesPerSlice : ℕ} {booster rebuilt : D.Booster}

/-- A rebuild keeps the trees of the slices before `m` and boosts over the others. -/
theorem Gbdt.rebuilt_eq {kept : Option D.Booster} (hk : Gbdt.rollback booster m treesPerSlice = .ok kept)
    (h : Gbdt.trainShard records m kept treesPerSlice = .ok (some rebuilt)) :
    rebuilt = Gbdt.boostSlices records treesPerSlice (D.settings.NUM_SLICES - m) m
      (booster.take (m * treesPerSlice)) := by
  obtain ⟨-,-,heq⟩ := Gbdt.trainShard_eq_ok.mp h
  have hkept := Gbdt.rollback_eq_ok.mp hk
  by_cases hm : m = 0
  · rw [if_pos hm] at hkept
    subst hm hkept
    simp only [Option.getD_none, reduceCtorEq] at heq
    rw [Nat.zero_mul, List.take_zero]
    split at heq
    · exact heq
    · exact heq.elim
  · rw [if_neg hm] at hkept
    rw [hkept.2, Option.getD_some] at heq
    split at heq
    · exact heq
    · next hlt =>
      rw [Nat.sub_eq_zero_of_le (Nat.le_of_not_lt hlt)]
      exact (Option.some.inj heq).symm

/-- The trees of the slices before `m` are those of the booster the rebuild started from. -/
theorem Gbdt.take_rebuilt {j : ℕ} (hj : j ≤ m) (hlen : j * treesPerSlice ≤ booster.length) :
    (Gbdt.boostSlices records treesPerSlice (D.settings.NUM_SLICES - m) m (booster.take (m * treesPerSlice))).take
      (j * treesPerSlice) = booster.take (j * treesPerSlice) := by
  have hle : j * treesPerSlice ≤ m * treesPerSlice := Nat.mul_le_mul_right _ hj
  have hprefix := Gbdt.prefix_boostSlices records treesPerSlice (D.settings.NUM_SLICES - m) m
    (booster.take (m * treesPerSlice))
  obtain ⟨rest,hrest⟩ := hprefix
  rw [← hrest, List.take_append_of_le_length (by rw [List.length_take]; omega), List.take_take, min_eq_left hle]

/-- When every slice before `m` is sound, a rebuild from `m` leaves all slices sound. -/
theorem SoundModels.boosted {s : Process D} (h : SoundModels (.gbdt treesPerSlice) shard records s m)
    (hb : s.1.boosters shard = some booster) (hm : m ≤ D.settings.NUM_SLICES) {u : Process D}
    (hu : u.1.boosters shard = some (Gbdt.boostSlices records treesPerSlice (D.settings.NUM_SLICES - m) m
      (booster.take (m * treesPerSlice)))) :
    SoundModels (.gbdt treesPerSlice) shard records u D.settings.NUM_SLICES := by
  obtain ⟨booster',hb',hlen,hall⟩ := h
  cases hb.symm.trans hb'
  have hprefix : (booster.take (m * treesPerSlice)).length = m * treesPerSlice := by
    rw [List.length_take, min_eq_left hlen]
  refine ⟨_,hu,?_,fun j hj => ?_⟩
  · rw [Gbdt.length_boostSlices, hprefix, ← Nat.add_mul, Nat.add_sub_cancel' hm]
  · rcases Nat.le_total j m with hjm | hmj
    · rw [Gbdt.take_rebuilt hjm ((Nat.mul_le_mul_right _ hjm).trans hlen)]
      exact hall j hjm
    · -- the trees of the slices before `j` are those boosted over slices `m` to `j - 1`
      have hsplit : D.settings.NUM_SLICES - m = j - m + (D.settings.NUM_SLICES - j) := by omega
      rw [hsplit, Gbdt.boostSlices_add, Nat.add_sub_cancel' hmj]
      have hlenj : (Gbdt.boostSlices records treesPerSlice (j - m) m (booster.take (m * treesPerSlice))).length =
          j * treesPerSlice := by
        rw [Gbdt.length_boostSlices, hprefix, ← Nat.add_mul, Nat.add_sub_cancel' hmj]
      rw [← hlenj, ← List.prefix_iff_eq_take.mp (Gbdt.prefix_boostSlices ..)]
      refine .boostSlices _ _ _ ((hall m le_rfl).mono fun row hrow => ⟨hrow.1,hrow.2.trans_le hmj⟩)
        fun row hrow hlt => ?_
      exact ⟨hrow,by omega⟩

theorem SoundAt.saveBooster {s : Observed D} {k : ℕ} (h : SoundAt (.gbdt treesPerSlice) routing shard s)
    (hfile : k = shard → s.1.1.shards shard = some records) (hb : k = shard → s.1.1.boosters shard = some booster)
    (hle : k = shard → s.2 shard ≤ m)
    (heq : rebuilt = Gbdt.boostSlices records treesPerSlice (D.settings.NUM_SLICES - m) m
      (booster.take (m * treesPerSlice))) :
    SoundAt (.gbdt treesPerSlice) routing shard
      (({s.1.1 with boosters := Function.update s.1.1.boosters k (some rebuilt)},s.1.2),
        observeWrite D m (.saveBooster k rebuilt) s.2) := by
  subst heq
  unfold observeWrite
  by_cases hk : k = shard
  · subst hk
    obtain ⟨hbound,hroute,records',hs,hroll,hmodels⟩ := h
    cases (hfile rfl).symm.trans hs
    by_cases hsm : s.2 k = m
    · dsimp only
      rw [if_pos hsm]
      have hsound : Function.update s.2 k D.settings.NUM_SLICES k = D.settings.NUM_SLICES := Function.update_self ..
      refine ⟨hsound.le,hroute,records,hs,hroll,?_⟩
      dsimp only
      rw [hsound]
      rw [hsm] at hmodels hbound
      exact SoundModels.boosted hmodels (hb rfl) hbound (Function.update_self ..)
    · dsimp only
      rw [if_neg hsm]
      refine ⟨hbound,hroute,records,hs,hroll,?_⟩
      obtain ⟨booster',hb',hlen,hall⟩ := hmodels
      cases (hb rfl).symm.trans hb'
      refine ⟨_,Function.update_self ..,?_,fun j hj => ?_⟩
      · have hprefix := (Gbdt.prefix_boostSlices records treesPerSlice (D.settings.NUM_SLICES - m) m
          (booster.take (m * treesPerSlice))).length_le
        have hmul : s.2 k * treesPerSlice ≤ m * treesPerSlice := Nat.mul_le_mul_right _ (hle rfl)
        rw [List.length_take] at hprefix
        exact (le_min hmul hlen).trans hprefix
      · rw [Gbdt.take_rebuilt (hj.trans (hle rfl)) ((Nat.mul_le_mul_right _ hj).trans hlen)]
        exact hall j hj
  · refine h.congr rfl rfl rfl (Function.update_of_ne (Ne.symm hk) ..) ?_
    dsimp only
    split
    · exact Function.update_of_ne (Ne.symm hk) ..
    · rfl

/-- Retraining by the GBDT engine, stopped anywhere. -/
theorem Gbdt.retrain_sound {s : Observed D} {batch : Batch} {refs : List Ref}
    (h : SoundAt (.gbdt treesPerSlice) routing shard s) (hloc : locate routing refs = .ok batch)
    (hfile : s.1.1.shards batch.shard = some records) :
    (Gbdt.retrain treesPerSlice refs batch records).Safe (Program.observed fileExec (observeWrite D batch.minSlice))
      (SoundAt (.gbdt treesPerSlice) routing shard) (fun _ t => SoundAt (.gbdt treesPerSlice) routing shard t) s := by
  refine Program.safe_bind (safe_untouched rfl fun booster t he => ?_)
  obtain ⟨hb,rfl⟩ := readFile_eq_ok.mp he
  refine ⟨h,Program.safe_bind (Program.safe_lift fun p hre => ?_)⟩
  obtain ⟨rebuilt,retained⟩ := p
  obtain ⟨-,rfl,kept,hk,htrain⟩ := Gbdt.rebuildBooster_eq_ok.mp hre
  refine Program.safe_bind (Program.safe_call fun _ u hu => ?_)
  obtain ⟨hu,hg⟩ := Program.observed_eq_ok.mp hu
  obtain ⟨u,g⟩ := u
  cases hu
  cases hg
  have hs := h.saveShard hloc hfile
  refine ⟨hs,Program.safe_bind (Program.safe_lift fun saved hsaved => ?_)⟩
  rw [Gbdt.savedBooster_eq_ok.mp hsaved] at htrain
  refine Program.safe_bind (Program.safe_call fun _ u hu => ?_)
  obtain ⟨hu,hg⟩ := Program.observed_eq_ok.mp hu
  obtain ⟨u,g⟩ := u
  cases hu
  cases hg
  have hafter := hs.saveBooster (k := batch.shard) (fun hk => by rw [← hk]; exact Function.update_self ..)
    (fun hk => by rw [← hk]; exact hb)
      (fun hk => by rw [← hk]; dsimp only; rw [Function.update_self]; exact min_le_right ..)
    (Gbdt.rebuilt_eq hk htrain)
  exact ⟨hafter,Program.safe_bind (Program.safe_lift fun _ _ => hafter)⟩

end Boosters

theorem ModelEngine.retrain_sound {s : Observed D} {batch : Batch} {refs : List Ref} (engine : ModelEngine)
    (h : SoundAt engine routing shard s) (hloc : locate routing refs = .ok batch)
    (hfile : s.1.1.shards batch.shard = some records) :
    ((engine.parts : EngineParts D).retrain refs batch records).Safe
      (Program.observed fileExec (observeWrite D batch.minSlice)) (SoundAt engine routing shard)
      (fun _ t => SoundAt engine routing shard t) s := by
  cases engine with
  | mlp seed => exact Rebuild.retrain_sound h hloc hfile
  | gbdt treesPerSlice => exact Gbdt.retrain_sound h hloc hfile

/-- A call stopped anywhere keeps the invariant. -/
theorem Call.sound {c : Call} {s : Observed D} (h : Sound c.engine shard s) :
    (c.program : FileM D _).Safe (Program.observed fileExec (observeWrite D (c.minSlice s.1))) (Sound c.engine shard)
      (fun _ t => Sound c.engine shard t) s := by
  obtain ⟨routing,h⟩ := h
  rw [c.program_eq, rebuildBatch]
  split
  · trivial
  refine Program.safe_bind (safe_untouched rfl fun r t he => ?_)
  obtain ⟨hr,rfl⟩ := readFile_eq_ok.mp he
  cases h.routed.symm.trans hr
  refine ⟨⟨routing,h⟩,Program.safe_bind (Program.safe_lift fun batch hloc => ?_)⟩
  have hmin : c.minSlice s.1 = batch.minSlice := by
    rw [Call.minSlice, hr]
    dsimp only
    rw [hloc]
  rw [hmin]
  refine Program.safe_bind (safe_untouched rfl fun records t he => ?_)
  obtain ⟨hfile,rfl⟩ := readFile_eq_ok.mp he
  refine ⟨⟨routing,h⟩,Program.safe_bind (safe_untouched rfl fun treeBefore t he => ?_)⟩
  obtain ⟨-,rfl⟩ := run_treeForShard.mp (Program.run_call_eq_ok.mpr ⟨_,_,he,rfl⟩)
  refine ⟨⟨routing,h⟩,Program.safe_bind ?_⟩
  refine ((c.engine.retrain_sound h hloc hfile).mono_invariant fun t ht => ⟨routing,ht⟩).mono fun retrained t ht => ?_
  refine Program.safe_bind (Program.safe_lift fun tree _ => ?_)
  refine Program.safe_bind (safe_untouched rfl fun _ u he => ?_)
  cases he
  have hcached : SoundAt c.engine routing shard ((t.1.1,Smt.cacheTree t.1.2 batch.shard tree),t.2) :=
    ht.congr rfl rfl rfl rfl rfl
  refine ⟨⟨routing,hcached⟩,?_⟩
  refine Program.safe_bind (Program.safe_lift fun _ _ => ?_)
  refine Program.safe_bind (Program.safe_lift fun _ _ => ?_)
  refine Program.safe_bind (Program.safe_lift fun routing' hpop => ?_)
  obtain ⟨-,-,rfl⟩ := popAll_eq_ok.mp hpop
  refine Program.safe_bind (safe_untouched rfl fun _ u he => ?_)
  cases he
  obtain ⟨hbound,-,records',hs,hroll,hmodels⟩ := hcached
  have hfinal : SoundAt c.engine (routing.without c.refs) shard
      (({t.1.1 with routing := some (routing.without c.refs)},Smt.cacheTree t.1.2 batch.shard tree),t.2) :=
    ⟨hbound,rfl,records',hs,hroll.without c.refs,hmodels.congr rfl rfl⟩
  exact ⟨⟨_,hfinal⟩,_,hfinal⟩

/-- The invariant holds after every interrupted run. -/
theorem InterruptedRun.sound {s t : Observed D} (hrun : InterruptedRun engine s t) (h : Sound engine shard s) :
    Sound engine shard t := by
  induction hrun with
  | start => exact h
  | call c n _ hc ih =>
    subst hc
    exact (Call.sound ih).stopAfter ih n
  | restart _ ih =>
    obtain ⟨routing,ih⟩ := ih
    exact ⟨routing,ih.congr rfl rfl rfl rfl rfl⟩

def ModelEngine.Trains (engine : ModelEngine) (shard : ℕ) (p s : Process D) : Prop :=
  match engine with
  | .mlp seed => ∃ digests, (trainShard shard none 0 none seed).run fileExec p = (.ok digests,s)
  | .gbdt treesPerSlice => ∃ routing, p.1.routing = some routing ∧ shard ∈ routing.values.map RoutingEntry.shard ∧
      (Gbdt.build routing treesPerSlice).run fileExec p = (.ok (),s)

/-- After training every slice of the shard is sound. -/
theorem ModelEngine.Trains.sound {p s : Process D} (htrain : engine.Trains shard p s) (hr : p.1.routing = some routing)
    (hs : p.1.shards shard = some records) (hroll : RollsBack routing shard records) :
    Sound engine shard (s,fun _ => D.settings.NUM_SLICES) := by
  suffices h : SoundAt engine routing shard (s,fun _ => D.settings.NUM_SLICES) from ⟨routing,h⟩
  cases engine with
  | mlp seed =>
    obtain ⟨digests,hrun⟩ := htrain
    obtain ⟨records',hs',hrun⟩ := run_trainShard_none.mp hrun
    cases hs.symm.trans hs'
    obtain ⟨-,preproc,start,hfit,hstart,-,rfl⟩ := run_trainShard.mp hrun
    cases hstart
    refine ⟨le_rfl,hr,records,hs,hroll,fun i hi => ?_⟩
    have htrained : TrainedOn (fun row => row ∈ records ∧ row.sliceIdx ≤ i)
      (afterSlices preproc records seed 0 _ (i+1)) :=
      (TrainedOn.fresh seed).afterSlices hfit (i+1) fun row hrow hlt => ⟨hrow,by omega⟩
    refine ⟨_,htrained,?_⟩
    rw [trained_checkpoints, if_pos ⟨Nat.zero_le i,by simpa using hi⟩]
    rfl
  | gbdt treesPerSlice =>
    obtain ⟨routing',hr',hcovered,hbuild⟩ := htrain
    cases hr.symm.trans hr'
    obtain ⟨hrs,hss,-,hall⟩ := Gbdt.run_buildShards hbuild
    obtain ⟨-,-,records',hs',hb⟩ := hall shard (Gbdt.mem_shards.mpr hcovered)
    cases hs.symm.trans hs'
    refine ⟨le_rfl,hrs.trans hr,records,(congrFun hss shard).trans hs,hroll,_,hb,?_,fun j hj => ?_⟩
    · exact (Gbdt.length_scratch ..).ge
    · rw [Gbdt.take_scratch hj]
      exact BoostedOn.nil.boostSlices _ _ _ fun row hrow hlt => ⟨hrow,by omega⟩

/-- A call that rolls back to a sound slice trains on the rows it saves. -/
theorem Sound.modelTrainedOn {t : Observed D} {c : Call} {result : Result D} {u : Process D}
    (h : Sound c.engine result.shard t) (hrun : c.program.run fileExec t.1 = (.ok result,u))
    (hm : c.minSlice t.1 ≤ t.2 result.shard) : ∃ saved, u.1.shards result.shard = some saved ∧
      ModelTrainedOn c.engine (· ∈ saved) result.shard u result.resultWeights := by
  obtain ⟨x,hx,hp⟩ := Call.returned hrun
  obtain ⟨routing,hsound⟩ := h
  obtain ⟨-,hr,records,hs,hroll,hmodels⟩ := hsound
  cases hr.symm.trans hx.routing
  have hshard : result.shard = x.batch.shard := by rw [hx.result]
  rw [hshard] at hs hroll hmodels hm ⊢
  cases hs.symm.trans hx.records
  have hmin : c.minSlice t.1 = x.batch.minSlice := by
    rw [Call.minSlice, hx.routing]
    dsimp only
    rw [hx.batch]
  rw [hmin] at hm
  have hpurged := hmodels.purge (hroll.least hx.batch)
  rw [min_eq_right hm] at hpurged
  refine ⟨retain x.records c.refs,by rw [hx.final]; dsimp only; rw [hp.shards, Function.update_self],?_⟩
  have hretrain := hx.retrain
  cases hc : c.engine with
  | mlp seed =>
    rw [hc] at hretrain hpurged
    obtain ⟨-,-,-,hlt,preproc,start,total,hfit,hstart,-,hret,hat⟩ := Rebuild.run_retrain.mp hretrain
    have htrained : TrainedOn (· ∈ retain x.records c.refs) (afterSlices preproc (retain x.records c.refs) seed
        x.batch.minSlice start (D.settings.NUM_SLICES - x.batch.minSlice)) :=
      ((hpurged.start hstart).mono fun row hrow => hrow.1).afterSlices hfit _ fun row hrow _ => hrow
    refine ⟨_,htrained,?_,?_⟩
    · rw [hx.final, hat]
      dsimp only
      rw [trained_checkpoints, if_pos ⟨by omega,by omega⟩, Nat.sub_add_cancel (by omega)]
    · rw [hx.result, hret]
  | gbdt treesPerSlice =>
    rw [hc] at hretrain hpurged
    obtain ⟨-,booster,kept,rebuilt,hb,hk,htrain,hret,hat⟩ := Gbdt.run_retrain.mp hretrain
    obtain ⟨booster',hb',-,hall⟩ := hpurged
    cases hb.symm.trans hb'
    refine ⟨rebuilt,?_,?_,?_⟩
    · rw [Gbdt.rebuilt_eq hk htrain]
      exact ((hall _ le_rfl).mono fun row hrow => hrow.1).boostSlices _ _ _ fun row hrow _ => hrow
    · rw [hx.final, hat]
      exact Function.update_self ..
    · rw [hx.result, hret]

/-- After a shard is trained and any run of calls on this and other shards, each stopped anywhere: a
call that returns, and that rolls back to a sound slice, certifies weights trained on rows of the set
its manifests name. -/
theorem certified_weights {p s : Process D} (hr : p.1.routing = some routing) (hs : p.1.shards shard = some records)
    (hroll : RollsBack routing shard records) (htrain : engine.Trains shard p s) {t : Observed D}
    (hrun : InterruptedRun engine (s,fun _ => D.settings.NUM_SLICES) t) {c : Call} {result : Result D} {u : Process D}
    (hc : c.engine = engine) (hret : c.program.run fileExec t.1 = (.ok result,u)) (hshard : result.shard = shard)
    (hm : c.minSlice t.1 ≤ t.2 shard) :
    ∃ saved, u.1.shards shard = some saved ∧ ModelTrainedOn engine (· ∈ saved) shard u result.resultWeights ∧
      (CacheCollision t.1 shard ∨
        ∀ ref ∈ c.refs, ∃ m, result.manifests.get? ref = some m ∧ DescribesSaved saved ref m) := by
  subst hc hshard
  have hsound := hrun.sound (htrain.sound hr hs hroll)
  obtain ⟨saved,hsaved,hmodel⟩ := hsound.modelTrainedOn hret hm
  refine ⟨saved,hsaved,hmodel,?_⟩
  rcases Call.describesSaved hret with hcol | ⟨saved',hsaved',hall⟩
  · exact Or.inl hcol
  · cases hsaved.symm.trans hsaved'
    exact Or.inr hall

/-- The fourth operation of a call of the MLP engine writes the purged shard file. -/
theorem Rebuild.stopAfter_purge {seed : ℤ} {sign : Bool} {clock : Clock} {refs : List Ref} {batch : Batch}
    {s : Observed D} (hne : refs ≠ []) (hr : s.1.1.routing = some routing) (hloc : locate routing refs = .ok batch)
    (hs : s.1.1.shards batch.shard = some records) (hn : refs.Nodup) (hmem : ∀ ref ∈ refs, ref ∈ subjectRefs records) :
    (Rebuild.rebuildBatchByRef refs seed sign clock).stopAfter (Program.observed fileExec (observeWrite D m)) 4 s =
      (({s.1.1 with shards := Function.update s.1.1.shards batch.shard (some (retain records refs))},s.1.2),
        Function.update s.2 batch.shard (min (s.2 batch.shard) m)) := by
  obtain ⟨tree,ht,-⟩ := Smt.exists_treeForShard s.1.2 batch.shard (subjectRefs records)
  have hpurge : Rebuild.purgeAll batch.shard refs records 0 =
      .ok (retain records refs,records.length - (retain records refs).length) := Rebuild.purgeAll_eq_ok.mpr
    ⟨hn,hmem,rfl,(Nat.sub_add_cancel (length_retain_le ..)).trans (Nat.zero_add _).symm⟩
  have hretrain : ((Rebuild.parts seed : EngineParts D).retrain refs batch records) = (do
      saveShard batch.shard (retain records refs)
      let resumeState ← Rebuild.loadResumeState batch.shard batch.minSlice
      let digests ← trainShard batch.shard (some (retain records refs)) batch.minSlice resumeState seed
      let resultWeights ← Program.lift (Rebuild.lastDigest D.settings.NUM_SLICES digests)
      pure ⟨retain records refs,records.length - (retain records refs).length,resultWeights,
        .mlp (retain records refs) batch.minSlice resumeState seed⟩) := by
    have hunfold : (Rebuild.parts seed : EngineParts D).retrain refs batch records =
      Rebuild.retrain seed refs batch records := rfl
    rw [hunfold, Rebuild.retrain.eq_def, hpurge]
    rfl
  have hroute : fileExec .loadRouting s.1 = .ok (routing,s.1) := readFile_eq_ok.mpr ⟨hr,rfl⟩
  have hshard : fileExec (.loadShard batch.shard) s.1 = .ok (records,s.1) := readFile_eq_ok.mpr ⟨hs,rfl⟩
  have htree : fileExec (.treeForShard batch.shard (subjectRefs records)) s.1 = .ok (tree,s.1) := by
    rw [fileExec, ht]
    rfl
  rw [Rebuild.rebuildBatchByRef, rebuildBatch, if_neg hne, loadRouting,
    Program.stopAfter_call_bind (Program.observed_eq_ok.mpr ⟨hroute,rfl⟩), Program.stopAfter_lift_bind hloc, loadShard,
    Program.stopAfter_call_bind (Program.observed_eq_ok.mpr ⟨hshard,rfl⟩), treeForShard,
    Program.stopAfter_call_bind (Program.observed_eq_ok.mpr ⟨htree,rfl⟩), hretrain]
  rfl

end Invariant

section Sample

theorem pairsTrained_trains : ModelEngine.Trains (.mlp 1337) 0 (pairs pairRecords) (pairsTrained pairRecords) :=
  pairsTrained_run pairRecords (by decide)

def pairsPurged : Observed (logging 2) :=
  (({(pairsTrained pairRecords).1 with
      shards := Function.update (pairsTrained pairRecords).1.shards 0 (some (retain pairRecords [sampleRef 3]))},
    (pairsTrained pairRecords).2),Function.update (fun _ => 2) 0 1)

theorem pairsPurged_run : InterruptedRun (.mlp 1337) (pairsTrained pairRecords,fun _ => 2) pairsPurged := by
  have h := InterruptedRun.start.call (sampleCall (.mlp 1337) [sampleRef 3]) 4 rfl
    (s := (pairsTrained pairRecords,fun _ => 2))
  have hloc : locate pairRouting [sampleRef 3] = .ok ⟨0,1⟩ := rfl
  have hstop : (Rebuild.rebuildBatchByRef [sampleRef 3] 1337 true ⟨"2024-01-01","2024-01-02"⟩).stopAfter
      (Program.observed fileExec (observeWrite (logging 2) 1)) 4 (pairsTrained pairRecords,fun _ => 2) = pairsPurged :=
    Rebuild.stopAfter_purge (List.cons_ne_nil _ _) rfl hloc rfl (List.nodup_singleton _) (by decide)
  exact (congrArg _ hstop).mp h

theorem pairRecords_rollsBack : RollsBack (D := logging 2) pairRouting 0 pairRecords := by
  have hrow : ∀ row ∈ pairRecords, ∃ e, pairRouting.get? row.subjectRef = some e ∧ e.minSliceIdx ≤ row.sliceIdx :=
    List.forall_mem_cons.mpr ⟨⟨_,rfl,le_rfl⟩,List.forall_mem_cons.mpr ⟨⟨_,rfl,le_rfl⟩,
      List.forall_mem_cons.mpr ⟨⟨_,rfl,le_rfl⟩,List.forall_mem_singleton.mpr ⟨_,rfl,le_rfl⟩⟩⟩⟩
  intro row hmem e he _
  obtain ⟨e',he',hle⟩ := hrow row hmem
  cases he.symm.trans he'
  exact hle

/-- The call for the third subject is stopped behind its purge, and the call for the fourth one rolls back to
the slice that is still sound. -/
theorem certified_weights_sample : ∃ result u,
    InterruptedRun (.mlp 1337) (pairsTrained pairRecords,fun _ => 2) pairsPurged ∧
    (sampleCall (.mlp 1337) [sampleRef 4]).program.run fileExec pairsPurged.1 = (.ok result,u) ∧
    ∃ saved, u.1.shards 0 = some saved ∧ ModelTrainedOn (.mlp 1337) (· ∈ saved) 0 u result.resultWeights := by
  have hready : Ready (sampleCall (.mlp 1337) [sampleRef 4]) pairsPurged.1 ⟨0,1⟩ (retain pairRecords [sampleRef 3]) :=
    ⟨List.cons_ne_nil _ _,List.nodup_singleton _,⟨pairRouting,rfl,rfl⟩,rfl,by decide,not_cacheCollision rfl,
      fun _ => rfl,rfl,Nat.one_lt_two,by decide,fun _ => rfl⟩
  obtain ⟨result,u,hret⟩ := Call.returns hready
  have hshard : result.shard = 0 := by
    obtain ⟨x,hx,-⟩ := Call.returned hret
    have hroute : pairRouting = x.routing := Option.some.inj hx.routing
    have hlocated := hx.batch
    rw [← hroute] at hlocated
    rw [hx.result, ← Except.ok.inj hlocated]
  obtain ⟨saved,hsaved,hmodel,-⟩ := certified_weights rfl rfl pairRecords_rollsBack pairsTrained_trains
    pairsPurged_run rfl hret hshard (le_refl 1)
  exact ⟨result,u,pairsPurged_run,hret,saved,hsaved,hmodel⟩

def samplePurged : Observed (logging 2) :=
  (({sampleTrained.1 with
      shards := Function.update sampleTrained.1.shards 0 (some (retain sampleRecords [sampleRef 1]))},
    sampleTrained.2),Function.update (fun _ => 2) 0 0)

theorem samplePurged_run : InterruptedRun (.mlp 1337) (sampleTrained,fun _ => 2) samplePurged := by
  have h := InterruptedRun.start.call (sampleCall (.mlp 1337) [sampleRef 1]) 4 rfl (s := (sampleTrained,fun _ => 2))
  have hloc : locate sampleRouting [sampleRef 1] = .ok ⟨0,0⟩ := rfl
  have hstop : (Rebuild.rebuildBatchByRef [sampleRef 1] 1337 true ⟨"2024-01-01","2024-01-02"⟩).stopAfter
      (Program.observed fileExec (observeWrite (logging 2) 0)) 4 (sampleTrained,fun _ => 2) = samplePurged :=
    Rebuild.stopAfter_purge (List.cons_ne_nil _ _) rfl hloc rfl (List.nodup_singleton _) (by decide)
  exact (congrArg _ hstop).mp h

/-- The logging learner's models hold values of the rows they were trained on. -/
theorem logging_trainedOn {numSlices : ℕ} {R : Row ℕ → Prop} {t : Training (logging numSlices)}
    (h : TrainedOn (D := logging numSlices) R t) : ∀ v : ℕ, List.Mem v t.1 → ∃ row, R row ∧ row.values = v := by
  induction h with
  | fresh seed => exact fun v hv => absurd hv List.not_mem_nil
  | resumed seed _ ih => exact ih
  | @slice t records preproc i seed _ _ hrows ih =>
    intro v hv
    rcases List.mem_append.mp hv with hv | hv
    · exact ih v hv
    · obtain ⟨v',hv',rfl⟩ := List.mem_map.mp hv
      obtain ⟨row,hrow,hi,hval⟩ := mem_upto hv'
      exact ⟨row,hrows row hrow hi,hval⟩

/-- The call for the first subject is stopped behind its purge, and the call for the third one resumes
from the checkpoint the first subject is in. -/
theorem not_certified_weights : ∃ (t : Observed (logging 2)) (result : Result (logging 2)) (u : Process (logging 2)),
    InterruptedRun (.mlp 1337) (sampleTrained,fun _ => 2) t ∧
    (sampleCall (.mlp 1337) [sampleRef 3]).program.run fileExec t.1 = (.ok result,u) ∧
    ∀ saved, u.1.shards 0 = some saved → ¬ModelTrainedOn (.mlp 1337) (· ∈ saved) 0 u result.resultWeights := by
  have hready : Ready (sampleCall (.mlp 1337) [sampleRef 3]) samplePurged.1
    ⟨0,1⟩ (retain sampleRecords [sampleRef 1]) :=
    ⟨List.cons_ne_nil _ _,List.nodup_singleton _,⟨sampleRouting,rfl,rfl⟩,rfl,by decide,not_cacheCollision rfl,
      fun _ => rfl,rfl,Nat.one_lt_two,by decide,fun _ => rfl⟩
  obtain ⟨result,u,hret⟩ := Call.returns hready
  refine ⟨samplePurged,result,u,samplePurged_run,hret,?_⟩
  intro saved hsaved hmodel
  obtain ⟨tr,htrained,hck,-⟩ := hmodel
  obtain ⟨x,preproc,start,hx⟩ :=
    Rebuild.Request.returned (c := ⟨[sampleRef 3],1337,true,⟨"2024-01-01","2024-01-02"⟩⟩) hret
  have hroute : sampleRouting = x.routing := Option.some.inj hx.routing
  have hlocated := hx.batch
  rw [← hroute] at hlocated
  have hb : (⟨0,1⟩ : Batch) = x.batch := Except.ok.inj hlocated
  have hrecords := hx.records
  have hstart := hx.start
  have hafter := hx.checkpointsAfter
  have hshards := hx.shardsAfter
  rw [← hb] at hrecords hstart hafter hshards
  have hrows : retain sampleRecords [sampleRef 1] = x.records := Option.some.inj hrecords
  rw [← hrows] at hafter hshards
  cases hstart
  have hmodel : (([10,20,20] : List ℕ) : (logging 2).mlp.Weights) = tr.1 := by
    rw [hafter] at hck
    exact Option.some.inj hck
  have hfile : retain (retain sampleRecords [sampleRef 1]) [sampleRef 3] = saved := by
    rw [hshards] at hsaved
    exact Option.some.inj hsaved
  obtain ⟨row,hrow,hval⟩ := logging_trainedOn htrained 10 (hmodel ▸ List.mem_cons_self)
  rw [← hfile] at hrow
  have hnone : ∀ row ∈ retain (retain sampleRecords [sampleRef 1]) [sampleRef 3], row.values ≠ 10 := by decide
  exact hnone row hrow hval

end Sample

end UnlearnShield.Engine
