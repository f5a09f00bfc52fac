import UnlearnShield.Library.Faults
import UnlearnShield.Engine.Outcome
import UnlearnShield.Engine.Shrinking

/-! # Calls that raise

The operating system may refuse any access to a file, and a write it refuses may leave the
file damaged. The purged shard file is written first and the routing table last, so a call
that raises in between leaves the purged shard file beside a table that still lists its
subjects.
-/
namespace UnlearnShield.Engine
open Deployment Program
variable {D : Deployment}

inductive File
  | routing
  | shard (shard : ℕ)
  | preproc (shard : ℕ)
  | checkpoint (shard sliceIdx : ℕ)
  | booster (shard : ℕ)

inductive Access
  | read (file : File)
  | write (file : File)

/-- The access to a file an operation makes. The tree cache is in memory. -/
def FileOp.access : FileOp D → Option Access
  | .loadRouting => some (.read .routing)
  | .saveRouting _ => some (.write .routing)
  | .loadShard shard => some (.read (.shard shard))
  | .saveShard shard _ => some (.write (.shard shard))
  | .writePreproc shard _ => some (.write (.preproc shard))
  | .loadCheckpoint shard sliceIdx => some (.read (.checkpoint shard sliceIdx))
  | .saveCheckpoint shard sliceIdx _ => some (.write (.checkpoint shard sliceIdx))
  | .loadBooster shard => some (.read (.booster shard))
  | .saveBooster shard _ => some (.write (.booster shard))
  | .treeForShard _ _ | .cacheTree _ _ => none

def Disk.Same (d d' : Disk D) : File → Prop
  | .routing => d'.routing = d.routing
  | .shard shard => d'.shards shard = d.shards shard
  | .preproc shard => d'.preproc shard = d.preproc shard
  | .checkpoint shard sliceIdx => d'.checkpoints shard sliceIdx = d.checkpoints shard sliceIdx
  | .booster shard => d'.boosters shard = d.boosters shard

theorem Disk.Same.refl (d : Disk D) (f : File) : Disk.Same d d f := by
  cases f <;> rfl

theorem Disk.Same.trans {d d' d'' : Disk D} {f : File} (h : Disk.Same d d' f) (h' : Disk.Same d' d'' f) :
    Disk.Same d d'' f := by
  cases f <;> exact Eq.trans h' h

variable (D) in
/-- What goes wrong around one call: the error each access to a file fails with, and what a failed
write leaves. An error stands for those of the directory, the opening, the transfer and the format,
and for one raised by what the call computes right before the access or from what it has just read. A
call makes each access once. -/
structure Faults where
  fault : Access → Option PyErr
  left : File → Disk D → Disk D
  confined : ∀ f d g, g ≠ f → Disk.Same d (left f d) g

namespace Faults
variable (F : Faults D)

def of (op : FileOp D) : Option PyErr := (FileOp.access op).bind F.fault

def leave (op : FileOp D) (s : Process D) : Process D :=
  match FileOp.access op with
  | some (.write f) => (F.left f s.1,s.2)
  | _ => s

theorem of_treeForShard (shard : ℕ) (subjectRefs : List Ref) : F.of (.treeForShard shard subjectRefs) = none := rfl

theorem of_cacheTree (shard : ℕ) (tree : Smt.SparseMerkleTree D.H) : F.of (.cacheTree shard tree) = none := rfl

/-- The files and the cache, where the accesses that have a fault fail. -/
def exec : FaultyExec (FileOp D) FileOp.Resp PyErr (Process D) := withFaults fileExec F.of F.leave

end Faults

def FileOp.Spares (f : File) (op : FileOp D) : Prop := FileOp.access op ≠ some (.write f)

theorem FileOp.Spares.same {f : File} {op : FileOp D} (hop : FileOp.Spares f op) {s t : Process D} {r : op.Resp}
    (h : fileExec op s = .ok (r,t)) : Disk.Same s.1 t.1 f := by
  unfold FileOp.Spares at hop
  cases op with
  | loadRouting | loadShard | loadCheckpoint | loadBooster =>
    obtain ⟨-,rfl⟩ := readFile_eq_ok.mp h
    exact Disk.Same.refl ..
  | treeForShard k refs =>
    have hmap : (Smt.treeForShard s.2 k refs).map (fun tree => (tree,s)) = .ok (r,t) := h
    cases ht : Smt.treeForShard s.2 k refs with
    | error e =>
      rw [ht] at hmap
      cases hmap
    | ok tree =>
      rw [ht] at hmap
      obtain ⟨-,rfl⟩ := Prod.mk.inj (Except.ok.inj hmap)
      exact Disk.Same.refl ..
  | cacheTree =>
    obtain ⟨-,rfl⟩ := Prod.mk.inj (Except.ok.inj h)
    exact Disk.Same.refl ..
  | saveRouting | saveShard | writePreproc | saveCheckpoint | saveBooster =>
    obtain ⟨-,rfl⟩ := Prod.mk.inj (Except.ok.inj h)
    cases f <;> simp_all [FileOp.access, Disk.Same, Disk.setCheckpoint, eq_comm]

/-- Failing or not, an operation leaves the files it does not write. -/
theorem FileOp.Spares.same_exec {f : File} {op : FileOp D} (hop : FileOp.Spares f op) (F : Faults D) (s : Process D) :
    Disk.Same s.1 (F.exec op s).2.1 f := by
  unfold Faults.exec withFaults
  cases F.of op with
  | some e =>
    dsimp only
    unfold Faults.leave
    split
    · next g hg => exact F.confined g s.1 f fun he => hop (by rw [hg, he])
    · exact Disk.Same.refl ..
  | none =>
    cases he : fileExec op s with
    | error e => exact Disk.Same.refl ..
    | ok p => exact hop.same he

/-- A program that does not write a file leaves it as it is, wherever it fails. -/
theorem same_of_performs {α : Type} {f : File} {p : FileM D α} (h : p.Performs (FileOp.Spares f)) (F : Faults D)
    (s : Process D) : Disk.Same s.1 (p.runFaulty F.exec s).2.1 f :=
  h.runFaulty_relates (R := fun s t => Disk.Same s.1 t.1 f) (fun s => Disk.Same.refl s.1 f)
    (fun _ _ _ => Disk.Same.trans) (fun _ s hop => hop.same_exec F s) s

theorem FileOp.Leaves.spares {op : FileOp D} (hop : FileOp.Leaves op) (shard : ℕ) :
    FileOp.Spares (.shard shard) op := by
  cases op with
  | saveRouting | saveShard => exact hop.elim
  | loadRouting | loadShard | loadCheckpoint | loadBooster | treeForShard | cacheTree =>
    simp [FileOp.Spares, FileOp.access]
  | writePreproc | saveCheckpoint | saveBooster => simp [FileOp.Spares, FileOp.access]

theorem performs_finish (shard : ℕ) (parts : EngineParts D) (refs : List Ref) (sign : Bool) (clock : Clock)
    (routing : Routing) (batch : Batch) (treeBefore : Smt.SparseMerkleTree D.H) (retrained : Retrained D) :
    (finish parts refs sign clock routing batch treeBefore retrained).Performs (FileOp.Spares (.shard shard)) := by
  have hcache : ∀ tree, (cacheTree batch.shard tree : FileM D Unit).Performs (FileOp.Spares (.shard shard)) :=
    fun tree => performs_call (by simp [FileOp.Spares, FileOp.access])
  have hsave : ∀ routing', (saveRouting routing' : FileM D Unit).Performs (FileOp.Spares (.shard shard)) :=
    fun routing' => performs_call (by simp [FileOp.Spares, FileOp.access])
  refine (performs_lift _).bind fun tree => (hcache tree).bind fun _ => (performs_lift _).bind fun cfgDigest => ?_
  refine (performs_lift _).bind fun manifests => (performs_lift _).bind fun routing' => ?_
  exact (hsave routing').bind fun _ => performs_pure _

section Steps
variable {F : Faults D} {s t : Process D}

/-- A fault on a read or in memory changes nothing. -/
theorem eq_of_call_error {op : FileOp D} {e : PyErr} (hop : ∀ f, FileOp.Spares f op)
    (h : (Program.call op .pure : FileM D _).runFaulty F.exec s = (.error e,t)) : t = s := by
  rw [runFaulty] at h
  have hexec : F.exec op s = (.error e,t) := by
    rcases hexec : F.exec op s with ⟨e' | r,u⟩
    · rw [hexec] at h
      exact h
    · rw [hexec] at h
      cases (Prod.mk.inj h).1
  unfold Faults.exec withFaults at hexec
  cases hfault : F.of op with
  | some e' =>
    rw [hfault] at hexec
    have hleave : F.leave op s = s := by
      unfold Faults.leave
      split
      · next f hf => exact absurd hf (hop f)
      · rfl
    rw [← (Prod.mk.inj hexec).2, hleave]
  | none =>
    rw [hfault] at hexec
    rcases hfile : fileExec op s with e' | ⟨r,u⟩
    · rw [hfile] at hexec
      exact (Prod.mk.inj hexec).2.symm
    · rw [hfile] at hexec
      cases (Prod.mk.inj hexec).1

theorem runFaulty_lift {α : Type} (x : Py α) : (Program.lift x : FileM D α).runFaulty F.exec s = (x,s) := by
  cases x <;> rfl

theorem runFaulty_call {op : FileOp D} {r : op.Resp} :
    (Program.call op .pure : FileM D _).runFaulty F.exec s = (.ok r,t) ↔
      F.of op = none ∧ fileExec op s = .ok (r,t) := by
  rw [Faults.exec, runFaulty_eq_ok, along_call, run_call_eq_ok]
  constructor
  · rintro ⟨⟨r',u,hop,h⟩,hfault⟩
    obtain ⟨hr,rfl⟩ := Prod.mk.inj h
    cases hr
    exact ⟨hfault,hop⟩
  · rintro ⟨hfault,hop⟩
    exact ⟨⟨r,t,hop,rfl⟩,hfault⟩

/-- A shard file fails to be written by a fault only, which says what is left of it. -/
theorem saveShard_error {shard : ℕ} {records : Records D.V} {e : PyErr}
    (h : (saveShard shard records).runFaulty F.exec s = (.error e,t)) :
    F.fault (.write (.shard shard)) ≠ none ∧ t.1 = F.left (.shard shard) s.1 := by
  cases hfault : F.fault (.write (.shard shard)) with
  | none =>
    have hok : (saveShard shard records).runFaulty F.exec s = (.ok (),_) := runFaulty_call.mpr ⟨hfault,rfl⟩
    rw [hok] at h
    cases (Prod.mk.inj h).1
  | some e' =>
    have hof : F.of (.saveShard shard records) = some e' := hfault
    rw [saveShard, runFaulty, Faults.exec, withFaults_of_fault hof] at h
    refine ⟨Option.some_ne_none _,?_⟩
    rw [← (Prod.mk.inj h).2]
    rfl

end Steps

/-- No access after the purged shard file fails. -/
structure Undisturbed (F : Faults D) (batch : Batch) : Prop where
  resume : 0 < batch.minSlice → F.fault (.read (.checkpoint batch.shard (batch.minSlice - 1))) = none
  preproc : F.fault (.write (.preproc batch.shard)) = none
  checkpoints : ∀ i, batch.minSlice ≤ i → i < D.settings.NUM_SLICES →
    F.fault (.write (.checkpoint batch.shard i)) = none
  routing : F.fault (.write .routing) = none

namespace Rebuild

/-- The subjects of the batch are on disk and can be read, so the call writes the purged shard file. -/
structure PurgesUnder (F : Faults D) (refs : List Ref) (s : Process D) (batch : Batch) (records : Records D.V) : Prop
    extends Purges refs s batch records where
  readRouting : F.fault (.read .routing) = none
  readShard : F.fault (.read (.shard batch.shard)) = none

theorem along_trainSlices {F : Faults D} {shard : ℕ} {preproc : D.mlp.Preproc} {records : Records D.V} {seed : ℤ}
    {n i : ℕ} {t : Training D} {s : Process D} :
    (trainSlices shard preproc records seed n i t).Along fileExec (fun op _ => F.of op = none) s ↔
      ∀ j, i ≤ j → j < i + n → F.fault (.write (.checkpoint shard j)) = none := by
  induction n generalizing i t s with
  | zero => exact ⟨fun _ j hj hj' => absurd hj' (by omega),fun _ => trivial⟩
  | succ n ih =>
    rw [trainSlices, along_bind_of_ok (run_saveCheckpoint ..), along_bind_of_ok (run_trainSlices ..), saveCheckpoint,
      along_call, ih]
    constructor
    · rintro ⟨hfirst,hrest,-⟩ j hj hj'
      rcases Nat.eq_or_lt_of_le hj with rfl | hlt
      · exact hfirst
      · exact hrest j hlt (by omega)
    · intro h
      exact ⟨h i le_rfl (by omega),fun j hj hj' => h j (by omega) (by omega),trivial⟩

theorem along_loadResumeState {F : Faults D} {shard minSlice : ℕ} {s : Process D} :
    (loadResumeState shard minSlice).Along fileExec (fun op _ => F.of op = none) s ↔
      (0 < minSlice → F.fault (.read (.checkpoint shard (minSlice - 1))) = none) := by
  unfold loadResumeState
  by_cases hm : 0 < minSlice
  · rw [if_pos hm]
    exact ⟨fun h _ => h.1,fun h => ⟨h hm,fun _ _ _ => trivial⟩⟩
  · rw [if_neg hm]
    exact ⟨fun _ h => absurd h hm,fun _ => trivial⟩

theorem along_trainShard {F : Faults D} {shard fromSlice : ℕ} {records : Records D.V} {resume : Option D.Weights}
    {seed : ℤ} {s t : Process D} {digests : List (ℕ × String)}
    (h : (trainShard shard (some records) fromSlice resume seed).run fileExec s = (.ok digests,t)) :
    (trainShard shard (some records) fromSlice resume seed).Along fileExec (fun op _ => F.of op = none) s ↔
      F.fault (.write (.preproc shard)) = none ∧
      ∀ i, fromSlice ≤ i → i < D.settings.NUM_SLICES → F.fault (.write (.checkpoint shard i)) = none := by
  obtain ⟨hd,preproc,start,hfit,hstart,-,-⟩ := run_trainShard.mp h
  rw [trainShard, along_bind_of_ok (run_lift_eq_ok.mpr ⟨hd,rfl⟩),
    along_bind_of_ok (run_pure_eq_ok.mpr ⟨rfl,rfl⟩), along_bind_of_ok (run_lift_eq_ok.mpr ⟨hfit,rfl⟩),
    along_bind_of_ok (run_lift_eq_ok.mpr ⟨hstart,rfl⟩), along_bind_of_ok (run_writePreproc ..), along_trainSlices,
    writePreproc, along_call]
  constructor
  · rintro ⟨-,-,-,-,hpre,hck⟩
    exact ⟨hpre,fun i hi hi' => hck i hi (by omega)⟩
  · rintro ⟨hpre,hck⟩
    exact ⟨along_lift _ _,trivial,along_lift _ _,along_lift _ _,hpre,fun i hi hi' => hck i hi (by omega)⟩

/-- What a retraining writes and reads on its way to its end. -/
theorem along_retrain {F : Faults D} {seed : ℤ} {refs : List Ref} {batch : Batch} {records : Records D.V}
    {s t : Process D} {r : Retrained D} (h : (retrain seed refs batch records).run fileExec s = (.ok r,t)) :
    (retrain seed refs batch records).Along fileExec (fun op _ => F.of op = none) s ↔
      F.fault (.write (.shard batch.shard)) = none ∧
      (0 < batch.minSlice → F.fault (.read (.checkpoint batch.shard (batch.minSlice - 1))) = none) ∧
      F.fault (.write (.preproc batch.shard)) = none ∧
      ∀ i, batch.minSlice ≤ i → i < D.settings.NUM_SLICES → F.fault (.write (.checkpoint batch.shard i)) = none := by
  obtain ⟨⟨retained,total⟩,_,hpurge,h⟩ := run_bind_eq_ok.mp h
  obtain ⟨_,_,hsave,h⟩ := run_bind_eq_ok.mp h
  obtain ⟨resume,_,hresume,h⟩ := run_bind_eq_ok.mp h
  obtain ⟨digests,_,htrain,h⟩ := run_bind_eq_ok.mp h
  obtain ⟨weights,_,hweights,-⟩ := run_bind_eq_ok.mp h
  rw [retrain, along_bind_of_ok hpurge]
  dsimp only
  rw [along_bind_of_ok hsave, along_bind_of_ok hresume, along_bind_of_ok htrain, along_bind_of_ok hweights,
    along_loadResumeState, along_trainShard htrain, saveShard, along_call]
  constructor
  · rintro ⟨-,hshard,hresume,⟨hpre,hck⟩,-⟩
    exact ⟨hshard,hresume,hpre,hck⟩
  · rintro ⟨hshard,hresume,hpre,hck⟩
    exact ⟨along_lift _ _,hshard,hresume,⟨hpre,hck⟩,along_lift _ _,trivial⟩

/-- The accesses of a call that returns. -/
theorem PurgesUnder.along_iff {F : Faults D} {refs : List Ref} {seed : ℤ} {sign : Bool} {clock : Clock}
    {s t : Process D} {batch : Batch} {records : Records D.V} {result : Result D}
    (h : PurgesUnder F refs s batch records)
    (hrun : (rebuildBatchByRef refs seed sign clock).run fileExec s = (.ok result,t)) :
    (rebuildBatchByRef refs seed sign clock).Along fileExec (fun op _ => F.of op = none) s ↔
      F.fault (.write (.shard batch.shard)) = none ∧ Undisturbed F batch := by
  unfold rebuildBatchByRef rebuildBatch at hrun ⊢
  rw [if_neg h.nonempty] at hrun ⊢
  obtain ⟨routing,_,hr,hrun⟩ := run_bind_eq_ok.mp hrun
  obtain ⟨batch',_,hb,hrun⟩ := run_bind_eq_ok.mp hrun
  obtain ⟨records',_,hs,hrun⟩ := run_bind_eq_ok.mp hrun
  obtain ⟨treeBefore,_,ht,hrun⟩ := run_bind_eq_ok.mp hrun
  obtain ⟨retrained,_,hre,hrun⟩ := run_bind_eq_ok.mp hrun
  obtain ⟨tree,_,htree,hrun⟩ := run_bind_eq_ok.mp hrun
  obtain ⟨_,_,hcache,hrun⟩ := run_bind_eq_ok.mp hrun
  obtain ⟨cfg,_,hcfg,hrun⟩ := run_bind_eq_ok.mp hrun
  obtain ⟨manifests,_,hm,hrun⟩ := run_bind_eq_ok.mp hrun
  obtain ⟨routing',_,hpop,hrun⟩ := run_bind_eq_ok.mp hrun
  obtain ⟨_,_,hsave,-⟩ := run_bind_eq_ok.mp hrun
  rw [along_bind_of_ok hr, along_bind_of_ok hb, along_bind_of_ok hs, along_bind_of_ok ht, along_bind_of_ok hre,
    along_bind_of_ok htree, along_bind_of_ok hcache, along_bind_of_ok hcfg, along_bind_of_ok hm,
    along_bind_of_ok hpop, along_bind_of_ok hsave]
  obtain ⟨hrouting,rfl⟩ := run_loadRouting.mp hr
  obtain ⟨hbatch,rfl⟩ := run_lift_eq_ok.mp hb
  obtain ⟨hshard,rfl⟩ := run_loadShard.mp hs
  obtain ⟨rfl,rfl⟩ := h.toLocated.unique ⟨h.nonempty,⟨routing,hrouting,hbatch⟩,hshard⟩
  have hretrain : (parts seed : EngineParts D).retrain refs batch records = retrain seed refs batch records := rfl
  rw [hretrain] at hre ⊢
  rw [loadRouting, loadShard, treeForShard, cacheTree, saveRouting, along_call, along_call, along_call, along_call,
    along_call, along_retrain hre]
  simp only [along_lift, along_pure, F.of_treeForShard, F.of_cacheTree, true_and, and_true]
  constructor
  · rintro ⟨-,-,⟨hw,hresume,hpre,hck⟩,hroute⟩
    exact ⟨hw,hresume,hpre,hck,hroute⟩
  · rintro ⟨hw,hresume,hpre,hck,hroute⟩
    exact ⟨h.readRouting,h.readShard,⟨hw,hresume,hpre,hck⟩,hroute⟩

/-- A call that purges its subjects returns exactly when it finds what it needs and no access fails. -/
theorem PurgesUnder.returns_iff {F : Faults D} {refs : List Ref} {seed : ℤ} {sign : Bool} {clock : Clock}
    {s : Process D} {batch : Batch} {records : Records D.V} (h : PurgesUnder F refs s batch records) :
    (∃ result t, (rebuildBatchByRef refs seed sign clock).runFaulty F.exec s = (.ok result,t)) ↔
      F.fault (.write (.shard batch.shard)) = none ∧ Completes refs seed sign s batch records ∧
        Undisturbed F batch := by
  rw [Faults.exec]
  simp only [runFaulty_eq_ok]
  constructor
  · rintro ⟨result,t,hrun,halong⟩
    obtain ⟨hw,hrest⟩ := (h.along_iff hrun).mp halong
    exact ⟨hw,h.toPurges.returns_iff.mp ⟨result,t,hrun⟩,hrest⟩
  · rintro ⟨hw,hc,hrest⟩
    obtain ⟨result,t,hrun⟩ := h.toPurges.returns_iff.mpr hc
    exact ⟨result,t,hrun,(h.along_iff hrun).mpr ⟨hw,hrest⟩⟩

/-- The call gets to retraining. -/
theorem PurgesUnder.run_eq {F : Faults D} {refs : List Ref} {s : Process D} {batch : Batch} {records : Records D.V}
    (h : PurgesUnder F refs s batch records) (seed : ℤ) (sign : Bool) (clock : Clock) : ∃ routing treeBefore,
      (rebuildBatchByRef refs seed sign clock).runFaulty F.exec s =
        (retrain seed refs batch records >>= finish (parts seed) refs sign clock routing batch treeBefore).runFaulty
          F.exec s := by
  obtain ⟨routing,hr,hb⟩ := h.located
  obtain ⟨treeBefore,ht,-⟩ := Smt.exists_treeForShard s.2 batch.shard (subjectRefs records)
  refine ⟨routing,treeBefore,?_⟩
  have hroute : (loadRouting : FileM D Routing).runFaulty F.exec s = (.ok routing,s) :=
    runFaulty_call.mpr ⟨h.readRouting,readFile_eq_ok.mpr ⟨hr,rfl⟩⟩
  have hshard : (loadShard batch.shard).runFaulty F.exec s = (.ok records,s) :=
    runFaulty_call.mpr ⟨h.readShard,readFile_eq_ok.mpr ⟨h.shardFile,rfl⟩⟩
  have htree : (treeForShard batch.shard (subjectRefs records)).runFaulty F.exec s = (.ok treeBefore,s) := by
    refine runFaulty_call.mpr ⟨F.of_treeForShard ..,?_⟩
    rw [fileExec, ht]
    rfl
  have hlocate : (Program.lift (locate routing refs) : FileM D Batch).runFaulty F.exec s = (.ok batch,s) := by
    rw [runFaulty_lift, hb]
  rw [rebuildBatchByRef, rebuildBatch, if_neg h.nonempty, runFaulty_bind_of_ok hroute, runFaulty_bind_of_ok hlocate,
    runFaulty_bind_of_ok hshard, runFaulty_bind_of_ok htree]
  rfl

theorem performs_afterPurge (batch : Batch) (retained : Records D.V) (droppedTotal : ℕ) (seed : ℤ) :
    (do
      let resumeState ← loadResumeState batch.shard batch.minSlice
      let digests ← trainShard batch.shard (some retained) batch.minSlice resumeState seed
      let resultWeights ← Program.lift (lastDigest D.settings.NUM_SLICES digests)
      Pure.pure ⟨retained,droppedTotal,resultWeights,.mlp retained batch.minSlice resumeState seed⟩ :
      FileM D (Retrained D)).Performs (FileOp.Spares (.shard batch.shard)) := by
  have hresume : (loadResumeState batch.shard batch.minSlice : FileM D _).Performs
      (FileOp.Spares (.shard batch.shard)) := by
    unfold loadResumeState
    split
    · exact Performs.bind (performs_call (by simp [FileOp.Spares, FileOp.access])) fun _ => performs_pure _
    · exact performs_pure _
  refine hresume.bind fun resume => Performs.bind ?_ fun digests => (performs_lift _).bind fun _ => performs_pure _
  exact (performs_trainShard_leaves ..).mono fun op hop => hop.spares batch.shard

/-- A call that purges its subjects and raises has failed on the purged shard file, or has written it. -/
theorem PurgesUnder.of_error {F : Faults D} {refs : List Ref} {seed : ℤ} {sign : Bool} {clock : Clock}
    {s t : Process D} {batch : Batch} {records : Records D.V} {e : PyErr} (h : PurgesUnder F refs s batch records)
    (hrun : (rebuildBatchByRef refs seed sign clock).runFaulty F.exec s = (.error e,t)) :
    (F.fault (.write (.shard batch.shard)) ≠ none ∧ t.1 = F.left (.shard batch.shard) s.1) ∨
      (F.fault (.write (.shard batch.shard)) = none ∧ t.1.shards batch.shard = some (retain records refs)) := by
  obtain ⟨routing,treeBefore,heq⟩ := h.run_eq seed sign clock
  rw [heq] at hrun
  rcases runFaulty_bind_eq_error.mp hrun with hre | ⟨r,u,hre,hfin⟩
  · have hpurge : (Program.lift (purgeAll batch.shard refs records 0) : FileM D _).runFaulty F.exec s =
        (.ok (retain records refs,records.length - (retain records refs).length),s) := by
      rw [runFaulty_lift, purgeAll_eq_ok.mpr ⟨h.nodup,h.present,rfl,
        (Nat.sub_add_cancel (length_retain_le ..)).trans (Nat.zero_add _).symm⟩]
    rw [retrain, runFaulty_bind_of_ok hpurge] at hre
    dsimp only at hre
    rcases runFaulty_bind_eq_error.mp hre with hsave | ⟨_,v,hsave,hrest⟩
    · exact Or.inl (saveShard_error hsave)
    · right
      obtain ⟨hfault,hv⟩ := runFaulty_call.mp hsave
      obtain ⟨-,rfl⟩ := Prod.mk.inj (Except.ok.inj hv)
      have hsame := same_of_performs (performs_afterPurge batch (retain records refs)
        (records.length - (retain records refs).length) seed) F ({s.1 with
          shards := Function.update s.1.shards batch.shard (some (retain records refs))},s.2)
      rw [hrest] at hsame
      exact ⟨hfault,Eq.trans hsame (Function.update_self ..)⟩
  · right
    rw [Faults.exec, runFaulty_eq_ok] at hre
    obtain ⟨hre,halong⟩ := hre
    refine ⟨((along_retrain hre).mp halong).1,?_⟩
    have hsame :=
      same_of_performs (performs_finish batch.shard (parts seed) refs sign clock routing batch treeBefore r) F u
    rw [hfin] at hsame
    obtain ⟨-,-,-,-,_,_,_,-,-,-,-,rfl⟩ := run_retrain.mp hre
    exact Eq.trans hsame (Function.update_self ..)

/-- A call that raises has changed nothing, unless it got to the purged shard file. -/
theorem eq_or_purgesUnder {F : Faults D} {refs : List Ref} {seed : ℤ} {sign : Bool} {clock : Clock} {s t : Process D}
    {e : PyErr} (h : (rebuildBatchByRef refs seed sign clock).runFaulty F.exec s = (.error e,t)) :
    t = s ∨ ∃ batch records, PurgesUnder F refs s batch records := by
  unfold rebuildBatchByRef rebuildBatch at h
  split at h
  · exact Or.inl (Prod.mk.inj h).2.symm
  next hne =>
  rcases runFaulty_bind_eq_error.mp h with h | ⟨routing,_,hr,h⟩
  · exact Or.inl (eq_of_call_error (by simp [FileOp.Spares, FileOp.access]) h)
  obtain ⟨hreadRouting,hloaded⟩ := runFaulty_call.mp hr
  obtain ⟨hrouting,rfl⟩ := readFile_eq_ok.mp hloaded
  rcases runFaulty_bind_eq_error.mp h with h | ⟨batch,_,hb,h⟩
  · rw [runFaulty_lift] at h
    exact Or.inl (Prod.mk.inj h).2.symm
  rw [runFaulty_lift] at hb
  obtain ⟨hbatch,rfl⟩ := Prod.mk.inj hb
  rcases runFaulty_bind_eq_error.mp h with h | ⟨records,_,hs,h⟩
  · exact Or.inl (eq_of_call_error (by simp [FileOp.Spares, FileOp.access]) h)
  obtain ⟨hreadShard,hloaded⟩ := runFaulty_call.mp hs
  obtain ⟨hfile,rfl⟩ := readFile_eq_ok.mp hloaded
  have hl : Located refs s batch records := ⟨hne,⟨routing,hrouting,hbatch⟩,hfile⟩
  by_cases hp : refs.Nodup ∧ ∀ ref ∈ refs, ref ∈ subjectRefs records
  · exact Or.inr ⟨batch,records,⟨hl,hp.1,hp.2⟩,hreadRouting,hreadShard⟩
  left
  rcases runFaulty_bind_eq_error.mp h with h | ⟨treeBefore,_,ht,h⟩
  · exact eq_of_call_error (by simp [FileOp.Spares, FileOp.access]) h
  obtain ⟨-,rfl⟩ := run_treeForShard.mp (runFaulty_eq_ok.mp ht).1
  rcases runFaulty_bind_eq_error.mp h with h | ⟨r,_,hre,-⟩
  · unfold parts retrain at h
    rcases runFaulty_bind_eq_error.mp h with h | ⟨⟨retained,total⟩,_,hpurge,-⟩
    · rw [runFaulty_lift] at h
      exact (Prod.mk.inj h).2.symm
    · rw [runFaulty_lift] at hpurge
      obtain ⟨hn,hmem,-⟩ := purgeAll_eq_ok.mp (Prod.mk.inj hpurge).1
      exact absurd ⟨hn,hmem⟩ hp
  · obtain ⟨hn,hmem,-⟩ := run_retrain.mp (runFaulty_eq_ok.mp hre).1
    exact absurd ⟨hn,hmem⟩ hp

/-- Whatever goes wrong around it, a call leaves the data as they were whenever it raises, exactly when
a batch whose subjects are all on disk fails on the purged shard file without damage to it, or writes it
and then finds what it needs and meets no fault. -/
theorem raise_leaves_data_iff (F : Faults D) (refs : List Ref) (seed : ℤ) (sign : Bool) (clock : Clock)
    (s : Process D) :
    (∀ e t, (rebuildBatchByRef refs seed sign clock).runFaulty F.exec s = (.error e,t) →
      t.1.shards = s.1.shards ∧ t.1.routing = s.1.routing) ↔
    ∀ batch records, PurgesUnder F refs s batch records →
      (F.fault (.write (.shard batch.shard)) ≠ none ∧
        (F.left (.shard batch.shard) s.1).shards batch.shard = s.1.shards batch.shard) ∨
      (F.fault (.write (.shard batch.shard)) = none ∧ Completes refs seed sign s batch records ∧
        Undisturbed F batch) := by
  constructor
  · intro hsame batch records hp
    rcases hrun : (rebuildBatchByRef refs seed sign clock).runFaulty F.exec s with ⟨e | result,t⟩
    · obtain ⟨hshards,-⟩ := hsame e t hrun
      rcases hp.of_error hrun with ⟨hfault,hleft⟩ | ⟨-,hpurged⟩
      · exact Or.inl ⟨hfault,by rw [← hleft, hshards]⟩
      · rw [hshards, hp.shardFile] at hpurged
        exact absurd (Option.some.inj hpurged).symm hp.retain_ne
    · exact Or.inr (hp.returns_iff.mp ⟨result,t,hrun⟩)
  · intro hall e t hrun
    rcases eq_or_purgesUnder hrun with rfl | ⟨batch,records,hp⟩
    · exact ⟨rfl,rfl⟩
    rcases hall batch records hp with ⟨hfault,hundamaged⟩ | hcompletes
    · rcases hp.of_error hrun with ⟨-,hleft⟩ | ⟨hnone,-⟩
      · rw [hleft]
        refine ⟨funext fun k => ?_,F.confined (.shard batch.shard) s.1 .routing (by simp)⟩
        by_cases hk : k = batch.shard
        · rw [hk, hundamaged]
        · exact F.confined (.shard batch.shard) s.1 (.shard k) (by simpa using hk)
      · exact absurd hnone hfault
    · obtain ⟨result,u,hok⟩ := hp.returns_iff.mpr hcompletes
      rw [hok] at hrun
      cases (Prod.mk.inj hrun).1

variable (D) in
def noFaults : Faults D := ⟨fun _ => none,fun _ d => d,fun _ d g _ => Disk.Same.refl d g⟩

/-- Erasing both subjects of slice 0 leaves nothing to fit a scaler on, after the purge. -/
theorem not_raise_leaves_data : ¬∀ e t,
    (rebuildBatchByRef [sampleRef 1,sampleRef 2] 1337 true ⟨"2024-01-01","2024-01-02"⟩).runFaulty
      (noFaults (logging 2)).exec sampleTrained = (.error e,t) →
    t.1.shards = sampleTrained.1.shards ∧ t.1.routing = sampleTrained.1.routing := by
  have hp : PurgesUnder (noFaults (logging 2)) [sampleRef 1,sampleRef 2] sampleTrained ⟨0,0⟩ sampleRecords :=
    ⟨⟨⟨List.cons_ne_nil _ _,⟨sampleRouting,rfl,rfl⟩,rfl⟩,by decide,by decide⟩,rfl,rfl⟩
  have hunfit : sliceZero (retain sampleRecords [sampleRef 1,sampleRef 2]) = [] := by decide
  intro hsame
  rcases hrun : (rebuildBatchByRef [sampleRef 1,sampleRef 2] 1337 true ⟨"2024-01-01","2024-01-02"⟩).runFaulty
    (noFaults (logging 2)).exec sampleTrained with ⟨e | result,t⟩
  · obtain ⟨hshards,-⟩ := hsame e t hrun
    rcases hp.of_error hrun with ⟨hfault,-⟩ | ⟨-,hpurged⟩
    · exact hfault rfl
    · rw [hshards, hp.shardFile] at hpurged
      exact hp.retain_ne (Option.some.inj hpurged).symm
  · exact (hp.returns_iff.mp ⟨result,t,hrun⟩).2.1.fitted hunfit

end Rebuild

end UnlearnShield.Engine
