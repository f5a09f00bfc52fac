import UnlearnShield.Engine.Outcome

/-! # Two engines on one batch

The engines look a batch up and certify it alike. They validate it differently: the
MLP engine wants rows of every subject, the GBDT engine rows of any.
-/
namespace UnlearnShield.Engine
open Deployment
variable {D : Deployment}

structure TrainingSucceeds (refs : List Ref) (seed : ℤ) (treesPerSlice : ℕ) (s : Process D) (batch : Batch)
    (records : Records D.V) : Prop where
  mlp : ∃ digests weights t, (trainShard batch.shard (some (retain records refs)) batch.minSlice
      (Rebuild.resumeState s.1 batch.shard batch.minSlice) seed).run fileExec s = (.ok digests,t) ∧
    Rebuild.lastDigest D.settings.NUM_SLICES digests = .ok weights
  gbdt : ∃ booster kept rebuilt, s.1.boosters batch.shard = some booster ∧
    Gbdt.rollback booster batch.minSlice treesPerSlice = .ok kept ∧
    Gbdt.trainShard (retain records refs) batch.minSlice kept treesPerSlice = .ok (some rebuilt)

/-- The parts of two results that do not name the model. -/
structure SameReport (refs : List Ref) (r r' : Result D) : Prop where
  shard : r.shard = r'.shard
  resumedFrom : r.resumedFrom = r'.resumedFrom
  rowsPurged : r.rowsPurged = r'.rowsPurged
  slicesRetrained : r.slicesRetrained = r'.slicesRetrained
  manifests : ∀ ref ∈ refs, ∃ m m', r.manifests.get? ref = some m ∧ r'.manifests.get? ref = some m' ∧
    (PyVal.dict m).subscript "dataset_root" = (PyVal.dict m').subscript "dataset_root" ∧
    (PyVal.dict m).subscript "absence_proof" = (PyVal.dict m').subscript "absence_proof"

/-- Two calls from `s` both return, or both raise, and leave the same data. -/
def SameEffect (refs : List Ref) (p q : FileM D (Result D)) (s : Process D) : Prop :=
  (p.run fileExec s).2.1.shards = (q.run fileExec s).2.1.shards ∧
  (p.run fileExec s).2.1.routing = (q.run fileExec s).2.1.routing ∧
  match (p.run fileExec s).1, (q.run fileExec s).1 with
  | .ok r, .ok r' => SameReport refs r r'
  | .error _, .error _ => True
  | _, _ => False

variable {refs : List Ref} {seed : ℤ} {treesPerSlice : ℕ} {sign : Bool} {clock : Clock} {s : Process D} {batch : Batch}
  {records : Records D.V}

/-- The MLP engine refuses a batch unless its subjects are distinct and all have rows. -/
theorem Rebuild.retrain_refuses (hno : ¬(refs.Nodup ∧ ∀ ref ∈ refs, ref ∈ subjectRefs records)) :
    ∃ e, (Rebuild.retrain seed refs batch records).run fileExec s = (.error e,s) := by
  rcases hpurge : Rebuild.purgeAll batch.shard refs records 0 with e | ⟨retained,total⟩
  · exact ⟨e,Program.run_bind_eq_error.mpr (Or.inl (Program.run_lift_eq_error.mpr ⟨hpurge,rfl⟩))⟩
  · obtain ⟨hn,hmem,-⟩ := Rebuild.purgeAll_eq_ok.mp hpurge
    exact absurd ⟨hn,hmem⟩ hno

theorem Rebuild.retrain_succeeds (ht : TrainingSucceeds refs seed treesPerSlice s batch records) (hn : refs.Nodup)
    (hmem : ∀ ref ∈ refs, ref ∈ subjectRefs records) : ∃ r t,
      (Rebuild.retrain seed refs batch records).run fileExec s = (.ok r,t) ∧
      r.rowsPurged = records.length - (retain records refs).length := by
  obtain ⟨digests,weights,t,hrun,hlast⟩ := ht.mlp
  obtain ⟨hd,preproc,start,hfit,hstart,rfl,-⟩ := run_trainShard.mp hrun
  exact ⟨_,_,Rebuild.run_retrain.mpr ⟨hn,hmem,hd,(Rebuild.lastDigest_eq_ok.mp hlast).1,preproc,start,
    records.length - (retain records refs).length,hfit,hstart,Nat.sub_add_cancel (length_retain_le ..),rfl,rfl⟩,rfl⟩

/-- The GBDT engine refuses a batch only when none of its subjects has a row. -/
theorem Gbdt.retrain_refuses (hno : ∀ row ∈ records, row.subjectRef ∉ refs) :
    ∃ e, (Gbdt.retrain treesPerSlice refs batch records).run fileExec s = (.error e,s) := by
  rcases hrun : (Gbdt.retrain treesPerSlice refs batch records).run fileExec s with ⟨result,t⟩
  cases result with
  | ok r =>
    obtain ⟨⟨row,hrow,hin⟩,-⟩ := Gbdt.run_retrain.mp hrun
    exact absurd hin (hno row hrow)
  | error e =>
    refine ⟨e,?_⟩
    rcases Program.run_bind_eq_error.mp hrun with h | ⟨booster,_,hb,h⟩
    · rw [loadBooster_error h]
    obtain ⟨-,rfl⟩ := run_loadBooster.mp hb
    rcases Program.run_bind_eq_error.mp h with h | ⟨⟨rebuilt,retained⟩,_,hre,-⟩
    · rw [lift_error h]
    obtain ⟨⟨row,hrow,hin⟩,-⟩ := Gbdt.rebuildBooster_eq_ok.mp (Program.run_lift_eq_ok.mp hre).1
    exact absurd hin (hno row hrow)

theorem Gbdt.retrain_succeeds (ht : TrainingSucceeds refs seed treesPerSlice s batch records)
    (hfound : ∃ row ∈ records, row.subjectRef ∈ refs) : ∃ r t,
      (Gbdt.retrain treesPerSlice refs batch records).run fileExec s = (.ok r,t) ∧
      r.rowsPurged = records.length - (retain records refs).length := by
  obtain ⟨booster,kept,rebuilt,hb,hk,htrain⟩ := ht.gbdt
  exact ⟨_,_,Gbdt.run_retrain.mpr ⟨hfound,booster,kept,rebuilt,hb,hk,htrain,rfl,rfl⟩,rfl⟩

/-- A call of which retraining raises is a call that raises there. -/
theorem Located.run_of_refusal (h : Located refs s batch records) (parts : EngineParts D) (sign : Bool) (clock : Clock)
    (hre : ∃ e, (parts.retrain refs batch records).run fileExec s = (.error e,s)) :
    ∃ e, (rebuildBatch parts refs sign clock).run fileExec s = (.error e,s) := by
  obtain ⟨routing,treeBefore,-,-,-,heq⟩ := h.run_eq parts sign clock
  obtain ⟨e,hre⟩ := hre
  exact ⟨e,heq.trans (Program.run_bind_eq_error.mpr (Or.inl hre))⟩

/-- Once retraining has returned, the shard file is the purged one however the call ends. -/
theorem Located.shards_of_retrain (h : Located refs s batch records) (engine : ModelEngine) (sign : Bool)
    (clock : Clock) {r : Retrained D} {u : Process D}
    (hre : ((engine.parts : EngineParts D).retrain refs batch records).run fileExec s = (.ok r,u)) :
    ((rebuildBatch engine.parts refs sign clock).run fileExec s).2.1.shards =
      Function.update s.1.shards batch.shard (some (retain records refs)) := by
  obtain ⟨routing,treeBefore,-,-,-,heq⟩ := h.run_eq (engine.parts : EngineParts D) sign clock
  have hp := engine.purged h.nonempty hre
  rcases hrun : (rebuildBatch engine.parts refs sign clock).run fileExec s with ⟨result,t⟩
  cases result with
  | error e =>
    rw [heq, Program.run_bind_of_ok hre] at hrun
    rw [finish_error hrun, hp.shards]
  | ok result =>
    obtain ⟨x,hx⟩ := run_rebuildBatch.mp hrun
    obtain ⟨rfl,rfl⟩ := h.unique ⟨hx.nonempty,⟨x.routing,hx.routing,hx.batch⟩,hx.records⟩
    rw [hx.final]
    exact (engine.purged h.nonempty hx.retrain).shards

/-- Two engines that both retrain the same batch have the same effect. -/
theorem Located.sameEffect (h : Located refs s batch records) (hn : refs.Nodup)
    (hkey : sign = true → D.signingKey.isSome) (engine engine' : ModelEngine) {r r' : Retrained D} {u u' : Process D}
    (hre : ((engine.parts : EngineParts D).retrain refs batch records).run fileExec s = (.ok r,u))
    (hre' : ((engine'.parts : EngineParts D).retrain refs batch records).run fileExec s = (.ok r',u'))
    (hrows : r.rowsPurged = r'.rowsPurged) :
    SameEffect refs (rebuildBatch engine.parts refs sign clock) (rebuildBatch engine'.parts refs sign clock) s := by
  have hshards := h.shards_of_retrain engine sign clock hre
  have hshards' := h.shards_of_retrain engine' sign clock hre'
  refine ⟨hshards.trans hshards'.symm,?_⟩
  obtain ⟨routing,treeBefore,hr,hb,ht,heq⟩ := h.run_eq (engine.parts : EngineParts D) sign clock
  obtain ⟨routing',treeBefore',hr',hb',ht',heq'⟩ := h.run_eq (engine'.parts : EngineParts D) sign clock
  cases hr.symm.trans hr'
  cases ht.symm.trans ht'
  rcases htree : treeBefore.remove refs with e | tree
  · -- both raise when the subjects are removed from the tree
    have hraise : ∀ {parts : EngineParts D} {r : Retrained D} {u : Process D},
        (parts.retrain refs batch records).run fileExec s = (.ok r,u) →
        (parts.retrain refs batch records >>= finish parts refs sign clock routing batch treeBefore).run fileExec s =
          (.error e,u) := by
      intro parts r u hre
      rw [Program.run_bind_of_ok hre]
      exact Program.run_bind_eq_error.mpr (Or.inl (Program.run_lift_eq_error.mpr ⟨htree,rfl⟩))
    rw [heq, heq', hraise hre, hraise hre']
    exact ⟨(engine.purged h.nonempty hre).routing.trans (engine'.purged h.nonempty hre').routing.symm,trivial⟩
  · obtain ⟨result,t,hrun⟩ := ModelEngine.returns_of_retrain engine h.nonempty hn hr hb h.shardFile ht htree
      hre hkey
    obtain ⟨result',t',hrun'⟩ := ModelEngine.returns_of_retrain engine' h.nonempty hn hr hb h.shardFile ht htree
      hre' hkey
    rw [hrun, hrun']
    obtain ⟨x,hx⟩ := run_rebuildBatch.mp hrun
    obtain ⟨x',hx'⟩ := run_rebuildBatch.mp hrun'
    obtain ⟨hbatch,hrecords⟩ := h.unique ⟨hx.nonempty,⟨x.routing,hx.routing,hx.batch⟩,hx.records⟩
    obtain ⟨hbatch',hrecords'⟩ := h.unique ⟨hx'.nonempty,⟨x'.routing,hx'.routing,hx'.batch⟩,hx'.records⟩
    have hroute : x.routing = x'.routing := Option.some.inj (hx.routing.symm.trans hx'.routing)
    have hbefore : x.treeBefore = x'.treeBefore := by
      have hb := hx.treeBefore
      have hb' := hx'.treeBefore
      rw [← hbatch, ← hrecords] at hb
      rw [← hbatch', ← hrecords'] at hb'
      exact Except.ok.inj (hb.symm.trans hb')
    have hafter : x.tree = x'.tree := by
      have ht := hx.tree
      rw [hbefore] at ht
      exact Except.ok.inj (ht.symm.trans hx'.tree)
    have hretrained : x.retrained = r := by
      have h₁ := hx.retrain
      rw [← hbatch, ← hrecords, hre] at h₁
      exact (Except.ok.inj (Prod.mk.inj h₁).1).symm
    have hretrained' : x'.retrained = r' := by
      have h₁ := hx'.retrain
      rw [← hbatch', ← hrecords', hre'] at h₁
      exact (Except.ok.inj (Prod.mk.inj h₁).1).symm
    refine ⟨by rw [hx.final, hx'.final, hroute],?_⟩
    dsimp only
    refine ⟨?_,?_,?_,?_,?_⟩
    · rw [hx.result, hx'.result, ← hbatch, ← hbatch']
    · rw [hx.result, hx'.result, ← hbatch, ← hbatch']
    · rw [hx.result, hx'.result, hretrained, hretrained']
      exact hrows
    · rw [hx.result, hx'.result, ← hbatch, ← hbatch']
    · intro ref href
      obtain ⟨m,hm,hget⟩ := issueManifests_get? hx.manifests (Or.inl href)
      obtain ⟨m',hm',hget'⟩ := issueManifests_get? hx'.manifests (Or.inl href)
      obtain ⟨proof,hproof,hsub,hroot,-⟩ := manifestFor_eq_ok hm
      obtain ⟨proof',hproof',hsub',hroot',-⟩ := manifestFor_eq_ok hm'
      rw [hx.result, hx'.result]
      rw [hafter, hproof'] at hproof
      cases hproof
      exact ⟨m,m',hget,hget',by rw [hroot, hroot', hafter],by rw [hsub, hsub']⟩

/-- Two calls that raise before they write. -/
theorem sameEffect_of_raises {p q : FileM D (Result D)} (hp : ∃ e, p.run fileExec s = (.error e,s))
    (hq : ∃ e, q.run fileExec s = (.error e,s)) : SameEffect refs p q s := by
  obtain ⟨e,hp⟩ := hp
  obtain ⟨e',hq⟩ := hq
  unfold SameEffect
  rw [hp, hq]
  exact ⟨rfl,rfl,trivial⟩

/-- When the MLP engine refuses a batch with rows on disk, the GBDT engine has purged it. -/
theorem Located.not_sameEffect (hl : Located refs s batch records)
    (ht : TrainingSucceeds refs seed treesPerSlice s batch records) (hfound : ∃ row ∈ records, row.subjectRef ∈ refs)
    (hno : ¬(refs.Nodup ∧ ∀ ref ∈ refs, ref ∈ subjectRefs records)) :
    ¬SameEffect refs (Rebuild.rebuildBatchByRef refs seed sign clock)
      (Gbdt.rebuildBatchByRef refs treesPerSlice sign clock) s := by
  intro hsame
  obtain ⟨r,u,hre,-⟩ := Gbdt.retrain_succeeds ht hfound
  obtain ⟨e,herr⟩ := hl.run_of_refusal (Rebuild.parts seed) sign clock
    (Rebuild.retrain_refuses hno)
  have hpurged := hl.shards_of_retrain (.gbdt treesPerSlice) sign clock hre
  have hshards := hsame.1.trans hpurged
  rw [Rebuild.rebuildBatchByRef, herr] at hshards
  have hat := congrFun hshards batch.shard
  rw [Function.update_self] at hat
  obtain ⟨row,hrow,hin⟩ := hfound
  have hmem : row ∈ retain records refs := by
    rw [← Option.some.inj (hl.shardFile.symm.trans hat)]
    exact hrow
  exact (mem_retain.mp hmem).2 hin

/-- With training and signing succeeding, the engines have the same effect exactly when the batch is
not located, or none of its subjects has a row, or they are distinct and all have rows. -/
theorem sameEffect_iff
    (htrain : ∀ batch records, Located refs s batch records → (∃ row ∈ records, row.subjectRef ∈ refs) →
      TrainingSucceeds refs seed treesPerSlice s batch records) (hkey : sign = true → D.signingKey.isSome) :
    SameEffect refs (Rebuild.rebuildBatchByRef refs seed sign clock)
      (Gbdt.rebuildBatchByRef refs treesPerSlice sign clock) s ↔
    ∀ batch records, Located refs s batch records →
      (∀ row ∈ records, row.subjectRef ∉ refs) ∨ (refs.Nodup ∧ ∀ ref ∈ refs, ref ∈ subjectRefs records) := by
  constructor
  · intro hsame batch records hl
    by_contra hno
    push Not at hno
    obtain ⟨hfound,hno⟩ := hno
    refine hl.not_sameEffect (htrain batch records hl hfound) hfound ?_ hsame
    rintro ⟨hn,hmem⟩
    obtain ⟨ref,href,hnot⟩ := hno hn
    exact hnot (hmem ref href)
  · intro hall
    by_cases hloc : ∃ batch records, Located refs s batch records
    · obtain ⟨batch,records,hl⟩ := hloc
      rcases hall batch records hl with hnone | ⟨hn,hmem⟩
      · have hrefuse : ¬(refs.Nodup ∧ ∀ ref ∈ refs, ref ∈ subjectRefs records) := by
          rintro ⟨-,hmem⟩
          obtain ⟨ref,href⟩ := List.exists_mem_of_ne_nil _ hl.nonempty
          obtain ⟨row,hrow,rfl⟩ := List.mem_map.mp (hmem ref href)
          exact hnone row hrow href
        exact sameEffect_of_raises (hl.run_of_refusal (Rebuild.parts seed) sign clock (Rebuild.retrain_refuses hrefuse))
          (hl.run_of_refusal (Gbdt.parts treesPerSlice) sign clock (Gbdt.retrain_refuses hnone))
      · obtain ⟨ref,href⟩ := List.exists_mem_of_ne_nil _ hl.nonempty
        obtain ⟨row,hrow,hrr⟩ := List.mem_map.mp (hmem ref href)
        have hfound : ∃ row ∈ records, row.subjectRef ∈ refs := ⟨row,hrow,hrr ▸ href⟩
        obtain ⟨r,u,hre,hrows⟩ := Rebuild.retrain_succeeds (htrain batch records hl hfound) hn hmem
        obtain ⟨r',u',hre',hrows'⟩ := Gbdt.retrain_succeeds (htrain batch records hl hfound) hfound
        exact hl.sameEffect hn hkey (.mlp seed) (.gbdt treesPerSlice) hre hre'
          (hrows.trans hrows'.symm)
    · have hno : ∀ batch records, ¬Located refs s batch records := fun batch records hl => hloc ⟨batch,records,hl⟩
      exact sameEffect_of_raises (run_of_not_located hno) (run_of_not_located hno)

def sampleBoth : Process (logging 2) := ((Gbdt.build sampleRouting 1).run fileExec sampleTrained).2

/-- On the sample shard both engines can train, whatever is purged from slice 1. -/
theorem trainingSucceeds_sample (refs : List Ref) (hslice : sliceZero (retain sampleRecords refs) ≠ []) :
    TrainingSucceeds refs 1337 1 sampleBoth ⟨0,1⟩ sampleRecords := by
  refine ⟨?_,?_⟩
  · exact ⟨_,_,_,run_trainShard.mpr ⟨rfl,_,_,if_neg hslice,rfl,rfl,rfl⟩,
      Rebuild.lastDigest_eq_ok.mpr ⟨Nat.one_lt_two,rfl⟩⟩
  · exact ⟨_,_,_,rfl,rfl,Gbdt.trainShard_eq_ok.mpr ⟨by decide,rfl,rfl⟩⟩

theorem located_sample (refs : List Ref) (hne : refs ≠ []) (h : ∀ ref ∈ refs, ref = sampleRef 3) :
    Located refs sampleBoth ⟨0,1⟩ sampleRecords := by
  have hget : ∀ ref ∈ refs, sampleRouting.get? ref = some ⟨"dev",0,1,1⟩ := fun ref href => by
    rw [h ref href]
    rfl
  refine ⟨hne,⟨sampleRouting,rfl,locate_eq_ok.mpr ⟨fun ref href => ⟨_,hget ref href,rfl,le_rfl⟩,?_⟩⟩,rfl⟩
  obtain ⟨ref,href⟩ := List.exists_mem_of_ne_nil refs hne
  exact ⟨ref,href,_,hget ref href,rfl⟩

theorem sameEffect_iff_sample : SameEffect [sampleRef 3]
    (Rebuild.rebuildBatchByRef [sampleRef 3] 1337 true ⟨"2024-01-01","2024-01-02"⟩)
    (Gbdt.rebuildBatchByRef [sampleRef 3] 1 true ⟨"2024-01-01","2024-01-02"⟩) sampleBoth := by
  have hl := located_sample [sampleRef 3] (List.cons_ne_nil _ _) (by simp)
  refine (sameEffect_iff (fun batch records h _ => ?_) fun _ => rfl).mpr fun batch records h => Or.inr ?_
  · obtain ⟨rfl,rfl⟩ := hl.unique h
    exact trainingSucceeds_sample _ (by decide)
  · obtain ⟨rfl,rfl⟩ := hl.unique h
    decide

/-- A subject named twice: the MLP engine refuses the batch, the GBDT engine purges and then raises. -/
theorem not_sameEffect_repeated :
    TrainingSucceeds [sampleRef 3,sampleRef 3] 1337 1 sampleBoth ⟨0,1⟩ sampleRecords ∧ (logging 2).signingKey.isSome ∧
    ¬SameEffect [sampleRef 3,sampleRef 3]
      (Rebuild.rebuildBatchByRef [sampleRef 3,sampleRef 3] 1337 true ⟨"2024-01-01","2024-01-02"⟩)
      (Gbdt.rebuildBatchByRef [sampleRef 3,sampleRef 3] 1 true ⟨"2024-01-01","2024-01-02"⟩) sampleBoth := by
  have ht := trainingSucceeds_sample [sampleRef 3,sampleRef 3] (by decide)
  have hl := located_sample [sampleRef 3,sampleRef 3] (List.cons_ne_nil _ _) (by simp)
  exact ⟨ht,rfl,hl.not_sameEffect ht ⟨⟨sampleRef 3,1,(30 : ℕ)⟩,
    List.mem_cons_of_mem _ (List.mem_cons_of_mem _ List.mem_cons_self),
    List.mem_cons_self⟩
    (by decide)⟩

end UnlearnShield.Engine
