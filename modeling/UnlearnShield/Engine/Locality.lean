import UnlearnShield.Engine.Agreement
import UnlearnShield.Library.Effects

/-! # Where a call writes

However a call ends, it has written files of one shard and dropped at most its own
subjects from the routing table. With training and signing succeeding it returns
exactly when its subjects are distinct and all have rows.
-/
namespace UnlearnShield.Engine
open Deployment Program
variable {D : Deployment}

def FileOp.At (shard : ℕ) : FileOp D → Prop
  | .saveRouting _ | .cacheTree .. => False
  | .saveShard k _ | .writePreproc k _ | .saveCheckpoint k _ _ | .saveBooster k _ => k = shard
  | _ => True

structure SameElsewhere (shard : ℕ) (s t : Process D) : Prop where
  routing : t.1.routing = s.1.routing
  cache : t.2 = s.2
  shards : ∀ k ≠ shard, t.1.shards k = s.1.shards k
  preproc : ∀ k ≠ shard, t.1.preproc k = s.1.preproc k
  checkpoints : ∀ k ≠ shard, t.1.checkpoints k = s.1.checkpoints k
  boosters : ∀ k ≠ shard, t.1.boosters k = s.1.boosters k

theorem SameElsewhere.refl (shard : ℕ) (s : Process D) : SameElsewhere shard s s :=
  ⟨rfl,rfl,fun _ _ => rfl,fun _ _ => rfl,fun _ _ => rfl,fun _ _ => rfl⟩

theorem SameElsewhere.trans {shard : ℕ} {s t u : Process D} (h : SameElsewhere shard s t)
    (h' : SameElsewhere shard t u) :
    SameElsewhere shard s u where
  routing := h'.routing.trans h.routing
  cache := h'.cache.trans h.cache
  shards k hk := (h'.shards k hk).trans (h.shards k hk)
  preproc k hk := (h'.preproc k hk).trans (h.preproc k hk)
  checkpoints k hk := (h'.checkpoints k hk).trans (h.checkpoints k hk)
  boosters k hk := (h'.boosters k hk).trans (h.boosters k hk)

theorem fileExec_at {shard : ℕ} {op : FileOp D} {s t : Process D} {r : op.Resp} (hop : FileOp.At shard op)
    (h : fileExec op s = .ok (r,t)) : SameElsewhere shard s t := by
  cases op with
  | saveRouting => exact hop.elim
  | cacheTree => exact hop.elim
  | loadRouting | loadShard | loadCheckpoint | loadBooster =>
    obtain ⟨-,rfl⟩ := readFile_eq_ok.mp h
    exact .refl shard s
  | treeForShard k refs =>
    have hmap : (Smt.treeForShard s.2 k refs).map (fun tree => (tree,s)) = .ok (r,t) := h
    cases ht : Smt.treeForShard s.2 k refs with
    | error e =>
      rw [ht] at hmap
      cases hmap
    | ok tree =>
      rw [ht] at hmap
      obtain ⟨-,rfl⟩ := Prod.mk.inj (Except.ok.inj hmap)
      exact .refl shard s
  | saveShard k records =>
    obtain rfl : k = shard := hop
    obtain ⟨-,rfl⟩ := Prod.mk.inj (Except.ok.inj h)
    exact {SameElsewhere.refl k s with shards := fun j hj => Function.update_of_ne hj ..}
  | writePreproc k text =>
    obtain rfl : k = shard := hop
    obtain ⟨-,rfl⟩ := Prod.mk.inj (Except.ok.inj h)
    exact {SameElsewhere.refl k s with preproc := fun j hj => Function.update_of_ne hj ..}
  | saveCheckpoint k i weights =>
    obtain rfl : k = shard := hop
    obtain ⟨-,rfl⟩ := Prod.mk.inj (Except.ok.inj h)
    refine {SameElsewhere.refl k s with checkpoints := fun j hj => ?_}
    funext l
    exact if_neg fun hh => hj hh.1
  | saveBooster k booster =>
    obtain rfl : k = shard := hop
    obtain ⟨-,rfl⟩ := Prod.mk.inj (Except.ok.inj h)
    exact {SameElsewhere.refl k s with boosters := fun j hj => Function.update_of_ne hj ..}

theorem performs_trainSlices (shard : ℕ) (preproc : D.mlp.Preproc) (records : Records D.V) (seed : ℤ) (n i : ℕ)
    (t : Training D) :
    (trainSlices shard preproc records seed n i t).Performs (FileOp.At shard) := by
  induction n generalizing i t with
  | zero => exact performs_pure _
  | succ n ih =>
    have hsave : (saveCheckpoint shard i (D.mlp.stateDict (trainSlice preproc records seed i t).1)).Performs
      (FileOp.At shard) :=
      performs_call rfl
    exact hsave.bind fun _ => (ih _ _).bind fun _ => performs_pure _

theorem performs_trainShard (shard : ℕ) (records : Records D.V) (fromSlice : ℕ)
    (resumeState : Option D.Weights) (seed : ℤ) :
    (trainShard shard (some records) fromSlice resumeState seed).Performs (FileOp.At shard) := by
  refine (performs_lift _).bind fun _ => (performs_pure _).bind fun records => (performs_lift _).bind fun preproc => ?_
  refine (performs_lift _).bind fun start => Performs.bind (performs_call ?_) fun _ => performs_trainSlices ..
  rfl

theorem ModelEngine.performs_retrain (engine : ModelEngine) (refs : List Ref) (batch : Batch) (records : Records D.V) :
    ((engine.parts : EngineParts D).retrain refs batch records).Performs (FileOp.At batch.shard) := by
  cases engine with
  | mlp seed =>
    refine (performs_lift _).bind fun p => Performs.bind (performs_call rfl) fun _ => ?_
    refine Performs.bind ?_ fun resume => (performs_trainShard ..).bind fun _ => (performs_lift _).bind fun _ =>
      performs_pure _
    unfold Rebuild.loadResumeState
    split
    · exact Performs.bind (performs_call trivial) fun _ => performs_pure _
    · exact performs_pure _
  | gbdt treesPerSlice =>
    refine Performs.bind (performs_call trivial) fun _ => (performs_lift _).bind fun p =>
      Performs.bind (performs_call rfl) fun _ => ?_
    refine (performs_lift _).bind fun _ => Performs.bind (performs_call rfl) fun _ => ?_
    exact (performs_lift _).bind fun _ => performs_pure _

section Calls
variable {refs : List Ref} {s t : Process D} {batch : Batch} {records : Records D.V}

/-- A call that is not located changes nothing; any other writes files of its shard and at most drops
its subjects from the routing table. -/
theorem Call.elsewhere {c : Call} {r : Except PyErr (Result D)} (h : c.program.run fileExec s = (r,t)) :
    t = s ∨ ∃ batch records routing, Located c.refs s batch records ∧ s.1.routing = some routing ∧
      (∀ k ≠ batch.shard, t.1.shards k = s.1.shards k) ∧
      (t.1.routing = some routing ∨ t.1.routing = some (routing.without c.refs)) := by
  rw [c.program_eq] at h
  by_cases hl : ∃ batch records, Located c.refs s batch records
  · obtain ⟨batch,records,hl⟩ := hl
    right
    obtain ⟨routing,treeBefore,hr,-,-,heq⟩ := hl.run_eq (c.engine.parts : EngineParts D) c.sign c.clock
    have hframe : SameElsewhere batch.shard s
        (((c.engine.parts : EngineParts D).retrain c.refs batch records).run fileExec s).2 :=
      (c.engine.performs_retrain c.refs batch records).relates (R := SameElsewhere batch.shard) (.refl batch.shard)
        (fun _ _ _ => .trans) (fun _ _ _ _ => fileExec_at) s
    refine ⟨batch,records,routing,hl,hr,?_⟩
    rcases hre : ((c.engine.parts : EngineParts D).retrain c.refs batch records).run fileExec s with ⟨e | retrained,u⟩
    · rw [heq, run_bind, hre] at h
      obtain ⟨-,rfl⟩ := Prod.mk.inj h
      rw [hre] at hframe
      exact ⟨hframe.shards,Or.inl (hframe.routing.trans hr)⟩
    · rw [hre] at hframe
      rcases r with e | result
      · rw [heq, run_bind_of_ok hre] at h
        rw [finish_error h]
        exact ⟨hframe.shards,Or.inl (hframe.routing.trans hr)⟩
      · obtain ⟨x,hx⟩ := run_rebuildBatch.mp h
        obtain ⟨rfl,rfl⟩ := hl.unique ⟨hx.nonempty,⟨x.routing,hx.routing,hx.batch⟩,hx.records⟩
        cases hr.symm.trans hx.routing
        cases hre.symm.trans hx.retrain
        rw [hx.final]
        exact ⟨hframe.shards,Or.inr rfl⟩
  · push Not at hl
    have hrun : ∃ e, (rebuildBatch (c.engine.parts : EngineParts D) c.refs c.sign c.clock).run fileExec s =
      (.error e,s) :=
      run_of_not_located hl
    obtain ⟨e,he⟩ := hrun
    rw [he] at h
    exact Or.inl (Prod.mk.inj h).2.symm

def ModelEngine.Fits (engine : ModelEngine) (refs : List Ref) (s : Process D) (batch : Batch) (records : Records D.V) :
    Prop :=
  match engine with
  | .mlp seed => ∃ digests weights t, (trainShard batch.shard (some (retain records refs)) batch.minSlice
      (Rebuild.resumeState s.1 batch.shard batch.minSlice) seed).run fileExec s = (.ok digests,t) ∧
      Rebuild.lastDigest D.settings.NUM_SLICES digests = .ok weights
  | .gbdt treesPerSlice => ∃ booster kept rebuilt, s.1.boosters batch.shard = some booster ∧
      Gbdt.rollback booster batch.minSlice treesPerSlice = .ok kept ∧
      Gbdt.trainShard (retain records refs) batch.minSlice kept treesPerSlice = .ok (some rebuilt)

theorem ModelEngine.Fits.retrain {engine : ModelEngine} (h : engine.Fits refs s batch records) (hne : refs ≠ [])
    (hn : refs.Nodup) (hmem : ∀ ref ∈ refs, ref ∈ subjectRefs records) :
    ∃ r t, ((engine.parts : EngineParts D).retrain refs batch records).run fileExec s = (.ok r,t) := by
  cases engine with
  | mlp seed =>
    obtain ⟨digests,weights,t,hrun,hlast⟩ := h
    obtain ⟨hd,preproc,start,hfit,hstart,rfl,-⟩ := run_trainShard.mp hrun
    exact ⟨_,_,Rebuild.run_retrain.mpr ⟨hn,hmem,hd,(Rebuild.lastDigest_eq_ok.mp hlast).1,preproc,start,
      records.length - (retain records refs).length,hfit,hstart,Nat.sub_add_cancel (length_retain_le ..),rfl,rfl⟩⟩
  | gbdt treesPerSlice =>
    obtain ⟨booster,kept,rebuilt,hb,hk,htrain⟩ := h
    obtain ⟨ref,href⟩ := List.exists_mem_of_ne_nil _ hne
    obtain ⟨row,hrow,hr⟩ := List.mem_map.mp (hmem ref href)
    exact ⟨_,_,Gbdt.run_retrain.mpr ⟨⟨row,hrow,hr ▸ href⟩,booster,kept,rebuilt,hb,hk,htrain,rfl,rfl⟩⟩

/-- With training and signing succeeding, a call returns exactly when its batch is located, and its
subjects are distinct and all have rows. -/
theorem Call.returns_iff_purges {c : Call} (hfits : ∀ batch records, Located c.refs s batch records →
      (∃ row ∈ records, row.subjectRef ∈ c.refs) → c.engine.Fits c.refs s batch records)
    (hcache : ∀ batch records, Located c.refs s batch records → ¬CacheCollision s batch.shard)
    (hkey : c.sign = true → D.signingKey.isSome) :
    (∃ result t, c.program.run fileExec s = (.ok result,t)) ↔ ∃ batch records,
      Rebuild.Purges c.refs s batch records := by
  constructor
  · rintro ⟨result,t,h⟩
    obtain ⟨x,hx,-⟩ := Call.returned h
    have hl : Located c.refs s x.batch x.records := ⟨hx.nonempty,⟨x.routing,hx.routing,hx.batch⟩,hx.records⟩
    refine ⟨x.batch,x.records,hl,hx.nodup,fun ref href => ?_⟩
    have hkeys := (treeForShard_keys hx.records hx.treeBefore).resolve_right (hcache _ _ hl)
    have hin := Smt.SparseMerkleTree.mem_keys_of_remove hx.tree ref href
    rwa [hkeys, Smt.mem_keys] at hin
  · rintro ⟨batch,records,hp⟩
    obtain ⟨routing,hr,hb⟩ := hp.located
    obtain ⟨ref,href⟩ := List.exists_mem_of_ne_nil _ hp.nonempty
    obtain ⟨row,hrow,hrr⟩ := List.mem_map.mp (hp.present ref href)
    obtain ⟨treeBefore,ht,-⟩ := Smt.exists_treeForShard s.2 batch.shard (subjectRefs records)
    have hkeys := (treeForShard_keys hp.shardFile ht).resolve_right (hcache _ _ hp.toLocated)
    have hin : ∀ ref ∈ c.refs, ref ∈ treeBefore.keys := fun ref href => by
      rw [hkeys, Smt.mem_keys]
      exact hp.present ref href
    obtain ⟨tree,htree,-⟩ := Smt.SparseMerkleTree.exists_remove hin
    obtain ⟨retrained,u,hre⟩ := (hfits _ _ hp.toLocated ⟨row,hrow,hrr ▸ href⟩).retrain hp.nonempty hp.nodup hp.present
    rw [c.program_eq]
    exact ModelEngine.returns_of_retrain c.engine hp.nonempty hp.nodup hr hb hp.shardFile ht htree hre hkey

end Calls

end UnlearnShield.Engine
