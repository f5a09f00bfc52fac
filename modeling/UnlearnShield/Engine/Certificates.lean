import UnlearnShield.Engine.Progress

/-! # Certificates describe the disk

One process performs calls of both engines while other processes rewrite its files.
Whatever the tree cache holds by then, the manifests of a call that returns carry the
root of the shard file the call saved, unless the cached tree and the shard file have
different keys with one fingerprint.
-/
namespace UnlearnShield.Engine
open Deployment
variable {D : Deployment}

/-- A call that returns or raises, a call cut short by a failing file operation, or other
processes at work on the files. -/
inductive Event (D : Deployment)
  | call (c : Call)
  | interrupted (c : Call) (operations : ℕ)
  | rewritten (disk : Disk D)

def Event.after (s : Process D) : Event D → Process D
  | .call c => (c.program.run fileExec s).2
  | .interrupted c n => c.program.stopAfter fileExec n s
  | .rewritten disk => (disk,s.2)

/-- A process starts with an empty tree cache. -/
def afterEvents (disk : Disk D) (events : List (Event D)) : Process D :=
  events.foldl Event.after (disk,fun _ => none)

structure DescribesSaved (saved : Records D.V) (ref : Ref) (m : Manifest.Pairs) : Prop where
  root : ∃ root, (PyVal.dict m).subscript "dataset_root" = .ok (.str root) ∧
    Smt.buildRoot D.H (subjectRefs saved) = .ok root
  accepted : ∃ proof root, (PyVal.dict m).subscript "absence_proof" = .ok proof ∧
    (PyVal.dict m).subscript "dataset_root" = .ok root ∧
    Smt.verifyAbsence D.H (.str ref.val.hex) proof root = .ok true
  purged : ref ∉ subjectRefs saved

/-- Every manifest of a returned call describes the shard file the call saved. -/
theorem Call.describesSaved {c : Call} {s t : Process D} {result : Result D}
    (h : c.program.run fileExec s = (.ok result,t)) : CacheCollision s result.shard ∨
      ∃ saved, t.1.shards result.shard = some saved ∧
        ∀ ref ∈ c.refs, ∃ m, result.manifests.get? ref = some m ∧ DescribesSaved saved ref m := by
  obtain ⟨x,hx,hp⟩ := Call.returned h
  rw [hx.result, hx.final]
  rcases Call.tree_keys hx with hk | hc
  · right
    refine ⟨retain x.records c.refs,?_,?_⟩
    · dsimp only
      rw [hp.shards, Function.update_self]
    · intro ref href
      obtain ⟨m,hm,hget⟩ := issueManifests_get? hx.manifests (Or.inl href)
      obtain ⟨proof,hproof,hsub,hroot,-⟩ := manifestFor_eq_ok hm
      have hnot : ref ∉ subjectRefs (retain x.records c.refs) := by
        rw [subjectRefs_retain, List.mem_filter]
        exact fun h => of_decide_eq_true h.2 href
      have habs : ref ∉ x.tree.keys := by
        rw [hk, Smt.mem_keys]
        exact hnot
      obtain ⟨proof',hproof',hok⟩ := Smt.verifyAbsence_proveAbsence habs
      rw [hproof] at hproof'
      cases hproof'
      refine ⟨m,hget,⟨x.tree.root,hroot,?_⟩,⟨proof,_,hsub,hroot,hok⟩,hnot⟩
      rw [Smt.buildRoot_eq, Smt.SparseMerkleTree.root_eq, hk]
      rfl
  · exact Or.inl hc

/-- In every run of a process, every call that returns issues certificates about the shard
file it saved; the exception is a collision of two fingerprints. -/
theorem returned_describesSaved (disk : Disk D) (events : List (Event D)) (c : Call) (result : Result D) (t : Process D)
    (h : c.program.run fileExec (afterEvents disk events) = (.ok result,t)) :
    CacheCollision (afterEvents disk events) result.shard ∨
      ∃ saved, t.1.shards result.shard = some saved ∧
        ∀ ref ∈ c.refs, ∃ m, result.manifests.get? ref = some m ∧ DescribesSaved saved ref m :=
  Call.describesSaved h

theorem sampleKeys_digest_ne :
    sha256 (Smt.joinKeys (Smt.keys (subjectRefs (retain sampleRecords [sampleRef 1])))) ≠
      sha256 (Smt.joinKeys (Smt.keys (subjectRefs sampleRecords))) := by
  intro h
  have hnat := congrArg (fun digest : Digest => digest.val.toNat) h
  have htwo : (Smt.joinKeys (Smt.keys (subjectRefs (retain sampleRecords [sampleRef 1])))).length = 64 := by
    decide +kernel
  have hthree : (Smt.joinKeys (Smt.keys (subjectRefs sampleRecords))).length = 96 := by decide +kernel
  -- the kernel evaluates a digest of known length
  simp only [toNat_sha256, htwo, hthree] at hnat
  revert hnat
  decide +kernel

/-- A tree without the first subject is no tree of the whole shard. -/
theorem not_cacheCollision_stale {s : Process (logging 2)} (hs : s.1.shards 0 = some sampleRecords)
    (hcached : ∀ tree, s.2 0 = some tree → tree.keys = Smt.keys (subjectRefs (retain sampleRecords [sampleRef 1]))) :
    ¬CacheCollision s 0 := by
  rintro ⟨tree,records,htree,hrecords,a,ha,b,hb,hne,heq⟩
  obtain rfl : sampleRecords = records := Option.some.inj (hs.symm.trans hrecords)
  rw [hcached tree htree, List.mem_pair] at ha hb
  rcases ha with rfl | rfl <;> rcases hb with rfl | rfl
  · exact hne rfl
  · exact sampleKeys_digest_ne heq
  · exact sampleKeys_digest_ne heq.symm
  · exact hne rfl

/-- A call, then the files are put back as they were, so that the tree it cached is stale, and two calls more:
the first of them builds a new tree, the second one finds it in the cache. -/
theorem returned_describesSaved_sample : ∃ result t,
    (sampleCall (.gbdt 1) [sampleRef 3]).program.run fileExec (afterEvents sampleBoosted.1
      [.call (sampleCall (.gbdt 1) [sampleRef 1]), .rewritten sampleBoosted.1,
        .call (sampleCall (.gbdt 1) [sampleRef 2])]) = (.ok result,t) ∧
    ∃ saved, t.1.shards result.shard = some saved ∧
      ∀ ref ∈ [sampleRef 3], ∃ m, result.manifests.get? ref = some m ∧ DescribesSaved saved ref m := by
  obtain ⟨_,s₁,hrun₁,-,hstocked⟩ := sampleBoosted_stocked.returns rfl
    (boostedCall_fits 0 (List.cons_ne_nil (sampleRef 1) _) (List.nodup_singleton _) rfl (by decide) Nat.two_pos)
  have hstale : Ready (sampleCall (.gbdt 1) [sampleRef 2]) (sampleBoosted.1,s₁.2) ⟨0,0⟩ sampleRecords :=
    ⟨List.cons_ne_nil _ _,List.nodup_singleton _,⟨sampleRouting,rfl,rfl⟩,rfl,by decide,
      not_cacheCollision_stale rfl hstocked.cached,fun _ => rfl,rfl,Nat.two_pos,_,rfl,Nat.zero_le _⟩
  obtain ⟨_,s₂,hrun₂,-,hstocked₂⟩ := hstale.stocked rfl sampleBoosted_stocked.models
  obtain ⟨result,t,hrun,hshard,-⟩ := hstocked₂.returns (c := sampleCall (.gbdt 1) [sampleRef 3]) rfl
    (boostedCall_fits 1 (List.cons_ne_nil (sampleRef 3) _) (List.nodup_singleton _) rfl (by decide) Nat.one_lt_two)
  have hevents : afterEvents sampleBoosted.1 [.call (sampleCall (.gbdt 1) [sampleRef 1]), .rewritten sampleBoosted.1,
      .call (sampleCall (.gbdt 1) [sampleRef 2])] = s₂ := by
    have hfresh : (sampleBoosted.1,fun _ => none) = sampleBoosted := rfl
    have hfirst : Event.after sampleBoosted (.call (sampleCall (.gbdt 1) [sampleRef 1])) = s₁ := by
      rw [Event.after, hrun₁]
    have hrewritten : Event.after s₁ (.rewritten sampleBoosted.1) = (sampleBoosted.1,s₁.2) := rfl
    have hsecond : Event.after (sampleBoosted.1,s₁.2) (.call (sampleCall (.gbdt 1) [sampleRef 2])) = s₂ := by
      rw [Event.after, hrun₂]
    rw [afterEvents, hfresh, List.foldl_cons, hfirst, List.foldl_cons, hrewritten, List.foldl_cons, hsecond,
      List.foldl_nil]
  rw [← hevents] at hrun
  refine ⟨result,t,hrun,?_⟩
  refine (returned_describesSaved sampleBoosted.1 _ _ result t hrun).resolve_left ?_
  rw [hevents, hshard]
  exact hstocked₂.not_cacheCollision

end UnlearnShield.Engine
