import UnlearnShield.Engine.Faithful
import UnlearnShield.Engine.Outcome

/-! # Which subjects can be erased

A shard is trained from its slice-0 rows on, and an erasure fits the scaler of the shard
again on the slice-0 rows it leaves. So every routed subject can be erased exactly when
every shard that holds rows has slice-0 rows of two subjects.
-/
namespace UnlearnShield.Engine.Rebuild
open Deployment
variable {D : Deployment} {I : Ingest D.V} {raw : List (RawRow D.V)}

/-- Training a shard and erasing any one of its subjects find what they need in its rows. -/
structure Erasable (t : Process D) (k : ℕ) (rows : Records D.V) : Prop where
  two : ∃ row ∈ rows, ∃ row' ∈ rows, row.sliceIdx = 0 ∧ row'.sliceIdx = 0 ∧ row.subjectRef ≠ row'.subjectRef
  tree : ∀ tree, Smt.treeForShard t.2 k (subjectRefs rows) = .ok tree → ∀ ref ∈ subjectRefs rows, ref ∈ tree.keys

theorem sliceZero_ne_nil {rows : Records D.V} : sliceZero rows ≠ [] ↔ ∃ row ∈ rows, row.sliceIdx = 0 := by
  rw [sliceZero, ne_eq, List.map_eq_nil_iff, List.filter_eq_nil_iff]
  simp

theorem sliceZero_retain_ne_nil {rows : Records D.V} {ref : Ref} :
    sliceZero (retain rows [ref]) ≠ [] ↔ ∃ row ∈ rows, row.sliceIdx = 0 ∧ row.subjectRef ≠ ref := by
  rw [sliceZero_ne_nil]
  simp only [mem_retain, List.mem_singleton]
  constructor
  · rintro ⟨row,⟨hrow,hne⟩,hz⟩
    exact ⟨row,hrow,hz,hne⟩
  · rintro ⟨row,hrow,hz,hne⟩
    exact ⟨row,⟨hrow,hne⟩,hz⟩

/-- Whichever of the two subjects is erased, the other one has slice-0 rows. -/
theorem Erasable.fitted {t : Process D} {k : ℕ} {rows : Records D.V} (h : Erasable t k rows) (ref : Ref) :
    sliceZero (retain rows [ref]) ≠ [] := by
  obtain ⟨row,hrow,row',hrow',hz,hz',hne⟩ := h.two
  rw [sliceZero_retain_ne_nil]
  by_cases hr : row.subjectRef = ref
  · exact ⟨row',hrow',hz',fun he => hne (hr.trans he.symm)⟩
  · exact ⟨row,hrow,hz,hr⟩

/-- Without a fingerprint collision the tree holds the subjects of the shard file. -/
theorem erasable_of_two {t : Process D} {k : ℕ} {rows : Records D.V} (hs : t.1.shards k = some rows)
    (hc : ¬CacheCollision t k)
    (h : ∃ row ∈ rows, ∃ row' ∈ rows, row.sliceIdx = 0 ∧ row'.sliceIdx = 0 ∧ row.subjectRef ≠ row'.subjectRef) :
    Erasable t k rows := by
  refine ⟨h,fun tree ht ref href => ?_⟩
  have hkeys := (treeForShard_keys hs ht).resolve_right hc
  rw [hkeys, Smt.mem_keys]
  exact href

theorem trainShard_returns_iff {shard : ℕ} {seed : ℤ} {s : Process D} {rows : Records D.V}
    (hs : s.1.shards shard = some rows) (hd : enforceDeterminism D seed = .ok ()) :
    (∃ digests t, (trainShard shard none 0 none seed).run fileExec s = (.ok digests,t)) ↔ sliceZero rows ≠ [] := by
  constructor
  · rintro ⟨digests,t,hrun⟩ hz
    obtain ⟨records,hrec,htrain⟩ := run_trainShard_none.mp hrun
    cases hs.symm.trans hrec
    obtain ⟨-,preproc,start,hfit,-⟩ := run_trainShard.mp htrain
    rw [fitPreprocessor, if_pos hz] at hfit
    cases hfit
  · intro hz
    exact ⟨_,_,run_trainShard_none.mpr ⟨rows,hs,run_trainShard.mpr ⟨hd,_,_,if_neg hz,rfl,rfl,rfl⟩⟩⟩

/-- The call for a subject that is not erased finds its rows where the routing table says. -/
theorem Faithful.purges {place : String → ℕ} {slice : String → ℤ} {a : Arrangement} {erased : List Ref} {t : Process D}
    {r : RawRow D.V} (harr : Arranges raw a place slice) (h : Faithful I raw place slice erased t) (hraw : r ∈ raw)
    (hout : I.subjectRef r.nameOrig ∉ erased) :
    Purges [I.subjectRef r.nameOrig] t ⟨place r.nameOrig,(slice r.nameOrig).toNat⟩
      ((remaining I raw place erased (place r.nameOrig)).map (fileRow I slice)) := by
  obtain ⟨routing,hr,hget⟩ := h.routing
  have hentry := (hget (I.subjectRef r.nameOrig) _).mpr ⟨hout,r,hraw,rfl,rfl⟩
  have hlocate : locate routing [I.subjectRef r.nameOrig] = .ok ⟨place r.nameOrig,(slice r.nameOrig).toNat⟩ := by
    refine locate_eq_ok.mpr ⟨fun ref href => ?_,_,List.mem_singleton_self _,_,hentry,rfl⟩
    obtain rfl := List.mem_singleton.mp href
    exact ⟨_,hentry,rfl,le_rfl⟩
  have hplace := harr.place_lt _ ((harr.mem_subjects _).mpr ⟨r,hraw,rfl⟩)
  refine ⟨⟨List.cons_ne_nil _ _,⟨routing,hr,hlocate⟩,h.files _ hplace⟩,List.nodup_singleton _,fun ref href => ?_⟩
  obtain rfl := List.mem_singleton.mp href
  exact List.mem_map.mpr ⟨fileRow I slice r,List.mem_map_of_mem (mem_remaining.mpr ⟨hraw,rfl,hout⟩),rfl⟩

variable (D) in
/-- With every seed `np.random.seed` takes, every shard with rows can be trained, and every routed
subject can be erased by itself. -/
def AllErasable (t : Process D) : Prop :=
  (∀ k < D.settings.NUM_SHARDS, ∀ rows, t.1.shards k = some rows → rows ≠ [] →
    ∀ seed, 0 ≤ seed → seed < 2^32 →
      ∃ digests u, (trainShard k none 0 none seed).run fileExec t = (.ok digests,u)) ∧
  ∀ routing, t.1.routing = some routing → ∀ ref ∈ routing, ∀ seed sign clock, 0 ≤ seed → seed < 2^32 →
    ∃ result u, (rebuildBatchByRef [ref] seed sign clock).run fileExec t = (.ok result,u)

/-- After the build and any calls that return, with the checkpoints and the signing key there, all
subjects can be erased exactly when every shard that holds rows has slice-0 rows of two subjects, and
a cached tree with the fingerprint of its keys. -/
theorem allErasable_iff {disk s t : Process D} {routing : Routing} {erased : List Ref} (hinj : RefsInjective I raw)
    (hbuild : (build I raw).run fileExec disk = (.ok routing,s)) (hcalls : Calls s erased t)
    (hhash : D.settings.PYTHONHASHSEED = some "0") (hkey : D.signingKey.isSome)
    (hck : ∀ k < D.settings.NUM_SHARDS, ∀ rows, t.1.shards k = some rows → rows ≠ [] →
      ∀ i < D.settings.NUM_SLICES, (t.1.checkpoints k i).isSome) :
    AllErasable D t ↔ ∀ k < D.settings.NUM_SHARDS, ∀ rows, t.1.shards k = some rows → rows ≠ [] →
      Erasable t k rows := by
  obtain ⟨a,place,slice,-,harr,hs⟩ := faithful_build hinj hbuild
  have ht := hs.calls hcalls
  obtain ⟨routing',hr,hget⟩ := ht.routing
  have hseed : ∀ seed : ℤ, 0 ≤ seed → seed < 2^32 → enforceDeterminism D seed = .ok () := fun seed h0 h1 =>
    enforceDeterminism_eq_ok.mpr ⟨hhash,h0,h1⟩
  constructor
  · rintro ⟨htrain,herase⟩ k hk rows hrows hne
    have hfile : rows = (remaining I raw place erased k).map (fileRow I slice) :=
      Option.some.inj (hrows.symm.trans (ht.files k hk))
    -- what the call for a subject of this shard needs, as the call returns
    have hcompletes : ∀ ref ∈ subjectRefs rows, ∃ batch : Batch, batch.shard = k ∧
        Completes [ref] 0 true t batch rows := by
      intro ref href
      rw [hfile, subjectRefs, List.map_map, List.mem_map] at href
      obtain ⟨r,hmem,rfl⟩ := href
      obtain ⟨hraw,rfl,hout⟩ := mem_remaining.mp hmem
      have hp := Faithful.purges harr ht hraw hout
      rw [← hfile] at hp
      have hin : I.subjectRef r.nameOrig ∈ routing' := Dict.mem_of_get? ((hget _ _).mpr ⟨hout,r,hraw,rfl,rfl⟩)
      exact ⟨_,rfl,hp.returns_iff.mp (herase routing' hr _ hin 0 true ⟨"",""⟩ le_rfl (by norm_num))⟩
    refine ⟨?_,fun tree htree ref href => ?_⟩
    · obtain ⟨row,hrow,hz⟩ := sliceZero_ne_nil.mp ((trainShard_returns_iff hrows (hseed 0 le_rfl (by norm_num))).mp
        (htrain k hk rows hrows hne 0 le_rfl (by norm_num)))
      obtain ⟨batch,-,hc⟩ := hcompletes row.subjectRef (List.mem_map_of_mem hrow)
      obtain ⟨row',hrow',hz',hother⟩ := sliceZero_retain_ne_nil.mp hc.fitted
      exact ⟨row,hrow,row',hrow',hz,hz',hother.symm⟩
    · obtain ⟨batch,rfl,hc⟩ := hcompletes ref href
      exact hc.tree tree htree ref (List.mem_singleton_self ref)
  · intro hall
    refine ⟨fun k hk rows hrows hne seed h0 h1 => ?_,fun routing'' hr'' ref href seed sign clock h0 h1 => ?_⟩
    · obtain ⟨row,hrow,-,-,hz,-⟩ := (hall k hk rows hrows hne).two
      exact (trainShard_returns_iff hrows (hseed seed h0 h1)).mpr (sliceZero_ne_nil.mpr ⟨row,hrow,hz⟩)
    · cases hr.symm.trans hr''
      obtain ⟨e,he⟩ := Dict.exists_get?_of_mem href
      obtain ⟨hout,r,hraw,rfl,rfl⟩ := (hget _ _).mp he
      have hname := (harr.mem_subjects _).mpr ⟨r,hraw,rfl⟩
      have hplace := harr.place_lt _ hname
      obtain ⟨hlo,hhi⟩ := harr.slice_mem _ hname
      have hp := Faithful.purges harr ht hraw hout
      have hrow := hp.present _ (List.mem_singleton_self _)
      have hne : (remaining I raw place erased (place r.nameOrig)).map (fileRow I slice) ≠ [] := fun hnil => by
        rw [hnil] at hrow
        exact List.not_mem_nil hrow
      have herasable := hall _ hplace _ (ht.files _ hplace) hne
      refine hp.returns_iff.mpr ⟨hseed seed h0 h1,by dsimp only; omega,herasable.fitted _,fun _ =>
          hck _ hplace _ (ht.files _ hplace) hne _ (by dsimp only; omega),
        fun tree htree ref href => ?_,fun _ => hkey⟩
      rw [List.mem_singleton.mp href]
      exact herasable.tree tree htree _ hrow

section Sample

def evenCorpus : List (RawRow ℕ) := [⟨"C22",10⟩, ⟨"C333",20⟩, ⟨"C4444",30⟩, ⟨"C55555",40⟩]

def evenArrangement : Arrangement := ⟨["C22","C333","C4444","C55555"],[0,1,2,3],[1,1,1,1],[1,1,1,1],[0,0,1,1]⟩

def evenRecords : Records ℕ := [⟨sampleRef 3,0,10⟩, ⟨sampleRef 4,0,20⟩, ⟨sampleRef 5,1,30⟩, ⟨sampleRef 6,1,40⟩]

def evenBuilt : Process sharded := ((build (D := sharded) sampleIngest evenCorpus).run fileExec emptyDisk).2

def evenTrained : Process sharded := ((trainShard (D := sharded) 1 none 0 none 1337).run fileExec evenBuilt).2

theorem evenCorpus_arrange : arrange (D := sharded) sampleIngest evenCorpus = .ok evenArrangement := by rfl

theorem allErasable_sample : AllErasable sharded evenTrained := by
  have hinj : RefsInjective (D := sharded) sampleIngest evenCorpus := by
    have h : ∀ r ∈ evenCorpus, ∀ r' ∈ evenCorpus,
        sampleIngest.subjectRef r.nameOrig = sampleIngest.subjectRef r'.nameOrig → r.nameOrig = r'.nameOrig := by
      simp only [evenCorpus, sampleIngest]
      decide
    exact h
  have hbuild : (build (D := sharded) sampleIngest evenCorpus).run fileExec emptyDisk =
      (.ok (routingOf (D := sharded) sampleIngest evenArrangement),evenBuilt) := by
    have hrun : ∃ s, (build (D := sharded) sampleIngest evenCorpus).run fileExec emptyDisk =
        (.ok (routingOf (D := sharded) sampleIngest evenArrangement),s) :=
      ⟨_,run_build.mpr ⟨evenArrangement,evenCorpus_arrange,rfl,rfl⟩⟩
    obtain ⟨s,hs⟩ := hrun
    rw [evenBuilt, hs]
  have hcalls : Calls evenBuilt [] evenTrained := .other .nil rfl rfl
  have hone : ∀ k < 2, ∀ rows, evenTrained.1.shards k = some rows → rows ≠ [] → k = 1 ∧ rows = evenRecords := by
    intro k hk rows hrows hne
    obtain rfl | rfl : k = 0 ∨ k = 1 := by omega
    · exact absurd (Option.some.inj hrows).symm hne
    · exact ⟨rfl,(Option.some.inj hrows).symm⟩
  refine (allErasable_iff hinj hbuild hcalls rfl rfl fun k hk rows hrows hne i hi => ?_).mpr
    fun k hk rows hrows hne => ?_
  · obtain ⟨rfl,-⟩ := hone k hk rows hrows hne
    obtain rfl | rfl : i = 0 ∨ i = 1 := by
      have hi : i < 2 := hi
      omega
    · rfl
    · rfl
  · obtain ⟨rfl,rfl⟩ := hone k hk rows hrows hne
    exact erasable_of_two hrows (not_cacheCollision rfl)
      ⟨_,List.mem_cons_self,_,List.mem_cons_of_mem _ List.mem_cons_self,rfl,rfl,by decide⟩

/-- The one subject of the hot shard has two rows, which the packing puts in slice 1. -/
theorem not_allErasable : (build (D := sharded) sampleIngest sampleCorpus).run fileExec emptyDisk =
    (.ok sampleBuiltRouting,sampleBuilt) ∧ ¬AllErasable sharded sampleBuilt := by
  refine ⟨sampleBuilt_run,fun h => ?_⟩
  have hs : sampleBuilt.1.shards 0 = some [⟨sampleRef 2,1,(10 : ℕ)⟩, ⟨sampleRef 2,1,(30 : ℕ)⟩] := rfl
  exact (trainShard_returns_iff hs rfl).mp
    (h.1 0 Nat.two_pos _ hs (List.cons_ne_nil _ _) 1337 (by norm_num) (by norm_num)) rfl

end Sample

end UnlearnShield.Engine.Rebuild
