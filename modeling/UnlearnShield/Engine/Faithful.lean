import UnlearnShield.Engine.Corpus
import UnlearnShield.Engine.Progress

/-! # A faithful partition

What the shard files and the routing table say about a corpus, once some of its subjects
are erased. `build` establishes it, and every call that returns keeps it.
-/
namespace UnlearnShield.Engine
open Deployment
variable {D : Deployment} {I : Ingest D.V} {raw : List (RawRow D.V)} {place : String → ℕ} {slice : String → ℤ}

def fileRow (I : Ingest D.V) (slice : String → ℤ) (r : RawRow D.V) : Row D.V :=
  ⟨I.subjectRef r.nameOrig,(slice r.nameOrig).toNat,r.values⟩

/-- The raw rows of shard `k` whose subjects are not erased. -/
def remaining (I : Ingest D.V) (raw : List (RawRow D.V)) (place : String → ℕ) (erased : List Ref) (k : ℕ) :
    List (RawRow D.V) := raw.filter fun r => place r.nameOrig = k ∧ I.subjectRef r.nameOrig ∉ erased

/-- The files and the routing table are those of the corpus without `erased`. -/
structure Faithful (I : Ingest D.V) (raw : List (RawRow D.V)) (place : String → ℕ) (slice : String → ℤ)
    (erased : List Ref) (s : Process D) : Prop where
  files : ∀ k < D.settings.NUM_SHARDS, s.1.shards k = some ((remaining I raw place erased k).map (fileRow I slice))
  routing : ∃ routing, s.1.routing = some routing ∧ ∀ ref e, routing.get? ref = some e ↔ ref ∉ erased ∧
    ∃ r ∈ raw, ref = I.subjectRef r.nameOrig ∧
      e = ⟨I.TENANT_ID,place r.nameOrig,(slice r.nameOrig).toNat,recordCount raw r.nameOrig⟩

theorem mem_remaining {erased : List Ref} {k : ℕ} {r : RawRow D.V} :
    r ∈ remaining I raw place erased k ↔ r ∈ raw ∧ place r.nameOrig = k ∧ I.subjectRef r.nameOrig ∉ erased := by
  simp [remaining]

theorem retain_remaining (erased refs : List Ref) (k : ℕ) :
    retain ((remaining I raw place erased k).map (fileRow I slice)) refs =
      (remaining I raw place (erased ++ refs) k).map (fileRow I slice) := by
  unfold retain remaining
  rw [List.filter_map, List.filter_filter]
  congr 1
  apply List.filter_congr
  intro r _
  rw [Bool.eq_iff_iff]
  simp only [Function.comp_apply, fileRow, List.mem_append, not_or, Bool.and_eq_true, decide_eq_true_eq]
  constructor
  · rintro ⟨hrefs,hplace,hout⟩
    exact ⟨hplace,hout,of_decide_eq_true hrefs⟩
  · rintro ⟨hplace,hout,hrefs⟩
    exact ⟨decide_eq_true hrefs,hplace,hout⟩

/-- A corpus is partitioned faithfully by the build. -/
theorem faithful_build {disk s : Process D} {routing : Routing} (hinj : RefsInjective I raw)
    (h : (build I raw).run fileExec disk = (.ok routing,s)) :
    ∃ a place slice, arrange I raw = .ok a ∧ Arranges raw a place slice ∧ Faithful I raw place slice [] s := by
  obtain ⟨a,ha,rfl,rfl⟩ := run_build.mp h
  obtain ⟨place,slice,harr⟩ := arrange_spec ha
  refine ⟨a,place,slice,ha,harr,⟨fun k hk => ?_,⟨_,rfl,fun ref e => ?_⟩⟩⟩
  · have hfile := harr.shardRecords (I := I) k
    simp only [if_pos hk, hfile, remaining, List.not_mem_nil, not_false_eq_true, and_true]
    rfl
  · rw [harr.get?_routingOf hinj]
    simp only [List.not_mem_nil, not_false_eq_true, true_and]

/-- A call that returns erases its subjects from the corpus. -/
theorem Faithful.call {erased : List Ref} {c : Call} {s t : Process D} {result : Result D}
    (hs : Faithful I raw place slice erased s) (h : c.program.run fileExec s = (.ok result,t)) :
    Faithful I raw place slice (erased ++ c.refs) t := by
  obtain ⟨routing,hr,hget⟩ := hs.routing
  obtain ⟨hrouting,hfile⟩ := Call.erases_at h hr
  refine ⟨fun k hk => ?_,⟨_,hrouting,fun ref e => ?_⟩⟩
  · rw [hfile k fun records hrec row hrow => ?_]
    · rw [retainAll, hs.files k hk, Option.map_some, retain_remaining]
    · cases (hs.files k hk).symm.trans hrec
      obtain ⟨r,hmem,rfl⟩ := List.mem_map.mp hrow
      obtain ⟨hraw,hplace,hout⟩ := mem_remaining.mp hmem
      exact ⟨_,(hget _ _).mpr ⟨hout,r,hraw,rfl,rfl⟩,hplace⟩
  · rw [Dict.get?_without, List.mem_append, not_or]
    by_cases hin : ref ∈ c.refs
    · simp [hin]
    · rw [if_neg hin, hget]
      simp [hin]

/-- Calls that return, of either engine and any process, one after the other. Between them only the
model files and the tree caches change. -/
inductive Calls (s : Process D) : List Ref → Process D → Prop
  | nil : Calls s [] s
  | other {erased : List Ref} {t u : Process D} : Calls s erased t → u.1.shards = t.1.shards →
    u.1.routing = t.1.routing →
      Calls s erased u
  | call {erased : List Ref} {t u : Process D} {c : Call} {result : Result D} : Calls s erased t →
      c.program.run fileExec t = (.ok result,u) → Calls s (erased ++ c.refs) u

theorem Faithful.calls {erased : List Ref} {s t : Process D} (hs : Faithful I raw place slice [] s)
    (h : Calls s erased t) :
    Faithful I raw place slice erased t := by
  induction h with
  | nil => exact hs
  | other _ hshards hrouting ih =>
    refine ⟨fun k hk => ?_,?_⟩
    · rw [hshards]
      exact ih.files k hk
    · rw [hrouting]
      exact ih.routing
  | call _ hrun ih => exact ih.call hrun

/-- The rows of a subject left in a file are counted by its routing entry. -/
theorem length_subject (hinj : RefsInjective I raw) {erased : List Ref} {r : RawRow D.V} (hr : r ∈ raw)
    (hout : I.subjectRef r.nameOrig ∉ erased) :
    (((remaining I raw place erased (place r.nameOrig)).map (fileRow I slice)).filter fun row =>
      row.subjectRef = I.subjectRef r.nameOrig).length = recordCount raw r.nameOrig := by
  rw [List.filter_map, List.length_map, remaining, List.filter_filter, recordCount, List.countP_eq_length_filter]
  congr 1
  apply List.filter_congr
  intro r' hr'
  have hiff : I.subjectRef r'.nameOrig = I.subjectRef r.nameOrig ↔ r'.nameOrig = r.nameOrig :=
    ⟨hinj r' hr' r hr,fun he => by rw [he]⟩
  rw [Bool.eq_iff_iff]
  simp only [Function.comp_apply, fileRow, Bool.and_eq_true, decide_eq_true_eq, hiff]
  constructor
  · exact fun h => h.1
  · intro he
    rw [he]
    exact ⟨rfl,rfl,hout⟩

/-- After the build and any calls that return, the shard files hold exactly the rows of the subjects
not erased, each in one file and in their order, and the routing table describes the files. -/
theorem faithful_partition {disk s t : Process D} {routing : Routing} {erased : List Ref} (hinj : RefsInjective I raw)
    (hbuild : (build I raw).run fileExec disk = (.ok routing,s)) (hcalls : Calls s erased t) :
    ∃ (a : Arrangement) (files : ℕ → Records D.V) (routing' : Routing), arrange I raw = .ok a ∧
      t.1.routing = some routing' ∧
      (∀ k < D.settings.NUM_SHARDS, t.1.shards k = some (files k)) ∧
      (∃ place : String → ℕ, (∀ r ∈ raw, place r.nameOrig < D.settings.NUM_SHARDS) ∧
        ∀ k < D.settings.NUM_SHARDS, (files k).map (fun row => (row.subjectRef,row.values)) =
          (raw.filter fun r => place r.nameOrig = k ∧ I.subjectRef r.nameOrig ∉ erased).map fun r =>
            (I.subjectRef r.nameOrig,r.values)) ∧
      (∀ ref, ref ∈ routing' ↔ ∃ k < D.settings.NUM_SHARDS, ref ∈ subjectRefs (files k)) ∧
      (∀ v ∈ a.sliceOf, 0 ≤ v ∧ v < D.settings.NUM_SLICES) ∧
      ∀ ref e, routing'.get? ref = some e → e.shard < D.settings.NUM_SHARDS ∧ e.minSliceIdx < D.settings.NUM_SLICES ∧
        (∀ k < D.settings.NUM_SHARDS, ref ∈ subjectRefs (files k) ↔ k = e.shard) ∧
        (∀ row ∈ files e.shard, row.subjectRef = ref → row.sliceIdx = e.minSliceIdx) ∧
        e.recordCount = ((files e.shard).filter fun row => row.subjectRef = ref).length := by
  obtain ⟨a,place,slice,ha,harr,hs⟩ := faithful_build hinj hbuild
  obtain ⟨hfiles,routing',hr,hget⟩ := hs.calls hcalls
  have hname : ∀ r ∈ raw, r.nameOrig ∈ a.subjects := fun r hr => (harr.mem_subjects _).mpr ⟨r,hr,rfl⟩
  have hin : ∀ ref k, ref ∈ subjectRefs ((remaining I raw place erased k).map (fileRow I slice)) ↔
      ∃ r ∈ raw, ref = I.subjectRef r.nameOrig ∧ place r.nameOrig = k ∧ ref ∉ erased := by
    intro ref k
    rw [subjectRefs, List.map_map, List.mem_map]
    constructor
    · rintro ⟨r,hmem,rfl⟩
      obtain ⟨hraw,hplace,hout⟩ := mem_remaining.mp hmem
      exact ⟨r,hraw,rfl,hplace,hout⟩
    · rintro ⟨r,hraw,rfl,hplace,hout⟩
      exact ⟨r,mem_remaining.mpr ⟨hraw,hplace,hout⟩,rfl⟩
  refine ⟨a,fun k => (remaining I raw place erased k).map (fileRow I slice),routing',ha,hr,hfiles,
    ⟨place,fun r hraw => harr.place_lt _ (hname r hraw),fun k _ => ?_⟩,fun ref => ?_,fun v hv => ?_,fun ref e he => ?_⟩
  · rw [List.map_map]
    rfl
  · constructor
    · intro hmem
      obtain ⟨e,he⟩ := Dict.exists_get?_of_mem hmem
      obtain ⟨hout,r,hraw,rfl,rfl⟩ := (hget _ _).mp he
      exact ⟨place r.nameOrig,harr.place_lt _ (hname r hraw),(hin _ _).mpr ⟨r,hraw,rfl,rfl,hout⟩⟩
    · rintro ⟨k,-,hmem⟩
      obtain ⟨r,hraw,rfl,-,hout⟩ := (hin _ _).mp hmem
      exact Dict.mem_of_get? ((hget _ _).mpr ⟨hout,r,hraw,rfl,rfl⟩)
  · rw [harr.sliceOf] at hv
    obtain ⟨name,hmem,rfl⟩ := List.mem_map.mp hv
    exact harr.slice_mem name hmem
  · obtain ⟨hout,r,hraw,rfl,rfl⟩ := (hget _ _).mp he
    obtain ⟨hlo,hhi⟩ := harr.slice_mem _ (hname r hraw)
    refine ⟨harr.place_lt _ (hname r hraw),by dsimp only; omega,fun k _ => ?_,fun row hrow href => ?_,
      (length_subject hinj hraw hout).symm⟩
    · rw [hin]
      constructor
      · rintro ⟨r',hraw',heq,rfl,-⟩
        rw [hinj r hraw r' hraw' heq]
      · rintro rfl
        exact ⟨r,hraw,rfl,rfl,hout⟩
    · obtain ⟨r',hmem,rfl⟩ := List.mem_map.mp hrow
      have heq := hinj r' (mem_remaining.mp hmem).1 r hraw href
      change (slice r'.nameOrig).toNat = (slice r.nameOrig).toNat
      rw [heq]

section Sample

def sharded : Deployment := {logging 2 with settings := {(logging 2).settings with NUM_SHARDS := 2}}

def sampleIngest : Ingest ℕ where
  Churn := ℕ
  order := inferInstance
  churnScores := fun _ name => name.length
  hot := fun score => score = 2
  stableHash := String.length
  HOT_SHARDS := 1
  TENANT_ID := "dev"
  subjectRef := fun name => sampleRef (UInt8.ofNat name.length)

def sampleCorpus : List (RawRow ℕ) := [⟨"C1",10⟩, ⟨"C22",20⟩, ⟨"C1",30⟩, ⟨"C333",40⟩]

def sampleArrangement : Arrangement := ⟨["C1","C22","C333"],[0,1,0,2],[2,1,1],[0,1,1],[1,0,1]⟩

theorem sampleCorpus_arrange : arrange (D := sharded) sampleIngest sampleCorpus = .ok sampleArrangement := by rfl

def emptyDisk : Process sharded := (⟨none,fun _ => none,fun _ => none,fun _ _ => none,fun _ => none⟩,fun _ => none)

def sampleBuilt : Process sharded := ((build (D := sharded) sampleIngest sampleCorpus).run fileExec emptyDisk).2

def sampleBuiltRouting : Routing := routingOf (D := sharded) sampleIngest sampleArrangement

theorem sampleBuilt_run : (build (D := sharded) sampleIngest sampleCorpus).run fileExec emptyDisk =
    (.ok sampleBuiltRouting,sampleBuilt) := by
  have hrun : ∃ s, (build (D := sharded) sampleIngest sampleCorpus).run fileExec emptyDisk =
    (.ok sampleBuiltRouting,s) :=
    ⟨_,run_build.mpr ⟨sampleArrangement,sampleCorpus_arrange,rfl,rfl⟩⟩
  obtain ⟨s,hs⟩ := hrun
  rw [sampleBuilt, hs]

theorem sampleCorpus_injective : RefsInjective (D := sharded) sampleIngest sampleCorpus := by
  have h : ∀ r ∈ sampleCorpus, ∀ r' ∈ sampleCorpus,
      sampleIngest.subjectRef r.nameOrig = sampleIngest.subjectRef r'.nameOrig → r.nameOrig = r'.nameOrig := by
    simp only [sampleCorpus, sampleIngest]
    decide
  exact h

def sampleColdRecords : Records ℕ := [⟨sampleRef 3,0,20⟩, ⟨sampleRef 4,1,40⟩]

def sampleBuiltBoosted : Process sharded :=
  ((Gbdt.build (D := sharded) sampleBuiltRouting 1).run fileExec sampleBuilt).2

theorem faithful_partition_sample : ∃ t routing', Calls sampleBuilt [sampleRef 3] t ∧ t.1.routing = some routing' ∧
    ∀ ref, ref ∈ routing' ↔ ∃ k < 2, ∃ records, t.1.shards k = some records ∧ ref ∈ subjectRefs records := by
  have hready : Ready (sampleCall (.gbdt 1) [sampleRef 3]) sampleBuiltBoosted ⟨1,0⟩ sampleColdRecords := {
    nonempty := List.cons_ne_nil _ _
    nodup := List.nodup_singleton _
    located := ⟨sampleBuiltRouting,rfl,rfl⟩
    shardFile := rfl
    present := by decide
    cache := not_cacheCollision rfl
    key := fun _ => rfl
    deterministic := rfl
    slice := Nat.two_pos
    model := ⟨_,rfl,Nat.zero_le _⟩}
  obtain ⟨result,t,hrun⟩ := Call.returns hready
  have htrained : Calls sampleBuilt [] sampleBuiltBoosted := .other .nil rfl rfl
  have hcalls : Calls sampleBuilt [sampleRef 3] t := htrained.call hrun
  obtain ⟨a,files,routing',-,hr,hfiles,-,hkeys,-⟩ := faithful_partition sampleCorpus_injective sampleBuilt_run hcalls
  refine ⟨t,routing',hcalls,hr,fun ref => (hkeys ref).trans ?_⟩
  constructor
  · rintro ⟨k,hk,href⟩
    exact ⟨k,hk,_,hfiles k hk,href⟩
  · rintro ⟨k,hk,records,hrec,href⟩
    cases (hfiles k hk).symm.trans hrec
    exact ⟨k,hk,href⟩

end Sample

end UnlearnShield.Engine
