import UnlearnShield.Engine.Build

/-! # The partition of a corpus

Every array `build` computes is, entry by entry, a function of the subject: where its
rows go, the slice they are in and how many there are. In these terms a shard file is
the rows of the corpus placed in the shard, in their order.
-/
namespace UnlearnShield.Engine
open Deployment Arrays
variable {D : Deployment}

section Slices
variable {C : Type} [LinearOrder C] {subjectIds : List String} {churn : List C} {counts : List ℤ} {numSlices : ℤ}

theorem lexsort_perm (h : churn.length = subjectIds.length) :
    (lexsort subjectIds churn).Perm (List.range subjectIds.length) := by
  have hzip : ((List.range subjectIds.length).zip (churn.zip subjectIds)).map Prod.fst =
      List.range subjectIds.length :=
    List.map_fst_zip (by rw [List.length_range, List.length_zip, h, Nat.min_self])
  rw [← hzip]
  unfold lexsort
  exact (List.perm_insertionSort _ _).map Prod.fst

theorem mem_lexsort (h : churn.length = subjectIds.length) {i : ℕ} :
    i ∈ lexsort subjectIds churn ↔ i < subjectIds.length := by
  rw [(lexsort_perm h).mem_iff, List.mem_range]

theorem length_lexsort (h : churn.length = subjectIds.length) :
    (lexsort subjectIds churn).length = subjectIds.length := by
  rw [(lexsort_perm h).length_eq, List.length_range]

/-- The packing puts every subject of a shard in one of the slices. -/
theorem assignSlices_spec {slices : List ℤ} (hchurn : churn.length = subjectIds.length)
    (hcounts : counts.length = subjectIds.length) (hpos : ∀ c ∈ counts, 0 < c)
    (h : assignSlices id subjectIds churn counts numSlices = .ok slices) :
    slices.length = subjectIds.length ∧ ∀ v ∈ slices, 0 ≤ v ∧ v < numSlices := by
  unfold assignSlices at h
  split at h
  · cases h
  next hn =>
  split at h
  · next hnil =>
    cases h
    rw [hnil]
    exact ⟨rfl,fun v hv => absurd hv List.not_mem_nil⟩
  simp only [List.map_id, id_eq, ↓reduceIte] at h
  cases h
  have horder : ∀ i ∈ lexsort subjectIds churn, i < counts.length := fun i hi => by
    rw [hcounts]
    exact (mem_lexsort hchurn).mp hi
  have hrun : ∀ c ∈ cumsum 0 (gather counts (lexsort subjectIds churn)), 0 < c :=
    pos_of_mem_cumsum le_rfl fun c hc => hpos c (mem_of_mem_gather hc)
  have hlen : (cumsum 0 (gather counts (lexsort subjectIds churn))).length = subjectIds.length := by
    rw [length_cumsum, length_gather horder, length_lexsort hchurn]
  refine ⟨by rw [length_scatter, List.length_replicate],fun v hv => ?_⟩
  obtain ⟨i,hi⟩ := List.mem_iff_getElem?.mp hv
  have hlt : i < subjectIds.length := by
    obtain ⟨hlt,-⟩ := List.getElem?_eq_some_iff.mp hi
    rwa [length_scatter, List.length_replicate] at hlt
  generalize hvalues : List.map _ (cumsum 0 (gather counts (lexsort subjectIds churn))) = values at hi
  have hlv : (lexsort subjectIds churn).length = values.length := by
    rw [← hvalues, List.length_map, hlen, length_lexsort hchurn]
  obtain ⟨w,hw,hget⟩ :=
    getElem?_scatter_of_mem (List.replicate subjectIds.length (0 : ℤ)) ((mem_lexsort hchurn).mpr hlt)
    hlv (by rwa [List.length_replicate])
  cases hget.symm.trans hi
  subst hvalues
  obtain ⟨c,hc,rfl⟩ := List.mem_map.mp hw
  have hc0 := hrun c hc
  have htotal : 0 < (cumsum 0 (gather counts (lexsort subjectIds churn))).getLastD 0 := by
    have hne := List.ne_nil_of_mem hc
    rw [List.getLastD_eq_getLast?, List.getLast?_eq_getLast_of_ne_nil hne, Option.getD_some]
    exact hrun _ (List.getLast_mem hne)
  have hquot := Int.fdiv_nonneg (Int.mul_nonneg (by omega : 0 ≤ c - 1) (by omega : 0 ≤ numSlices)) htotal.le
  exact ⟨le_min hquot (by omega),by omega⟩

def InSlices (numSlices : ℤ) (out : List ℤ) (i : ℕ) : Prop := ∃ v, out[i]? = some v ∧ 0 ≤ v ∧ v < numSlices

/-- The loop fills in the slices of every shard it visits. -/
theorem sliceShards_spec {shardOf ks : List ℕ} {out result : List ℤ} (hchurn : churn.length = subjectIds.length)
    (hcounts : counts.length = subjectIds.length) (hshards : shardOf.length = subjectIds.length)
    (hout : out.length = subjectIds.length) (hpos : ∀ c ∈ counts, 0 < c)
    (h : sliceShards id subjectIds churn counts shardOf numSlices ks out = .ok result) :
    result.length = subjectIds.length ∧ ∀ i k, shardOf[i]? = some k → k ∈ ks ∨ InSlices numSlices out i →
      InSlices numSlices result i := by
  induction ks generalizing out with
  | nil =>
    cases h
    exact ⟨hout,fun i k _ hk => hk.resolve_left List.not_mem_nil⟩
  | cons k ks ih =>
    obtain ⟨slices,hs,h⟩ := bind_eq_ok.mp h
    have hm : ∀ i ∈ flatnonzero shardOf (· = k), i < subjectIds.length := fun i hi => by
      obtain ⟨x,hx,-⟩ := mem_flatnonzero.mp hi
      obtain ⟨hlt,-⟩ := List.getElem?_eq_some_iff.mp hx
      rwa [hshards] at hlt
    have hids := length_gather hm
    obtain ⟨hlen,hslices⟩ := assignSlices_spec
      ((length_gather fun i hi => by rw [hchurn]; exact hm i hi).trans hids.symm)
      ((length_gather fun i hi => by rw [hcounts]; exact hm i hi).trans hids.symm)
      (fun c hc => hpos c (mem_of_mem_gather hc)) hs
    obtain ⟨hresult,hall⟩ := ih ((length_scatter ..).trans hout) h
    refine ⟨hresult,fun i k' hi hk => hall i k' hi ?_⟩
    by_cases hin : i ∈ flatnonzero shardOf (· = k)
    · right
      obtain ⟨v,hv,hget⟩ := getElem?_scatter_of_mem out hin (hids.symm.trans hlen.symm) (by rw [hout]; exact hm i hin)
      exact ⟨v,hget,hslices v hv⟩
    · rcases hk with hk | ⟨v,hv,hrange⟩
      · left
        refine (List.mem_cons.mp hk).resolve_left fun he => hin (mem_flatnonzero.mpr ⟨k',hi,?_⟩)
        exact decide_eq_true he
      · right
        exact ⟨v,(getElem?_scatter_of_notMem hin ..).trans hv,hrange⟩

end Slices

variable {I : Ingest D.V}

def recordCount (raw : List (RawRow D.V)) (name : String) : ℕ := raw.countP fun r => r.nameOrig = name

/-- The arrays of `build` in terms of the place and the slice of each subject. -/
structure Arranges (raw : List (RawRow D.V)) (a : Arrangement) (place : String → ℕ) (slice : String → ℤ) : Prop where
  nodup : a.subjects.Nodup
  mem_subjects : ∀ name, name ∈ a.subjects ↔ ∃ r ∈ raw, r.nameOrig = name
  inverse : a.inverse = raw.map fun r => a.subjects.idxOf r.nameOrig
  shardOf : a.shardOf = a.subjects.map place
  sliceOf : a.sliceOf = a.subjects.map slice
  counts : a.counts = a.subjects.map fun name => (recordCount raw name : ℤ)
  place_lt : ∀ name ∈ a.subjects, place name < D.settings.NUM_SHARDS
  slice_mem : ∀ name ∈ a.subjects, 0 ≤ slice name ∧ slice name < D.settings.NUM_SLICES

theorem assignShard_lt {name : String} {score : I.Churn} {k : ℕ} (h : assignShard D I name score = .ok k) :
    k < D.settings.NUM_SHARDS := by
  unfold assignShard at h
  split at h
  · next hh =>
    have hcold : 0 < D.settings.NUM_SHARDS - I.HOT_SHARDS := by omega
    have h₁ := Nat.mod_lt (I.stableHash name) hh.1
    have h₂ := Nat.mod_lt (I.stableHash name) hcold
    split at h
    · cases h
      omega
    · cases h
      omega
  · cases h

theorem assignAll_spec {names : List String} {churn : List I.Churn} {shardOf : List ℕ}
    (hlen : churn.length = names.length) (h : assignAll D I names churn = .ok shardOf) :
    shardOf.length = names.length ∧ ∀ k ∈ shardOf, k < D.settings.NUM_SHARDS := by
  have hmap := mapM_eq_ok.mp h
  constructor
  · have hl := congrArg List.length hmap
    rw [List.length_map, List.length_map, List.length_zip, hlen, Nat.min_self] at hl
    exact hl.symm
  · intro k hk
    have hin : (Except.ok k : Py ℕ) ∈ (names.zip churn).map fun e => assignShard D I e.1 e.2 := by
      rw [hmap]
      exact List.mem_map_of_mem hk
    obtain ⟨e,-,he⟩ := List.mem_map.mp hin
    exact assignShard_lt he

/-- `np.bincount` of the inverse counts the rows of each subject. -/
theorem count_inverse {raw : List (RawRow D.V)} {subjects : List String} (hn : subjects.Nodup)
    (hmem : ∀ r ∈ raw, r.nameOrig ∈ subjects) {i : ℕ} (hi : i < subjects.length) :
    (raw.map fun r => subjects.idxOf r.nameOrig).count i = recordCount raw subjects[i] := by
  rw [List.count_eq_countP, List.countP_map, recordCount]
  refine List.countP_congr fun r hr => ?_
  have hlt : subjects.idxOf r.nameOrig < subjects.length := List.idxOf_lt_length_iff.mpr (hmem r hr)
  constructor
  · intro h
    have he : subjects.idxOf r.nameOrig = i := of_decide_eq_true h
    subst he
    exact decide_eq_true (List.getElem_idxOf hlt).symm
  · intro h
    have he : r.nameOrig = subjects[i] := of_decide_eq_true h
    rw [Function.comp_apply, he, List.Nodup.idxOf_getElem hn i hi]
    exact beq_self_eq_true i

theorem arrange_spec {raw : List (RawRow D.V)} {a : Arrangement} (h : arrange I raw = .ok a) :
    ∃ place slice, Arranges raw a place slice := by
  unfold arrange at h
  split at h
  · cases h
  obtain ⟨shardOf,hshard,h⟩ := bind_eq_ok.mp h
  obtain ⟨sliceOf,hslice,h⟩ := bind_eq_ok.mp h
  cases h
  have hn : ((raw.map RawRow.nameOrig).dedup.insertionSort (· ≤ ·)).Nodup :=
    (List.perm_insertionSort _ _).nodup_iff.mpr (List.nodup_dedup _)
  have hmem : ∀ name, name ∈ (raw.map RawRow.nameOrig).dedup.insertionSort (· ≤ ·) ↔ ∃ r ∈ raw, r.nameOrig = name := by
    intro name
    rw [List.mem_insertionSort, List.mem_dedup, List.mem_map]
  set subjects := (raw.map RawRow.nameOrig).dedup.insertionSort (· ≤ ·) with hsub
  have hinverse : (raw.map RawRow.nameOrig).map (subjects.idxOf ·) = raw.map fun r => subjects.idxOf r.nameOrig := by
    rw [List.map_map]
    rfl
  have hcounts : ((List.range subjects.length).map fun i =>
      (((raw.map RawRow.nameOrig).map (subjects.idxOf ·)).count i : ℤ)) =
      subjects.map fun name => (recordCount raw name : ℤ) := by
    refine List.ext_getElem? fun i => ?_
    rw [List.getElem?_map, List.getElem?_map]
    by_cases hi : i < subjects.length
    · rw [List.getElem?_range hi, List.getElem?_eq_getElem hi, hinverse, Option.map_some, Option.map_some,
        count_inverse hn (fun r hr => (hmem _).mpr ⟨r,hr,rfl⟩) hi]
    · rw [List.getElem?_eq_none (by rw [List.length_range]; exact Nat.le_of_not_lt hi),
        List.getElem?_eq_none (Nat.le_of_not_lt hi)]
      rfl
  have hpos : ∀ c ∈ subjects.map fun name => (recordCount raw name : ℤ), 0 < c := by
    intro c hc
    obtain ⟨name,hname,rfl⟩ := List.mem_map.mp hc
    obtain ⟨r,hr,he⟩ := (hmem name).mp hname
    exact_mod_cast List.countP_pos_iff.mpr ⟨r,hr,decide_eq_true he⟩
  obtain ⟨hlen,hlt⟩ := assignAll_spec (List.length_map _) hshard
  rw [hcounts] at hslice
  obtain ⟨hlen',hin⟩ :=
    sliceShards_spec (List.length_map _) (List.length_map _) hlen (List.length_replicate ..) hpos hslice
  obtain ⟨place,hplace⟩ := exists_map_of_length hn hlen
  obtain ⟨slice,hsliceOf⟩ := exists_map_of_length hn hlen'
  have hplace_lt : ∀ name ∈ subjects, place name < D.settings.NUM_SHARDS := fun name hname =>
    hlt _ (hplace ▸ List.mem_map_of_mem hname)
  refine ⟨place,slice,⟨hn,hmem,hinverse,hplace,hsliceOf,hcounts,hplace_lt,fun name hname => ?_⟩⟩
  obtain ⟨i,hi⟩ := List.mem_iff_getElem?.mp hname
  have hk : shardOf[i]? = some (place name) := by rw [hplace, List.getElem?_map, hi, Option.map_some]
  obtain ⟨v,hv,hrange⟩ := hin i (place name) hk (Or.inl (List.mem_range.mpr (hplace_lt name hname)))
  have hvs : sliceOf[i]? = some (slice name) := by rw [hsliceOf, List.getElem?_map, hi, Option.map_some]
  cases hv.symm.trans hvs
  exact hrange

/-- A shard file holds the rows of the corpus placed in the shard, in their order. -/
theorem Arranges.shardRecords {raw : List (RawRow D.V)} {a : Arrangement} {place : String → ℕ} {slice : String → ℤ}
    (h : Arranges raw a place slice) (k : ℕ) : shardRecords I raw a k =
      (raw.filter fun r => place r.nameOrig = k).map fun r =>
        ⟨I.subjectRef r.nameOrig,(slice r.nameOrig).toNat,r.values⟩ := by
  have hget : ∀ r ∈ raw, ∀ {β : Type} (f : String → β),
      (a.subjects.map f)[a.subjects.idxOf r.nameOrig]? = some (f r.nameOrig) := fun r hr β f => by
    have hlt : a.subjects.idxOf r.nameOrig < a.subjects.length :=
      List.idxOf_lt_length_iff.mpr ((h.mem_subjects _).mpr ⟨r,hr,rfl⟩)
    rw [List.getElem?_map, List.getElem?_eq_getElem hlt, List.getElem_idxOf, Option.map_some]
  have hshards : gather a.shardOf a.inverse = raw.map fun r => place r.nameOrig := by
    rw [h.inverse, h.shardOf]
    exact gather_of_getElem? fun r hr => hget r hr place
  have hrows : gather raw (flatnonzero (gather a.shardOf a.inverse) (· = k)) =
    raw.filter fun r => place r.nameOrig = k := by
    rw [hshards]
    exact gather_flatnonzero raw (fun r => place r.nameOrig) (· = k)
  have hinverse : gather a.inverse (flatnonzero (gather a.shardOf a.inverse) (· = k)) =
      (raw.filter fun r => place r.nameOrig = k).map fun r => a.subjects.idxOf r.nameOrig := by
    rw [← hrows, ← gather_map, ← h.inverse]
  have hrefs : gather (a.subjects.map I.subjectRef) ((raw.filter fun r => place r.nameOrig = k).map fun r =>
      a.subjects.idxOf r.nameOrig) = (raw.filter fun r => place r.nameOrig = k).map fun r => I.subjectRef r.nameOrig :=
    gather_of_getElem? fun r hr => hget r (List.mem_filter.mp hr).1 I.subjectRef
  have hslices : gather a.sliceOf ((raw.filter fun r => place r.nameOrig = k).map fun r =>
    a.subjects.idxOf r.nameOrig) =
      (raw.filter fun r => place r.nameOrig = k).map fun r => slice r.nameOrig := by
    rw [h.sliceOf]
    exact gather_of_getElem? fun r hr => hget r (List.mem_filter.mp hr).1 slice
  unfold Engine.shardRecords
  dsimp only
  rw [hinverse, hrefs, hslices, hrows, List.zip_map', List.zip_map', List.map_map]
  rfl

def RefsInjective (I : Ingest D.V) (raw : List (RawRow D.V)) : Prop :=
  ∀ r ∈ raw, ∀ r' ∈ raw, I.subjectRef r.nameOrig = I.subjectRef r'.nameOrig → r.nameOrig = r'.nameOrig

theorem Arranges.get?_routingOf {raw : List (RawRow D.V)} {a : Arrangement} {place : String → ℕ} {slice : String → ℤ}
    (h : Arranges raw a place slice) (hinj : RefsInjective I raw) {ref : Ref} {e : RoutingEntry} :
    (routingOf I a).get? ref = some e ↔ ∃ r ∈ raw, ref = I.subjectRef r.nameOrig ∧
      e = ⟨I.TENANT_ID,place r.nameOrig,(slice r.nameOrig).toNat,recordCount raw r.nameOrig⟩ := by
  have hpairs : (a.subjects.zip (a.shardOf.zip (a.sliceOf.zip a.counts))).map (fun e =>
      ((I.subjectRef e.1,⟨I.TENANT_ID,e.2.1,e.2.2.1.toNat,e.2.2.2.toNat⟩) : Ref × RoutingEntry)) =
      a.subjects.map fun name =>
        (I.subjectRef name,⟨I.TENANT_ID,place name,(slice name).toNat,recordCount raw name⟩) := by
    have hzip : a.subjects.zip (a.subjects.map fun name => (place name,slice name,(recordCount raw name : ℤ))) =
        a.subjects.map fun name => (name,place name,slice name,(recordCount raw name : ℤ)) := by
      nth_rewrite 1 [← List.map_id a.subjects]
      exact List.zip_map'
    rw [h.shardOf, h.sliceOf, h.counts, List.zip_map', List.zip_map', hzip, List.map_map]
    rfl
  have hkeys : ((a.subjects.map fun name => ((I.subjectRef name,⟨I.TENANT_ID,place name,(slice name).toNat,
      recordCount raw name⟩) : Ref × RoutingEntry)).map Prod.fst).Nodup := by
    rw [List.map_map]
    refine List.Nodup.map_on (fun name hname name' hname' he => ?_) h.nodup
    obtain ⟨r,hr,rfl⟩ := (h.mem_subjects name).mp hname
    obtain ⟨r',hr',rfl⟩ := (h.mem_subjects name').mp hname'
    exact hinj r hr r' hr' he
  rw [routingOf, hpairs, Dict.get?_eq_some, Dict.entries_ofList hkeys, List.mem_map]
  constructor
  · rintro ⟨name,hname,he⟩
    obtain ⟨r,hr,rfl⟩ := (h.mem_subjects name).mp hname
    obtain ⟨rfl,rfl⟩ := Prod.mk.inj he
    exact ⟨r,hr,rfl,rfl⟩
  · rintro ⟨r,hr,rfl,rfl⟩
    exact ⟨r.nameOrig,(h.mem_subjects _).mpr ⟨r,hr,rfl⟩,rfl⟩

theorem run_saveShards {raw : List (RawRow D.V)} {a : Arrangement} {ks : List ℕ} {s t : Process D} {u : Unit} :
    (saveShards I raw a ks).run fileExec s = (.ok u,t) ↔
      t = ({s.1 with shards := fun k => if k ∈ ks then some (shardRecords I raw a k) else s.1.shards k},s.2) := by
  induction ks generalizing s with
  | nil =>
    rw [saveShards, Program.run_pure_eq_ok]
    simp [eq_comm]
  | cons k ks ih =>
    rw [saveShards, Program.run_bind_of_ok (run_saveShard ..), ih]
    have hshards : (fun k' => if k' ∈ ks then some (shardRecords I raw a k') else
        Function.update s.1.shards k (some (shardRecords I raw a k)) k') =
        fun k' => if k' ∈ k :: ks then some (shardRecords I raw a k') else s.1.shards k' := by
      funext k'
      by_cases hk : k' = k
      · subst hk
        simp
      · simp [hk]
    rw [hshards]

/-- What a build that returns has written. -/
theorem run_build {raw : List (RawRow D.V)} {s t : Process D} {routing : Routing} :
    (build I raw).run fileExec s = (.ok routing,t) ↔ ∃ a, arrange I raw = .ok a ∧ routing = routingOf I a ∧
      t = ({s.1 with
        shards := fun k => if k < D.settings.NUM_SHARDS then some (shardRecords I raw a k) else s.1.shards k
        routing := some routing},s.2) := by
  simp only [build, Program.run_bind_eq_ok, Program.run_lift_eq_ok, Program.run_pure_eq_ok, run_saveShards,
    run_saveRouting,
    List.mem_range, Prod.mk.injEq]
  constructor
  · rintro ⟨a,_,⟨ha,rfl⟩,_,_,rfl,_,_,⟨-,rfl⟩,rfl,rfl⟩
    exact ⟨a,ha,rfl,rfl⟩
  · rintro ⟨a,ha,rfl,rfl⟩
    exact ⟨a,s,⟨ha,rfl⟩,(),_,rfl,(),_,⟨trivial,rfl⟩,rfl,rfl⟩

end UnlearnShield.Engine
