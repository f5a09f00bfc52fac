import UnlearnShield.Engine.Progress

/-! # Exact unlearning of the GBDT engine

A booster trained slice by slice has the booster of every earlier slice as a prefix,
and purging subjects leaves the rows of the slices before their first one as they
were. So rolling back and continuing gives the booster a training from nothing on the
retained rows would give, and after any history of erasures the booster on disk is the
one of the rows on disk.
-/
namespace UnlearnShield.Engine.Gbdt
open Deployment
variable {D : Deployment}

section Prefix
variable {records records' : Records D.V} {treesPerSlice : ℕ}

theorem prefix_boost (data : List D.V) (n : ℕ) (booster : D.Booster) : booster <+: boost data n booster := by
  induction n generalizing booster with
  | zero => exact List.prefix_rfl
  | succ n ih => exact (List.prefix_append ..).trans (ih _)

theorem prefix_boostSlices (records : Records D.V) (treesPerSlice n i : ℕ) (booster : D.Booster) :
    booster <+: boostSlices records treesPerSlice n i booster := by
  induction n generalizing i booster with
  | zero => exact List.prefix_rfl
  | succ n ih => exact (prefix_boost ..).trans (ih _ _)

theorem boostSlices_add (records : Records D.V) (treesPerSlice m n i : ℕ) (booster : D.Booster) :
    boostSlices records treesPerSlice (m+n) i booster =
      boostSlices records treesPerSlice n (i+m) (boostSlices records treesPerSlice m i booster) := by
  induction m generalizing i booster with
  | zero => rw [Nat.zero_add]; rfl
  | succ m ih =>
    rw [show m + 1 + n = m + n + 1 by omega, boostSlices, ih, boostSlices, show i + 1 + m = i + (m+1) by omega]

theorem boostSlices_congr {n i : ℕ} {booster : D.Booster} (h : ∀ j < i + n, upto records j = upto records' j) :
    boostSlices records treesPerSlice n i booster = boostSlices records' treesPerSlice n i booster := by
  induction n generalizing i booster with
  | zero => rfl
  | succ n ih => rw [boostSlices, boostSlices, h i (by omega), ih fun j hj => h j (by omega)]

/-- The booster of the first `n` slices, trained from nothing. -/
def scratch (records : Records D.V) (treesPerSlice n : ℕ) : D.Booster := boostSlices records treesPerSlice n 0 []

theorem length_scratch (records : Records D.V) (treesPerSlice n : ℕ) :
    (scratch records treesPerSlice n).length = n * treesPerSlice := by
  rw [scratch, length_boostSlices, List.length_nil, Nat.zero_add]

/-- Truncation is the booster of fewer slices. -/
theorem take_scratch {m n : ℕ} (h : m ≤ n) :
    (scratch records treesPerSlice n).take (m * treesPerSlice) = scratch records treesPerSlice m := by
  obtain ⟨l,rfl⟩ := Nat.exists_eq_add_of_le h
  have hp : scratch records treesPerSlice m <+: scratch records treesPerSlice (m+l) := by
    rw [scratch, scratch, boostSlices_add]
    exact prefix_boostSlices ..
  rw [← length_scratch records treesPerSlice m]
  exact (List.prefix_iff_eq_take.mp hp).symm

theorem trainShard_scratch {trained : D.Booster} :
    trainShard records 0 none treesPerSlice = .ok (some trained) ↔
      enforceDeterminism D D.settings.SEED = .ok () ∧ 0 < D.settings.NUM_SLICES ∧
        trained = scratch records treesPerSlice D.settings.NUM_SLICES := by
  rw [trainShard_eq_ok]
  by_cases hn : 0 < D.settings.NUM_SLICES
  · simp [hn, scratch]
  · simp [hn]

end Prefix

/-- One erasure: a booster trained from nothing on the rows before is one on the rows after. -/
theorem rebuilt_eq_scratch {records : Records D.V} {refs : List Ref} {treesPerSlice minSlice : ℕ} {rebuilt : D.Booster}
    (hmin : ∀ row ∈ records, row.subjectRef ∈ refs → minSlice ≤ row.sliceIdx)
    {kept : Option D.Booster}
    (hk : rollback (scratch records treesPerSlice D.settings.NUM_SLICES) minSlice treesPerSlice = .ok kept)
    (h : trainShard (retain records refs) minSlice kept treesPerSlice = .ok (some rebuilt)) :
    rebuilt = scratch (retain records refs) treesPerSlice D.settings.NUM_SLICES := by
  have hcongr : ∀ n ≤ minSlice, scratch records treesPerSlice n = scratch (retain records refs) treesPerSlice n := by
    intro n hn
    exact boostSlices_congr fun j hj => (upto_retain fun row hrow hr => by
      have := hmin row hrow hr
      omega).symm
  obtain ⟨-,-,htrained⟩ := trainShard_eq_ok.mp h
  have hkept := rollback_eq_ok.mp hk
  by_cases hz : minSlice = 0
  · rw [if_pos hz] at hkept
    subst hz hkept
    by_cases hn : 0 < D.settings.NUM_SLICES
    · rw [if_pos hn] at htrained
      exact htrained
    · rw [if_neg hn] at htrained
      cases htrained
  · rw [if_neg hz] at hkept
    rw [hkept.2] at htrained
    by_cases hlt : minSlice < D.settings.NUM_SLICES
    · rw [if_pos hlt, Option.getD_some, take_scratch hlt.le, hcongr minSlice le_rfl] at htrained
      have hadd := boostSlices_add (retain records refs) treesPerSlice minSlice (D.settings.NUM_SLICES - minSlice) 0 []
      rw [Nat.add_sub_cancel' hlt.le, Nat.zero_add] at hadd
      exact htrained.trans hadd.symm
    · rw [if_neg hlt] at htrained
      have hle : D.settings.NUM_SLICES * treesPerSlice ≤ minSlice * treesPerSlice :=
        Nat.mul_le_mul_right _ (Nat.le_of_not_lt hlt)
      rw [List.take_of_length_le (by rwa [length_scratch]), hcongr _ (Nat.le_of_not_lt hlt)] at htrained
      exact (Option.some.inj htrained).symm

inductive Erasures (treesPerSlice : ℕ) : Process D → List (List Ref) → Process D → Prop
  | nil {s : Process D} : Erasures treesPerSlice s [] s
  | snoc {s t u : Process D} {batches : List (List Ref)} {refs : List Ref} {sign : Bool} {clock : Clock}
      {result : Result D} : Erasures treesPerSlice s batches t →
      (rebuildBatchByRef refs treesPerSlice sign clock).run fileExec t = (.ok result,u) →
      Erasures treesPerSlice s (batches ++ [refs]) u

/-- The routing table gives each subject of the shard file this shard and its one slice. -/
def SliceAligned (routing : Routing) (shard : ℕ) (records : Records D.V) : Prop :=
  ∀ row ∈ records, ∃ e, routing.get? row.subjectRef = some e ∧ e.shard = shard ∧ e.minSliceIdx = row.sliceIdx

/-- The shard holds the rows `records` without `erased`, and a booster trained from nothing on them. -/
structure Exact (treesPerSlice : ℕ) (routing : Routing) (shard : ℕ) (records : Records D.V) (erased : List Ref)
    (t : Process D) : Prop where
  routing : ∃ r, t.1.routing = some r ∧ ∀ ref e, r.get? ref = some e → routing.get? ref = some e
  shards : t.1.shards shard = some (retain records erased)
  booster : t.1.boosters shard = some (scratch (retain records erased) treesPerSlice D.settings.NUM_SLICES)

/-- An erasure on any shard keeps the booster of this one exact. -/
theorem Exact.step {treesPerSlice shard : ℕ} {routing : Routing} {records : Records D.V} {erased refs : List Ref}
    {sign : Bool} {clock : Clock} {t u : Process D} {result : Result D} (ha : SliceAligned routing shard records)
    (hx : Exact treesPerSlice routing shard records erased t)
    (h : (rebuildBatchByRef refs treesPerSlice sign clock).run fileExec t = (.ok result,u)) :
    Exact treesPerSlice routing shard records (erased ++ refs) u ∧ (result.shard = shard →
      result.resultWeights = boosterDigest (scratch (retain records (erased ++ refs)) treesPerSlice
        D.settings.NUM_SLICES)) := by
  obtain ⟨x,hr⟩ := run_rebuildBatch.mp h
  obtain ⟨hfound,booster,kept,rebuilt,hb,hk,htrain,hret,hat⟩ := run_retrain.mp hr.retrain
  obtain ⟨r,hroute,hsub⟩ := hx.routing
  have hrx : x.routing = r := Option.some.inj (hr.routing.symm.trans hroute)
  have hentry := (locate_eq_ok.mp hr.batch).1
  have hrouting : ∃ r', u.1.routing = some r' ∧ ∀ ref e, r'.get? ref = some e → routing.get? ref = some e := by
    refine ⟨x.routing.without refs,by rw [hr.final],fun ref e he => ?_⟩
    rw [Dict.get?_without] at he
    split at he
    · cases he
    · exact hsub ref e (hrx ▸ he)
  have hrow : ∀ row ∈ records, row.subjectRef ∈ refs → x.batch.shard = shard ∧ x.batch.minSlice ≤ row.sliceIdx := by
    intro row hrow hin
    obtain ⟨e,he,hs,hm⟩ := ha row hrow
    obtain ⟨e',he',hs',hm'⟩ := hentry _ hin
    have hee := hsub _ _ (hrx ▸ he')
    rw [he] at hee
    cases hee
    exact ⟨hs'.symm.trans hs,hm ▸ hm'⟩
  have hresult : result.resultWeights = x.retrained.resultWeights := by rw [hr.result]
  have hafter : u.1.shards = Function.update t.1.shards x.batch.shard (some (retain x.records refs)) ∧
      u.1.boosters = Function.update t.1.boosters x.batch.shard (some rebuilt) := by
    rw [hr.final, hat]
    exact ⟨rfl,rfl⟩
  by_cases hs : x.batch.shard = shard
  · have hrecords : x.records = retain records erased :=
      Option.some.inj (hr.records.symm.trans (hs ▸ hx.shards))
    have hbooster : booster = scratch x.records treesPerSlice D.settings.NUM_SLICES := by
      rw [hrecords]
      exact Option.some.inj (hb.symm.trans (hs ▸ hx.booster))
    have hmin : ∀ row ∈ x.records, row.subjectRef ∈ refs → x.batch.minSlice ≤ row.sliceIdx := by
      intro row hm hin
      exact (hrow row (mem_retain.mp (hrecords ▸ hm)).1 hin).2
    rw [hbooster] at hk
    have hexact := rebuilt_eq_scratch hmin hk htrain
    rw [hrecords, ← retain_append] at hexact
    refine ⟨⟨hrouting,?_,?_⟩,fun _ => ?_⟩
    · rw [hafter.1, hs, Function.update_self, hrecords, retain_append]
    · rw [hafter.2, hs, Function.update_self, hexact]
    · rw [hresult, hret, hexact]
  · have hnone : retain records (erased ++ refs) = retain records erased := by
      rw [retain_append]
      exact retain_eq_self fun row hm hin => hs (hrow row (mem_retain.mp hm).1 hin).1
    refine ⟨⟨hrouting,?_,?_⟩,fun he => absurd ?_ hs⟩
    · rw [hafter.1, Function.update_of_ne (Ne.symm hs), hnone]
      exact hx.shards
    · rw [hafter.2, Function.update_of_ne (Ne.symm hs), hnone]
      exact hx.booster
    · rw [hr.result] at he
      exact he

theorem Erasures.exact {treesPerSlice shard : ℕ} {routing : Routing} {records : Records D.V} {s t : Process D}
    {batches : List (List Ref)} (ha : SliceAligned routing shard records)
    (hx : Exact treesPerSlice routing shard records [] s) (h : Erasures treesPerSlice s batches t) :
    Exact treesPerSlice routing shard records batches.flatten t := by
  induction h with
  | nil => exact hx
  | snoc _ hrun ih =>
    rw [List.flatten_append, List.flatten_singleton]
    exact (Exact.step ha ih hrun).1

/-- `build` trains every listed shard from nothing and changes nothing else. -/
theorem run_buildShards {treesPerSlice : ℕ} {shards : List ℕ} {s t : Process D}
    (h : (build.buildShards treesPerSlice shards).run fileExec s = (.ok (),t)) :
    t.1.routing = s.1.routing ∧ t.1.shards = s.1.shards ∧ (∀ j, j ∉ shards → t.1.boosters j = s.1.boosters j) ∧
      ∀ j ∈ shards, enforceDeterminism D D.settings.SEED = .ok () ∧ 0 < D.settings.NUM_SLICES ∧ ∃ records,
        s.1.shards j = some records ∧ t.1.boosters j = some (scratch records treesPerSlice D.settings.NUM_SLICES) := by
  induction shards generalizing s with
  | nil =>
    obtain ⟨-,rfl⟩ := Program.run_pure_eq_ok.mp h
    exact ⟨rfl,rfl,fun _ _ => rfl,fun _ hj => absurd hj List.not_mem_nil⟩
  | cons shard shards ih =>
    simp only [build.buildShards, Program.run_bind_eq_ok, Program.run_lift_eq_ok, run_loadShard, run_saveBooster,
      savedBooster_eq_ok] at h
    obtain ⟨records,_,⟨hs,rfl⟩,_,_,⟨htrain,rfl⟩,booster,_,⟨rfl,rfl⟩,_,u,hsave,hrest⟩ := h
    obtain ⟨-,rfl⟩ := Prod.mk.inj hsave
    obtain ⟨hd,hn,rfl⟩ := trainShard_scratch.mp htrain
    obtain ⟨hr,hsh,hother,hall⟩ := ih hrest
    refine ⟨hr,hsh,fun j hj => ?_,fun j hj => ?_⟩
    · rw [List.mem_cons, not_or] at hj
      rw [hother j hj.2]
      exact Function.update_of_ne hj.1 ..
    · by_cases hjs : j ∈ shards
      · exact hall j hjs
      · have hje : j = shard := (List.mem_cons.mp hj).resolve_right hjs
        subst hje
        refine ⟨hd,hn,records,hs,?_⟩
        rw [hother j hjs]
        exact Function.update_self ..

theorem mem_shards {routing : Routing} {shard : ℕ} :
    shard ∈ (routing.values.map RoutingEntry.shard).dedup.insertionSort (· ≤ ·) ↔
      shard ∈ routing.values.map RoutingEntry.shard := by
  rw [List.mem_insertionSort, List.mem_dedup]

/-- After the build and any history of erasures, the booster of a shard is the one a training from
nothing on the rows left in its file gives, the digest of the last batch is its digest, and a history
that erased the same subjects in other batches ends with the same booster. -/
theorem erasures_exact {treesPerSlice shard : ℕ} {routing : Routing} {records : Records D.V} {disk s t : Process D}
    {batches : List (List Ref)} (hrouting : disk.1.routing = some routing)
    (hshard : disk.1.shards shard = some records) (haligned : SliceAligned routing shard records)
    (hcovered : shard ∈ routing.values.map RoutingEntry.shard)
    (hbuild : (build routing treesPerSlice).run fileExec disk = (.ok (),s))
    (h : Erasures treesPerSlice s batches t) :
    (∃ rows booster, t.1.shards shard = some rows ∧ rows = retain records batches.flatten ∧
      t.1.boosters shard = some booster ∧ trainShard rows 0 none treesPerSlice = .ok (some booster)) ∧
    (∀ refs sign clock result u, (rebuildBatchByRef refs treesPerSlice sign clock).run fileExec t = (.ok result,u) →
      result.shard = shard → ∃ rows booster, u.1.shards shard = some rows ∧ u.1.boosters shard = some booster ∧
        trainShard rows 0 none treesPerSlice = .ok (some booster) ∧ result.resultWeights = boosterDigest booster) ∧
    ∀ batches' t', Erasures treesPerSlice s batches' t' →
      (∀ ref, ref ∈ batches'.flatten ↔ ref ∈ batches.flatten) → t'.1.boosters shard = t.1.boosters shard := by
  obtain ⟨hr,hsh,-,hall⟩ := run_buildShards hbuild
  obtain ⟨hd,hn,records',hs,hb⟩ := hall shard (mem_shards.mpr hcovered)
  have hrec : records' = records := Option.some.inj (hs.symm.trans hshard)
  subst hrec
  have hnil : retain records' [] = records' := retain_eq_self fun _ _ => List.not_mem_nil
  have hinit : Exact treesPerSlice routing shard records' [] s :=
    ⟨⟨routing,hr.trans hrouting,fun _ _ he => he⟩,by rw [hsh, hnil]; exact hs,by rw [hnil]; exact hb⟩
  have hexact := h.exact haligned hinit
  have htrain : ∀ rows, trainShard rows 0 none treesPerSlice =
      .ok (some (scratch rows treesPerSlice D.settings.NUM_SLICES)) := fun rows => trainShard_scratch.mpr ⟨hd,hn,rfl⟩
  refine ⟨⟨_,_,hexact.shards,rfl,hexact.booster,htrain _⟩,?_,?_⟩
  · intro refs sign clock result u hrun hres
    obtain ⟨hu,hdigest⟩ := Exact.step haligned hexact hrun
    exact ⟨_,_,hu.shards,hu.booster,htrain _,hdigest hres⟩
  · intro batches' t' h' hsame
    have hexact' := h'.exact haligned hinit
    rw [hexact'.booster, hexact.booster, retain_congr records' hsame]

/-- After the build of three subjects the third and then the first are erased, or both in one batch. -/
theorem erasures_exact_sample : ∃ t t', Erasures 1 sampleBoosted [[sampleRef 3],[sampleRef 1]] t ∧
    Erasures 1 sampleBoosted [[sampleRef 1,sampleRef 3]] t' ∧ t'.1.boosters 0 = t.1.boosters 0 ∧
    ∃ rows booster, t.1.shards 0 = some rows ∧ rows = retain sampleRecords [sampleRef 3,sampleRef 1] ∧
      t.1.boosters 0 = some booster ∧ trainShard rows 0 none 1 = .ok (some booster) := by
  obtain ⟨_,s₃,hrun₃,-,hstocked⟩ := sampleBoosted_stocked.returns rfl
    (boostedCall_fits 1 (List.cons_ne_nil (sampleRef 3) _) (List.nodup_singleton _) rfl (by decide) Nat.one_lt_two)
  obtain ⟨_,t,hrun,-⟩ := hstocked.returns rfl
    (boostedCall_fits 0 (List.cons_ne_nil (sampleRef 1) _) (List.nodup_singleton _) rfl (by decide) Nat.two_pos)
  obtain ⟨_,t',hrun',-⟩ := sampleBoosted_stocked.returns rfl
    (boostedCall_fits 0 (List.cons_ne_nil (sampleRef 1) [sampleRef 3]) (by decide) rfl (by decide) Nat.two_pos)
  have haligned : SliceAligned (D := logging 2) sampleRouting 0 sampleRecords := by
    refine List.forall_mem_cons.mpr ⟨⟨_,rfl,rfl,rfl⟩,List.forall_mem_cons.mpr ⟨⟨_,rfl,rfl,rfl⟩,?_⟩⟩
    exact List.forall_mem_singleton.mpr ⟨_,rfl,rfl,rfl⟩
  have hsingly : Erasures (D := logging 2) 1 sampleBoosted [[sampleRef 3],[sampleRef 1]] t :=
    (Erasures.nil.snoc hrun₃).snoc hrun
  have htogether : Erasures (D := logging 2) 1 sampleBoosted [[sampleRef 1,sampleRef 3]] t' := Erasures.nil.snoc hrun'
  have hbuild : (build sampleRouting 1).run fileExec sampleProcess = (.ok (),sampleBoosted) := rfl
  have hsame : ∀ ref, ref ∈ [[sampleRef 1,sampleRef 3]].flatten ↔ ref ∈ [[sampleRef 3],[sampleRef 1]].flatten := by
    intro ref
    simp only [List.flatten_cons, List.flatten_nil, List.append_nil, List.cons_append, List.nil_append, List.mem_cons,
      List.not_mem_nil, or_false]
    exact or_comm
  obtain ⟨hfiles,-,hgroupings⟩ := erasures_exact rfl rfl haligned (by decide) hbuild hsingly
  exact ⟨t,t',hsingly,htogether,hgroupings _ t' htogether hsame,hfiles⟩

end UnlearnShield.Engine.Gbdt
