import UnlearnShield.Engine.Progress

/-! # Erasure noninterference of the MLP engine

Two runs that differ in the rows of one subject `s`, all in slice `m`, keep equal
checkpoints of the slices before `m`: the scaler is fitted on slice 0 and a
checkpoint is trained on the slices up to its own. When `s` is erased, training
resumes from one of these on equal rows, and nothing of the difference is left.
-/
namespace UnlearnShield.Engine.Rebuild
open Deployment
variable {D : Deployment}

/-- Two routing tables agree but for the number of records of `ref`, which both send to slice `m` of `shard`. -/
def RoutingAgrees (ref : Ref) (shard m : ℕ) (p q : Process D) : Prop :=
  ∃ r r', p.1.routing = some r ∧ q.1.routing = some r' ∧ r.erase ref = r'.erase ref ∧
    (∃ e, r.get? ref = some e ∧ e.shard = shard ∧ e.minSliceIdx = m) ∧
    ∃ e, r'.get? ref = some e ∧ e.shard = shard ∧ e.minSliceIdx = m

/-- Two shard files agree on every row of every other subject, and have those of `ref` in slice `m`. -/
def RowsAgree (ref : Ref) (shard m : ℕ) (p q : Process D) : Prop :=
  ∃ records records', p.1.shards shard = some records ∧ q.1.shards shard = some records' ∧
    retain records [ref] = retain records' [ref] ∧
    (∀ row ∈ records, row.subjectRef = ref → row.sliceIdx = m) ∧
    ∀ row ∈ records', row.subjectRef = ref → row.sliceIdx = m

/-- The two states differ only in the rows of `ref`; their processes cache the same tree of the shard. -/
structure DifferIn (ref : Ref) (shard m : ℕ) (p q : Process D) : Prop where
  routing : RoutingAgrees ref shard m p q
  rows : RowsAgree ref shard m p q
  cache : p.2 shard = q.2 shard

def Present (ref : Ref) (shard : ℕ) (p : Process D) : Prop :=
  ∃ records, p.1.shards shard = some records ∧ ref ∈ subjectRefs records

section Dependence

theorem locate_congr {r r' : Routing} {refs : List Ref} {b : Batch}
    (h : ∀ ref ∈ refs, ∀ e, r.get? ref = some e → ∃ e', r'.get? ref = some e' ∧ e'.shard = e.shard ∧
      e'.minSliceIdx = e.minSliceIdx) (hb : locate r refs = .ok b) : locate r' refs = .ok b := by
  obtain ⟨hall,ref,href,e,he,hmin⟩ := locate_eq_ok.mp hb
  refine locate_eq_ok.mpr ⟨fun ref href => ?_,?_⟩
  · obtain ⟨e,he,hs,hm⟩ := hall ref href
    obtain ⟨e',he',hs',hm'⟩ := h ref href e he
    exact ⟨e',he',hs'.trans hs,hm'.symm ▸ hm⟩
  · obtain ⟨e',he',-,hm'⟩ := h ref href e he
    exact ⟨ref,href,e',he',hm'.trans hmin⟩

/-- Both runs locate a batch at the same place. -/
theorem RoutingAgrees.batch {ref : Ref} {shard m : ℕ} {p q : Process D} {r r' : Routing} {refs : List Ref}
    {b b' : Batch} (h : RoutingAgrees ref shard m p q) (hr : p.1.routing = some r) (hr' : q.1.routing = some r')
    (hb : locate r refs = .ok b) (hb' : locate r' refs = .ok b') : b = b' := by
  obtain ⟨r₁,r₂,h₁,h₂,herase,⟨e,he,hs,hm⟩,e',he',hs',hm'⟩ := h
  cases hr.symm.trans h₁
  cases hr'.symm.trans h₂
  have hcongr : locate r' refs = .ok b := locate_congr (fun x _ ex hx => by
    by_cases hxr : x = ref
    · subst hxr
      rw [he] at hx
      cases hx
      exact ⟨e',he',hs'.trans hs.symm,hm'.trans hm.symm⟩
    · rw [← Dict.get?_erase_of_ne hxr, herase, Dict.get?_erase_of_ne hxr] at hx
      exact ⟨ex,hx,rfl,rfl⟩) hb
  exact Except.ok.inj (hcongr.symm.trans hb')

/-- The rows of slices before `m` are the same in both shards. -/
theorem upto_eq {ref : Ref} {m j : ℕ} {records records' : Records D.V} (hj : j < m)
    (h : retain records [ref] = retain records' [ref])
    (hm : ∀ row ∈ records, row.subjectRef = ref → row.sliceIdx = m)
    (hm' : ∀ row ∈ records', row.subjectRef = ref → row.sliceIdx = m) : upto records j = upto records' j := by
  have hone : ∀ rows : Records D.V, (∀ row ∈ rows, row.subjectRef = ref → row.sliceIdx = m) →
      upto (retain rows [ref]) j = upto rows j := fun rows hrows =>
    upto_retain fun row hrow hin => (hrows row hrow (List.mem_singleton.mp hin)).symm ▸ hj
  rw [← hone records hm, h, hone records' hm']

/-- The references of both shards are the same set while the subject is in both. -/
theorem keys_eq {ref : Ref} {records records' : Records D.V} (h : retain records [ref] = retain records' [ref])
    (hp : ref ∈ subjectRefs records) (hp' : ref ∈ subjectRefs records') :
    Smt.keys (subjectRefs records) = Smt.keys (subjectRefs records') := by
  have hone : ∀ rows : Records D.V, ref ∈ subjectRefs rows → ∀ k,
      k ∈ subjectRefs rows ↔ k = ref ∨ k ∈ subjectRefs (retain rows [ref]) := by
    intro rows hrows k
    rw [subjectRefs_retain, List.mem_filter]
    by_cases hk : k = ref
    · simp [hk, hrows]
    · simp [hk]
  apply Smt.keys_congr
  intro k
  rw [hone records hp, hone records' hp', h]

end Dependence

/-- The states differ only in the rows of `ref`, and the checkpoints of the slices before `m` are equal. -/
structure Agree (ref : Ref) (shard m : ℕ) (p q : Process D) : Prop extends DifferIn ref shard m p q where
  checkpoints : ∀ i < m, i < D.settings.NUM_SLICES → p.1.checkpoints shard i = q.1.checkpoints shard i

section Steps

/-- Two trainings from equal checkpoints on rows that agree before `m` leave equal checkpoints before `m`. -/
theorem trained_eq {records records' : Records D.V} {d d' : Disk D} {shard m i n fromSlice : ℕ} {seed : ℤ}
    {preproc preproc' : D.mlp.Preproc} {start start' : Training D} {resume resume' : Option D.Weights}
    (hrows : ∀ j < m, upto records j = upto records' j) (hi : i < m)
    (hd : ¬(fromSlice ≤ i ∧ i < fromSlice + n) → d.checkpoints shard i = d'.checkpoints shard i)
    (hp : fitPreprocessor records = .ok preproc) (hp' : fitPreprocessor records' = .ok preproc')
    (hresume : fromSlice ≤ i → resume = resume') (hs : startTraining fromSlice resume seed = .ok start)
    (hs' : startTraining fromSlice resume' seed = .ok start') :
    (Disk.trained d shard fromSlice n (afterSlices preproc records seed fromSlice start)).checkpoints shard i =
      (Disk.trained d' shard fromSlice n (afterSlices preproc' records' seed fromSlice start')).checkpoints shard
        i := by
  rw [trained_checkpoints, trained_checkpoints]
  by_cases hin : fromSlice ≤ i ∧ i < fromSlice + n
  · have hzero : sliceZero records = sliceZero records' := by
      rw [sliceZero_eq_upto, sliceZero_eq_upto, hrows 0 (by omega)]
    have hpp : preproc = preproc' := by
      unfold fitPreprocessor at hp hp'
      rw [hzero] at hp
      exact Except.ok.inj (hp.symm.trans hp')
    have hst : start = start' := by
      rw [hresume hin.1] at hs
      exact Except.ok.inj (hs.symm.trans hs')
    rw [if_pos hin, if_pos hin, hpp, hst, afterSlices_congr fun j hj => hrows j (by omega)]
  · rw [if_neg hin, if_neg hin, hd hin]

/-- `train_shard` on the full shard. -/
theorem DifferIn.trainShard {ref : Ref} {shard m : ℕ} {seed : ℤ} {p q p' q' : Process D} {ds ds' : List (ℕ × String)}
    (h : DifferIn ref shard m p q) (hp : (trainShard shard none 0 none seed).run fileExec p = (.ok ds,p'))
    (hq : (Engine.trainShard shard none 0 none seed).run fileExec q = (.ok ds',q')) : Agree ref shard m p' q' := by
  obtain ⟨records,hs,hrun⟩ := run_trainShard_none.mp hp
  obtain ⟨records',hs',hrun'⟩ := run_trainShard_none.mp hq
  obtain ⟨-,preproc,start,hpre,hst,-,rfl⟩ := run_trainShard.mp hrun
  obtain ⟨-,preproc',start',hpre',hst',-,rfl⟩ := run_trainShard.mp hrun'
  refine ⟨⟨h.routing,h.rows,h.cache⟩,fun i hi hn => ?_⟩
  obtain ⟨r₁,r₂,h₁,h₂,heq,hm,hm'⟩ := h.rows
  cases hs.symm.trans h₁
  cases hs'.symm.trans h₂
  exact trained_eq (fun j hj => upto_eq hj heq hm hm') hi (fun hout => absurd ⟨Nat.zero_le i,by omega⟩ hout) hpre hpre'
    (fun _ => rfl) hst hst'

theorem mem_of_locate {r : Routing} {refs : List Ref} {b : Batch} {ref : Ref} {e : RoutingEntry}
    (hb : locate r refs = .ok b) (href : ref ∈ refs) (he : r.get? ref = some e) :
    e.shard = b.shard ∧ b.minSlice ≤ e.minSliceIdx := by
  obtain ⟨e',he',h⟩ := (locate_eq_ok.mp hb).1 ref href
  cases he.symm.trans he'
  exact h

/-- Erasing other subjects keeps the routing tables alike. -/
theorem RoutingAgrees.without {ref : Ref} {shard m : ℕ} {p q p' q' : Process D} {r r' : Routing} {refs : List Ref}
    (h : RoutingAgrees ref shard m p q) (hc : ref ∉ refs) (hr : p.1.routing = some r) (hr' : q.1.routing = some r')
    (hp : p'.1.routing = some (r.without refs)) (hq : q'.1.routing = some (r'.without refs)) :
    RoutingAgrees ref shard m p' q' := by
  obtain ⟨r₁,r₂,h₁,h₂,herase,⟨e,he,hse⟩,e',he',hse'⟩ := h
  cases hr.symm.trans h₁
  cases hr'.symm.trans h₂
  refine ⟨_,_,hp,hq,?_,⟨e,?_,hse⟩,e',?_,hse'⟩
  · rw [Dict.without_erase, Dict.without_erase, herase]
  · rw [Dict.get?_without, if_neg hc, he]
  · rw [Dict.get?_without, if_neg hc, he']

/-- Both runs remove the batch from one tree. -/
theorem tree_eq {ref : Ref} {shard : ℕ} {p q p' q' : Process D} {c : Request} {result result' : Result D}
    {x x' : Stages D} (hcache : p.2 shard = q.2 shard) (hshard : x.batch.shard = shard) (hbatch : x.batch = x'.batch)
    (heq : retain x.records [ref] = retain x'.records [ref]) (hpres : ref ∈ subjectRefs x.records)
    (hpres' : ref ∈ subjectRefs x'.records) (hx : Rebuilds (parts c.seed) c.refs c.sign c.clock p p' result x)
    (hx' : Rebuilds (parts c.seed) c.refs c.sign c.clock q q' result' x') : x.tree = x'.tree := by
  have ht := hx.treeBefore
  have ht' := hx'.treeBefore
  rw [← hbatch] at ht'
  rw [Smt.treeForShard_congr (hshard ▸ hcache) (keys_eq heq hpres hpres')] at ht
  have hbefore : x.treeBefore = x'.treeBefore := Except.ok.inj (ht.symm.trans ht')
  have hremove := hx.tree
  rw [hbefore] at hremove
  exact Except.ok.inj (hremove.symm.trans hx'.tree)

/-- One batch without the subject, on any shard. -/
theorem Agree.step {ref : Ref} {shard m : ℕ} {p q p' q' : Process D} {c : Request} {result result' : Result D}
    (h : Agree ref shard m p q) (hpres : Present ref shard p) (hpres' : Present ref shard q) (hc : ref ∉ c.refs)
    (hp : c.program.run fileExec p = (.ok result,p')) (hq : c.program.run fileExec q = (.ok result',q')) :
    Agree ref shard m p' q' := by
  obtain ⟨x,preproc,start,hx⟩ := Request.returned hp
  obtain ⟨x',preproc',start',hx'⟩ := Request.returned hq
  have hbatch := h.routing.batch hx.routing hx'.routing hx.batch hx'.batch
  have hrouting : RoutingAgrees ref shard m p' q' :=
    h.routing.without hc hx.routing hx'.routing hx.routingAfter hx'.routingAfter
  obtain ⟨records,records',h₁,h₂,heq,hm,hm'⟩ := h.rows
  by_cases hs : x.batch.shard = shard
  · have hs' : x'.batch.shard = shard := hbatch ▸ hs
    have hr : x.records = records := Option.some.inj (hx.records.symm.trans (hs ▸ h₁))
    have hr' : x'.records = records' := Option.some.inj (hx'.records.symm.trans (hs' ▸ h₂))
    subst hr hr'
    obtain ⟨rows,hrows,hin⟩ := hpres
    obtain ⟨rows',hrows',hin'⟩ := hpres'
    cases hrows.symm.trans h₁
    cases hrows'.symm.trans h₂
    have hretain : retain (retain x.records c.refs) [ref] = retain (retain x'.records c.refs) [ref] := by
      rw [retain_comm, heq, retain_comm]
    have hafter : ∀ row ∈ retain x.records c.refs, row.subjectRef = ref → row.sliceIdx = m :=
      fun row hrow => hm row (mem_retain.mp hrow).1
    have hafter' : ∀ row ∈ retain x'.records c.refs, row.subjectRef = ref → row.sliceIdx = m :=
      fun row hrow => hm' row (mem_retain.mp hrow).1
    refine ⟨⟨hrouting,⟨retain x.records c.refs,retain x'.records c.refs,?_,?_,hretain,hafter,hafter'⟩,?_⟩,
      fun i hi hn => ?_⟩
    · rw [hx.shardsAfter, hs, Function.update_self]
    · rw [hx'.shardsAfter, hs', Function.update_self]
    · rw [hx.cacheAfter, hx'.cacheAfter, hs, hs', tree_eq h.cache hs hbatch heq hin hin' hx.toRebuilds hx'.toRebuilds,
        Smt.cacheTree, Smt.cacheTree, Function.update_self, Function.update_self]
    · have hstart := hx.start
      have hstart' := hx'.start
      rw [hs] at hstart
      rw [← hbatch, hs] at hstart'
      rw [hx.checkpointsAfter, hx'.checkpointsAfter, ← hbatch, hs]
      refine trained_eq (fun j hj => upto_eq hj hretain hafter hafter') hi (fun _ => h.checkpoints i hi hn) hx.fitted
        hx'.fitted (fun hle => ?_) hstart hstart'
      unfold resumeState
      by_cases hz : 0 < x.batch.minSlice
      · rw [if_pos hz, if_pos hz, h.checkpoints _ (by omega) (by omega)]
      · rw [if_neg hz, if_neg hz]
  · have hs' : x'.batch.shard ≠ shard := hbatch ▸ hs
    refine ⟨⟨hrouting,⟨records,records',?_,?_,heq,hm,hm'⟩,?_⟩,fun i hi hn => ?_⟩
    · rw [hx.shardsAfter, Function.update_of_ne (Ne.symm hs), h₁]
    · rw [hx'.shardsAfter, Function.update_of_ne (Ne.symm hs'), h₂]
    · rw [hx.cacheAfter, hx'.cacheAfter, Smt.cacheTree, Smt.cacheTree, Function.update_of_ne (Ne.symm hs),
        Function.update_of_ne (Ne.symm hs'), h.cache]
    · rw [hx.checkpointsAfter, hx'.checkpointsAfter, trained_checkpoints_of_ne _ (Ne.symm hs),
        trained_checkpoints_of_ne _ (Ne.symm hs'), h.checkpoints i hi hn]

/-- The final batch, which contains the subject: nothing of the difference is left. -/
theorem Agree.erase {ref : Ref} {shard m : ℕ} {p q p' q' : Process D} {c : Request} {result result' : Result D}
    (h : Agree ref shard m p q) (hc : ref ∈ c.refs) (hp : c.program.run fileExec p = (.ok result,p'))
    (hq : c.program.run fileExec q = (.ok result',q')) :
    p'.1.shards shard = q'.1.shards shard ∧ p'.1.preproc shard = q'.1.preproc shard ∧
      (∀ i < D.settings.NUM_SLICES, p'.1.checkpoints shard i = q'.1.checkpoints shard i) ∧
      result.resultWeights = result'.resultWeights ∧ result.manifests = result'.manifests := by
  obtain ⟨x,preproc,start,hx⟩ := Request.returned hp
  obtain ⟨x',preproc',start',hx'⟩ := Request.returned hq
  have hbatch := h.routing.batch hx.routing hx'.routing hx.batch hx'.batch
  obtain ⟨r,r',hr,hr',-,⟨e,he,hse,hme⟩,-⟩ := h.routing
  cases hr.symm.trans hx.routing
  obtain ⟨hshard,hle⟩ := mem_of_locate hx.batch hc he
  have hs : x.batch.shard = shard := hshard.symm.trans hse
  have hs' : x'.batch.shard = shard := hbatch ▸ hs
  obtain ⟨records,records',h₁,h₂,heq,-,-⟩ := h.rows
  cases (hs ▸ hx.records).symm.trans h₁
  cases (hs' ▸ hx'.records).symm.trans h₂
  have hretain : retain x.records c.refs = retain x'.records c.refs := by
    have hone : ∀ rows : Records D.V, retain (retain rows [ref]) c.refs = retain rows c.refs := fun rows => by
      rw [retain_comm]
      exact retain_eq_self fun row hrow hin => (mem_retain.mp hrow).2 (List.mem_singleton.mp hin ▸ hc)
    rw [← hone x.records, heq, hone]
  have hresume : resumeState p.1 shard x.batch.minSlice = resumeState q.1 shard x.batch.minSlice := by
    have hlt := hx.slice
    unfold resumeState
    by_cases hz : 0 < x.batch.minSlice
    · rw [if_pos hz, if_pos hz, h.checkpoints _ (by omega) (by omega)]
    · rw [if_neg hz, if_neg hz]
  have hpp : preproc = preproc' := by
    have hfit := hx.fitted
    rw [hretain] at hfit
    exact Except.ok.inj (hfit.symm.trans hx'.fitted)
  have hst : start = start' := by
    have hstart := hx.start
    have hstart' := hx'.start
    rw [hs, hresume] at hstart
    rw [← hbatch, hs] at hstart'
    exact Except.ok.inj (hstart.symm.trans hstart')
  subst hpp hst
  have hweights : result.resultWeights = result'.resultWeights := by
    rw [hx.weights, hx'.weights, ← hbatch, hretain]
  refine ⟨?_,?_,fun i hi => ?_,hweights,?_⟩
  · rw [hx.shardsAfter, hx'.shardsAfter, hs, hs', Function.update_self, Function.update_self, hretain]
  · rw [hx.preprocAfter, hx'.preprocAfter, hs, hs', Function.update_self, Function.update_self]
  · rw [hx.checkpointsAfter, hx'.checkpointsAfter, ← hbatch, hs, hretain, trained_checkpoints, trained_checkpoints]
    split
    · rfl
    · exact h.checkpoints i (by omega) hi
  · have htree := tree_eq h.cache hs hbatch heq (hx.present ref hc) (hx'.present ref hc) hx.toRebuilds hx'.toRebuilds
    have hcfg : x.cfgDigest = x'.cfgDigest := Except.ok.inj (hx.cfgDigest.symm.trans hx'.cfgDigest)
    have hm := hx.manifests
    have hm' := hx'.manifests
    have hw : x.retrained.resultWeights = x'.retrained.resultWeights := by
      rw [hx.result, hx'.result] at hweights
      exact hweights
    rw [htree, hcfg, hbatch, hw] at hm
    rw [hx.result, hx'.result]
    exact Except.ok.inj (hm.symm.trans hm')

end Steps

section History

/-- Rows of a subject in a shard file were there before the call. -/
theorem Present.of_returned {ref : Ref} {shard : ℕ} {c : Request} {s t : Process D} {result : Result D}
    (h : c.program.run fileExec s = (.ok result,t)) (hp : Present ref shard t) : Present ref shard s := by
  obtain ⟨x,preproc,start,hx⟩ := Request.returned h
  obtain ⟨records,hr,hin⟩ := hp
  rw [hx.shardsAfter] at hr
  by_cases hs : shard = x.batch.shard
  · subst hs
    rw [Function.update_self] at hr
    cases hr
    rw [subjectRefs_retain] at hin
    exact ⟨x.records,hx.records,(List.mem_filter.mp hin).1⟩
  · rw [Function.update_of_ne hs] at hr
    exact ⟨records,hr,hin⟩

theorem Present.of_runs {ref : Ref} {shard : ℕ} {calls : List Request} {s t : Process D} (h : Runs s calls t)
    (hp : Present ref shard t) : Present ref shard s := by
  induction h with
  | nil => exact hp
  | cons hrun _ ih => exact (ih hp).of_returned hrun

/-- A history of batches without the subject. -/
theorem Agree.runs {ref : Ref} {shard m : ℕ} {calls : List Request} {p q p' q' : Process D}
    (h : Agree ref shard m p q) (hc : ∀ c ∈ calls, ref ∉ c.refs) (hp : Runs p calls p') (hq : Runs q calls q')
    (hpres : Present ref shard p') (hpres' : Present ref shard q') : Agree ref shard m p' q' := by
  induction hp generalizing q with
  | nil =>
    cases hq
    exact h
  | cons hrun hrest ih =>
    cases hq with
    | cons hrun' hrest' =>
      obtain ⟨hhead,htail⟩ := List.forall_mem_cons.mp hc
      have hback := (hpres.of_runs hrest).of_returned hrun
      have hback' := (hpres'.of_runs hrest').of_returned hrun'
      exact ih (h.step hback hback' hhead hrun hrun') htail hrest' hpres

/-- The final batch finds rows of the subject in both shards. -/
theorem RoutingAgrees.present {ref : Ref} {shard m : ℕ} {p q p' : Process D} {c : Request} {result : Result D}
    (h : RoutingAgrees ref shard m p q) (hc : ref ∈ c.refs) (hp : c.program.run fileExec p = (.ok result,p')) :
    Present ref shard p := by
  obtain ⟨x,preproc,start,hx⟩ := Request.returned hp
  obtain ⟨r,r',hr,hr',-,⟨e,he,hse,-⟩,-⟩ := h
  cases hr.symm.trans hx.routing
  have hs : x.batch.shard = shard := (mem_of_locate hx.batch hc he).1.symm.trans hse
  exact ⟨x.records,hs ▸ hx.records,hx.present ref hc⟩

theorem RoutingAgrees.symm {ref : Ref} {shard m : ℕ} {p q : Process D} (h : RoutingAgrees ref shard m p q) :
    RoutingAgrees ref shard m q p := by
  obtain ⟨r,r',hr,hr',heq,he,he'⟩ := h
  exact ⟨r',r,hr',hr,heq.symm,he',he⟩

/-- Erasing other subjects keeps the routing tables alike, over a whole history. -/
theorem RoutingAgrees.runs {ref : Ref} {shard m : ℕ} {calls : List Request} {p q p' q' : Process D}
    (h : RoutingAgrees ref shard m p q) (hc : ∀ c ∈ calls, ref ∉ c.refs) (hp : Runs p calls p') (hq : Runs q calls q') :
    RoutingAgrees ref shard m p' q' := by
  induction hp generalizing q with
  | nil =>
    cases hq
    exact h
  | cons hrun hrest ih =>
    cases hq with
    | cons hrun' hrest' =>
      obtain ⟨hhead,htail⟩ := List.forall_mem_cons.mp hc
      obtain ⟨x,preproc,start,hx⟩ := Request.returned hrun
      obtain ⟨x',preproc',start',hx'⟩ := Request.returned hrun'
      exact ih (h.without hhead hx.routing hx'.routing hx.routingAfter hx'.routingAfter) htail hrest'

/-- Two shards that differ in the rows of `ref`, all in slice `m`, are trained and then see the same
batches without `ref`. The batch that erases `ref` ends with the same rows, scaler, checkpoints and
manifests, and so with the same root and absence proofs. -/
theorem erasure_noninterference {ref : Ref} {shard m : ℕ} {seed : ℤ} {p q p₀ q₀ p₁ q₁ p₂ q₂ : Process D}
    {ds ds' : List (ℕ × String)} {calls : List Request} {c : Request} {result result' : Result D}
    (h : DifferIn ref shard m p q) (hp₀ : (trainShard shard none 0 none seed).run fileExec p = (.ok ds,p₀))
    (hq₀ : (trainShard shard none 0 none seed).run fileExec q = (.ok ds',q₀))
    (hcalls : ∀ call ∈ calls, ref ∉ call.refs) (hp₁ : Runs p₀ calls p₁) (hq₁ : Runs q₀ calls q₁) (hc : ref ∈ c.refs)
    (hp₂ : c.program.run fileExec p₁ = (.ok result,p₂)) (hq₂ : c.program.run fileExec q₁ = (.ok result',q₂)) :
    p₂.1.shards shard = q₂.1.shards shard ∧ p₂.1.preproc shard = q₂.1.preproc shard ∧
      (∀ i < D.settings.NUM_SLICES, p₂.1.checkpoints shard i = q₂.1.checkpoints shard i) ∧
      result.resultWeights = result'.resultWeights ∧ result.manifests = result'.manifests := by
  have hinit := h.trainShard hp₀ hq₀
  have hrouting := hinit.routing.runs hcalls hp₁ hq₁
  have hagree := hinit.runs hcalls hp₁ hq₁ (hrouting.present hc hp₂) (hrouting.symm.present hc hq₂)
  exact hagree.erase hc hp₂ hq₂

def otherRecords : Records ℕ := [⟨sampleRef 1,0,10⟩, ⟨sampleRef 3,1,77⟩, ⟨sampleRef 2,0,20⟩, ⟨sampleRef 4,1,40⟩,
  ⟨sampleRef 3,1,78⟩]

def sampleRequest (refs : List Ref) : Request := ⟨refs,1337,true,⟨"2024-01-01","2024-01-02"⟩⟩

/-- Three batches one after the other, the last one with the third subject. -/
theorem sampleRequests_run (records : Records ℕ) (hzero : sliceZero (retain records [sampleRef 1]) ≠ [])
    (hall : sliceZero records ≠ []) (h₁ : sampleRef 1 ∈ subjectRefs records)
    (h₄ : sampleRef 4 ∈ subjectRefs (retain records [sampleRef 1]))
    (hzero₄ : sliceZero (retain (retain records [sampleRef 1]) [sampleRef 4]) ≠ [])
    (h₃ : sampleRef 3 ∈ subjectRefs (retain (retain records [sampleRef 1]) [sampleRef 4]))
    (hzero₃ : sliceZero (retain (retain (retain records [sampleRef 1]) [sampleRef 4]) [sampleRef 3]) ≠ []) :
    ∃ p₁ p₂ result, Runs (pairsTrained records) [sampleRequest [sampleRef 1],sampleRequest [sampleRef 4]] p₁ ∧
      (sampleRequest [sampleRef 3]).program.run fileExec p₁ = (.ok result,p₂) := by
  obtain ⟨_,t,ht,-,hstocked⟩ :=
    (pairsTrained_stocked hall).returns rfl (sampleCall_fits 0 rfl rfl (List.cons_ne_nil _ _)
    (List.nodup_singleton _) rfl (List.forall_mem_singleton.mpr h₁) Nat.two_pos hzero)
  obtain ⟨_,u,hu,-,hstocked⟩ := hstocked.returns rfl (sampleCall_fits 1 rfl rfl (List.cons_ne_nil _ _)
    (List.nodup_singleton _) rfl (List.forall_mem_singleton.mpr h₄) Nat.one_lt_two hzero₄)
  obtain ⟨result,v,hv,-⟩ := hstocked.returns rfl (sampleCall_fits 1 rfl rfl (List.cons_ne_nil _ _)
    (List.nodup_singleton _) rfl (List.forall_mem_singleton.mpr h₃) Nat.one_lt_two hzero₃)
  exact ⟨u,v,result,.cons ht (.cons hu .nil),hv⟩

/-- Two subjects are erased in two batches, then the one whose rows differ. -/
theorem erasure_noninterference_sample : ∃ (p₁ q₁ p₂ q₂ : Process (logging 2)) (result result' : Result (logging 2)),
    Runs (pairsTrained pairRecords) [sampleRequest [sampleRef 1],sampleRequest [sampleRef 4]] p₁ ∧
    Runs (pairsTrained otherRecords) [sampleRequest [sampleRef 1],sampleRequest [sampleRef 4]] q₁ ∧
    (sampleRequest [sampleRef 3]).program.run fileExec p₁ = (.ok result,p₂) ∧
    (sampleRequest [sampleRef 3]).program.run fileExec q₁ = (.ok result',q₂) ∧
    p₂.1.checkpoints 0 1 = q₂.1.checkpoints 0 1 ∧ result.manifests = result'.manifests := by
  have hdiffer : DifferIn (D := logging 2) (sampleRef 3) 0 1 (pairs pairRecords) (pairs otherRecords) := by
    refine ⟨⟨pairRouting,pairRouting,rfl,rfl,rfl,⟨_,rfl,rfl,rfl⟩,_,rfl,rfl,rfl⟩,?_,rfl⟩
    have hm : ∀ row ∈ pairRecords, row.subjectRef = sampleRef 3 → row.sliceIdx = 1 := by decide
    have hm' : ∀ row ∈ otherRecords, row.subjectRef = sampleRef 3 → row.sliceIdx = 1 := by decide
    exact ⟨pairRecords,otherRecords,rfl,rfl,rfl,hm,hm'⟩
  obtain ⟨ds,hds⟩ := pairsTrained_run pairRecords (by decide)
  obtain ⟨ds',hds'⟩ := pairsTrained_run otherRecords (by decide)
  obtain ⟨p₁,p₂,result,hruns,hp⟩ := sampleRequests_run pairRecords (by decide) (by decide) (by decide)
    (by decide) (by decide) (by decide) (by decide)
  obtain ⟨q₁,q₂,result',hruns',hq⟩ := sampleRequests_run otherRecords (by decide) (by decide) (by decide)
    (by decide) (by decide) (by decide) (by decide)
  have hothers : ∀ call ∈ [sampleRequest [sampleRef 1],sampleRequest [sampleRef 4]], sampleRef 3 ∉ call.refs :=
    List.forall_mem_cons.mpr ⟨by decide,List.forall_mem_singleton.mpr (by decide)⟩
  have h := erasure_noninterference hdiffer hds hds' hothers hruns hruns' (c := sampleRequest [sampleRef 3])
    List.mem_cons_self hp hq
  exact ⟨p₁,q₁,p₂,q₂,result,result',hruns,hruns',hp,hq,h.2.2.1 1 Nat.one_lt_two,h.2.2.2.2⟩

end History

end UnlearnShield.Engine.Rebuild
