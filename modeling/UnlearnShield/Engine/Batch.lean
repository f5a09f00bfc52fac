import UnlearnShield.Engine.Train

/-! # What a rebuild does besides training

Both engines look a batch up in the routing table, remove its subjects from the tree
of the shard, sign one manifest for each and drop their routing entries. Only the
purge and the training between differ; `rebuildBatch` takes them as an argument.
-/
namespace UnlearnShield.Engine
open Deployment Manifest
variable {D : Deployment}

/-- The shard of a batch and the earliest slice any of its subjects is in. -/
structure Batch where
  shard : ℕ
  minSlice : ℕ

/-- `{routing[r]["shard"] for r in refs}` as its text, smallest first. -/
def shardSet (shards : List ℕ) : String :=
  "\x7b" ++ ", ".intercalate ((shards.dedup.insertionSort (· ≤ ·)).map toString) ++ "\x7d"

def routingEntry (routing : Routing) (ref : Ref) : Py RoutingEntry :=
  match routing.get? ref with
  | some entry => .ok entry
  | none => raise .keyError s!"'no routing entry for subject (ref {ref.short}...)'"

def leastSlice (m : ℕ) (entries : List RoutingEntry) : ℕ := entries.foldl (fun m e => min m e.minSliceIdx) m

def batchOf (entries : List RoutingEntry) : Py Batch :=
  match entries with
  | [] => raise .valueError "min() iterable argument is empty"
  | e :: rest =>
    if ∀ e' ∈ rest, e'.shard = e.shard then
      .ok ⟨e.shard,leastSlice e.minSliceIdx rest⟩
    else raise .valueError s!"batch spans shards {shardSet (entries.map (·.shard))}; must be pre-grouped by shard"

def locate (routing : Routing) (refs : List Ref) : Py Batch := do
  let entries ← refs.mapM (routingEntry routing)
  batchOf entries

/-- `routing.pop(ref)` for each of the batch. -/
def popAll (routing : Routing) : List Ref → Py Routing
  | [] => .ok routing
  | ref :: refs =>
    if ref ∈ routing then popAll (routing.erase ref) refs else raise .keyError s!"'{ref.val.hex}'"

structure Clock where
  purgedAt : String
  completedAt : String

inductive Replay (D : Deployment)
  | mlp (records : Records D.V) (fromSlice : ℕ) (resumeState : Option D.Weights) (seed : ℤ)
  | gbdt (records : Records D.V) (fromSlice : ℕ) (resumeBooster : Option D.Booster) (treesPerSlice : ℕ)

structure Retrained (D : Deployment) where
  retained : Records D.V
  rowsPurged : ℕ
  resultWeights : String
  replay : Replay D

structure Result (D : Deployment) where
  shard : ℕ
  resumedFrom : String
  rowsPurged : ℕ
  slicesRetrained : List ℕ
  resultWeights : String
  manifests : Dict Ref Manifest.Pairs
  replay : Replay D

def resumedFrom (batch : Batch) : String :=
  if 0 < batch.minSlice then s!"slice{batch.minSlice - 1}" else "fresh_init"

structure EngineParts (D : Deployment) where
  configDigest : Py String
  versionPrefix : String
  retrain : List Ref → Batch → Records D.V → FileM D (Retrained D)

variable (D) in
/-- `m["signature"] = sign_manifest(m)` when asked to sign. -/
def withSignature (sign : Bool) (m : Manifest.Pairs) : Py Manifest.Pairs :=
  if sign then do
    let signature ← signManifest D.signingKey m
    pure (m ++ [(.str "signature",.str signature)])
  else pure m

def manifestFor (parts : EngineParts D) (tree : Smt.SparseMerkleTree D.H) (batch : Batch) (cfgDigest weights : String)
    (sign : Bool) (clock : Clock) (ref : Ref) : Py Manifest.Pairs := do
  let proof ← tree.proveAbsence ref
  let m := build ref.val.hex batch.shard (resumedFrom batch) tree.root proof D.settings.CODE_DIGEST cfgDigest weights
    s!"{parts.versionPrefix}shard{batch.shard}-{String.ofList (weights.toList.take 12)}" clock.purgedAt
      clock.completedAt
  withSignature D sign m

def issueManifests (manifest : Ref → Py Manifest.Pairs) : List Ref → Dict Ref Manifest.Pairs →
    Py (Dict Ref Manifest.Pairs)
  | [], issued => .ok issued
  | ref :: refs, issued => do
    let m ← manifest ref
    issueManifests manifest refs (issued.insert ref m)

/-- `rebuild_batch_by_ref` of an engine. -/
def rebuildBatch (parts : EngineParts D) (refs : List Ref) (sign : Bool) (clock : Clock) : FileM D (Result D) :=
  if refs = [] then .throw ⟨.valueError,"rebuild_batch_by_ref called with no subjects"⟩
  else do
    let routing ← loadRouting
    let batch ← Program.lift (locate routing refs)
    let records ← loadShard batch.shard
    let treeBefore ← treeForShard batch.shard (subjectRefs records)
    let retrained ← parts.retrain refs batch records
    let tree ← Program.lift (treeBefore.remove refs)
    cacheTree batch.shard tree
    let cfgDigest ← Program.lift parts.configDigest
    let manifests ← Program.lift
      (issueManifests (manifestFor parts tree batch cfgDigest retrained.resultWeights sign clock) refs Dict.empty)
    let routing' ← Program.lift (popAll routing refs)
    saveRouting routing'
    pure ⟨batch.shard,resumedFrom batch,retrained.rowsPurged,
      List.range' batch.minSlice (D.settings.NUM_SLICES - batch.minSlice),retrained.resultWeights,manifests,
      retrained.replay⟩

section Specifications

theorem leastSlice_le {es : List RoutingEntry} {m : ℕ} :
    leastSlice m es ≤ m ∧ ∀ e ∈ es, leastSlice m es ≤ e.minSliceIdx := by
  induction es generalizing m with
  | nil => exact ⟨le_rfl,fun e he => absurd he List.not_mem_nil⟩
  | cons e es ih =>
    obtain ⟨hm,hle⟩ := ih (m := min m e.minSliceIdx)
    exact ⟨hm.trans (min_le_left ..),List.forall_mem_cons.mpr ⟨hm.trans (min_le_right ..),hle⟩⟩

theorem leastSlice_eq (es : List RoutingEntry) (m : ℕ) :
    leastSlice m es = m ∨ ∃ e ∈ es, leastSlice m es = e.minSliceIdx := by
  induction es generalizing m with
  | nil => exact Or.inl rfl
  | cons e es ih =>
    rcases ih (min m e.minSliceIdx) with heq | ⟨e',he',heq⟩
    · rcases min_choice m e.minSliceIdx with h | h
      · exact Or.inl (heq.trans h)
      · exact Or.inr ⟨e,List.mem_cons_self,heq.trans h⟩
    · exact Or.inr ⟨e',List.mem_cons_of_mem _ he',heq⟩

theorem batchOf_eq_ok {es : List RoutingEntry} {b : Batch} :
    batchOf es = .ok b ↔ (∀ e ∈ es, e.shard = b.shard ∧ b.minSlice ≤ e.minSliceIdx) ∧
      ∃ e ∈ es, e.minSliceIdx = b.minSlice := by
  cases es with
  | nil => simp [batchOf, raise]
  | cons e rest =>
    obtain ⟨hm,hle⟩ := leastSlice_le (m := e.minSliceIdx)
    have hmin := leastSlice_eq rest e.minSliceIdx
    rw [batchOf]
    constructor
    · intro h
      split at h
      · next hs =>
        cases h
        refine ⟨?_,?_⟩
        · intro e' he'
          rcases List.mem_cons.mp he' with rfl | he'
          · exact ⟨rfl,hm⟩
          · exact ⟨hs e' he',hle e' he'⟩
        · rcases hmin with hmin | ⟨e',he',hmin⟩
          · exact ⟨e,List.mem_cons_self,hmin.symm⟩
          · exact ⟨e',List.mem_cons_of_mem _ he',hmin.symm⟩
      · cases h
    · rintro ⟨hall,e',he',heq⟩
      obtain ⟨hshard,hbm⟩ := hall e List.mem_cons_self
      rw [if_pos fun e' he' => (hall e' (List.mem_cons_of_mem _ he')).1.trans hshard.symm]
      have hge : b.minSlice ≤ leastSlice e.minSliceIdx rest := by
        rcases hmin with hmin | ⟨e₁,he₁,hmin⟩
        · exact hbm.trans hmin.ge
        · exact (hall e₁ (List.mem_cons_of_mem _ he₁)).2.trans hmin.ge
      have hle' : leastSlice e.minSliceIdx rest ≤ b.minSlice := by
        rcases List.mem_cons.mp he' with rfl | he'
        · exact hm.trans heq.le
        · exact (hle e' he').trans heq.le
      rw [hshard, le_antisymm hle' hge]

theorem routingEntry_eq_ok {routing : Routing} {ref : Ref} {e : RoutingEntry} :
    routingEntry routing ref = .ok e ↔ routing.get? ref = some e := by
  unfold routingEntry
  cases routing.get? ref <;> simp [raise]

/-- A batch is located when all its entries name one shard; its slice is the least of theirs. -/
theorem locate_eq_ok {routing : Routing} {refs : List Ref} {b : Batch} :
    locate routing refs = .ok b ↔
      (∀ ref ∈ refs, ∃ e, routing.get? ref = some e ∧ e.shard = b.shard ∧ b.minSlice ≤ e.minSliceIdx) ∧
      ∃ ref ∈ refs, ∃ e, routing.get? ref = some e ∧ e.minSliceIdx = b.minSlice := by
  unfold locate
  rw [bind_eq_ok]
  constructor
  · rintro ⟨es,hes,hb⟩
    rw [mapM_eq_ok] at hes
    obtain ⟨hall,e,he,hmin⟩ := batchOf_eq_ok.mp hb
    refine ⟨?_,?_⟩
    · intro ref href
      have hmem : routingEntry routing ref ∈ es.map Except.ok := hes ▸ List.mem_map_of_mem href
      obtain ⟨e,he,heq⟩ := List.mem_map.mp hmem
      exact ⟨e,routingEntry_eq_ok.mp heq.symm,hall e he⟩
    · have hmem : (Except.ok e : Py RoutingEntry) ∈ refs.map (routingEntry routing) := hes ▸ List.mem_map_of_mem he
      obtain ⟨ref,href,heq⟩ := List.mem_map.mp hmem
      exact ⟨ref,href,e,routingEntry_eq_ok.mp heq,hmin⟩
  · rintro ⟨hall,ref,href,e,he,hmin⟩
    have hes : ∀ rs : List Ref, rs ⊆ refs → ∃ es, rs.mapM (routingEntry routing) = .ok es ∧
        ∀ e, e ∈ es ↔ ∃ r ∈ rs, routing.get? r = some e := by
      intro rs
      induction rs with
      | nil => exact fun _ => ⟨[],rfl,by simp⟩
      | cons r rs ih =>
        intro hsub
        obtain ⟨es,hes,hmem⟩ := ih fun r' h => hsub (List.mem_cons_of_mem _ h)
        obtain ⟨er,her,-⟩ := hall r (hsub List.mem_cons_self)
        refine ⟨er :: es,?_,?_⟩
        · rw [List.mapM_cons, routingEntry_eq_ok.mpr her, ok_bind, hes]
          rfl
        · intro e
          simp [hmem, her, eq_comm]
    obtain ⟨es,hes,hmem⟩ := hes refs fun _ h => h
    refine ⟨es,hes,batchOf_eq_ok.mpr ⟨?_,e,(hmem e).mpr ⟨ref,href,he⟩,hmin⟩⟩
    intro e' he'
    obtain ⟨r,hr,hget⟩ := (hmem e').mp he'
    obtain ⟨e₁,he₁,h⟩ := hall r hr
    rw [hget] at he₁
    cases he₁
    exact h

theorem popAll_eq_ok {routing routing' : Routing} {refs : List Ref} :
    popAll routing refs = .ok routing' ↔
      refs.Nodup ∧ (∀ ref ∈ refs, ref ∈ routing) ∧ routing' = routing.without refs := by
  induction refs generalizing routing with
  | nil => simp [popAll, eq_comm]
  | cons ref refs ih =>
    unfold popAll
    rw [List.nodup_cons, List.forall_mem_cons, ← Dict.erase_without]
    by_cases hr : ref ∈ routing
    · rw [if_pos hr, ih]
      constructor
      · rintro ⟨hn,hmem,rfl⟩
        exact ⟨⟨fun h => (Dict.mem_erase.mp (hmem ref h)).2 rfl,hn⟩,
          ⟨hr,fun r h => (Dict.mem_erase.mp (hmem r h)).1⟩,rfl⟩
      · rintro ⟨⟨hnew,hn⟩,⟨-,hmem⟩,rfl⟩
        exact ⟨hn,fun r h => Dict.mem_erase.mpr ⟨hmem r h,fun he => hnew (he ▸ h)⟩,rfl⟩
    · rw [if_neg hr]
      simp [raise, hr]

theorem issueManifests_get? {manifest : Ref → Py Manifest.Pairs} {refs : List Ref}
    {issued issued' : Dict Ref Manifest.Pairs} (h : issueManifests manifest refs issued = .ok issued')
    {ref : Ref} (href : ref ∈ refs ∨ ∃ m, manifest ref = .ok m ∧ issued.get? ref = some m) :
    ∃ m, manifest ref = .ok m ∧ issued'.get? ref = some m := by
  induction refs generalizing issued with
  | nil =>
    cases h
    exact href.resolve_left (List.not_mem_nil)
  | cons r refs ih =>
    obtain ⟨m,hm,h⟩ := bind_eq_ok.mp h
    apply ih h
    by_cases hr : ref = r
    · subst hr
      exact Or.inr ⟨m,hm,Dict.get?_insert_self ..⟩
    · rcases href with href | ⟨m',hm',hget⟩
      · exact Or.inl ((List.mem_cons.mp href).resolve_left hr)
      · exact Or.inr ⟨m',hm',by rw [Dict.get?_insert_of_ne hr]; exact hget⟩

theorem exists_issueManifests {manifest : Ref → Py Manifest.Pairs} {refs : List Ref} (issued : Dict Ref Manifest.Pairs)
    (h : ∀ ref ∈ refs, ∃ m, manifest ref = .ok m) : ∃ issued', issueManifests manifest refs issued = .ok issued' := by
  induction refs generalizing issued with
  | nil => exact ⟨issued,rfl⟩
  | cons r refs ih =>
    obtain ⟨hr,hrest⟩ := List.forall_mem_cons.mp h
    obtain ⟨m,hm⟩ := hr
    rw [issueManifests, hm]
    exact ih _ hrest

theorem withSignature_eq_ok {sign : Bool} {fields m : Manifest.Pairs}
    (hkeys : fields.map Prod.fst = REQUIRED_FIELDS.map PyKey.str) (h : withSignature D sign fields = .ok m) :
    (m.map Prod.fst).Nodup ∧ fields ⊆ m := by
  have hall : (REQUIRED_FIELDS.map PyKey.str ++ [PyKey.str "signature"]).Nodup := by decide
  unfold withSignature at h
  cases sign with
  | false =>
    cases h
    exact ⟨hkeys ▸ hall.sublist (List.sublist_append_left ..),fun _ he => he⟩
  | true =>
    obtain ⟨signature,-,h⟩ := bind_eq_ok.mp h
    cases h
    refine ⟨?_,List.subset_append_left ..⟩
    rw [List.map_append, hkeys]
    exact hall

/-- A manifest carries the root and the absence proof of the tree it is issued from. -/
theorem manifestFor_eq_ok {parts : EngineParts D} {tree : Smt.SparseMerkleTree D.H} {batch : Batch}
    {cfgDigest weights : String} {sign : Bool} {clock : Clock} {ref : Ref} {m : Manifest.Pairs}
    (h : manifestFor parts tree batch cfgDigest weights sign clock ref = .ok m) :
    ∃ proof, tree.proveAbsence ref = .ok proof ∧ (PyVal.dict m).subscript "absence_proof" = .ok proof ∧
      (PyVal.dict m).subscript "dataset_root" = .ok (.str tree.root) ∧
      (PyVal.dict m).subscript "result_weights" = .ok (.str weights) := by
  obtain ⟨proof,hproof,h⟩ := bind_eq_ok.mp h
  obtain ⟨hn,hfields⟩ := withSignature_eq_ok rfl h
  exact ⟨proof,hproof,PyVal.subscript_of_mem hn (hfields (by simp [build])),
    PyVal.subscript_of_mem hn (hfields (by simp [build])),PyVal.subscript_of_mem hn (hfields (by simp [build]))⟩

end Specifications

structure Stages (D : Deployment) where
  routing : Routing
  batch : Batch
  records : Records D.V
  treeBefore : Smt.SparseMerkleTree D.H
  retrained : Retrained D
  retrainedAt : Process D
  tree : Smt.SparseMerkleTree D.H
  cfgDigest : String
  manifests : Dict Ref Manifest.Pairs

/-- A call from `s` that returns `result` in `t` went through the stages `x`. -/
structure Rebuilds (parts : EngineParts D) (refs : List Ref) (sign : Bool) (clock : Clock) (s t : Process D)
    (result : Result D) (x : Stages D) : Prop where
  nonempty : refs ≠ []
  nodup : refs.Nodup
  routing : s.1.routing = some x.routing
  batch : locate x.routing refs = .ok x.batch
  records : s.1.shards x.batch.shard = some x.records
  treeBefore : Smt.treeForShard s.2 x.batch.shard (subjectRefs x.records) = .ok x.treeBefore
  retrain : (parts.retrain refs x.batch x.records).run fileExec s = (.ok x.retrained,x.retrainedAt)
  tree : x.treeBefore.remove refs = .ok x.tree
  cfgDigest : parts.configDigest = .ok x.cfgDigest
  manifests : issueManifests (manifestFor parts x.tree x.batch x.cfgDigest x.retrained.resultWeights sign clock) refs
    Dict.empty = .ok x.manifests
  result : result = ⟨x.batch.shard,resumedFrom x.batch,x.retrained.rowsPurged,
    List.range' x.batch.minSlice (D.settings.NUM_SLICES - x.batch.minSlice),x.retrained.resultWeights,x.manifests,
    x.retrained.replay⟩
  final : t = ({x.retrainedAt.1 with routing := some (x.routing.without refs)},
    Smt.cacheTree x.retrainedAt.2 x.batch.shard x.tree)

theorem run_rebuildBatch {parts : EngineParts D} {refs : List Ref} {sign : Bool} {clock : Clock} {s t : Process D}
    {result : Result D} : (rebuildBatch parts refs sign clock).run fileExec s = (.ok result,t) ↔
      ∃ x, Rebuilds parts refs sign clock s t result x := by
  unfold rebuildBatch
  by_cases hne : refs = []
  · rw [if_pos hne]
    refine ⟨fun h => absurd h Program.run_throw_ne_ok,?_⟩
    rintro ⟨x,hx⟩
    exact absurd hne hx.nonempty
  · simp only [if_neg hne, Program.run_bind_eq_ok, Program.run_lift_eq_ok, Program.run_pure_eq_ok, run_loadRouting,
      run_loadShard, run_treeForShard, run_cacheTree, run_saveRouting, popAll_eq_ok, Prod.mk.injEq]
    constructor
    · rintro ⟨routing,_,⟨hr,rfl⟩,batch,_,⟨hb,rfl⟩,records,_,⟨hs,rfl⟩,treeBefore,_,⟨ht,rfl⟩,retrained,u,hre,tree,_,
        ⟨htree,rfl⟩,_,_,⟨-,rfl⟩,cfg,_,⟨hc,rfl⟩,manifests,_,⟨hm,rfl⟩,routing',_,⟨⟨hn,-,rfl⟩,rfl⟩,_,_,⟨-,rfl⟩,rfl,rfl⟩
      exact ⟨⟨routing,batch,records,treeBefore,retrained,u,tree,cfg,manifests⟩,
        ⟨hne,hn,hr,hb,hs,ht,hre,htree,hc,hm,rfl,rfl⟩⟩
    · rintro ⟨⟨routing,batch,records,treeBefore,retrained,u,tree,cfg,manifests⟩,
        ⟨-,hn,hr,hb,hs,ht,hre,htree,hc,hm,rfl,rfl⟩⟩
      have hmem : ∀ ref ∈ refs, ref ∈ routing := fun ref href => by
        obtain ⟨e,he,-⟩ := (locate_eq_ok.mp hb).1 ref href
        exact Dict.mem_of_get? he
      exact ⟨routing,s,⟨hr,rfl⟩,batch,s,⟨hb,rfl⟩,records,s,⟨hs,rfl⟩,treeBefore,s,⟨ht,rfl⟩,retrained,u,hre,tree,u,
        ⟨htree,rfl⟩,(),_,⟨trivial,rfl⟩,cfg,_,⟨hc,rfl⟩,manifests,_,⟨hm,rfl⟩,_,_,⟨⟨hn,hmem,rfl⟩,rfl⟩,(),_,⟨trivial,rfl⟩,
        rfl,rfl⟩

end UnlearnShield.Engine
