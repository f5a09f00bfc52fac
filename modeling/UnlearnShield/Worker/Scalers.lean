import UnlearnShield.Engine.Faults
import UnlearnShield.Worker.Artifacts
import UnlearnShield.Worker.Erased
import UnlearnShield.Worker.Whole

/-! # Weights and their preprocessors

The weights of a version are content-addressed, and the preprocessor of a shard is one file
that every training writes over. Each process notes the preprocessors that it wrote, the
weights it has then trained, and what it has loaded side by side. All weights in a file are
those of a training. So every ensemble that is scored with, out of a cache too, has each
shard's weights with a preprocessor they were trained with, in every run in which no
preprocessor is opened that has been replaced since the training of the weights beside it.
-/
namespace UnlearnShield.Worker
open Db Engine Deployment Program Relation
variable {D : Deployment}

/-- A shard and its path, with what was loaded for it. -/
abbrev LoadedModel (D : Deployment) := (String × String) × (D.Weights × String)

/-- What a process has trained, loaded and scored with. -/
structure Scaling (D : Deployment) where
  /-- The preprocessor it last wrote for a shard. -/
  fitted : ℕ → Option String
  trained : List (D.Weights × String)
  read : Option (String × D.Weights)
  loaded : List (LoadedModel D)
  /-- What `load_ensemble` has returned. -/
  scored : List (EnsembleKey × Ensemble D)

def noteTraining (op : FileOp D) (_ : op.Resp) (n : Scaling D) : Scaling D :=
  match op with
  | .writePreproc shard text => {n with fitted := Function.update n.fitted shard (some text)}
  | .saveCheckpoint shard _ weights =>
    {n with trained := ((n.fitted shard).map fun text => (weights,text)).toList ++ n.trained}
  | _ => n

def noteScaling : Note (WorkerOp D) WorkerOp.Resp (Scaling D)
  | .file op, .ok r, n => noteTraining op r n
  | .readCopy path, .ok (.weights weights), n => {n with read := some (path,weights)}
  | .readPreproc shard, .ok text, n =>
    {n with loaded := (n.read.map fun e => ((shard,e.1),(e.2,text))).toList ++ n.loaded}
  | .cachedEnsemble key, some ensemble, n => {n with scored := (key,ensemble) :: n.scored}
  | .cacheEnsemble key _, ensemble, n => {n with scored := (key,ensemble) :: n.scored}
  | _, _, n => n

/-- The weights are those after a slice of a training, and its preprocessor was fitted on its rows. -/
def Fits (weights : D.Weights) (text : String) : Prop :=
  ∃ (records : Records D.V) (preproc : D.mlp.Preproc) (seed : ℤ) (fromSlice : ℕ) (start : Training D) (n : ℕ),
    fitPreprocessor records = .ok preproc ∧ D.mlp.toJson preproc = text ∧
      D.mlp.stateDict (afterSlices preproc records seed fromSlice start (n+1)).1 = weights

/-- Weights are saved after a training with the preprocessor that was written for the shard. -/
def SavesFitted : FileOp D → Scaling D → Prop
  | .saveCheckpoint shard _ weights, n => ∃ text, n.fitted shard = some text ∧ Fits weights text
  | _, _ => True

/-- The models of the ensemble are those that were loaded, one for each path. -/
def LoadedFor (o : Outside D) (n : Scaling D) (entries : List (String × String)) : Ensemble D → Prop
  | .shards models => ∃ paths, paths.Perm entries ∧ List.Forall₂ (fun e m => (e,m) ∈ n.loaded) paths models
  | .boosters _ => ∃ treesPerSlice, o.engine = .gbdt treesPerSlice

/-- A process saves what it has trained and caches what it has loaded. -/
def Pairs (o : Outside D) : WorkerOp D → Scaling D → Prop
  | .file op, n => SavesFitted op n
  | .cacheEnsemble key ensemble, n => LoadedFor o n key.2 ensemble
  | _, _ => True

section Programs
variable {o : Outside D} {α : Type}

section Rebuilds

abbrev Fitting (p : FileM D α) (n : Scaling D) : Prop := p.Heeds noteTraining SavesFitted (fun _ _ => True) n

theorem fitting_trainSlices {shard : ℕ} {preproc : D.mlp.Preproc} {records : Records D.V}
    (hfit : fitPreprocessor records = .ok preproc) (seed : ℤ) (fromSlice : ℕ) (start : Training D) (k j : ℕ)
    {n : Scaling D} (hn : n.fitted shard = some (D.mlp.toJson preproc)) :
    Fitting (trainSlices shard preproc records seed k (fromSlice+j)
      (afterSlices preproc records seed fromSlice start j)) n := by
  induction k generalizing j n with
  | zero => trivial
  | succ k ih =>
    have hfits : Fits (D.mlp.stateDict (afterSlices preproc records seed fromSlice start (j+1)).1)
        (D.mlp.toJson preproc) := ⟨records,preproc,seed,fromSlice,start,j,hfit,rfl,rfl⟩
    refine ⟨⟨_,hn,hfits⟩,fun _ => (ih (j+1) ?_).bind fun _ _ _ => trivial⟩
    exact hn

theorem fitting_trainShard (shard fromSlice : ℕ) (records : Records D.V) (resumeState : Option D.Weights) (seed : ℤ)
    (n : Scaling D) : Fitting (trainShard shard (some records) fromSlice resumeState seed) n := by
  refine heeds_lift_bind fun _ _ => ?_
  have hrecords : (Pure.pure records : FileM D _).Heeds noteTraining SavesFitted (fun loaded _ => loaded = records) n :=
    rfl
  refine hrecords.bind fun loaded n hloaded => ?_
  subst hloaded
  refine heeds_lift_bind fun preproc hfit => heeds_lift_bind fun start _ => ⟨trivial,fun _ => ?_⟩
  exact fitting_trainSlices hfit seed fromSlice start _ 0 (Function.update_self ..)

theorem fitting_retrain (engine : ModelEngine) (refs : List Ref) (batch : Batch) (records : Records D.V)
    (n : Scaling D) : Fitting ((engine.parts : EngineParts D).retrain refs batch records) n := by
  cases engine with
  | mlp seed =>
    refine heeds_lift_bind fun purged _ => ?_
    obtain ⟨retained,droppedTotal⟩ := purged
    have hresume : ∀ n, Fitting (Rebuild.loadResumeState batch.shard batch.minSlice : FileM D _) n := by
      intro n
      unfold Rebuild.loadResumeState
      split
      · exact ⟨trivial,fun _ => trivial⟩
      · trivial
    refine ⟨trivial,fun _ => (hresume _).bind fun resumeState n _ => ?_⟩
    refine (fitting_trainShard batch.shard batch.minSlice retained resumeState seed n).bind fun digests n _ => ?_
    exact heeds_lift_bind fun _ _ => trivial
  | gbdt treesPerSlice =>
    refine ⟨trivial,fun booster => heeds_lift_bind fun rebuilt _ => ?_⟩
    obtain ⟨rebuilt,retained⟩ := rebuilt
    refine ⟨trivial,fun _ => heeds_lift_bind fun saved _ => ⟨trivial,fun _ => ?_⟩⟩
    exact heeds_lift_bind fun _ _ => trivial

theorem fitting_rebuildBatch (engine : ModelEngine) (refs : List Ref) (clock : Clock) (n : Scaling D) :
    Fitting (rebuildBatch (engine.parts : EngineParts D) refs true clock) n := by
  unfold rebuildBatch
  split
  · trivial
  · refine ⟨trivial,fun routing => heeds_lift_bind fun batch _ => ⟨trivial,fun records => ?_⟩⟩
    refine ⟨trivial,fun treeBefore => ?_⟩
    refine (fitting_retrain engine refs batch records _).bind fun retrained n _ => ?_
    refine heeds_lift_bind fun tree _ => ⟨trivial,fun _ => heeds_lift_bind fun cfgDigest _ => ?_⟩
    exact heeds_lift_bind fun manifests _ => heeds_lift_bind fun routing' _ => ⟨trivial,fun _ => trivial⟩

end Rebuilds

abbrev Scores (o : Outside D) (R : α → Scaling D → Prop) (p : WorkerM D α) (n : Scaling D) : Prop :=
  p.Heeds noteScaling (Pairs o) R n

def WorkerOp.Unpaired : WorkerOp D → Prop
  | .file op => op = .loadRouting
  | .cacheEnsemble .. => False
  | _ => True

theorem scores_unpaired {p : WorkerM D α} (hp : p.Performs WorkerOp.Unpaired) : Minds noteScaling (Pairs o) p := by
  refine minds_of_performs hp fun op n hop => ?_
  cases op with
  | file op =>
    cases hop
    trivial
  | cacheEnsemble => exact hop.elim
  | _ => trivial

theorem scores_execute (stmt : Sql) : Minds noteScaling (Pairs o) (execute (D := D) stmt) :=
  scores_unpaired (performs_execute stmt trivial)

theorem scores_rebuildBatchByRef (refs : List Ref) : Minds noteScaling (Pairs o) (rebuildBatchByRef o refs) := by
  refine fun n => ⟨trivial,fun clock => ?_⟩
  have hcall := fitting_rebuildBatch o.engine refs clock n
  rw [← Call.program_eq ⟨o.engine,refs,true,clock⟩] at hcall
  refine hcall.embed (fun op r' r g ha => ?_) fun _ _ h => h
  cases ha
  rfl

/-- A model is loaded with the preprocessor that is read next. -/
theorem scores_loadShardModels (paths : List (String × String)) (n : Scaling D) :
    Scores o (fun models n' => n.loaded ⊆ n'.loaded ∧ List.Forall₂ (fun e m => (e,m) ∈ n'.loaded) paths models)
      (loadShardModels paths) n := by
  induction paths generalizing n with
  | nil => exact ⟨List.Subset.refl _,.nil⟩
  | cons e paths ih =>
    obtain ⟨shard,path⟩ := e
    refine ⟨trivial,fun copy => heeds_lift_bind fun artifact hcopy => heeds_lift_bind fun weights hweights => ?_⟩
    subst hcopy
    cases artifact with
    | weights w =>
      cases hweights
      refine ⟨trivial,fun preproc => heeds_lift_bind fun text hpreproc => ?_⟩
      subst hpreproc
      refine (ih _).bind fun models n' hmodels => ?_
      refine ⟨fun x hx => hmodels.1 (List.mem_append_right _ hx),.cons (hmodels.1 ?_) hmodels.2⟩
      exact List.mem_append_left _ (List.mem_singleton_self _)
    | booster b => cases hweights
    | unfinished => cases hweights

theorem scores_newEnsemble (shardPaths : Dict String String) (n : Scaling D) :
    Scores o (fun ensemble n => LoadedFor o n shardPaths.entries ensemble) (newEnsemble o shardPaths) n := by
  refine heeds_lift_bind fun paths hpaths => ?_
  split
  · refine (scores_loadShardModels paths n).bind fun models n' hmodels => ?_
    split
    · trivial
    · exact ⟨paths,byShard_perm hpaths,hmodels.2⟩
  · next treesPerSlice hengine =>
    have hboosters : (loadBoosters paths : WorkerM D _).Performs WorkerOp.Unpaired :=
      performs_loadBoosters (fun _ => trivial) paths
    refine (scores_unpaired hboosters n).bind fun models n' _ => ?_
    split
    · trivial
    · exact ⟨treesPerSlice,hengine⟩

theorem LoadedFor.perm {n : Scaling D} {entries entries' : List (String × String)} {ensemble : Ensemble D}
    (h : LoadedFor o n entries ensemble) (hperm : entries.Perm entries') : LoadedFor o n entries' ensemble := by
  cases ensemble with
  | shards models =>
    obtain ⟨paths,hpaths,hmodels⟩ := h
    exact ⟨paths,hpaths.trans hperm,hmodels⟩
  | boosters => exact h

/-- What is returned is noted. -/
theorem scored_loadEnsemble (shardPaths : Dict String String) (n : Scaling D) :
    Scores o (fun ensemble n => (ensembleKey o shardPaths,ensemble) ∈ n.scored) (loadEnsemble o shardPaths) n := by
  refine ⟨trivial,fun hit => ?_⟩
  cases hit with
  | some hit => exact List.mem_cons_self
  | none =>
    refine (scores_newEnsemble shardPaths _).bind fun ensemble n' hensemble => ⟨?_,fun _ => List.mem_cons_self⟩
    exact hensemble.perm (ensembleKey_perm shardPaths).symm

theorem scores_loadEnsemble (shardPaths : Dict String String) :
    Minds noteScaling (Pairs o) (loadEnsemble o shardPaths) :=
  fun n => (scored_loadEnsemble shardPaths n).mono fun _ _ _ => trivial

theorem scores_recordEval (modelVersion : String) (shardCheckpoints : Dict String String) :
    Minds noteScaling (Pairs o) (recordEval o modelVersion shardCheckpoints) := by
  refine (scores_execute _).bind fun rows => (scores_loadEnsemble _).bind fun ensemble => ?_
  exact scores_unpaired ((performs_lift _).bind fun score => (performs_execute _ trivial).bind fun _ => performs_pure _)

theorem scores_promote (shard : ℕ) (resultWeights : String) :
    Minds noteScaling (Pairs o) (promote o shard resultWeights) := by
  have hartifact : (promoteArtifact o shard resultWeights).Performs WorkerOp.Unpaired :=
    performs_promoteArtifact_of (fun _ => trivial) (fun _ _ => trivial) (fun _ _ => trivial) shard resultWeights
  refine (scores_unpaired hartifact).bind fun path => ?_
  refine (scores_execute _).bind fun _ => (scores_execute _).bind fun latest => (scores_execute _).bind fun _ => ?_
  exact (scores_recordEval _ _).bind fun _ => minds_pure _

theorem scores_processGroup (shard : ℕ) (group : List ClaimedJob) :
    Minds noteScaling (Pairs o) (processGroup o shard group) := by
  refine (scores_rebuildBatchByRef _).attempt.bind fun rebuilt => ?_
  cases rebuilt with
  | error e => exact scores_execute _
  | ok result =>
    have hbookkeep : Minds noteScaling (Pairs o) (bookkeep o shard group result) :=
      (scores_promote shard result.resultWeights).bind fun _ =>
        scores_unpaired (performs_recordJobs_of (fun _ _ => trivial) (fun _ => trivial) _ _)
    refine hbookkeep.attempt.bind fun booked => ?_
    cases booked with
    | error e => exact scores_execute _
    | ok u => exact scores_unpaired (performs_spotChecks (fun _ _ => trivial) shard result group)

theorem scores_loadRoutingScript : Minds noteScaling (Pairs o) (loadRoutingScript o) := by
  have hload : (onFiles (Engine.loadRouting (D := D))).Performs WorkerOp.Unpaired := by
    unfold onFiles Engine.loadRouting Program.embed
    refine ⟨rfl,fun r => ?_⟩
    cases r <;> trivial
  have hlive : ∀ recorded shards, (recordLive o recorded shards).Performs WorkerOp.Unpaired :=
    performs_recordLive_of (fun _ => trivial) (fun _ => trivial) (fun _ _ => trivial) (fun _ _ => trivial)
      fun _ _ => trivial
  refine (scores_unpaired hload).bind fun routing => minds_withConn (fun _ => trivial) (fun _ => trivial) ?_
  refine (scores_execute _).bind fun _ => (scores_unpaired (hlive _ _)).bind fun recorded => ?_
  exact (scores_execute _).bind fun _ => (scores_recordEval _ _).bind fun _ => minds_pure _

theorem scores_servedEnsemble : Minds noteScaling (Pairs o) (Gateway.servedEnsemble o) := by
  have hcurrent : (Gateway.currentModel : WorkerM D _).Performs WorkerOp.Unpaired :=
    performs_currentModel trivial fun _ => trivial
  refine (scores_unpaired hcurrent).attempt.bind fun current => ?_
  cases current with
  | error e => exact fun _ => ⟨trivial,fun _ => trivial⟩
  | ok served =>
    refine fun n => ⟨trivial,fun _ => ?_⟩
    exact ((scores_loadEnsemble _).bind fun _ => minds_pure _) n

/-- Whatever its role, a process saves only what it has trained and caches only what it has loaded. -/
theorem Role.scores (LEASE_SECONDS POLL_BATCH_SIZE : ℕ) (role : Role) :
    Minds noteScaling (Pairs o) (role.program o LEASE_SECONDS POLL_BATCH_SIZE) :=
  role.minds (fun _ => trivial) (fun _ => trivial) (fun _ => trivial) (fun _ _ _ _ => trivial) scores_processGroup
    scores_loadRoutingScript scores_servedEnsemble LEASE_SECONDS POLL_BATCH_SIZE

end Programs

section Runs
variable {ι : Type} [DecidableEq ι] {o : Outside D} {pg : Postgres} {i : ι} {op : WorkerOp D} {r : op.Resp}

abbrev Scaled (D : Deployment) (ι : Type) := Fleet D ι × (ι → Scaling D)

variable {s t : Scaled D ι}

/-- The weights were trained with this preprocessor. -/
def Trained (s : Scaled D ι) (weights : D.Weights) (text : String) : Prop := ∃ i, (weights,text) ∈ (s.2 i).trained

/-- A preprocessor file that is opened is as it was when the weights just loaded for the shard were trained. -/
def Unreplaced (i : ι) (op : WorkerOp D) (s : Scaled D ι) : Prop :=
  match op with
  | .readPreproc shard => ∀ text ∈ preprocOf s.1.world.disk shard, ∀ e ∈ (s.2 i).read,
    ∀ j, ∀ x ∈ (s.2 j).trained, x.1 = e.2 → x.2 = text
  | _ => True

/-- What is noted as a training is one, and all weights in a file, in a copy or in use come out of one. -/
structure Scalers (o : Outside D) (s : Scaled D ι) : Prop where
  trained : ∀ i, ∀ x ∈ (s.2 i).trained, Fits x.1 x.2
  checkpoints : ∀ shard sliceIdx weights, s.1.world.disk.checkpoints shard sliceIdx = some weights →
    ∃ text, Trained s weights text
  copies : ∀ path weights, s.1.world.cas.get? path = some (.weights weights) → ∃ text, Trained s weights text
  read : ∀ i, ∀ e ∈ (s.2 i).read, ∃ text, Trained s e.2 text
  loaded : ∀ i, ∀ x ∈ (s.2 i).loaded, Trained s x.2.1 x.2.2
  cached : ∀ i key ensemble, (s.1.world.ensembles i).get? key = some ensemble → LoadedFor o (s.2 i) key.2 ensemble
  scored : ∀ i, ∀ x ∈ (s.2 i).scored, LoadedFor o (s.2 i) x.1.2 x.2

section Notes
variable {n n' : Scaling D}

theorem LoadedFor.mono {entries : List (String × String)} {ensemble : Ensemble D}
    (h : LoadedFor o n entries ensemble) (hn : n.loaded ⊆ n'.loaded) : LoadedFor o n' entries ensemble := by
  cases ensemble with
  | shards models =>
    obtain ⟨paths,hperm,hmodels⟩ := h
    exact ⟨paths,hperm,hmodels.imp fun _ _ hm => hn hm⟩
  | boosters => exact h

/-- What an operation in this world adds to the notes. -/
structure Adds (o : Outside D) (i : ι) (op : WorkerOp D) (w : World D ι) (n n' : Scaling D) : Prop where
  keeps : n.trained ⊆ n'.trained ∧ n.loaded ⊆ n'.loaded
  trained : ∀ x ∈ n'.trained, x ∈ n.trained ∨ Fits x.1 x.2
  read : ∀ e ∈ n'.read, e ∈ n.read ∨ w.cas.get? e.1 = some (.weights e.2)
  loaded : ∀ x ∈ n'.loaded, x ∈ n.loaded ∨
    op = .readPreproc x.1.1 ∧ preprocOf w.disk x.1.1 = some x.2.2 ∧ (x.1.2,x.2.1) ∈ n.read
  scored : ∀ x ∈ n'.scored, x ∈ n.scored ∨ (w.ensembles i).get? x.1 = some x.2 ∨ LoadedFor o n x.1.2 x.2

omit [DecidableEq ι] in
theorem Adds.of_eq {w : World D ι} (ht : n'.trained = n.trained) (hr : n'.read = n.read) (hl : n'.loaded = n.loaded)
    (hs : n'.scored = n.scored) : Adds o i op w n n' :=
  ⟨⟨ht ▸ List.Subset.refl _,hl ▸ List.Subset.refl _⟩,fun _ h => Or.inl (ht ▸ h),fun _ h => Or.inl (hr ▸ h),
    fun _ h => Or.inl (hl ▸ h),fun _ h => Or.inl (hs ▸ h)⟩

/-- What is noted as a training is one, what is noted as read and loaded is in the files, and what is returned was
cached or has just been loaded. -/
theorem adds_note {w w' : World D ι} (hexec : Worker.exec o pg i op w = .ok (r,w')) (hpairs : Pairs o op n) :
    Adds o i op w n (noteScaling op r n) := by
  have hsame : Adds o i op w n n := .of_eq rfl rfl rfl rfl
  cases op with
  | file op =>
    cases r with
    | error e => exact hsame
    | ok a =>
      cases op with
      | saveCheckpoint shard sliceIdx weights =>
        refine {hsame with keeps := ⟨List.subset_append_right ..,hsame.keeps.2⟩, trained := fun x hx => ?_}
        obtain ⟨text,htext,hfits⟩ := hpairs
        rcases List.mem_append.mp hx with hnew | hold
        · rw [htext] at hnew
          obtain rfl := List.mem_singleton.mp hnew
          exact Or.inr hfits
        · exact Or.inl hold
      | _ => exact .of_eq rfl rfl rfl rfl
  | readCopy path =>
    obtain ⟨hr,-⟩ := Prod.mk.inj (Except.ok.inj hexec)
    cases r with
    | error e => exact hsame
    | ok artifact =>
      cases artifact with
      | weights weights =>
        refine {hsame with read := fun e he => Or.inr ?_}
        obtain rfl := Option.some.inj he
        exact found_eq_ok.mp hr
      | _ => exact hsame
  | readPreproc shard =>
    obtain ⟨hr,-⟩ := Prod.mk.inj (Except.ok.inj hexec)
    cases r with
    | error e => exact hsame
    | ok text =>
      refine {hsame with keeps := ⟨hsame.keeps.1,List.subset_append_right ..⟩, loaded := fun x hx => ?_}
      rcases List.mem_append.mp hx with hnew | hold
      · obtain ⟨e,he,rfl⟩ := Option.map_eq_some_iff.mp (Option.mem_toList.mp hnew)
        exact Or.inr ⟨rfl,found_eq_ok.mp hr,he⟩
      · exact Or.inl hold
  | cachedEnsemble key =>
    obtain ⟨hr,-⟩ := Prod.mk.inj (Except.ok.inj hexec)
    cases r with
    | none => exact hsame
    | some ensemble =>
      refine {hsame with scored := fun x hx => ?_}
      rcases List.mem_cons.mp hx with rfl | hold
      · exact Or.inr (Or.inl hr)
      · exact Or.inl hold
  | cacheEnsemble key ensemble =>
    obtain ⟨hr,-⟩ := Prod.mk.inj (Except.ok.inj hexec)
    refine {hsame with scored := fun x hx => ?_}
    rcases List.mem_cons.mp hx with rfl | hold
    · cases hcached : (w.ensembles i).get? key with
      | none =>
        rw [hcached] at hr
        exact Or.inr (Or.inr (hr ▸ hpairs))
      | some cached =>
        rw [hcached] at hr
        exact Or.inr (Or.inl (congrArg some hr))
    · exact Or.inl hold
  | _ => exact hsame

/-- A checkpoint that is new has been noted as a training. -/
theorem saved_note {s t : Fleet D ι} (he : Fleet.exec o pg i op s = .ok (r,t)) (hpairs : Pairs o op n)
    {shard sliceIdx : ℕ} {weights : D.Weights} (h : t.world.disk.checkpoints shard sliceIdx = some weights) :
    s.world.disk.checkpoints shard sliceIdx = some weights ∨
      ∃ text, (weights,text) ∈ (noteScaling op r n).trained := by
  cases op with
  | file op =>
    rcases Fleet.exec_file he with ⟨x,rfl,hfile⟩ | ⟨-,hdisk⟩
    · cases op with
      | saveCheckpoint k j saved =>
        obtain ⟨-,hfiles⟩ := Prod.mk.inj (Except.ok.inj hfile)
        have hdisk : s.world.disk.setCheckpoint k j saved = t.world.disk := congrArg Prod.fst hfiles
        rw [← hdisk] at h
        obtain ⟨text,htext,-⟩ := hpairs
        rcases ite_eq_iff.mp h with ⟨-,hsaved⟩ | ⟨-,hold⟩
        · cases hsaved
          refine Or.inr ⟨text,List.mem_append_left _ ?_⟩
          rw [htext]
          exact List.mem_singleton_self _
        · exact Or.inl hold
      | _ =>
        have hsame := FileOp.Spares.same (f := .checkpoint shard sliceIdx)
          (by simp [FileOp.Spares, FileOp.access]) hfile
        exact Or.inl (hsame ▸ h)
    · exact Or.inl (hdisk ▸ h)
  | _ => exact Or.inl (Fleet.exec_noFile (by trivial) he ▸ h)

end Notes

omit [DecidableEq ι] in
theorem Trained.mono (h : ∀ i, (s.2 i).trained ⊆ (t.2 i).trained) {weights : D.Weights} {text : String}
    (hs : Trained s weights text) : Trained t weights text := by
  obtain ⟨i,hi⟩ := hs
  exact ⟨i,h i hi⟩

theorem checkpoint_of_liveModel {engine : ModelEngine} {d : Disk D} {shard : ℕ} {weights : D.Weights}
    (h : liveModel engine d shard = some (.weights weights)) :
    ∃ sliceIdx, d.checkpoints shard sliceIdx = some weights := by
  cases engine with
  | mlp seed =>
    obtain ⟨live,hlive,heq⟩ := Option.map_eq_some_iff.mp h
    cases heq
    exact ⟨_,hlive⟩
  | gbdt treesPerSlice =>
    obtain ⟨live,-,heq⟩ := Option.map_eq_some_iff.mp h
    cases heq

namespace Scalers

theorem performed (h : Scalers o s) (hunreplaced : Unreplaced i op s) (hpairs : Pairs o op (s.2 i))
    (he : ((fleet o pg).watched noteScaling).exec i op s = .ok (r,t)) : Scalers o t := by
  obtain ⟨hexec,hnotes⟩ := Machine.exec_watched.mp he
  have hexec : Fleet.exec o pg i op s.1 = .ok (r,t.1) := hexec
  have hi : t.2 i = noteScaling op r (s.2 i) := by rw [hnotes, Function.update_self]
  have hj : ∀ j, j ≠ i → t.2 j = s.2 j := fun j hne => by rw [hnotes, Function.update_of_ne hne]
  have hadds : Adds o i op s.1.world (s.2 i) (t.2 i) := hi ▸ adds_note (Fleet.exec_eq_ok.mp hexec).1 hpairs
  have hkeep : ∀ j, (s.2 j).trained ⊆ (t.2 j).trained ∧ (s.2 j).loaded ⊆ (t.2 j).loaded := by
    intro j
    by_cases hne : j = i
    · exact hne ▸ hadds.keeps
    · rw [hj j hne]
      exact ⟨List.Subset.refl _,List.Subset.refl _⟩
  have hmono : ∀ {weights text}, Trained s weights text → Trained t weights text := .mono fun j => (hkeep j).1
  have hknown : ∀ {weights}, (∃ text, Trained s weights text) → ∃ text, Trained t weights text :=
    fun ⟨text,htext⟩ => ⟨text,hmono htext⟩
  refine ⟨fun j x hx => ?_,fun shard sliceIdx weights hsaved => ?_,fun path weights hget => ?_,fun j e he => ?_,
    fun j x hx => ?_,fun j key ensemble hcached => ?_,fun j x hx => ?_⟩
  · by_cases hne : j = i
    · rcases hadds.trained x (hne ▸ hx) with hold | hnew
      · exact h.trained i x hold
      · exact hnew
    · exact h.trained j x (hj j hne ▸ hx)
  · rcases saved_note hexec hpairs hsaved with hold | ⟨text,hnew⟩
    · exact hknown (h.checkpoints shard sliceIdx weights hold)
    · exact ⟨text,i,hi ▸ hnew⟩
  · rcases artifact_exec hexec hget with hold | hbegun | ⟨shard,-,hlive⟩
    · exact hknown (h.copies path weights hold)
    · cases hbegun
    · obtain ⟨sliceIdx,hsaved⟩ := checkpoint_of_liveModel hlive
      exact hknown (h.checkpoints shard sliceIdx weights hsaved)
  · by_cases hne : j = i
    · rcases hadds.read e (hne ▸ he) with hold | hcopy
      · exact hknown (h.read i e hold)
      · exact hknown (h.copies e.1 e.2 hcopy)
    · exact hknown (h.read j e (hj j hne ▸ he))
  · by_cases hne : j = i
    · rcases hadds.loaded x (hne ▸ hx) with hold | ⟨rfl,htext,hread⟩
      · exact hmono (h.loaded i x hold)
      · obtain ⟨fitted,k,htrained⟩ := h.read i _ hread
        have heq : fitted = x.2.2 := hunreplaced x.2.2 htext _ hread k _ htrained rfl
        exact hmono ⟨k,heq ▸ htrained⟩
    · exact hmono (h.loaded j x (hj j hne ▸ hx))
  · rcases Fleet.exec_ensembles hexec hcached with hold | ⟨rfl,rfl⟩
    · exact (h.cached j key ensemble hold).mono (hkeep j).2
    · exact LoadedFor.mono hpairs (hkeep j).2
  · by_cases hne : j = i
    · subst hne
      rcases hadds.scored x hx with hold | hcached | hloaded
      · exact (h.scored j x hold).mono (hkeep j).2
      · exact (h.cached j x.1 x.2 hcached).mono (hkeep j).2
      · exact hloaded.mono (hkeep j).2
    · exact (h.scored j x (hj j hne ▸ hx)).mono (hkeep j).2

theorem step {α : Type} {p q : Pool ι (WorkerOp D) WorkerOp.Resp PyErr α (Scaled D ι)} (h : Scalers o p.2)
    (hstep : (((fleet o pg).watched noteScaling).within fun i op s =>
      Unreplaced i op s ∧ Pairs o op (s.2 i)).Step p q) : Scalers o q.2 := by
  cases hstep with
  | op _ he =>
    obtain ⟨⟨hunreplaced,hpairs⟩,he⟩ := Machine.exec_within.mp he
    exact h.performed hunreplaced hpairs he
  | crash i e => exact ⟨h.trained,h.checkpoints,h.copies,h.read,h.loaded,h.cached,h.scored⟩
  | @env pool s t he =>
    obtain ⟨he,hnotes⟩ := he
    obtain ⟨before,notes⟩ := s
    obtain ⟨after,notes'⟩ := t
    obtain rfl : notes' = notes := hnotes
    have hmeanwhile : before.Meanwhile after := he
    obtain ⟨hdisk,hcas,hensembles⟩ : after.world.disk = before.world.disk ∧ after.world.cas = before.world.cas ∧
        after.world.ensembles = before.world.ensembles := by
      cases hmeanwhile <;> exact ⟨rfl,rfl,rfl⟩
    refine ⟨h.trained,fun shard sliceIdx weights hsaved => h.checkpoints shard sliceIdx weights ?_,
      fun path weights hget => h.copies path weights ?_,h.read,h.loaded,
      fun j key ensemble hcached => h.cached j key ensemble ?_,h.scored⟩
    · rw [← hdisk]
      exact hsaved
    · rw [← hcas]
      exact hget
    · rw [← hensembles]
      exact hcached

theorem run {α : Type} {p q : Pool ι (WorkerOp D) WorkerOp.Resp PyErr α (Scaled D ι)} (h : Scalers o p.2)
    (hrun : (((fleet o pg).watched noteScaling).within fun i op s =>
      Unreplaced i op s ∧ Pairs o op (s.2 i)).Reaches p q) : Scalers o q.2 := by
  induction hrun with
  | refl => exact h
  | tail _ hstep ih => exact ih.step hstep

end Scalers

variable {LEASE_SECONDS POLL_BATCH_SIZE : ℕ} {roles : ι → Role}

end Runs

section Sample

instance (i : Bool) (s : Scaled beginning Bool) : (op : WorkerOp beginning) → Decidable (Unreplaced i op s)
  | .readPreproc shard => inferInstanceAs (Decidable (∀ text ∈ preprocOf s.1.world.disk shard, ∀ e ∈ (s.2 i).read,
      ∀ j, ∀ x ∈ (s.2 j).trained, x.1 = e.2 → x.2 = text))
  | .file _ | .sql _ | .commit | .rollback | .exists _ | .openCopy .. | .finishCopy .. | .readLive _ | .readCopy _
  | .cachedEnsemble _ | .cacheEnsemble .. | .clock => .isTrue trivial

end Sample

end UnlearnShield.Worker
