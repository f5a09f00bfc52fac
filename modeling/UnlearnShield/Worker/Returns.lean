import UnlearnShield.Worker.Groups
import UnlearnShield.Engine.Agreement

/-! # Groups that are recorded

The manifests of a rebuild have every column. A promotion runs to its end when no
statement fails, the live booster is there, and every path on record is that of a booster.
-/
namespace UnlearnShield.Worker
open Db Engine Deployment Program
variable {D : Deployment} {o : Outside D} {pg : Postgres} {w w' : Lone D}

def columns : List String := [
  "shard", "resumed_from", "dataset_root", "absence_proof", "code_digest", "config_digest", "result_weights",
  "model_version", "signature"]

theorem exists_manifestRow {m : Manifest.Pairs} (h : ∀ key ∈ columns, ∃ x, (PyVal.dict m).subscript key = .ok x) :
    ∃ row, manifestRow m = .ok row ∧ row.manifestJson = m := by
  simp only [columns, List.forall_mem_cons] at h
  obtain ⟨⟨x₁,h₁⟩,⟨x₂,h₂⟩,⟨x₃,h₃⟩,⟨x₄,h₄⟩,⟨x₅,h₅⟩,⟨x₆,h₆⟩,⟨x₇,h₇⟩,⟨x₈,h₈⟩,⟨x₉,h₉⟩,-⟩ := h
  refine ⟨⟨x₁,x₂,x₃,x₄,x₅,x₆,x₇,x₈,x₉,m⟩,?_,rfl⟩
  rw [manifestRow, h₁, ok_bind, h₂, ok_bind, h₃, ok_bind, h₄, ok_bind, h₅, ok_bind, h₆, ok_bind, h₇, ok_bind, h₈,
    ok_bind, h₉, ok_bind]
  rfl

/-- A signed manifest has every column, and names its subject. -/
theorem subscript_manifestFor {parts : EngineParts D} {tree : Smt.SparseMerkleTree D.H} {batch : Batch}
    {cfgDigest weights : String} {clock : Clock} {ref : Ref} {m : Manifest.Pairs}
    (h : manifestFor parts tree batch cfgDigest weights true clock ref = .ok m) :
    (∀ key ∈ columns, ∃ x, (PyVal.dict m).subscript key = .ok x) ∧
    (PyVal.dict m).subscript "subject_ref" = .ok (.str ref.val.hex) := by
  obtain ⟨proof,-,h⟩ := bind_eq_ok.mp h
  obtain ⟨hn,hfields⟩ := withSignature_eq_ok rfl h
  obtain ⟨signature,-,hm⟩ := bind_eq_ok.mp h
  have hkeys : m.map Prod.fst = Manifest.REQUIRED_FIELDS.map PyKey.str ++ [PyKey.str "signature"] := by
    rw [← Except.ok.inj hm]
    rfl
  have hall : ∀ key ∈ columns, PyKey.str key ∈ Manifest.REQUIRED_FIELDS.map PyKey.str ++ [PyKey.str "signature"] := by
    decide
  constructor
  · intro key hkey
    obtain ⟨e,he,hk⟩ := List.mem_map.mp (hkeys ▸ hall key hkey)
    exact ⟨e.2,PyVal.subscript_of_mem hn (hk ▸ he)⟩
  · exact PyVal.subscript_of_mem hn (hfields (by simp [Manifest.build]))

/-- Every subject of a signed rebuild has its manifest. -/
theorem exists_manifestOf {c : Call} {s t : Process D} {result : Result D} (hsign : c.sign = true)
    (h : c.program.run fileExec s = (.ok result,t)) : ∀ ref ∈ c.refs, ∃ row, manifestOf result.manifests ref = .ok row ∧
      (PyVal.dict row.manifestJson).subscript "subject_ref" = .ok (.str ref.val.hex) := by
  obtain ⟨x,hx,-⟩ := Call.returned h
  intro ref href
  obtain ⟨m,hm,hget⟩ := issueManifests_get? hx.manifests (Or.inl href)
  rw [hsign] at hm
  obtain ⟨hcolumns,hsubject⟩ := subscript_manifestFor hm
  obtain ⟨row,hrow,rfl⟩ := exists_manifestRow hcolumns
  refine ⟨row,?_,hsubject⟩
  rw [manifestOf, hx.result]
  dsimp only
  rw [hget]
  exact hrow

structure Servable (w : Lone D) : Prop where
  boosters : ∀ path artifact, w.cas.get? path = some artifact → ∃ booster, artifact = .booster booster
  copied : ∀ h row, w.view.checkpoints.get? h = some row → row.filePath ∈ w.cas ∧ row.shard < 10 ^ PyInt.maxDigits

theorem exists_loadBoosters (o : Outside D) (pg : Postgres) {paths : List (String × String)}
    (hb : ∀ path artifact, w.cas.get? path = some artifact → ∃ booster, artifact = .booster booster)
    (h : ∀ e ∈ paths, e.2 ∈ w.cas) : ∃ models : List D.Booster, (loadBoosters paths).run (lone o pg) w =
      (.ok models,w) ∧
      models.length = paths.length := by
  induction paths with
  | nil => exact ⟨[],rfl,rfl⟩
  | cons e paths ih =>
    obtain ⟨he,hrest⟩ := List.forall_mem_cons.mp h
    obtain ⟨models,hrun,hlen⟩ := ih hrest
    obtain ⟨artifact,ha⟩ := Dict.exists_get?_of_mem he
    obtain ⟨booster,rfl⟩ := hb _ _ ha
    have hread : (readCopy e.2 : WorkerM D _).run (lone o pg) w = (.ok (.booster booster),w) := by
      simp only [readCopy, Program.run, lone, exec, ha]
      rfl
    have hbooster : (Program.lift (boosterOf e.2 (.booster booster)) : WorkerM D _).run (lone o pg) w =
      (.ok booster,w) := rfl
    refine ⟨booster :: models,?_,by simp [hlen]⟩
    rw [loadBoosters, run_bind_of_ok hread, run_bind_of_ok hbooster, run_bind_of_ok hrun]
    rfl

theorem exists_byShard (shardPaths : Dict String String)
    (h : ∀ e ∈ shardPaths.entries, ∃ n, (PyKey.str e.1).toInt = .ok n) :
    ∃ sorted, byShard shardPaths = .ok sorted ∧ sorted.Perm shardPaths.entries := by
  have hnumbered : ∀ entries : List (String × String), (∀ e ∈ entries, ∃ n, (PyKey.str e.1).toInt = .ok n) →
      ∃ numbered : List (ℤ × String × String), (entries.mapM fun e => do
        let n ← (PyKey.str e.1).toInt
        pure (n,e)) = .ok numbered ∧ numbered.map Prod.snd = entries := by
    intro entries
    induction entries with
    | nil => exact fun _ => ⟨[],rfl,rfl⟩
    | cons e entries ih =>
      intro hall
      obtain ⟨⟨n,hn⟩,hrest⟩ := List.forall_mem_cons.mp hall
      obtain ⟨numbered,hm,hmap⟩ := ih hrest
      refine ⟨(n,e) :: numbered,?_,by rw [List.map_cons, hmap]⟩
      rw [List.mapM_cons, hm, hn]
      rfl
  obtain ⟨numbered,hm,hmap⟩ := hnumbered _ h
  refine ⟨_,bind_eq_ok.mpr ⟨numbered,hm,rfl⟩,?_⟩
  rw [← hmap]
  exact (List.perm_insertionSort _ _).map _

/-- What is served can be loaded. -/
theorem exists_loadEnsemble (pg : Postgres) {treesPerSlice : ℕ} (ho : o.engine = .gbdt treesPerSlice) (hs : Servable w)
    {hashes : List String} {rows : List (ℕ × String)} (hr : rows.Perm (w.view.paths hashes)) (hne : rows ≠ []) :
    ∃ ensemble, ((loadEnsemble o (shardPaths rows)).run (lone o pg) w).1 = .ok ensemble := by
  have hrow : ∀ e ∈ (shardPaths rows).entries, ∃ n path, e = (toString n,path) ∧ path ∈ w.cas ∧
    n < 10 ^ PyInt.maxDigits := by
    intro e he
    have hmem := Dict.mem_of_get?_ofList (Dict.get?_eq_some.mpr he)
    obtain ⟨⟨shard,path⟩,hin,heq⟩ := List.mem_map.mp hmem
    obtain ⟨h,-,row,hget,rfl,rfl⟩ := Database.mem_paths.mp (hr.mem_iff.mp hin)
    exact ⟨_,_,heq.symm,hs.copied h row hget⟩
  obtain ⟨sorted,hsorted,hperm⟩ := exists_byShard (shardPaths rows) fun e he => by
    obtain ⟨n,path,rfl,-,hn⟩ := hrow e he
    exact ⟨n,by rw [PyKey.toInt, PyInt.ofString_toString hn]⟩
  obtain ⟨models,hmodels,hlen⟩ := exists_loadBoosters o pg hs.boosters fun e he => by
    obtain ⟨n,path,rfl,hpath,-⟩ := hrow e (hperm.mem_iff.mp he)
    exact hpath
  have hnonempty : models.isEmpty = false := by
    obtain ⟨⟨shard,path⟩,hmem⟩ := List.exists_mem_of_ne_nil _ hne
    have hkey : toString shard ∈ shardPaths rows :=
      Dict.mem_ofList.mpr ⟨path,List.mem_map_of_mem (f := fun e : ℕ × String => (toString e.1,e.2)) hmem⟩
    obtain ⟨p,hp⟩ := Dict.exists_get?_of_mem hkey
    have hin := hperm.mem_iff.mpr (Dict.get?_eq_some.mp hp)
    rw [List.isEmpty_eq_false_iff, ← List.length_pos_iff, hlen]
    exact List.length_pos_of_mem hin
  have hnew : (newEnsemble o (shardPaths rows)).run (lone o pg) w = (.ok (.boosters models),w) := by
    rw [newEnsemble, run_bind_of_ok (run_lift_eq_ok.mpr ⟨hsorted,rfl⟩), ho]
    dsimp only
    rw [run_bind_of_ok hmodels, hnonempty]
    rfl
  rw [loadEnsemble, run_bind]
  simp only [Program.run, lone, exec]
  cases (w.ensembles ()).get? (ensembleKey o (shardPaths rows)) with
  | some hit => exact ⟨hit,rfl⟩
  | none =>
    dsimp only
    rw [run_bind_of_ok hnew]
    exact ⟨_,rfl⟩

theorem Performs.cas {α : Type} {p : WorkerM D α} (h : p.Performs WorkerOp.NoCopy) (o : Outside D) (pg : Postgres)
    (w : Lone D) :
    (p.run (lone o pg) w).2.cas = w.cas := h.frame (f := fun w : Lone D => w.cas) (fun _ _ _ _ => exec_noCopy) w

theorem Performs.files {α : Type} {p : WorkerM D α} (h : p.Performs WorkerOp.NoFile) (o : Outside D) (pg : Postgres)
    (w : Lone D) : (p.run (lone o pg) w).2.files () = w.files () := by
  have hop : ∀ (op : WorkerOp D) (w : Lone D) (r : op.Resp) (w' : Lone D), op.NoFile → lone o pg op w = .ok (r,w') →
      (w'.disk,w'.caches) = (w.disk,w.caches) := fun _ _ _ _ => exec_noFile
  obtain ⟨hd,hc⟩ := Prod.mk.inj (h.frame hop w)
  exact Prod.ext hd (congrFun hc ())

/-- A copy is found or made. -/
theorem exists_promoteArtifact (pg : Postgres) {shard : ℕ} {booster : D.Booster} (resultWeights : String)
    (hlive : liveModel o.engine w.disk shard = some (.booster booster)) :
    ∃ cas, (promoteArtifact o shard resultWeights).run (lone o pg) w =
      (.ok (casPath o resultWeights),{w with cas := cas}) ∧
      casPath o resultWeights ∈ cas ∧ (∀ path ∈ w.cas, path ∈ cas) ∧
      ∀ path artifact, cas.get? path = some artifact → w.cas.get? path = some artifact ∨
        artifact = .booster booster := by
  by_cases hp : casPath o resultWeights ∈ w.cas
  · refine ⟨w.cas,?_,hp,fun _ h => h,fun _ _ h => Or.inl h⟩
    have hcheck : (pathExists (casPath o resultWeights) : WorkerM D Bool).run (lone o pg) w = (.ok true,w) := by
      simp [pathExists, Program.run, lone, exec, hp]
    rw [promoteArtifact, run_bind_of_ok hcheck]
    rfl
  · refine ⟨(w.cas.insert (casPath o resultWeights) .unfinished).insert (casPath o resultWeights) (.booster booster),?_,
      Dict.mem_insert.mpr (Or.inl rfl),fun path h => Dict.mem_insert.mpr (Or.inr (Dict.mem_insert.mpr (Or.inr h))),?_⟩
    · have hcheck : (pathExists (casPath o resultWeights) : WorkerM D Bool).run (lone o pg) w = (.ok false,w) := by
        simp [pathExists, Program.run, lone, exec, hp]
      have hcopy : (copyfile shard (casPath o resultWeights) : WorkerM D Unit).run (lone o pg) w =
          (.ok (),{w with
            cas := (w.cas.insert (casPath o resultWeights) .unfinished).insert (casPath o resultWeights)
              (.booster booster)}) := by
        rw [copyfile, run_bind, Program.run]
        simp only [lone, exec, copied, hlive, orRaise, Program.lift, Program.run, id]
      rw [promoteArtifact, run_bind_of_ok hcheck]
      rw [if_neg (by simp), run_bind_of_ok hcopy]
      rfl
    · intro path artifact h
      rw [Dict.get?_insert] at h
      split at h
      · exact Or.inr (Option.some.inj h).symm
      · next hne =>
        rw [Dict.get?_insert_of_ne hne] at h
        exact Or.inl h

theorem run_execute_of (hf : ∀ n, pg.fails n = none) (ha : w.aborted = false) {stmt : Sql} {answer : stmt.Answer}
    {ws : List Write}
    (he : effectOf pg w stmt = .does answer ws) : (execute stmt).run (lone o pg) w = (.ok answer,w.wrote ws) :=
  run_execute_eq_ok.mpr ⟨ha,hf _,ws,he,rfl⟩

/-- The evaluation of a version that is there returns, if one of its digests is on record. -/
theorem exists_recordEval {treesPerSlice : ℕ} {modelVersion : String} {shardCheckpoints : Dict String String}
    (ho : o.engine = .gbdt treesPerSlice) (hscore : ∀ ensemble, ∃ score, o.score ensemble = .ok score)
    (hf : ∀ n, pg.fails n = none) (ha : w.aborted = false) (hs : Servable w) (hversion : modelVersion ∈ w.view.versions)
    (hrecorded : ∃ h ∈ shardCheckpoints.values, h ∈ w.view.checkpoints) :
    ∃ score w', (recordEval o modelVersion shardCheckpoints).run (lone o pg) w = (.ok score,w') ∧ w'.cas = w.cas := by
  let rows := pg.arrange w.server.statements (w.view.paths shardCheckpoints.values)
  have hperm : rows.Perm (w.view.paths shardCheckpoints.values) := pg.perm ..
  have hne : rows ≠ [] := by
    obtain ⟨h,hh,hmem⟩ := hrecorded
    obtain ⟨row,hrow⟩ := Dict.exists_get?_of_mem hmem
    have hin := hperm.mem_iff.mpr (Database.mem_paths.mpr ⟨h,hh,row,hrow,rfl,rfl⟩)
    exact List.ne_nil_of_mem hin
  have h₁ : (execute (.checkpointPaths shardCheckpoints.values)).run (lone o pg) w = (.ok rows,w.wrote []) :=
    run_execute_of hf ha rfl
  have hs₁ : Servable (w.wrote []) := ⟨hs.boosters,by rw [view_wrote]; exact hs.copied⟩
  have hperm₁ : rows.Perm ((w.wrote []).view.paths shardCheckpoints.values) := by rw [view_wrote]; exact hperm
  obtain ⟨ensemble,h₂⟩ := exists_loadEnsemble pg ho hs₁ hperm₁ hne
  have hreads : (loadEnsemble o (shardPaths rows)).Performs WorkerOp.Reads := performs_loadEnsemble _
  have hserver : ((loadEnsemble o (shardPaths rows)).run (lone o pg) (w.wrote [])).2.server = (w.wrote []).server :=
    Performs.server (hreads.mono fun _ h => h.copies.noSql) (w.wrote [])
  have hcas := Performs.cas (hreads.mono fun _ h => h.noCopy) o pg (w.wrote [])
  rcases hload : (loadEnsemble o (shardPaths rows)).run (lone o pg) (w.wrote []) with ⟨r,w₂⟩
  rw [hload] at h₂ hserver hcas
  cases h₂
  obtain ⟨score,hsc⟩ := hscore ensemble
  have ha₂ : w₂.aborted = false := by
    rw [Lone.aborted, hserver]
    exact aborted_wrote w []
  have hv₂ : w₂.view = w.view := by
    rw [Lone.view, hserver]
    exact view_wrote w []
  let ws := if modelVersion ∈ w.view.evals then [] else [Write.eval modelVersion ⟨score,o.nEval⟩]
  have heffect : effectOf pg w₂ (.insertEval modelVersion ⟨score,o.nEval⟩) = .does () ws := by
    rw [effectOf, Sql.effect, hv₂, foreignKey, insertNew_free]
    simp [hversion, ws]
  have h₃ : (execute (.insertEval modelVersion ⟨score,o.nEval⟩)).run (lone o pg) w₂ = (.ok (),w₂.wrote ws) :=
    run_execute_of hf ha₂ heffect
  have hcas₂ : w₂.cas = w.cas := hcas
  refine ⟨score,w₂.wrote ws,?_,hcas₂⟩
  rw [recordEval, run_bind_of_ok h₁, run_bind_of_ok hload, run_bind_of_ok (run_lift_eq_ok.mpr ⟨hsc,rfl⟩),
    run_bind_of_ok h₃]
  rfl

/-- A promotion returns, and what it leaves can be served. -/
theorem exists_promote {treesPerSlice shard : ℕ} (resultWeights : String) (ho : o.engine = .gbdt treesPerSlice)
    (hscore : ∀ ensemble, ∃ score, o.score ensemble = .ok score) (hf : ∀ n, pg.fails n = none) (ha : w.aborted = false)
    (hlive : (w.disk.boosters shard).isSome) (hshard : shard < 10 ^ PyInt.maxDigits) (hs : Servable w) :
    ∃ w', (promote o shard resultWeights).run (lone o pg) w = (.ok (),w') ∧ Servable w' ∧ w'.files () = w.files () := by
  obtain ⟨booster,hb⟩ := Option.isSome_iff_exists.mp hlive
  obtain ⟨cas,hart,hcopy,hkept,hold⟩ := exists_promoteArtifact pg resultWeights
    (show liveModel o.engine w.disk shard = some (.booster booster) by rw [ho, liveModel, hb]; rfl)
  have hboosters : ∀ path artifact, cas.get? path = some artifact → ∃ booster, artifact = .booster booster := by
    intro path artifact h
    rcases hold path artifact h with h | h
    · exact hs.boosters path artifact h
    · exact ⟨booster,h⟩
  let w₁ : Lone D := {w with cas := cas}
  let row : CheckpointRow := ⟨shard,(D.settings.NUM_SLICES : ℤ) - 1,casPath o resultWeights,D.settings.CODE_DIGEST⟩
  let ws := if decide (resultWeights ∈ w₁.view.checkpoints) then [] else [Write.checkpoint resultWeights row]
  have he₂ : effectOf pg w₁ (.insertCheckpoint resultWeights row) = .does () ws := by
    rw [effectOf, Sql.effect, insertNew_free]
  have h₂ : (execute (.insertCheckpoint resultWeights row)).run (lone o pg) w₁ = (.ok (),w₁.wrote ws) :=
    run_execute_of (w := w₁) hf ha he₂
  let w₂ : Lone D := w₁.wrote ws
  have hv₂ : w₂.view = {w.view with checkpoints := w.view.checkpoints.setdefault resultWeights row} :=
    run_insertCheckpoint (w := w₁) h₂
  let latest := (pg.arrange w₂.server.statements w₂.view.latest).head?
  have h₃ : (execute .latestVersion).run (lone o pg) w₂ = (.ok latest,w₂.wrote []) :=
    run_execute_of hf (aborted_wrote ..) rfl
  let w₃ : Lone D := w₂.wrote []
  have hv₃ : w₃.view = w₂.view := view_wrote ..
  let shardCheckpoints := (carriedForward latest).insert (toString shard) resultWeights
  let version : VersionRow := ⟨shardCheckpoints,evalSetVersion latest,w₃.now⟩
  let ws' := if decide (versionName resultWeights ∈ w₃.view.versions) then []
    else [Write.version (versionName resultWeights) version]
  have he₄ : effectOf pg w₃ (.insertVersion (versionName resultWeights) shardCheckpoints (evalSetVersion latest)) =
    .does () ws' := by
    rw [effectOf, Sql.effect, insertNew_free]
  have h₄ : (execute (.insertVersion (versionName resultWeights) shardCheckpoints (evalSetVersion latest))).run
    (lone o pg) w₃ =
      (.ok (),w₃.wrote ws') := run_execute_of hf (aborted_wrote ..) he₄
  let w₄ : Lone D := w₃.wrote ws'
  have hv₄ := run_insertVersion h₄
  rw [hv₃, hv₂] at hv₄
  have hrow : ∀ h r, w₄.view.checkpoints.get? h = some r → r.filePath ∈ cas ∧ r.shard < 10 ^ PyInt.maxDigits := by
    intro h r hr
    rw [show w₄.view = _ from hv₄] at hr
    by_cases hh : h = resultWeights
    · subst hh
      rcases Dict.get?_setdefault_self.mp hr with hr | ⟨-,rfl⟩
      · exact (hs.copied h r hr).imp_left (hkept _)
      · exact ⟨hcopy,hshard⟩
    · rw [Dict.get?_setdefault_of_ne hh] at hr
      exact (hs.copied h r hr).imp_left (hkept _)
  have hrecorded : ∃ h ∈ shardCheckpoints.values, h ∈ w₄.view.checkpoints := by
    refine ⟨resultWeights,Dict.mem_values.mpr ⟨toString shard,Dict.get?_insert_self ..⟩,?_⟩
    rw [show w₄.view = _ from hv₄]
    exact Dict.mem_setdefault.mpr (Or.inl rfl)
  have hversion : versionName resultWeights ∈ w₄.view.versions := by
    rw [show w₄.view = _ from hv₄]
    exact Dict.mem_setdefault.mpr (Or.inl rfl)
  obtain ⟨score,w₅,h₅,hcas⟩ := exists_recordEval ho hscore hf (aborted_wrote w₃ ws') ⟨hboosters,hrow⟩ hversion hrecorded
  have hrun : (promote o shard resultWeights).run (lone o pg) w = (.ok (),w₅) := by
    rw [promote, run_bind_of_ok hart, run_bind_of_ok h₂, run_bind_of_ok h₃]
    exact (run_bind_of_ok h₄).trans (run_bind_of_ok h₅)
  have hnoFile : (promote o shard resultWeights).Performs WorkerOp.NoFile :=
    (performs_promote ..).mono fun _ h => h.noFile
  have hfiles := Performs.files hnoFile o pg w
  rw [hrun] at hfiles
  refine ⟨w₅,hrun,⟨?_,fun h r hr => ?_⟩,hfiles⟩
  · rw [hcas]
    exact hboosters
  · obtain ⟨-,latest',score',-,hv⟩ := run_promote hrun
    rw [hcas]
    refine hrow h r ?_
    rw [show w₄.view = _ from hv₄]
    rw [hv] at hr
    exact hr

/-- Jobs that are there and have no manifest are recorded. -/
theorem exists_recordJobs {manifests : Dict Ref Manifest.Pairs} {group : List ClaimedJob} (o : Outside D)
    (hf : ∀ n, pg.fails n = none) (ha : w.aborted = false) (hn : (group.map ClaimedJob.erasureId).Nodup)
    (hjobs : ∀ job ∈ group, job.erasureId ∈ w.view.jobs ∧ job.erasureId ∉ w.view.manifests)
    (hm : ∀ job ∈ group, ∃ row, manifestOf manifests job.subjectRef = .ok row) :
    ∃ w', (recordJobs manifests group).run (lone o pg) w = (.ok (),w') := by
  induction group generalizing w with
  | nil => exact ⟨w,rfl⟩
  | cons job group ih =>
    rw [List.map_cons, List.nodup_cons] at hn
    obtain ⟨⟨hin,hnew⟩,hrest⟩ := List.forall_mem_cons.mp hjobs
    obtain ⟨⟨row,hrow⟩,hm⟩ := List.forall_mem_cons.mp hm
    have he₁ : effectOf pg w (.insertManifest job.erasureId row) = .does () [.manifest job.erasureId row] := by
      simp [effectOf, Sql.effect, foreignKey, hin, hnew]
    have h₁ : (execute (.insertManifest job.erasureId row)).run (lone o pg) w = (.ok (),w.wrote _) :=
      run_execute_of hf ha he₁
    obtain ⟨-,-,hv₁⟩ := run_insertManifest h₁
    have he₂ : ∃ ws, effectOf pg (w.wrote [.manifest job.erasureId row]) (.finishJob job.erasureId) = .does () ws :=
      ⟨_,by rw [effectOf, Sql.effect, update_free]⟩
    obtain ⟨ws,he₂⟩ := he₂
    have h₂ : (execute (.finishJob job.erasureId)).run (lone o pg) (w.wrote [.manifest job.erasureId row]) =
      (.ok (),_) :=
      run_execute_of hf (aborted_wrote ..) he₂
    obtain ⟨jobs,hv₂,hget⟩ := run_finishJob h₂
    rw [hv₁] at hv₂ hget
    obtain ⟨w',hw'⟩ := ih (aborted_wrote ..) hn.2 (fun j hj => by
      have hne : j.erasureId ≠ job.erasureId := fun he => hn.1 (he ▸ List.mem_map_of_mem hj)
      obtain ⟨hin,hnew⟩ := hrest j hj
      obtain ⟨row',hrow'⟩ := Dict.exists_get?_of_mem hin
      rw [hv₂]
      refine ⟨Dict.mem_of_get? (v := row') ?_,?_⟩
      · dsimp only
        rw [hget, if_neg hne]
        exact hrow'
      · rw [Dict.mem_insert, not_or]
        exact ⟨hne,hnew⟩) hm
    refine ⟨w',?_⟩
    rw [recordJobs, run_bind_of_ok (run_lift_eq_ok.mpr ⟨hrow,rfl⟩), run_bind_of_ok h₁, run_bind_of_ok h₂]
    exact hw'

/-- A rebuilt group is recorded, and the next one finds what it needs. -/
theorem exists_bookkeep {treesPerSlice shard : ℕ} {group : List ClaimedJob} {result : Result D}
    (ho : o.engine = .gbdt treesPerSlice) (hscore : ∀ ensemble, ∃ score, o.score ensemble = .ok score)
    (hf : ∀ n, pg.fails n = none) (ha : w.aborted = false) (hlive : (w.disk.boosters shard).isSome)
    (hshard : shard < 10 ^ PyInt.maxDigits) (hs : Servable w) (hn : (group.map ClaimedJob.erasureId).Nodup)
    (hjobs : ∀ job ∈ group, job.erasureId ∈ w.view.jobs ∧ job.erasureId ∉ w.view.manifests)
    (hm : ∀ job ∈ group, ∃ row, manifestOf result.manifests job.subjectRef = .ok row) :
    ∃ w', (bookkeep o shard group result).run (lone o pg) w = (.ok (),w') ∧ w'.aborted = false ∧ Servable w' ∧
      w'.files () = w.files () := by
  obtain ⟨u,hpromote,hsu,hfu⟩ := exists_promote result.resultWeights ho hscore hf ha hlive hshard hs
  obtain ⟨hau,latest,score,-,hview⟩ := run_promote hpromote
  have hjobs' : ∀ job ∈ group, job.erasureId ∈ u.view.jobs ∧ job.erasureId ∉ u.view.manifests := by
    rw [hview]
    exact hjobs
  obtain ⟨w',hrecord⟩ := exists_recordJobs o hf hau hn hjobs' hm
  have ha' := (run_recordJobs hau hn hrecord).1
  have hrun : (bookkeep o shard group result).run (lone o pg) w = (.ok (),w') := by
    rw [bookkeep, run_bind_of_ok hpromote]
    exact hrecord
  have hnoFile : (recordJobs result.manifests group : WorkerM D Unit).Performs WorkerOp.NoFile :=
    performs_recordJobs_of (fun _ _ => trivial) (fun _ => trivial) result.manifests group
  have hnoCopy : (recordJobs result.manifests group : WorkerM D Unit).Performs WorkerOp.NoCopy :=
    performs_recordJobs_of (fun _ _ => trivial) (fun _ => trivial) result.manifests group
  have hbooks : (recordJobs result.manifests group : WorkerM D Unit).Performs WorkerOp.Books :=
    performs_recordJobs_of (fun _ _ => trivial) (fun _ => trivial) result.manifests group
  have hfiles := Performs.files hnoFile o pg u
  have hcas := Performs.cas hnoCopy o pg u
  have hmodels := (Performs.sameModels hbooks o pg u (by rw [hrecord]; exact ha')).2
  rw [hrecord] at hfiles hcas hmodels
  refine ⟨w',hrun,ha',⟨?_,?_⟩,hfiles.trans hfu⟩
  · rw [hcas]
    exact hsu.boosters
  · rw [hcas, hmodels.checkpoints]
    exact hsu.copied

theorem spotChecks_none (hnone : ∀ id, o.shouldSpotCheck id = false) (shard : ℕ) (result : Result D)
    (group : List ClaimedJob) :
    spotChecks o shard result group = pure () := by
  induction group with
  | nil => rfl
  | cons job group ih =>
    rw [spotChecks, if_neg (by simp [hnone]), ih]

/-- What a call of the GBDT engine leaves on disk. -/
theorem Gbdt.returned {c : Call} {treesPerSlice : ℕ} {s t : Process D} {result : Result D}
    (hc : c.engine = .gbdt treesPerSlice) (h : c.program.run fileExec s = (.ok result,t)) : ∃ x booster kept rebuilt,
      Rebuilds c.engine.parts c.refs c.sign c.clock s t result x ∧ s.1.boosters x.batch.shard = some booster ∧
      Gbdt.rollback booster x.batch.minSlice treesPerSlice = .ok kept ∧
      Gbdt.trainShard (retain x.records c.refs) x.batch.minSlice kept treesPerSlice = .ok (some rebuilt) ∧
      result.resultWeights = Gbdt.boosterDigest rebuilt ∧
      t = ({s.1 with
          routing := some (x.routing.without c.refs)
          shards := Function.update s.1.shards x.batch.shard (some (retain x.records c.refs))
          boosters := Function.update s.1.boosters x.batch.shard (some rebuilt)},
        Smt.cacheTree s.2 x.batch.shard x.tree) := by
  obtain ⟨x,hx,-⟩ := Call.returned h
  have hre := hx.retrain
  rw [hc] at hre
  obtain ⟨-,booster,kept,rebuilt,hb,hk,htrain,hr,hat⟩ := Gbdt.run_retrain.mp hre
  refine ⟨x,booster,kept,rebuilt,hx,hb,hk,htrain,?_,?_⟩
  · rw [hx.result, hr]
  · rw [hx.final, hat]

theorem Gbdt.booster_isSome {c : Call} {treesPerSlice : ℕ} {s t : Process D} {result : Result D} {shard : ℕ}
    (hc : c.engine = .gbdt treesPerSlice) (h : c.program.run fileExec s = (.ok result,t))
    (hb : (s.1.boosters shard).isSome) : (t.1.boosters shard).isSome := by
  obtain ⟨x,-,-,rebuilt,-,-,-,-,-,ht⟩ := Gbdt.returned hc h
  have hafter : t.1.boosters = Function.update s.1.boosters x.batch.shard (some rebuilt) := by rw [ht]
  rw [hafter, Function.update_apply]
  split
  · rfl
  · exact hb

theorem lt_maxDigits {n : ℕ} (h : n < 10) : n < 10 ^ PyInt.maxDigits :=
  h.trans_le (Nat.le_self_pow (by decide) 10)

theorem run_processGroup_of_ok {shard : ℕ} {group : List ClaimedJob} {result : Result D} {u v t : Lone D}
    (hre : (rebuildBatchByRef o (group.map ClaimedJob.subjectRef)).run (lone o pg) w = (.ok result,u))
    (hbk : (bookkeep o shard group result).run (lone o pg) u = (.ok (),v))
    (hspot : (spotChecks o shard result group).run (lone o pg) v = (.ok (),t)) :
    (processGroup o shard group).run (lone o pg) w = (.ok (),t) := by
  unfold processGroup
  rw [run_bind_of_ok (run_attempt (answers_lone o pg) _ w), hre]
  dsimp only
  rw [run_bind_of_ok (run_attempt (answers_lone o pg) _ u), hbk]
  exact hspot

/-- A group whose rebuild returns is recorded when no statement fails. -/
theorem exists_group (o : Outside D) (pg : Postgres) (shard : ℕ) (group : List ClaimedJob) {treesPerSlice : ℕ}
    {result : Result D} {t : Process D}
    (ho : o.engine = .gbdt treesPerSlice) (hscore : ∀ ensemble, ∃ score, o.score ensemble = .ok score)
    (hnone : ∀ id, o.shouldSpotCheck id = false) (hf : ∀ n, pg.fails n = none)
    (hcall : (Call.mk o.engine (group.map ClaimedJob.subjectRef) true (o.clock w.server.statements)).program.run
      fileExec (w.files ()) =
      (.ok result,t))
    (hlive : (t.1.boosters shard).isSome) (hshard : shard < 10 ^ PyInt.maxDigits) (ha : w.aborted = false)
    (hs : Servable w) (hn : (group.map ClaimedJob.erasureId).Nodup)
    (hjobs : ∀ job ∈ group, job.erasureId ∈ w.view.jobs ∧ job.erasureId ∉ w.view.manifests) :
    ∃ u v, (rebuildBatchByRef o (group.map ClaimedJob.subjectRef)).run (lone o pg) w = (.ok result,u) ∧
      (bookkeep o shard group result).run (lone o pg) u = (.ok (),v) ∧
      (spotChecks o shard result group).run (lone o pg) v = (.ok (),v) ∧
      v.aborted = false ∧ Servable v ∧ v.files () = t ∧ w.view.SameBut (group.map ClaimedJob.erasureId) v.view := by
  have hre : (rebuildBatchByRef o (group.map ClaimedJob.subjectRef)).run (lone o pg) w = (.ok result,w.setFiles () t) :=
    run_rebuildBatchByRef_of hcall
  have hrow : ∀ job ∈ group, ∃ row, manifestOf result.manifests job.subjectRef = .ok row := by
    intro job hjob
    obtain ⟨row,hrow,-⟩ := exists_manifestOf rfl hcall job.subjectRef (List.mem_map_of_mem hjob)
    exact ⟨row,hrow⟩
  have hbook : ∃ v, (bookkeep o shard group result).run (lone o pg) (w.setFiles () t) = (.ok (),v) ∧ v.aborted = false ∧
      Servable v ∧ v.files () = (w.setFiles () t).files () :=
    exists_bookkeep ho hscore hf ha hlive hshard ⟨hs.boosters,hs.copied⟩ hn hjobs hrow
  obtain ⟨v,hbk,hv,hsv,hfiles⟩ := hbook
  have hperf : (bookkeep o shard group result).Performs (WorkerOp.Touches (group.map ClaimedJob.erasureId)) :=
    performs_bookkeep (fun job hjob => List.mem_map_of_mem hjob) shard result
  have hfollows := Performs.follows hperf o pg (w.setFiles () t) (by rw [hbk]; exact hv)
  rw [hbk] at hfollows
  refine ⟨_,v,hre,hbk,?_,hv,hsv,?_,hfollows.2.1⟩
  · rw [spotChecks_none hnone]
    rfl
  · rw [hfiles, World.files_setFiles]

end UnlearnShield.Worker
