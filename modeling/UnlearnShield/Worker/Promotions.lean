import UnlearnShield.Worker.Promotion
import UnlearnShield.Gateway.Predict
import UnlearnShield.Engine.Progress

/-! # Promotions one after another

From the baseline on, each promotion writes a version that is the only latest one, unless
the name of that version is taken. The version is served when each of its digests is
recorded for the shard the version gives it to.
-/
namespace UnlearnShield.Worker
open Db Engine Deployment Program
variable {D : Deployment} {o : Outside D} {pg : Postgres}

section Latest
variable {db : Database}

/-- A new version that starts after all others is the only latest one. -/
theorem latest_insert {modelVersion : String} {row : VersionRow} (hnew : modelVersion ∉ db.versions)
    (hlt : ∀ e ∈ db.versions.entries, e.2.promotedAt < row.promotedAt) :
    Database.latest {db with versions := db.versions.insert modelVersion row} = [(modelVersion,row)] := by
  have hentries : (db.versions.insert modelVersion row).entries = db.versions.entries ++ [(modelVersion,row)] := by
    simp [Dict.insert, hnew]
  have hold : db.versions.entries.filter (fun e => ∀ e' ∈ db.versions.entries ++ [(modelVersion,row)],
      e'.2.promotedAt ≤ e.2.promotedAt) = [] := by
    rw [List.filter_eq_nil_iff]
    intro e he hle
    have h := of_decide_eq_true hle (modelVersion,row) (by simp)
    exact absurd (hlt e he) (not_lt.mpr h)
  unfold Database.latest
  dsimp only
  rw [hentries, List.filter_append, hold, List.nil_append, List.filter_singleton]
  have hrow : ∀ e' ∈ db.versions.entries ++ [(modelVersion,row)], e'.2.promotedAt ≤ row.promotedAt := by
    intro e' he'
    rcases List.mem_append.mp he' with h | h
    · exact (hlt e' h).le
    · rw [List.mem_singleton.mp h]
  rw [decide_eq_true (show ∀ e' ∈ db.versions.entries ++ [(modelVersion,row)],
    e'.2.promotedAt ≤ (modelVersion,row).2.promotedAt from hrow), cond_true]

theorem Latest.of_latest {e : String × VersionRow} (h : db.latest = [e]) {latest : Option (String × VersionRow)}
    (hl : db.Latest latest) : latest = some e := by
  cases latest with
  | none => exact absurd (h.symm.trans hl) (by simp)
  | some e' =>
    have hmem : e' ∈ db.latest := hl
    rw [h] at hmem
    rw [List.mem_singleton.mp hmem]

end Latest

def served (db : Database) : Dict String String := carriedForward db.latest.head?

/-- The reader gets the version and one path for each of its shards, that of the copy of its digest. -/
def Serves (o : Outside D) (db : Database) (e : String × VersionRow) : Prop :=
  ∀ (pg : Postgres) (w : Lone D), (∀ n, pg.fails n = none) → w.Idle → w.server.committed = db →
    ∃ paths w', Gateway.currentModel.run (lone o pg) w = (.ok (e.1,paths),w') ∧
      ∀ k, paths.get? k = (e.2.shardCheckpoints.get? k).map (casPath o)

/-- The latest version gives the shard the digest and every other shard what it had, and is served. -/
def TakesEffect (o : Outside D) (before : Database) (shard : ℕ) (resultWeights : String) (after : Database) : Prop :=
  ∃ e, after.latest = [e] ∧
    (∀ k, e.2.shardCheckpoints.get? k = if k = toString shard then some resultWeights else (served before).get? k) ∧
    Serves o after e

structure Promotable (o : Outside D) (db : Database) (now : Time) : Prop where
  latest : ∃ e, db.latest = [e]
  past : ∀ e ∈ db.versions.entries, e.2.promotedAt ≤ now
  recorded : ∀ k h, (served db).get? k = some h → h ∈ db.checkpoints
  path : ∀ h row, db.checkpoints.get? h = some row → row.filePath = casPath o h

/-- The version of the promotion is new, or would say nothing new; and no digest of its map is
recorded for another shard than the map gives it to. -/
def Fresh (db : Database) (shard : ℕ) (resultWeights : String) : Prop :=
  (versionName resultWeights ∉ db.versions ∨ (served db).get? (toString shard) = some resultWeights) ∧
  ∀ k h row, ((served db).insert (toString shard) resultWeights).get? k = some h →
    db.checkpoints.get? h = some row → toString row.shard = k

theorem toString_injective : Function.Injective (toString : ℕ → String) := fun _ _ h => Nat.repr_injective h

theorem casPath_injective (o : Outside D) : Function.Injective (casPath o) := by
  intro a b h
  unfold casPath at h
  cases ho : o.engine with
  | mlp seed =>
    rw [ho] at h
    have hl : (toString a).toList = (toString b).toList := by
      simpa [String.toList_append] using congrArg String.toList h
    exact String.toList_inj.mp hl
  | gbdt treesPerSlice =>
    rw [ho] at h
    have hl : (toString a).toList = (toString b).toList := by
      simpa [String.toList_append] using congrArg String.toList h
    exact String.toList_inj.mp hl

theorem mem_shardPaths {db : Database} {hashes : List String} {rows : List (ℕ × String)} {k path : String}
    (hr : rows.Perm (db.paths hashes)) : (k,path) ∈ rows.map (fun e => (toString e.1,e.2)) ↔
      ∃ h ∈ hashes, ∃ row, db.checkpoints.get? h = some row ∧ toString row.shard = k ∧ row.filePath = path := by
  simp only [List.mem_map, Prod.mk.injEq]
  constructor
  · rintro ⟨⟨shard,p⟩,he,rfl,rfl⟩
    obtain ⟨h,hh,row,hrow,rfl,rfl⟩ := Database.mem_paths.mp (hr.mem_iff.mp he)
    exact ⟨h,hh,row,hrow,rfl,rfl⟩
  · rintro ⟨h,hh,row,hrow,rfl,rfl⟩
    exact ⟨(row.shard,row.filePath),hr.mem_iff.mpr (Database.mem_paths.mpr ⟨h,hh,row,hrow,rfl,rfl⟩),rfl,rfl⟩

section Reader
variable {w w' : Lone D}

theorem currentModel_eq_ok {modelVersion : String} {paths : Dict String String}
    (h : Gateway.currentModel.run (lone o pg) w = (.ok (modelVersion,paths),w')) :
    ∃ row rows, w.view.Latest (some (modelVersion,row)) ∧ rows.Perm (w.view.paths row.shardCheckpoints.values) ∧
      paths = shardPaths rows := by
  obtain ⟨latest,w₁,h₁,h⟩ := run_bind_eq_ok.mp h
  obtain ⟨hv,hlatest⟩ := run_latestVersion h₁
  cases latest with
  | none => exact absurd (run_lift_eq_ok.mp h).1 (by simp [raise])
  | some e =>
    obtain ⟨rows,w₂,h₂,h⟩ := run_bind_eq_ok.mp h
    have hrows := (run_checkpointPaths h₂).2
    rw [hv] at hrows
    dsimp only at h
    split at h
    · obtain ⟨he,-⟩ := run_pure_eq_ok.mp h
      obtain ⟨rfl,rfl⟩ := Prod.mk.inj he
      exact ⟨e.2,rows,hlatest,hrows,rfl⟩
    · exact absurd (run_lift_eq_ok.mp h).1 (by simp [raise])

/-- When no statement fails, the reader gets the latest version if every shard has a path. -/
theorem currentModel_returns {e : String × VersionRow} (hf : ∀ n, pg.fails n = none) (hw : w.Idle)
    (hl : w.server.committed.latest = [e])
    (hall : ∀ k ∈ e.2.shardCheckpoints, ∀ rows : List (ℕ × String),
      rows.Perm (w.server.committed.paths e.2.shardCheckpoints.values) → k ∈ shardPaths rows) :
    ∃ rows w', rows.Perm (w.server.committed.paths e.2.shardCheckpoints.values) ∧
      Gateway.currentModel.run (lone o pg) w = (.ok (e.1,shardPaths rows),w') := by
  have harr : (pg.arrange w.server.statements w.server.committed.latest).head? = some e :=
    Latest.of_latest hl (pg.head?_arrange ..)
  have h₁ : (execute .latestVersion).run (lone o pg) w = (.ok (some e),w.wrote []) := by
    refine run_execute_eq_ok.mpr ⟨hw.aborted,hf _,[],?_,rfl⟩
    rw [effectOf, Sql.effect, hw.view, harr]
  have hview : (w.wrote []).view = w.server.committed := by rw [view_wrote, hw.view]; rfl
  let rows := pg.arrange (w.wrote []).server.statements (w.server.committed.paths e.2.shardCheckpoints.values)
  have h₂ : (execute (.checkpointPaths e.2.shardCheckpoints.values)).run (lone o pg) (w.wrote []) =
      (.ok rows,(w.wrote []).wrote []) := by
    refine run_execute_eq_ok.mpr ⟨aborted_wrote w [],hf _,[],?_,rfl⟩
    rw [effectOf, Sql.effect, hview]
    rfl
  have hrows : rows.Perm (w.server.committed.paths e.2.shardCheckpoints.values) := pg.perm ..
  refine ⟨rows,(w.wrote []).wrote [],hrows,run_bind_eq_ok.mpr ⟨some e,_,h₁,run_bind_eq_ok.mpr ⟨rows,_,h₂,?_⟩⟩⟩
  have hmissing : e.2.shardCheckpoints.keys.filter (· ∉ shardPaths rows) = [] := by
    rw [List.filter_eq_nil_iff]
    intro k hk hn
    exact of_decide_eq_true hn (hall k hk rows hrows)
  dsimp only
  rw [hmissing]
  rfl

end Reader

/-- A version is served when each of its digests is recorded for the shard that has it. -/
theorem serves_iff {db : Database} {e : String × VersionRow} (hl : db.latest = [e])
    (hpath : ∀ h row, db.checkpoints.get? h = some row → row.filePath = casPath o h)
    (hrec : ∀ k h, e.2.shardCheckpoints.get? k = some h → h ∈ db.checkpoints) :
    Serves o db e ↔ ∀ k h row, e.2.shardCheckpoints.get? k = some h → db.checkpoints.get? h = some row →
      toString row.shard = k := by
  constructor
  · intro hs k h row hk hrow
    obtain ⟨modelVersion,version⟩ := e
    let w : Lone D := ⟨scratchDir.1,Dict.empty,⟨db,Dict.empty,0,0⟩,fun _ => scratchDir.2,fun _ => Dict.empty⟩
    obtain ⟨paths,w',hrun,hget⟩ := hs Postgres.inOrder w (fun _ => rfl) rfl rfl
    obtain ⟨row',rows,hlatest,hrows,rfl⟩ := currentModel_eq_ok hrun
    cases Option.some.inj (Latest.of_latest hl hlatest)
    have hp := hget k
    rw [hk] at hp
    obtain ⟨h',-,row₂,hrow₂,hk₂,hpath₂⟩ := (mem_shardPaths hrows).mp (Dict.mem_of_get?_ofList hp)
    rw [hpath h' row₂ hrow₂] at hpath₂
    cases casPath_injective o hpath₂
    cases hrow₂.symm.trans hrow
    exact hk₂
  · intro hnames pg w hf hw hdb
    subst hdb
    -- The rows of a shard are those of the digest the version gives it.
    have honly : ∀ k p (rows : List (ℕ × String)), rows.Perm (w.server.committed.paths e.2.shardCheckpoints.values) →
        (k,p) ∈ rows.map (fun e => (toString e.1,e.2)) →
        ∃ h, e.2.shardCheckpoints.get? k = some h ∧ p = casPath o h := by
      intro k p rows hrows hmem
      obtain ⟨h,hh,row,hrow,rfl,rfl⟩ := (mem_shardPaths hrows).mp hmem
      obtain ⟨k',hk'⟩ := Dict.mem_values.mp hh
      cases hnames k' h row hk' hrow
      exact ⟨h,hk',hpath h row hrow⟩
    have hhas : ∀ k h (rows : List (ℕ × String)), rows.Perm (w.server.committed.paths e.2.shardCheckpoints.values) →
        e.2.shardCheckpoints.get? k = some h → (k,casPath o h) ∈ rows.map (fun e => (toString e.1,e.2)) := by
      intro k h rows hrows hk
      obtain ⟨row,hrow⟩ := Dict.exists_get?_of_mem (hrec k h hk)
      exact (mem_shardPaths hrows).mpr
        ⟨h,Dict.mem_values.mpr ⟨k,hk⟩,row,hrow,hnames k h row hk hrow,hpath h row hrow⟩
    obtain ⟨rows,w',hrows,hrun⟩ := currentModel_returns (o := o) hf hw hl fun k hk rows hrows => by
      obtain ⟨h,hkh⟩ := Dict.exists_get?_of_mem hk
      exact Dict.mem_ofList.mpr ⟨_,hhas k h rows hrows hkh⟩
    refine ⟨shardPaths rows,w',hrun,fun k => ?_⟩
    cases hk : e.2.shardCheckpoints.get? k with
    | none =>
      refine Dict.get?_eq_none.mpr fun hmem => ?_
      obtain ⟨p,hp⟩ := Dict.mem_ofList.mp hmem
      obtain ⟨h,hkh,-⟩ := honly k p rows hrows hp
      cases hk.symm.trans hkh
    | some h =>
      refine Dict.get?_ofList_of_mem (hhas k h rows hrows hk) fun u hu => ?_
      obtain ⟨h',hkh,rfl⟩ := honly k u rows hrows hu
      cases hk.symm.trans hkh
      rfl

section Step
variable {db : Database} {now : Time} {shard : ℕ} {resultWeights score : String} {e : String × VersionRow}

theorem served_eq (h : db.latest = [e]) : served db = e.2.shardCheckpoints := by
  rw [served, h]
  rfl

/-- The latest version after a promotion: its own if the name is new, otherwise the one before. -/
theorem latest_promoted (o : Outside D) (shard : ℕ) (resultWeights score : String) (hl : db.latest = [e])
    (hlt : ∀ v ∈ db.versions.entries, v.2.promotedAt < now) :
    (versionName resultWeights ∈ db.versions ∧
      (promoted o db now shard resultWeights (some e) score).versions = db.versions ∧
      (promoted o db now shard resultWeights (some e) score).latest = [e]) ∨
    (versionName resultWeights ∉ db.versions ∧ ∃ row,
      (promoted o db now shard resultWeights (some e) score).versions =
        db.versions.insert (versionName resultWeights) row ∧
      (promoted o db now shard resultWeights (some e) score).latest = [(versionName resultWeights,row)] ∧
      row.shardCheckpoints = (served db).insert (toString shard) resultWeights ∧ row.promotedAt = now) := by
  by_cases hname : versionName resultWeights ∈ db.versions
  · have hversions : (promoted o db now shard resultWeights (some e) score).versions = db.versions :=
      Dict.setdefault_of_mem hname _
    refine Or.inl ⟨hname,hversions,?_⟩
    rw [← hl]
    unfold Database.latest
    rw [hversions]
  · let row : VersionRow := ⟨(served db).insert (toString shard) resultWeights,evalSetVersion (some e),now⟩
    have hversions : (promoted o db now shard resultWeights (some e) score).versions =
        db.versions.insert (versionName resultWeights) row := by
      unfold promoted
      dsimp only
      rw [Dict.setdefault_of_notMem hname, carriedForward, ← served_eq hl]
    refine Or.inr ⟨hname,row,hversions,?_,rfl,rfl⟩
    have hnew : Database.latest {db with versions := db.versions.insert (versionName resultWeights) row} =
        [(versionName resultWeights,row)] := latest_insert hname hlt
    rw [← hnew]
    unfold Database.latest
    rw [hversions]

/-- Every promotion keeps what promotions rely on. -/
theorem Promotable.promoted (h : Promotable o db now) (shard : ℕ) (resultWeights score : String) (hl : db.latest = [e])
    {later : Time} (hlt : now < later) :
    Promotable o (promoted o db later shard resultWeights (some e) score) later := by
  have hpast : ∀ v ∈ db.versions.entries, v.2.promotedAt < later := fun v hv => (h.past v hv).trans_lt hlt
  have hpath : ∀ k row, (Worker.promoted o db later shard resultWeights (some e) score).checkpoints.get? k = some row →
      row.filePath = casPath o k := by
    intro k row hk
    by_cases hd : k = resultWeights
    · subst hd
      rcases Dict.get?_setdefault_self.mp hk with hk | ⟨-,rfl⟩
      · exact h.path k row hk
      · rfl
    · exact h.path k row (Dict.get?_setdefault_of_ne hd _ ▸ hk)
  have hold : ∀ k d, (served db).get? k = some d →
      d ∈ (Worker.promoted o db later shard resultWeights (some e) score).checkpoints :=
    fun k d hk => Dict.mem_setdefault.mpr (Or.inr (h.recorded k d hk))
  rcases latest_promoted o shard resultWeights score hl hpast with
    ⟨-,hv,hlatest⟩ | ⟨-,row,hv,hlatest,hmap,hrow⟩
  · refine ⟨⟨e,hlatest⟩,?_,?_,hpath⟩
    · rw [hv]
      exact fun v hv => (hpast v hv).le
    · rw [served_eq hlatest, ← served_eq hl]
      exact hold
  · refine ⟨⟨_,hlatest⟩,?_,?_,hpath⟩
    · rw [hv]
      intro v hv
      rcases Dict.mem_entries_insert.mp hv with ⟨-,hv⟩ | ⟨-,hv⟩
      · rw [hv, hrow]
      · exact (hpast v hv).le
    · rw [served_eq hlatest]
      dsimp only
      rw [hmap]
      intro k d hk
      rw [Dict.get?_insert] at hk
      split at hk
      · cases hk
        exact Dict.mem_setdefault.mpr (Or.inl rfl)
      · exact hold k d hk

/-- A promotion takes effect when its version is new and no digest of the map is recorded elsewhere. -/
theorem Promotable.takesEffect_iff (h : Promotable o db now) (hl : db.latest = [e]) {later : Time} (hlt : now < later) :
    TakesEffect o db shard resultWeights (Worker.promoted o db later shard resultWeights (some e) score) ↔
      Fresh db shard resultWeights := by
  have hpast : ∀ v ∈ db.versions.entries, v.2.promotedAt < later := fun v hv => (h.past v hv).trans_lt hlt
  have hafter := h.promoted shard resultWeights score hl hlt
  obtain ⟨e',hl'⟩ := hafter.latest
  have hmap : (∀ k, e'.2.shardCheckpoints.get? k = ((served db).insert (toString shard) resultWeights).get? k) ↔
      versionName resultWeights ∉ db.versions ∨ (served db).get? (toString shard) = some resultWeights := by
    rcases latest_promoted o shard resultWeights score hl hpast with
      ⟨hname,-,hlatest⟩ | ⟨hname,row,-,hlatest,hrow,-⟩
    · cases List.singleton_inj.mp (hl'.symm.trans hlatest)
      rw [← served_eq hl]
      constructor
      · intro hall
        right
        rw [hall, Dict.get?_insert_self]
      · rintro (hn | hd) k
        · exact absurd hname hn
        · rw [Dict.get?_insert]
          split
          · next hk => rw [hk, hd]
          · rfl
    · cases List.singleton_inj.mp (hl'.symm.trans hlatest)
      exact ⟨fun _ => Or.inl hname,fun _ k => by rw [hrow]⟩
  -- A digest that the promotion itself records is recorded for its shard.
  have hnames : (∀ k d row, ((served db).insert (toString shard) resultWeights).get? k = some d →
      (Worker.promoted o db later shard resultWeights (some e) score).checkpoints.get? d = some row →
        toString row.shard = k) ↔
      ∀ k d row, ((served db).insert (toString shard) resultWeights).get? k = some d →
        db.checkpoints.get? d = some row → toString row.shard = k := by
    constructor
    · exact fun hall k d row hk hrow => hall k d row hk (Dict.get?_setdefault_of_get? hrow)
    · intro hall k d row hk hrow
      by_cases hd : d = resultWeights
      · subst hd
        rcases Dict.get?_setdefault_self.mp hrow with hrow | ⟨hnew,rfl⟩
        · exact hall k d row hk hrow
        · rw [Dict.get?_insert] at hk
          split at hk
          · next hk' => exact hk'.symm
          · exact absurd (h.recorded k d hk) hnew
      · exact hall k d row hk (Dict.get?_setdefault_of_ne hd _ ▸ hrow)
  have hserves := serves_iff (o := o) hl' hafter.path (by rw [← served_eq hl']; exact hafter.recorded)
  have hiff : TakesEffect o db shard resultWeights (Worker.promoted o db later shard resultWeights (some e) score) ↔
      (∀ k, e'.2.shardCheckpoints.get? k = ((served db).insert (toString shard) resultWeights).get? k) ∧
      Serves o (Worker.promoted o db later shard resultWeights (some e) score) e' := by
    simp only [Dict.get?_insert]
    constructor
    · rintro ⟨e'',hl'',hm,hs⟩
      cases List.singleton_inj.mp (hl'.symm.trans hl'')
      exact ⟨hm,hs⟩
    · exact fun hh => ⟨e',hl',hh.1,hh.2⟩
  rw [hiff, hserves, Fresh, ← hmap, ← hnames]
  constructor
  · rintro ⟨hm,hs⟩
    exact ⟨hm,fun k d row hk => hs k d row ((hm k).trans hk)⟩
  · rintro ⟨hm,hs⟩
    exact ⟨hm,fun k d row hk => hs k d row ((hm k).symm.trans hk)⟩

end Step

section Baseline
variable {w w' : Lone D}

/-- Every digest the loop over the shards collects is on record, under its content-addressed path. -/
theorem run_recordLive {shardCheckpoints recorded : Dict String String} {shards : List ℕ}
    (h : (recordLive o shardCheckpoints shards).run (lone o pg) w = (.ok recorded,w'))
    (hrec : ∀ k d, shardCheckpoints.get? k = some d → d ∈ w.view.checkpoints)
    (hpath : ∀ d row, w.view.checkpoints.get? d = some row → row.filePath = casPath o d) :
    w'.view.versions = w.view.versions ∧ (∀ k d, recorded.get? k = some d → d ∈ w'.view.checkpoints) ∧
    ∀ d row, w'.view.checkpoints.get? d = some row → row.filePath = casPath o d := by
  induction shards generalizing shardCheckpoints w with
  | nil =>
    obtain ⟨rfl,rfl⟩ := run_pure_eq_ok.mp h
    exact ⟨rfl,hrec,hpath⟩
  | cons shard shards ih =>
    obtain ⟨live,w₁,h₁,h⟩ := run_bind_eq_ok.mp h
    have hlive : ((readLive shard : WorkerM D _).run (lone o pg) w).2.server = w.server :=
      Performs.server ((performs_readLive shard).mono fun _ h => h.copies.noSql) w
    rw [h₁] at hlive
    obtain ⟨path,w₂,h₂,h⟩ := run_bind_eq_ok.mp h
    obtain ⟨rfl,hs⟩ := run_promoteArtifact h₂
    have hv₂ : w₂.view = w.view := congrArg (fun s : Server Unit => s.view ()) (hs.trans hlive)
    obtain ⟨_,w₃,h₃,h⟩ := run_bind_eq_ok.mp h
    have hv₃ := run_insertCheckpoint h₃
    rw [hv₂] at hv₃
    obtain ⟨hv,hrest⟩ := ih h (by
      rw [hv₃]
      intro k d hk
      rw [Dict.get?_insert] at hk
      rw [Dict.mem_setdefault]
      split at hk
      · cases hk
        exact Or.inl rfl
      · exact Or.inr (hrec k d hk)) (by
      rw [hv₃]
      intro d row hd
      by_cases he : d = o.fileHash live
      · subst he
        rcases Dict.get?_setdefault_self.mp hd with hd | ⟨-,rfl⟩
        · exact hpath _ row hd
        · rfl
      · exact hpath d row (Dict.get?_setdefault_of_ne he _ ▸ hd))
    have hversions : w₃.view.versions = w.view.versions := by rw [hv₃]
    exact ⟨hv.trans hversions,hrest⟩

theorem performs_recordLive (shardCheckpoints : Dict String String) (shards : List ℕ) :
    (recordLive o shardCheckpoints shards).Performs WorkerOp.Promotes :=
  performs_recordLive_of (fun _ => trivial) (fun _ => trivial) (fun _ _ => trivial) (fun _ _ => trivial)
    (fun _ _ => rfl) shardCheckpoints shards

/-- What the script does after its upsert. -/
theorem performs_recordBaseline (routing : Routing) : ∃ rest : WorkerM D Unit,
    recordBaseline o routing = (do execute (.upsertSubjects routing.entries); rest) ∧ rest.Performs WorkerOp.Promotes ∧
      ∀ {pg : Postgres} {w w' : Lone D} {u : Unit}, rest.run (lone o pg) w = (.ok u,w') → w'.aborted = false := by
  refine ⟨_,rfl,(performs_recordLive _ _).bind fun d => (performs_promotes _ (by rfl)).bind fun _ => ?_,fun h => ?_⟩
  · exact (performs_recordEval ..).bind fun _ => performs_pure _
  · obtain ⟨_,_,-,h⟩ := run_bind_eq_ok.mp h
    obtain ⟨_,_,-,h⟩ := run_bind_eq_ok.mp h
    obtain ⟨_,_,heval,h⟩ := run_bind_eq_ok.mp h
    obtain ⟨-,rfl⟩ := run_pure_eq_ok.mp h
    exact (run_recordEval heval).1

/-- What loading the routing table into empty tables leaves is the ground promotions start from. -/
theorem promotable_loaded {u : Unit} (hw : w.Idle) (hv : w.server.committed.versions = Dict.empty)
    (hc : w.server.committed.checkpoints = Dict.empty) (h : (loadRoutingScript o).run (lone o pg) w = (.ok u,w')) :
    Promotable o w'.server.committed w.server.clock := by
  obtain ⟨routing,w₁,h₁,h⟩ := run_bind_eq_ok.mp h
  rw [run_onFiles] at h₁
  have hs₁ : w₁.server = w.server := by rw [← (Prod.mk.inj h₁).2]; rfl
  have hidle : w₁.Idle := by rw [Lone.Idle, hs₁]; exact hw
  have hview : w₁.view = w.server.committed := by rw [hidle.view, hs₁]
  obtain ⟨w₂,h₂,rfl⟩ := run_withConn_eq_ok.mp h
  have hwithin : (recordBaseline o routing).Performs WorkerOp.Within := by
    obtain ⟨rest,hrest,hp,-⟩ := performs_recordBaseline (o := o) routing
    rw [hrest]
    exact (performs_execute _ trivial).bind fun _ => hp.mono fun _ h => (h.touches []).within
  have hnow := (Performs.within hwithin o pg w₁).1
  rw [h₂, hidle.now, hs₁] at hnow
  obtain ⟨_,w₃,h₃,h₂⟩ := run_bind_eq_ok.mp h₂
  have hv₃ := run_upsertSubjects h₃
  obtain ⟨recorded,w₄,h₄,h₂⟩ := run_bind_eq_ok.mp h₂
  have hempty : w₃.view.checkpoints = Dict.empty := by rw [hv₃, hview, hc]
  obtain ⟨hv₄,hrec,hpath⟩ := run_recordLive h₄ (by simp) (by simp [hempty])
  obtain ⟨_,w₅,h₅,h₂⟩ := run_bind_eq_ok.mp h₂
  have hv₅ := run_insertVersion h₅
  obtain ⟨score,w₆,h₆,h₂⟩ := run_bind_eq_ok.mp h₂
  obtain ⟨ha,hv₆⟩ := run_recordEval h₆
  obtain ⟨-,rfl⟩ := run_pure_eq_ok.mp h₂
  have hnow₅ : w₄.now = w.server.clock := by
    have hframe :=
      (Performs.within ((performs_recordEval (o := o) "v0-baseline" recorded).mono fun _ h =>
        (h.touches []).within) o pg w₅).1
    obtain ⟨-,-,_,-,rfl⟩ := run_execute_eq_ok.mp h₅
    rw [h₆, now_wrote] at hframe
    exact hframe.symm.trans hnow
  let row : VersionRow := ⟨recorded,"v0",w.server.clock⟩
  have hold : w₄.view.versions = Dict.empty := by rw [hv₄, hv₃, hview, hv]
  have hversions : w₆.view.versions = w₄.view.versions.insert "v0-baseline" row := by
    rw [hv₆, hv₅, hnow₅, hold]
    rfl
  have hcheckpoints : w₆.view.checkpoints = w₄.view.checkpoints := by rw [hv₆, hv₅]
  have hlatest : w₆.view.latest = [("v0-baseline",row)] := by
    have hlt : ∀ e ∈ w₄.view.versions.entries, e.2.promotedAt < row.promotedAt := by simp [hold, Dict.empty]
    have hnew : Database.latest {w₄.view with versions := w₄.view.versions.insert "v0-baseline" row} =
        [("v0-baseline",row)] := latest_insert (by simp [hold, Dict.mem_iff, Dict.keys, Dict.empty]) hlt
    rw [← hnew]
    unfold Database.latest
    rw [hversions]
  rw [committed_commit ha]
  refine ⟨⟨_,hlatest⟩,?_,?_,by rw [hcheckpoints]; exact hpath⟩
  · rw [hversions, hold]
    intro e he
    rcases Dict.mem_entries_insert.mp he with ⟨-,hrow⟩ | ⟨-,he⟩
    · rw [hrow]
    · simp [Dict.empty] at he
  · rw [served_eq hlatest, hcheckpoints]
    exact hrec

end Baseline

/-- One call of `_promote` in a transaction of its own. -/
structure Promotion where
  before : Database
  shard : ℕ
  resultWeights : String
  after : Database

/-- `load_routing` on empty tables, then promotions in transactions that start one after another. -/
inductive Promotions (o : Outside D) : List Promotion → Database → Time → Prop
  | loaded {pg : Postgres} {w w' : Lone D} : w.Idle → w.server.committed.versions = Dict.empty →
      w.server.committed.checkpoints = Dict.empty → (loadRoutingScript o).run (lone o pg) w = (.ok (),w') →
      Promotions o [] w'.server.committed w.server.clock
  | promoted {calls : List Promotion} {db : Database} {now : Time} {pg : Postgres} {w w' : Lone D} {shard : ℕ}
      {resultWeights : String} : Promotions o calls db now → w.Idle → w.server.committed = db → now < w.server.clock →
      (withConn (promote o shard resultWeights)).run (lone o pg) w = (.ok (),w') →
      Promotions o (calls ++ [⟨db,shard,resultWeights,w'.server.committed⟩]) w'.server.committed w.server.clock

/-- A promotion that returns commits the rows it wrote over the latest version. -/
theorem run_withConn_promote {w w' : Lone D} {shard : ℕ} {resultWeights : String} {u : Unit}
    (hw : w.Idle) (h : (withConn (promote o shard resultWeights)).run (lone o pg) w = (.ok u,w')) :
    ∃ latest score, w.server.committed.Latest latest ∧
      w'.server.committed = promoted o w.server.committed w.server.clock shard resultWeights latest score := by
  obtain ⟨t,ht,rfl⟩ := run_withConn_eq_ok.mp h
  obtain ⟨ha,latest,score,hlatest,hv⟩ := run_promote ht
  rw [hw.view] at hlatest hv
  exact ⟨latest,score,hlatest,by rw [committed_commit ha, hv, hw.now]⟩

theorem Promotions.promotable {calls : List Promotion} {db : Database} {now : Time} (h : Promotions o calls db now) :
    Promotable o db now := by
  induction h with
  | loaded hw hv hc hrun => exact promotable_loaded hw hv hc hrun
  | promoted hprev hw hdb hlt hrun ih =>
    obtain ⟨e,hl⟩ := ih.latest
    obtain ⟨latest,score,hlatest,hafter⟩ := run_withConn_promote hw hrun
    rw [hdb] at hlatest hafter
    cases Latest.of_latest hl hlatest
    rw [hafter]
    exact ih.promoted _ _ _ hl hlt

/-- In every history a promotion takes effect exactly when its version is new, or says nothing new,
and no digest of its map is recorded for another shard. -/
theorem promotions_takeEffect_iff {calls : List Promotion} {db : Database} {now : Time}
    (h : Promotions o calls db now) :
    ∀ c ∈ calls, TakesEffect o c.before c.shard c.resultWeights c.after ↔ Fresh c.before c.shard c.resultWeights := by
  induction h with
  | loaded => simp
  | @promoted calls db now pg w w' shard resultWeights hprev hw hdb hlt hrun ih =>
    intro c hc
    rcases List.mem_append.mp hc with hc | hc
    · exact ih c hc
    · rw [List.mem_singleton.mp hc]
      obtain ⟨e,hl⟩ := hprev.promotable.latest
      obtain ⟨latest,score,hlatest,hafter⟩ := run_withConn_promote hw hrun
      rw [hdb] at hlatest hafter
      cases Latest.of_latest hl hlatest
      dsimp only
      rw [hafter]
      exact hprev.promotable.takesEffect_iff hl hlt

section Sample

def emptyTables : Database := ⟨Dict.empty,Dict.empty,Dict.empty,Dict.empty,Dict.empty,Dict.empty,Dict.empty⟩

def sampleOutside : Outside (logging 2) where
  engine := .gbdt 1
  CHECKPOINT_DIR := "checkpoints"
  shouldSpotCheck := fun _ => false
  score := fun _ => .ok "0.5"
  nEval := 4000
  fileHash := fun
    | .booster booster => Gbdt.boosterDigest booster
    | .weights weights => stateDictDigest weights
    | .unfinished => ""
  clock := fun _ => ⟨"2024-01-01","2024-01-02"⟩

def sampleWorld : Lone (logging 2) :=
  ⟨sampleBoosted.1,Dict.empty,⟨emptyTables,Dict.empty,1,0⟩,fun _ => sampleBoosted.2,fun _ => Dict.empty⟩

def World.later (w : Lone D) : Lone D := {w with server := {w.server with clock := w.server.clock + 1}}

def sampleLoading : Except PyErr Unit × Lone (logging 2) :=
  (loadRoutingScript sampleOutside).run (lone sampleOutside Postgres.inOrder) sampleWorld

def samplePromoting (resultWeights : String) (w : Lone (logging 2)) : Except PyErr Unit × Lone (logging 2) :=
  (withConn (promote sampleOutside 0 resultWeights)).run (lone sampleOutside Postgres.inOrder) w.later

theorem returned_of_isOk {α : Type} {x : Except PyErr Unit × α} (h : x.1.isOk = true) : x = (.ok (),x.2) := by
  obtain ⟨_ | _,s⟩ := x
  · cases h
  · rfl

theorem Promotions.sample {calls : List Promotion} {w : Lone (logging 2)} {now : Time} (resultWeights : String)
    (h : Promotions sampleOutside calls w.server.committed now) (hw : w.Idle)
    (hnow : now < w.server.clock + 1) (hok : (samplePromoting resultWeights w).1.isOk = true) :
    Promotions sampleOutside
      (calls ++ [⟨w.server.committed,0,resultWeights,(samplePromoting resultWeights w).2.server.committed⟩])
      (samplePromoting resultWeights w).2.server.committed (w.server.clock + 1) :=
  .promoted (w := w.later) h hw rfl hnow (returned_of_isOk hok)

theorem sampleLoading_run : Promotions sampleOutside [] sampleLoading.2.server.committed 1 ∧ sampleLoading.2.Idle := by
  have hok : sampleLoading.1.isOk = true := by decide +kernel
  have hidle : (sampleLoading.2.server.sessions.get? ()).isNone = true := by decide +kernel
  exact ⟨.loaded (w := sampleWorld) rfl rfl rfl (returned_of_isOk hok),Option.isNone_iff_eq_none.mp hidle⟩

theorem promotions_takeEffect_iff_sample : ∃ calls db now, calls ≠ [] ∧ Promotions sampleOutside calls db now ∧
    ∀ c ∈ calls, TakesEffect sampleOutside c.before c.shard c.resultWeights c.after ↔
      Fresh c.before c.shard c.resultWeights := by
  have hrun := sampleLoading_run.1.sample "0a" sampleLoading_run.2 (by decide +kernel) (by decide +kernel)
  exact ⟨_,_,_,by simp,hrun,promotions_takeEffect_iff hrun⟩

def sampleFirst : Lone (logging 2) := (samplePromoting "0a" sampleLoading.2).2
def sampleSecond : Lone (logging 2) := (samplePromoting "0b" sampleFirst).2
def sampleThird : Lone (logging 2) := (samplePromoting "0a" sampleSecond).2

/-- The third promotion brings the digest of the first one back; its version exists, so the second one's stays. -/
theorem not_promotions_takeEffect : ∃ calls db now, Promotions sampleOutside calls db now ∧
    ∃ c ∈ calls, ¬TakesEffect sampleOutside c.before c.shard c.resultWeights c.after := by
  have hfirst := sampleLoading_run.1.sample "0a" sampleLoading_run.2 (by decide +kernel) (by decide +kernel)
  have hsecond :=
    Promotions.sample (w := sampleFirst) "0b" hfirst (idle_withConn _ _) (by decide +kernel) (by decide +kernel)
  have hthird :=
    Promotions.sample (w := sampleSecond) "0a" hsecond (idle_withConn _ _) (by decide +kernel) (by decide +kernel)
  refine ⟨_,_,_,hthird,_,List.mem_append_right _ (List.mem_singleton_self _),?_⟩
  rintro ⟨e,hl,hm,-⟩
  have hlatest : sampleThird.server.committed.latest.map (fun e => e.2.shardCheckpoints.get? "0") = [some "0b"] := by
    decide +kernel
  have hkey : "0" = toString (0 : ℕ) := rfl
  have hzero := hm "0"
  rw [if_pos hkey] at hzero
  rw [show sampleThird.server.committed.latest = [e] from hl, List.map_singleton, hzero] at hlatest
  simp at hlatest

end Sample

end UnlearnShield.Worker
