import UnlearnShield.Worker.Ledger

/-! # What is served is whole

A prediction is scored with one model for each shard of a version on record, each read from
the file of the shard's checkpoint, or refused: never with some of them, with one twice or
with one of another version, whatever the other processes do meanwhile, and whether the
ensemble is loaded or comes out of a cache. No checkpoint has two rows and no shard is
missing, so the rows the paths come from are one for each shard.
-/
namespace UnlearnShield.Worker
open Db Engine Deployment Program Relation
variable {D : Deployment} {ι : Type} [DecidableEq ι] {o : Outside D} {pg : Postgres}

section Paths

theorem exists_map_of_perm {α β : Type} {f : α → β} {l : List β} {u : List α} (h : l.Perm (u.map f)) :
    ∃ v : List α, l = v.map f ∧ v.Perm u := by
  have hcomp : Relation.Comp (fun l v => l = List.map f v) List.Perm l u := by
    rw [List.eq_map_comp_perm]
    exact h
  exact hcomp

theorem byShard_perm {shardPaths : Dict String String} {paths : List (String × String)}
    (h : byShard shardPaths = .ok paths) : paths.Perm shardPaths.entries := by
  obtain ⟨numbered,hnumbered,hpaths⟩ := bind_eq_ok.mp h
  rw [← Except.ok.inj hpaths]
  have hsnd : ∀ {entries : List (String × String)} {numbered : List (ℤ × String × String)},
      (entries.mapM fun e => (do
        let n ← (PyKey.str e.1).toInt
        pure (n,e) : Py (ℤ × String × String))) = .ok numbered → numbered.map Prod.snd = entries := by
    intro entries
    induction entries with
    | nil =>
      intro numbered h
      cases h
      rfl
    | cons e entries ih =>
      intro numbered h
      rw [List.mapM_cons] at h
      obtain ⟨first,hfirst,h⟩ := bind_eq_ok.mp h
      obtain ⟨rest,hrest,h⟩ := bind_eq_ok.mp h
      obtain ⟨n,-,hn⟩ := bind_eq_ok.mp hfirst
      cases h
      cases hn
      rw [List.map_cons, ih hrest]
  have hperm := (List.perm_insertionSort (fun a b => a.1 ≤ b.1) numbered).map Prod.snd
  rwa [hsnd hnumbered] at hperm

theorem ensembleKey_perm (shardPaths : Dict String String) : (ensembleKey o shardPaths).2.Perm shardPaths.entries :=
  List.perm_insertionSort ..

/-- The checkpoints of a version, one for each shard, whose files the paths name. -/
structure Placed (db : Database) (row : VersionRow) (used : List (String × CheckpointRow))
    (paths : List (String × String)) : Prop where
  onRecord : ∀ e ∈ used, db.checkpoints.get? e.1 = some e.2
  checkpoints : (used.map Prod.fst).Perm row.shardCheckpoints.values
  shards : (used.map fun e => toString e.2.shard).Perm row.shardCheckpoints.keys
  paths : paths = used.map fun e => (toString e.2.shard,e.2.filePath)

/-- Where each checkpoint of the version is recorded for its own shard, each path is of the checkpoint
the version has for the shard. -/
theorem Placed.entries {db : Database} {row : VersionRow} {used : List (String × CheckpointRow)}
    {paths : List (String × String)} (h : Placed db row used paths)
    (hown : ∀ shard hash checkpoint, row.shardCheckpoints.get? shard = some hash →
      db.checkpoints.get? hash = some checkpoint → toString checkpoint.shard = shard) :
    (used.map fun e => (toString e.2.shard,e.1)).Perm row.shardCheckpoints.entries := by
  have hnodup : (used.map fun e => (toString e.2.shard,e.1)).Nodup := by
    refine List.Nodup.of_map Prod.fst ?_
    rw [List.map_map]
    exact h.shards.nodup_iff.mpr row.shardCheckpoints.nodup
  have hsub : (used.map fun e => (toString e.2.shard,e.1)) ⊆ row.shardCheckpoints.entries := by
    intro entry hin
    obtain ⟨e,he,rfl⟩ := List.mem_map.mp hin
    obtain ⟨shard,hshard⟩ := Dict.mem_values.mp (h.checkpoints.mem_iff.mp (List.mem_map_of_mem he))
    rw [hown shard e.1 e.2 hshard (h.onRecord e he)]
    exact Dict.get?_eq_some.mp hshard
  refine (List.subperm_of_subset hnodup hsub).perm_of_length_le ?_
  have hlength := h.shards.length_eq
  rw [Dict.keys, List.length_map, List.length_map] at hlength
  rw [List.length_map, hlength]

theorem Placed.perm {db : Database} {row : VersionRow} {used : List (String × CheckpointRow)}
    {paths paths' : List (String × String)} (h : Placed db row used paths) (hperm : paths'.Perm paths) :
    ∃ used', Placed db row used' paths' := by
  rw [h.paths] at hperm
  obtain ⟨used',hpaths,hused⟩ := exists_map_of_perm hperm
  exact ⟨used',⟨fun e he => h.onRecord e (hused.mem_iff.mp he),(hused.map _).trans h.checkpoints,
    (hused.map _).trans h.shards,hpaths⟩⟩

/-- Rows of different checkpoints of the version among which no shard is missing are one for each shard. -/
theorem placed_of_covers {db : Database} {row : VersionRow} {used : List (String × CheckpointRow)}
    (honRecord : ∀ e ∈ used, db.checkpoints.get? e.1 = some e.2) (hnodup : (used.map Prod.fst).Nodup)
    (hsub : used.map Prod.fst ⊆ row.shardCheckpoints.values)
    (hall : ∀ shard ∈ row.shardCheckpoints.keys, shard ∈ shardPaths (used.map fun e => (e.2.shard,e.2.filePath))) :
    Placed db row used (shardPaths (used.map fun e => (e.2.shard,e.2.filePath))).entries := by
  have hsubperm := List.subperm_of_subset hnodup hsub
  have hcovers : row.shardCheckpoints.keys.Subperm (used.map fun e => toString e.2.shard) := by
    refine List.subperm_of_subset row.shardCheckpoints.nodup fun shard hshard => ?_
    obtain ⟨path,hpath⟩ := Dict.mem_ofList.mp (hall shard hshard)
    rw [List.map_map, List.mem_map] at hpath
    obtain ⟨e,he,heq⟩ := hpath
    exact List.mem_map.mpr ⟨e,he,(Prod.mk.inj heq).1⟩
  have hkeys : row.shardCheckpoints.values.length = row.shardCheckpoints.keys.length := by
    rw [Dict.values, Dict.keys, List.length_map, List.length_map]
  have hle := hsubperm.length_le
  have hge := hcovers.length_le
  rw [List.length_map] at hle hge
  have hshards : (used.map fun e => toString e.2.shard).Perm row.shardCheckpoints.keys := by
    refine (hcovers.perm_of_length_le ?_).symm
    rw [List.length_map]
    exact hle.trans_eq hkeys
  have hentries : (shardPaths (used.map fun e => (e.2.shard,e.2.filePath))).entries =
      used.map fun e => (toString e.2.shard,e.2.filePath) := by
    rw [shardPaths, List.map_map]
    refine Dict.entries_ofList ?_
    rw [List.map_map]
    exact hshards.nodup_iff.mpr row.shardCheckpoints.nodup
  refine ⟨honRecord,hsubperm.perm_of_length_le ?_,hshards,hentries⟩
  rw [List.length_map, hkeys]
  exact hge

end Paths

section Models

/-- The file of a copy held this while `J` held. -/
def CopyAt (J : Fleet D ι → Prop) (path : String) (artifact : Artifact D) : Prop :=
  ∃ s, J s ∧ s.world.cas.get? path = some artifact

def PreprocAt (J : Fleet D ι → Prop) (shard text : String) : Prop :=
  ∃ s, J s ∧ preprocOf s.world.disk shard = some text

/-- Each model was in the file of its path, and its preprocessor in the one of its shard, while `J` held. -/
def Ensemble.ReadFrom (J : Fleet D ι → Prop) (paths : List (String × String)) : Ensemble D → Prop
  | .shards models => List.Forall₂ (fun e m => CopyAt J e.2 (.weights m.1) ∧ PreprocAt J e.1 m.2) paths models
  | .boosters models => List.Forall₂ (fun e m => CopyAt J e.2 (.booster m)) paths models

end Models

section Serving
variable {i : ι} {α : Type} {J : Fleet D ι → Prop} {s t : Fleet D ι}

def WorkerOp.Caches (J : Fleet D ι → Prop) : WorkerOp D → Prop
  | .cacheEnsemble key ensemble => ∃ paths, paths.Perm key.2 ∧ ensemble.ReadFrom J paths
  | _ => True

structure Fleet.Tidy (J : Fleet D ι → Prop) (i : ι) (s : Fleet D ι) : Prop where
  locks : Locks s.server
  cached : ∀ key ensemble, (s.world.ensembles i).get? key = some ensemble →
    ∃ paths, paths.Perm key.2 ∧ ensemble.ReadFrom J paths

structure Fleet.RelyKept (i : ι) (s t : Fleet D ι) : Prop where
  own : t.own i = s.own i
  kept : s.server.committed.Keeps t.server.committed

theorem Fleet.RelyKept.writesOf (h : Fleet.RelyKept i s t) : t.server.writesOf i = s.server.writesOf i :=
  (Prod.ext_iff.mp (Prod.ext_iff.mp h.own).2).1

/-- What is cached was cached before, or is cached by this operation. -/
theorem Fleet.exec_ensembles {op : WorkerOp D} {r : op.Resp} (h : Fleet.exec o pg i op s = .ok (r,t)) {j : ι}
    {key : EnsembleKey} {ensemble : Ensemble D} (hin : (t.world.ensembles j).get? key = some ensemble) :
    (s.world.ensembles j).get? key = some ensemble ∨ j = i ∧ op = .cacheEnsemble key ensemble := by
  obtain ⟨h,-⟩ := Fleet.exec_eq_ok.mp h
  cases op with
  | file op =>
    rw [Worker.exec] at h
    split at h
    · obtain ⟨-,hw⟩ := Prod.mk.inj (Except.ok.inj h)
      rw [← hw] at hin
      exact Or.inl hin
    · obtain ⟨-,hw⟩ := Prod.mk.inj (Except.ok.inj h)
      rw [← hw] at hin
      exact Or.inl hin
  | sql stmt =>
    rw [Worker.exec] at h
    cases he : s.world.server.execute pg i stmt with
    | error e =>
      rw [he] at h
      cases h
    | ok p =>
      rw [he] at h
      obtain ⟨-,hw⟩ := Prod.mk.inj (Except.ok.inj h)
      rw [← hw] at hin
      exact Or.inl hin
  | openCopy shard path | finishCopy shard path =>
    obtain ⟨-,hw⟩ := Prod.mk.inj (Except.ok.inj h)
    rw [← hw] at hin
    split at hin
    · exact Or.inl hin
    · exact Or.inl hin
  | cacheEnsemble key' ensemble' =>
    obtain ⟨-,hw⟩ := Prod.mk.inj (Except.ok.inj h)
    rw [← hw, World.cacheEnsemble] at hin
    split at hin
    · exact Or.inl hin
    · by_cases hj : j = i
      · subst hj
        dsimp only at hin
        rw [Function.update_self, Dict.get?_insert] at hin
        split at hin
        · next hkey =>
          rw [hkey, Option.some.inj hin]
          exact Or.inr ⟨rfl,rfl⟩
        · exact Or.inl hin
      · dsimp only at hin
        rw [Function.update_of_ne hj] at hin
        exact Or.inl hin
  | _ =>
    obtain ⟨-,hw⟩ := Prod.mk.inj (Except.ok.inj h)
    rw [← hw] at hin
    exact Or.inl hin

theorem Fleet.respects_caches (o : Outside D) (pg : Postgres) (J : Fleet D ι → Prop) (i : ι) :
    (fleet o pg : Machine ι _ _ _ _).Respects (Fleet.Tidy J i) Fleet.RelyKept (fun j op _ => j = i → op.Caches J) := by
  constructor
  · intro j op s r t hI hmay h
    have hmoves : s.Moves pg (fun _ _ _ => True) t := Fleet.moves_of_exec trivial h
    obtain ⟨hlocks,hkept⟩ := hmoves.locks hI.locks
    refine ⟨⟨hlocks,fun key ensemble hin => ?_⟩,fun k hk => ⟨Fleet.own_exec h hk,hkept⟩⟩
    rcases Fleet.exec_ensembles h hin with hold | ⟨hj,rfl⟩
    · exact hI.cached key ensemble hold
    · exact hmay hj.symm
  · intro j s hI
    have hmoves : s.Moves pg (fun _ _ _ => True) (s.rollback j) := .rollback j
    obtain ⟨hlocks,hkept⟩ := hmoves.locks hI.locks
    exact ⟨⟨hlocks,hI.cached⟩,fun k hk => ⟨Fleet.own_erase hk,hkept⟩⟩
  · intro s t hI he
    have hmoves : s.Moves pg (fun _ _ _ => True) t := .meanwhile he
    obtain ⟨hlocks,hkept⟩ := hmoves.locks hI.locks
    refine ⟨⟨hlocks,?_⟩,fun k => ⟨Fleet.own_meanwhile he k,hkept⟩⟩
    cases he with
    | tick clock => exact hI.cached
    | request erasureId job _ _ => exact hI.cached

abbrev Serving (o : Outside D) (pg : Postgres) (i : ι) (J : Fleet D ι → Prop) (P : Fleet D ι → Prop) (p : WorkerM D α)
    (Q : Py α → Fleet D ι → Prop) : Prop :=
  Contract (Fleet.exec o pg i) (fun s => Fleet.Tidy J i s ∧ J s) (Fleet.RelyKept i) (fun op _ => op.Caches J) P p Q

def Reading (i : ι) (F : Database → Prop) (s : Fleet D ι) : Prop := s.server.writesOf i = [] ∧ F s.server.committed

def Lasts (F : Database → Prop) : Prop := ∀ db db', db.Keeps db' → F db → F db'

variable {F G : Database → Prop}

theorem Reading.stable (hF : Lasts F) : Stable (Fleet.RelyKept i) (Reading (D := D) i F) :=
  fun _ _ h hr => ⟨hr.writesOf.trans h.1,hF _ _ hr.kept h.2⟩

theorem Reading.mono (h : Reading i F s) (hFG : ∀ db, F db → G db) : Reading i G s := ⟨h.1,hFG _ h.2⟩

theorem lasts_true : Lasts fun _ => True := fun _ _ _ h => h

theorem lasts_and (hF : Lasts F) (hG : Lasts G) : Lasts fun db => F db ∧ G db :=
  fun db db' hk h => ⟨hF db db' hk h.1,hG db db' hk h.2⟩

/-- A fact of an answer, when it is the one expected. -/
theorem lasts_ok {r : Py α} {T : α → Database → Prop} (hT : ∀ a, Lasts (T a)) :
    Lasts fun db => ∀ a, r = .ok a → T a db :=
  fun db db' hk h a ha => hT a db db' hk (h a ha)

theorem lasts_version (v : String) (row : VersionRow) : Lasts fun db => db.versions.get? v = some row :=
  fun _ _ hk h => hk.rows (.version v row) rfl h

theorem lasts_checkpoints (used : List (String × CheckpointRow)) :
    Lasts fun db => ∀ e ∈ used, db.checkpoints.get? e.1 = some e.2 :=
  fun _ _ hk h e he => hk.rows (.checkpoint e.1 e.2) rfl (h e he)

def Locates (v : String) (paths : List (String × String)) (db : Database) : Prop :=
  ∃ row used, db.versions.get? v = some row ∧ Placed db row used paths

theorem lasts_locates (v : String) (paths : List (String × String)) : Lasts (Locates v paths) := by
  rintro db db' hk ⟨row,used,hrow,hplaced⟩
  exact ⟨row,used,lasts_version v row db db' hk hrow,
    {hplaced with onRecord := lasts_checkpoints used db db' hk hplaced.onRecord}⟩

/-- The models were read from the files of the version's checkpoints. -/
def Complete (J : Fleet D ι → Prop) (v : String) (ensemble : Ensemble D) (db : Database) : Prop :=
  ∃ paths, Locates v paths db ∧ ensemble.ReadFrom J paths

omit [DecidableEq ι] in
theorem lasts_complete (v : String) (ensemble : Ensemble D) : Lasts (Complete J v ensemble) :=
  fun db db' hk h => h.imp fun paths hpaths => ⟨lasts_locates v paths db db' hk hpaths.1,hpaths.2⟩

/-- A query is answered from what is committed. -/
theorem serving_query {stmt : Sql} {T : stmt.Answer → Database → Prop} (hF : Lasts F) (hT : ∀ answer, Lasts (T answer))
    (hquery : ∀ n now locked db answer ws, F db → stmt.effect pg n now locked db = .does answer ws →
      ws = [] ∧ T answer db) :
    Serving o pg i J (Reading i F) (execute stmt)
      (fun r => Reading i fun db => F db ∧ ∀ answer, r = .ok answer → T answer db) := by
  refine contract_call (R := fun r => Reading i fun db => F db ∧ ∀ answer, r = .ok answer → T answer db)
    (Reading.stable hF) (fun _ _ _ => trivial) (fun s _ hs r t he _ => ?_)
    fun r => contract_lift (Reading.stable (lasts_and hF (lasts_ok hT))) fun _ _ h => h
  have hview : s.server.view i = s.server.committed := by
    rw [Server.view, show (s.server.session i).writes = [] from hs.1, Database.writes_nil]
  rcases Fleet.exec_sql he with ⟨answer,ws,rfl,rfl,heffect⟩ | ⟨⟨e,rfl⟩,rfl⟩
  · rw [hview] at heffect
    obtain ⟨rfl,hanswer⟩ := hquery _ _ _ _ _ _ hs.2 heffect
    have hwrites : (s.server.wrote i []).writesOf i = [] := by
      rw [Server.writesOf_wrote, if_pos rfl, hs.1, List.append_nil]
    refine ⟨hwrites,hs.2,fun answer' h => ?_⟩
    rw [← Except.ok.inj h]
    exact hanswer
  · have hwrites : (s.server.abort i).writesOf i = [] := by
      rw [Server.writesOf_abort, if_pos rfl]
    exact ⟨hwrites,hs.2,fun answer h => by cases h⟩

theorem serving_throw {e : PyErr} (hF : Lasts F) {T : α → Database → Prop} :
    Serving o pg i J (Reading i F) (.throw e) (fun r => Reading i fun db => F db ∧ ∀ a, r = .ok a → T a db) :=
  contract_throw (Reading.stable hF) fun _ _ h => h.mono fun _ hdb => ⟨hdb,fun _ hr => by cases hr⟩

theorem serving_lift (hF : Lasts F) (x : Py α) : Serving o pg i J (Reading i F) (Program.lift x)
    (fun r => Reading i fun db => F db ∧ ∀ a, r = .ok a → x = .ok a) :=
  contract_lift (Reading.stable hF) fun _ _ h => h.mono fun _ hdb => ⟨hdb,fun _ ha => ha⟩

theorem serving_pure (hG : Lasts G) {a : α} {T : α → Database → Prop} (h : ∀ db, G db → F db ∧ T a db) :
    Serving o pg i J (Reading i G) (.pure a) (fun r => Reading i fun db => F db ∧ ∀ b, r = .ok b → T b db) :=
  contract_pure (Reading.stable hG) fun _ _ hs => hs.mono fun db hdb =>
    ⟨(h db hdb).1,fun _ hb => Except.ok.inj hb ▸ (h db hdb).2⟩

/-- What is known of a value is at hand in the rest of the program. -/
theorem serving_of_ok {β : Type} {T : β → Prop} {b : β} {p : WorkerM D α} {Q : Py α → Fleet D ι → Prop}
    (h : T b → Serving o pg i J (Reading i F) p Q) :
    Serving o pg i J (Reading i fun db => F db ∧ ∀ b', (.ok b : Py β) = .ok b' → T b') p Q :=
  fun s hI hs => h (hs.2.2 b rfl) s hI ⟨hs.1,hs.2.1⟩

theorem reading_of_error {A : Database → Prop} {e : PyErr} {T : α → Database → Prop}
    (h : Reading i (fun db => F db ∧ A db) s) :
    Reading i (fun db => F db ∧ ∀ a, (.error e : Py α) = .ok a → T a db) s :=
  h.mono fun db hdb => ⟨hdb.1,fun _ hr => by cases hr⟩

theorem reading_rollback (h : Reading i F s) : Reading i F (s.rollback i) := ⟨blank_rollback s i,h.2⟩

theorem reading_exec {op : WorkerOp D} {r : op.Resp} (h : Reading i F s) (he : Fleet.exec o pg i op s = .ok (r,t))
    (hop : op.NoSql) : Reading i F t := by
  rw [Reading, (Fleet.exec_noSql hop he).1]
  exact h

theorem serving_latestVersion (hF : Lasts F) :
    Serving o pg i J (Reading i F) (execute .latestVersion) (fun r => Reading i fun db =>
      F db ∧ ∀ latest, r = .ok latest → ∀ v row, latest = some (v,row) → db.versions.get? v = some row) := by
  refine serving_query hF (fun latest db db' hk h v row heq => lasts_version v row db db' hk (h v row heq)) ?_
  intro n now locked db latest ws _ heffect
  obtain ⟨rfl,rfl⟩ := Effect.does.inj heffect
  refine ⟨rfl,fun v row heq => ?_⟩
  have hin := (pg.perm n db.latest).mem_iff.mp (List.mem_of_mem_head? heq)
  exact Dict.get?_eq_some.mpr (List.mem_filter.mp hin).1

/-- The rows are of different checkpoints of the version. -/
def RowsOf (row : VersionRow) (rows : List (ℕ × String)) (db : Database) : Prop :=
  ∃ used : List (String × CheckpointRow), (∀ e ∈ used, db.checkpoints.get? e.1 = some e.2) ∧
    (used.map Prod.fst).Nodup ∧ used.map Prod.fst ⊆ row.shardCheckpoints.values ∧
    rows = used.map fun e => (e.2.shard,e.2.filePath)

theorem lasts_rowsOf (row : VersionRow) (rows : List (ℕ × String)) : Lasts (RowsOf row rows) :=
  fun db db' hk h => h.imp fun used hused => ⟨lasts_checkpoints used db db' hk hused.1,hused.2⟩

theorem serving_checkpointPaths (hF : Lasts F) (row : VersionRow) :
    Serving o pg i J (Reading i F) (execute (.checkpointPaths row.shardCheckpoints.values))
      (fun r => Reading i fun db => F db ∧ ∀ rows, r = .ok rows → RowsOf row rows db) := by
  refine serving_query hF (lasts_rowsOf row) ?_
  intro n now locked db rows ws _ heffect
  obtain ⟨rfl,rfl⟩ := Effect.does.inj heffect
  obtain ⟨used,hrows,hused⟩ := exists_map_of_perm (pg.perm n (db.paths row.shardCheckpoints.values))
  have hin : ∀ e ∈ used, e ∈ db.checkpoints.entries ∧ e.1 ∈ row.shardCheckpoints.values := fun e he => by
    obtain ⟨hentry,hhash⟩ := List.mem_filter.mp (hused.mem_iff.mp he)
    exact ⟨hentry,of_decide_eq_true hhash⟩
  refine ⟨rfl,used,fun e he => Dict.get?_eq_some.mpr (hin e he).1,?_,?_,hrows⟩
  · rw [(hused.map Prod.fst).nodup_iff]
    exact db.checkpoints.nodup.sublist (List.filter_sublist.map _)
  · intro hash hhash
    obtain ⟨e,he,rfl⟩ := List.mem_map.mp hhash
    exact (hin e he).2

theorem RowsOf.locates {v : String} {row : VersionRow} {rows : List (ℕ × String)} {db : Database}
    (h : RowsOf row rows db) (hrow : db.versions.get? v = some row)
    (hnone : row.shardCheckpoints.keys.filter (· ∉ shardPaths rows) = []) :
    Locates v (shardPaths rows).entries db := by
  obtain ⟨used,honRecord,hnodup,hsub,rfl⟩ := h
  refine ⟨row,used,hrow,placed_of_covers honRecord hnodup hsub fun shard hshard => ?_⟩
  by_contra hmissing
  have hin : shard ∈ row.shardCheckpoints.keys.filter
      (· ∉ shardPaths (used.map fun e => (e.2.shard,e.2.filePath))) :=
    List.mem_filter.mpr ⟨hshard,decide_eq_true hmissing⟩
  rw [hnone] at hin
  cases hin

/-- A version is served with the paths of its checkpoints. -/
theorem serving_currentModel (hF : Lasts F) :
    Serving o pg i J (Reading i F) (Gateway.currentModel : WorkerM D (String × Dict String String))
      (fun r => Reading i fun db => F db ∧ ∀ served, r = .ok served → Locates served.1 served.2.entries db) := by
  refine (serving_latestVersion hF).bind (fun latest => ?_) fun e s _ h => reading_of_error h
  cases latest with
  | none => exact (serving_throw hF).mono (fun s _ h => h.mono fun _ hdb => hdb.1) fun _ _ _ h => h
  | some e =>
    obtain ⟨v,row⟩ := e
    have hversion : Lasts fun db => F db ∧ db.versions.get? v = some row := lasts_and hF (lasts_version v row)
    refine ((serving_checkpointPaths hversion row).mono
      (fun s _ h => h.mono fun db hdb => ⟨hdb.1,hdb.2 _ rfl v row rfl⟩) fun _ _ _ h => h).bind (fun rows => ?_)
        fun e s _ h => reading_of_error (h.mono fun db hdb => ⟨hdb.1.1,hdb.1.2⟩)
    dsimp only
    split
    · next hnone =>
      have hrows : Lasts fun db => (F db ∧ db.versions.get? v = some row) ∧
          ∀ rows', (Except.ok rows : Py _) = .ok rows' → RowsOf row rows' db :=
        lasts_and hversion (lasts_ok (lasts_rowsOf row))
      exact serving_pure hrows fun db hdb =>
        ⟨hdb.1.1,(hdb.2 rows rfl).locates hdb.1.2 (List.isEmpty_iff.mp hnone)⟩
    · exact (serving_throw hF).mono (fun s _ h => h.mono fun _ hdb => hdb.1.1) fun _ _ _ h => h

theorem found_eq_ok {path : String} {x : Option α} {a : α} : found path x = .ok a ↔ x = some a := by
  cases x <;> simp [found, raise]

/-- An operation that reads a file while `J` holds. -/
theorem serving_read (op : WorkerOp D) (A : op.Resp → Prop) (hF : Lasts F) (hop : op.NoSql)
    (hcaches : op.Caches J) {next : op.Resp → WorkerM D α} {Q : Py α → Fleet D ι → Prop}
    (hread : ∀ s r t, Fleet.Tidy J i s → J s → Worker.exec o pg i op s.world = .ok (r,t) → A r)
    (hnext : ∀ r, Serving o pg i J (Reading i fun db => F db ∧ A r) (next r) Q) :
    Serving o pg i J (Reading i F) (.call op next) Q := by
  refine contract_call (R := fun r => Reading i fun db => F db ∧ A r) (Reading.stable hF) (fun _ _ _ => hcaches)
    (fun s hI hs r t he _ => ?_) hnext
  have hanswer := hread s r t.world hI.1 hI.2 (Fleet.exec_eq_ok.mp he).1
  exact (reading_exec hs he hop).mono fun db hdb => ⟨hdb,hanswer⟩

theorem serving_readCopy (hF : Lasts F) (path : String) : Serving o pg i J (Reading i F) (readCopy path)
    (fun r => Reading i fun db => F db ∧ ∀ artifact, r = .ok artifact → CopyAt J path artifact) := by
  refine serving_read (.readCopy path) (fun r => ∀ artifact, r = .ok artifact → CopyAt J path artifact)
    hF trivial trivial (fun s r t _ hJ he artifact hartifact => ?_)
    fun r => contract_lift (Reading.stable (lasts_and hF fun _ _ _ h => h)) fun _ _ h => h
  obtain ⟨hr,-⟩ := Prod.mk.inj (Except.ok.inj he)
  exact ⟨s,hJ,found_eq_ok.mp (hr.trans hartifact)⟩

theorem serving_readPreproc (hF : Lasts F) (shard : String) : Serving o pg i J (Reading i F) (readPreproc shard)
    (fun r => Reading i fun db => F db ∧ ∀ text, r = .ok text → PreprocAt J shard text) := by
  refine serving_read (.readPreproc shard) (fun r => ∀ text, r = .ok text → PreprocAt J shard text)
    hF trivial trivial (fun s r t _ hJ he text htext => ?_)
    fun r => contract_lift (Reading.stable (lasts_and hF fun _ _ _ h => h)) fun _ _ h => h
  obtain ⟨hr,-⟩ := Prod.mk.inj (Except.ok.inj he)
  exact ⟨s,hJ,found_eq_ok.mp (hr.trans htext)⟩

/-- A model and a preprocessor are read for each path. -/
theorem serving_loadShardModels (hF : Lasts F) (paths : List (String × String)) :
    Serving o pg i J (Reading i F) (loadShardModels paths) (fun r => Reading i fun db => F db ∧
      ∀ models, r = .ok models → Ensemble.ReadFrom J paths (.shards models)) := by
  induction paths with
  | nil => exact serving_pure hF fun db hdb => ⟨hdb,.nil⟩
  | cons e paths ih =>
    obtain ⟨shard,path⟩ := e
    refine (serving_readCopy hF path).bind (fun artifact => ?_) fun _ _ _ h => reading_of_error h
    refine serving_of_ok fun hcopy => (serving_lift hF _).bind (fun weights => ?_) fun _ _ _ h => reading_of_error h
    refine serving_of_ok fun hweights => (serving_readPreproc hF shard).bind (fun text => ?_)
      fun _ _ _ h => reading_of_error h
    refine serving_of_ok fun htext => ih.bind (fun models => ?_) fun _ _ _ h => reading_of_error h
    refine serving_of_ok fun hmodels => ?_
    have hartifact : artifact = .weights weights := by
      cases artifact with
      | weights w => exact congrArg _ (Except.ok.inj hweights)
      | booster b => cases hweights
      | unfinished => cases hweights
    exact serving_pure hF fun db hdb => ⟨hdb,.cons ⟨hartifact ▸ hcopy,htext⟩ hmodels⟩

theorem serving_loadBoosters (hF : Lasts F) (paths : List (String × String)) :
    Serving o pg i J (Reading i F) (loadBoosters paths) (fun r => Reading i fun db => F db ∧
      ∀ models, r = .ok models → Ensemble.ReadFrom J paths (.boosters models)) := by
  induction paths with
  | nil => exact serving_pure hF fun db hdb => ⟨hdb,.nil⟩
  | cons e paths ih =>
    obtain ⟨shard,path⟩ := e
    refine (serving_readCopy hF path).bind (fun artifact => ?_) fun _ _ _ h => reading_of_error h
    refine serving_of_ok fun hcopy => (serving_lift hF _).bind (fun booster => ?_) fun _ _ _ h => reading_of_error h
    refine serving_of_ok fun hbooster => ih.bind (fun models => ?_) fun _ _ _ h => reading_of_error h
    refine serving_of_ok fun hmodels => ?_
    have hartifact : artifact = .booster booster := by
      cases artifact with
      | weights w => cases hbooster
      | booster b => exact congrArg _ (Except.ok.inj hbooster)
      | unfinished => cases hbooster
    exact serving_pure hF fun db hdb => ⟨hdb,.cons (hartifact ▸ hcopy) hmodels⟩

/-- The models of a new ensemble are read from the paths, in some order. -/
theorem serving_newEnsemble (hF : Lasts F) (shardPaths : Dict String String) :
    Serving o pg i J (Reading i F) (newEnsemble o shardPaths) (fun r => Reading i fun db => F db ∧
      ∀ ensemble, r = .ok ensemble → ∃ paths, paths.Perm shardPaths.entries ∧ ensemble.ReadFrom J paths) := by
  refine (serving_lift hF _).bind (fun paths => serving_of_ok fun hpaths => ?_) fun _ _ _ h => reading_of_error h
  split
  · refine (serving_loadShardModels hF paths).bind (fun models => serving_of_ok fun hmodels => ?_)
      fun _ _ _ h => reading_of_error h
    split
    · exact serving_throw hF
    · exact serving_pure hF fun db hdb => ⟨hdb,paths,byShard_perm hpaths,hmodels⟩
  · refine (serving_loadBoosters hF paths).bind (fun models => serving_of_ok fun hmodels => ?_)
      fun _ _ _ h => reading_of_error h
    split
    · exact serving_throw hF
    · exact serving_pure hF fun db hdb => ⟨hdb,paths,byShard_perm hpaths,hmodels⟩

/-- So are those of an ensemble that comes out of the cache. -/
theorem serving_loadEnsemble (hF : Lasts F) (shardPaths : Dict String String) :
    Serving o pg i J (Reading i F) (loadEnsemble o shardPaths) (fun r => Reading i fun db => F db ∧
      ∀ ensemble, r = .ok ensemble → ∃ paths, paths.Perm shardPaths.entries ∧ ensemble.ReadFrom J paths) := by
  have hkey : (ensembleKey o shardPaths).2.Perm shardPaths.entries := ensembleKey_perm shardPaths
  have hcached : ∀ {s : Fleet D ι} {ensemble : Ensemble D}, Fleet.Tidy J i s →
      (s.world.ensembles i).get? (ensembleKey o shardPaths) = some ensemble →
      ∃ paths, paths.Perm shardPaths.entries ∧ ensemble.ReadFrom J paths := fun hI hin => by
    obtain ⟨paths,hperm,hread⟩ := hI.cached _ _ hin
    exact ⟨paths,hperm.trans hkey,hread⟩
  refine serving_read (.cachedEnsemble (ensembleKey o shardPaths)) (fun hit => ∀ ensemble, hit = some ensemble →
      ∃ paths, paths.Perm shardPaths.entries ∧ ensemble.ReadFrom J paths)
    hF trivial trivial (fun s r t htidy _ he ensemble hhit => ?_) fun hit => ?_
  · obtain ⟨hr,-⟩ := Prod.mk.inj (Except.ok.inj he)
    exact hcached htidy (hr.trans hhit)
  cases hit with
  | some hit => exact serving_pure (lasts_and hF fun _ _ _ h => h) fun db hdb => ⟨hdb.1,hdb.2 hit rfl⟩
  | none =>
    refine ((serving_newEnsemble hF shardPaths).mono (fun s _ h => h.mono fun _ hdb => hdb.1) fun _ _ _ h => h).bind
      (fun ensemble => serving_of_ok fun hnew => ?_) fun _ _ _ h => reading_of_error h
    obtain ⟨paths,hperm,hread⟩ := hnew
    refine serving_read (.cacheEnsemble (ensembleKey o shardPaths) ensemble)
      (fun cached => ∃ paths, paths.Perm shardPaths.entries ∧ cached.ReadFrom J paths)
      hF trivial ⟨paths,hperm.trans hkey.symm,hread⟩ (fun s r t htidy _ he => ?_)
      fun cached => serving_pure (lasts_and hF fun _ _ _ h => h) fun db hdb => hdb
    obtain ⟨hr,-⟩ := Prod.mk.inj (Except.ok.inj he)
    rw [← hr]
    cases hin : (s.world.ensembles i).get? (ensembleKey o shardPaths) with
    | none => exact ⟨paths,hperm,hread⟩
    | some cached => exact hcached htidy hin

/-- A prediction is scored with the models of the version it names. -/
theorem serving_servedEnsemble (hF : Lasts F) : Serving o pg i J (Reading i F) (Gateway.servedEnsemble o)
    (fun r => Reading i fun db => F db ∧ ∀ served, r = .ok served → Complete J served.1 served.2 db) := by
  have hfound : ∀ (x : Py (String × Dict String String)), Lasts fun db => F db ∧
      ∀ served, x = .ok served → Locates served.1 served.2.entries db :=
    fun x => lasts_and hF (lasts_ok fun served => lasts_locates served.1 served.2.entries)
  have hstable : ∀ r : Py (Py (String × Dict String String)), Stable (Fleet.RelyKept i) fun s : Fleet D ι =>
      ∃ x, r = .ok x ∧
        Reading i (fun db => F db ∧ ∀ served, x = .ok served → Locates served.1 served.2.entries db) s := by
    rintro r s t ⟨x,rfl,hx⟩ hr
    exact ⟨x,rfl,Reading.stable (hfound x) s t hx hr⟩
  refine (serving_currentModel hF).attempt.bind (fun current => ?_) fun e s _ h => ?_
  · cases current with
    | error e =>
      refine contract_call (R := fun _ => Reading i F) (hstable _) (fun _ _ _ => trivial) (fun s _ hs r t he _ => ?_)
        fun _ => serving_throw hF
      obtain ⟨x,-,hx⟩ := hs
      rw [Fleet.exec_rollback he]
      exact reading_rollback (hx.mono fun _ hdb => hdb.1)
    | ok served =>
      obtain ⟨v,shardPaths⟩ := served
      have hversion : Lasts fun db => F db ∧ Locates v shardPaths.entries db := lasts_and hF (lasts_locates _ _)
      refine contract_call (R := fun _ => Reading i fun db => F db ∧ Locates v shardPaths.entries db) (hstable _)
        (fun _ _ _ => trivial) (fun s _ hs r t he _ => ?_) fun _ => ?_
      · obtain ⟨x,hx,hread⟩ := hs
        rw [Fleet.exec_rollback he]
        exact reading_rollback (hread.mono fun db hdb => ⟨hdb.1,hdb.2 (v,shardPaths) (Except.ok.inj hx).symm⟩)
      · refine (serving_loadEnsemble hversion shardPaths).bind (fun ensemble => serving_of_ok fun hloaded => ?_)
          fun e s _ h => reading_of_error (h.mono fun db hdb => ⟨hdb.1.1,hdb.1.2⟩)
        obtain ⟨paths,hperm,hread⟩ := hloaded
        refine serving_pure hversion fun db hdb => ⟨hdb.1,?_⟩
        obtain ⟨row,used,hrow,hplaced⟩ := hdb.2
        obtain ⟨used',hplaced'⟩ := hplaced.perm hperm
        exact ⟨paths,⟨row,used',hrow,hplaced'⟩,hread⟩
  · obtain ⟨x,hx,-⟩ := h
    cases hx

end Serving

section Responses

def responses (o : Outside D) : ℕ → WorkerM D (List (Py (String × Ensemble D)))
  | 0 => Pure.pure []
  | requests + 1 => do
    let response ← (Gateway.servedEnsemble o).attempt
    let rest ← responses o requests
    Pure.pure (response :: rest)

variable {i : ι} {J : Fleet D ι → Prop} {F : Database → Prop}

/-- Each response that is not an error is of a whole version. -/
def Whole (J : Fleet D ι → Prop) (answers : List (Py (String × Ensemble D))) (db : Database) : Prop :=
  ∀ v ensemble, .ok (v,ensemble) ∈ answers → Complete J v ensemble db

omit [DecidableEq ι] in
theorem lasts_whole (answers : List (Py (String × Ensemble D))) : Lasts (Whole J answers) :=
  fun db db' hk h v ensemble hin => lasts_complete v ensemble db db' hk (h v ensemble hin)

theorem serving_responses (hF : Lasts F) (requests : ℕ) : Serving o pg i J (Reading i F) (responses o requests)
    (fun r => Reading i fun db => F db ∧ ∀ answers, r = .ok answers → Whole J answers db) := by
  induction requests generalizing F with
  | zero =>
    refine serving_pure hF fun db hdb => ⟨hdb,fun v ensemble hin => ?_⟩
    cases hin
  | succ requests ih =>
    refine (serving_servedEnsemble hF).attempt.bind (fun response => ?_) fun e s _ h => ?_
    · have hone : Lasts (Whole J [response]) := lasts_whole [response]
      refine ((ih (lasts_and hF hone)).mono (fun s _ h => ?_) fun _ _ _ h => h).bind (fun rest => ?_)
        fun e s _ h => reading_of_error (h.mono fun db hdb => ⟨hdb.1.1,hdb.1.2⟩)
      · obtain ⟨x,hx,hread⟩ := h
        refine hread.mono fun db hdb => ⟨hdb.1,fun v ensemble hin => ?_⟩
        rw [Except.ok.inj hx] at hin
        exact hdb.2 (v,ensemble) (List.mem_singleton.mp hin).symm
      · have hboth : Lasts fun db => (F db ∧ Whole J [response] db) ∧
            ∀ answers, (Except.ok rest : Py _) = .ok answers → Whole J answers db :=
          lasts_and (lasts_and hF hone) (lasts_ok lasts_whole)
        refine serving_pure hboth fun db hdb => ⟨hdb.1.1,fun v ensemble hin => ?_⟩
        rcases List.mem_cons.mp hin with hfirst | hrest
        · exact hdb.1.2 v ensemble (List.mem_singleton.mpr hfirst)
        · exact hdb.2 rest rfl v ensemble hrest
    · obtain ⟨x,hx,-⟩ := h
      cases hx

def Between {α : Type} (o : Outside D) (pg : Postgres)
    (p q : Pool ι (WorkerOp D) WorkerOp.Resp PyErr α (Fleet D ι)) (s : Fleet D ι) : Prop :=
  ∃ c, (fleet o pg).Reaches p c ∧ (fleet o pg).Reaches c q ∧ c.2 = s

/-- Whatever the other processes run, a prediction that is answered names a version on record and is scored
with the models that were in the files of its checkpoints: each checkpoint of the version once, for each of
its shards one, and the one the version has for the shard where every checkpoint is recorded for its own. -/
theorem served_whole {pool : ι → WorkerM D (List (Py (String × Ensemble D)))} {w : World D ι} (hw : Quiescent w)
    {requests : ℕ} (hcache : w.ensembles i = Dict.empty) (hserves : pool i = responses o requests)
    {q : Pool ι (WorkerOp D) WorkerOp.Resp PyErr (List (Py (String × Ensemble D))) (Fleet D ι)}
    (h : (fleet o pg).Reaches (pool,Fleet.start w) q) {answers : List (Py (String × Ensemble D))}
    (hdone : q.1 i = .pure answers) {v : String} {ensemble : Ensemble D} (hin : .ok (v,ensemble) ∈ answers) :
    ∃ row, ∃ used : List (String × CheckpointRow), q.2.server.committed.versions.get? v = some row ∧
      (∀ e ∈ used, q.2.server.committed.checkpoints.get? e.1 = some e.2) ∧
      (used.map Prod.fst).Perm row.shardCheckpoints.values ∧
      (used.map fun e => toString e.2.shard).Perm row.shardCheckpoints.keys ∧
      ensemble.ReadFrom (Between o pg (pool,Fleet.start w) q)
        (used.map fun e => (toString e.2.shard,e.2.filePath)) ∧
      ((∀ shard hash checkpoint, row.shardCheckpoints.get? shard = some hash →
        q.2.server.committed.checkpoints.get? hash = some checkpoint → toString checkpoint.shard = shard) →
        (used.map fun e => (toString e.2.shard,e.1)).Perm row.shardCheckpoints.entries) := by
  have htidy : ∀ J, Fleet.Tidy J i (Fleet.start w) := by
    refine fun J => ⟨hw.locks,fun key ensemble hcached => ?_⟩
    rw [show (Fleet.start w).world.ensembles i = Dict.empty from hcache] at hcached
    cases hcached
  let J := Between o pg (pool,Fleet.start w) q
  let promised : ι → Py (List (Py (String × Ensemble D))) → Fleet D ι → Prop :=
    fun j r s => j = i → ∀ answers, r = .ok answers → Whole J answers s.server.committed
  have hobedient : ∀ j, (fleet o pg).Obedient (fun s => Fleet.Tidy J i s ∧ J s) Fleet.RelyKept
      (fun j op _ => j = i → op.Caches J) promised (pool,Fleet.start w) j := by
    intro j
    refine Or.inr ?_
    dsimp only
    have hstart : Fleet.Tidy J i (Fleet.start w) ∧ J (Fleet.start w) := ⟨htidy J,_,.refl,h,rfl⟩
    by_cases hj : j = i
    · subst hj
      rw [hserves]
      have hresponses : (responses o requests).Obeys (Fleet.exec o pg j) (fun s => Fleet.Tidy J j s ∧ J s)
          (Fleet.RelyKept j) (fun op _ => op.Caches J) _ (Fleet.start w) :=
        serving_responses lasts_true requests (Fleet.start w) hstart ⟨hw.writesOf j,trivial⟩
      have hpromised := hresponses.mono fun r s _ (hs : Reading j _ s) => show promised j r s from fun _ => hs.2.2
      exact hpromised.weaken (performs_trivial _) (fun _ h => h) (fun _ _ h => h) fun _ _ _ hcaches _ => hcaches
    · have hany : Contract (Fleet.exec o pg j) (fun s => Fleet.Tidy J i s ∧ J s) (Fleet.RelyKept j)
          (fun op _ => j = i → op.Caches J) (fun _ => True) (pool j) (fun _ _ => True) :=
        contract_of_performs (performs_trivial _) (fun _ _ h _ => h) (fun _ _ _ _ _ heq => absurd heq hj)
          fun _ _ _ _ _ _ h _ => h
      exact (hany (Fleet.start w) hstart trivial).mono fun _ _ _ _ heq => absurd heq hj
  obtain ⟨htidy',hobeys⟩ := h.obeys_between (Fleet.respects_caches o pg J i) (htidy J)
    (fun c hc hcq => ⟨c,hc,hcq,rfl⟩) hobedient
  rcases hobeys i with ⟨e,he⟩ | hi
  · cases hdone.symm.trans he
  · rw [hdone] at hi
    obtain ⟨paths,⟨row,used,hrow,hplaced⟩,hread⟩ :=
      hi q.2 .refl ⟨htidy',q,h,.refl,rfl⟩ rfl answers rfl v ensemble hin
    rw [hplaced.paths] at hread
    exact ⟨row,used,hrow,hplaced.onRecord,hplaced.checkpoints,hplaced.shards,hread,hplaced.entries⟩

section Sample

def sampleServing : Pool Bool (WorkerOp (logging 2)) WorkerOp.Resp PyErr (List (Py (String × Ensemble (logging 2))))
    (Fleet (logging 2) Bool) :=
  (fun _ => responses sampleOutside 2,Fleet.start sampleLoad.2.world)

def sampleServed : Pool Bool (WorkerOp (logging 2)) WorkerOp.Resp PyErr (List (Py (String × Ensemble (logging 2))))
    (Fleet (logging 2) Bool) :=
  ((fleet sampleOutside Postgres.inOrder).next false)^[15] sampleServing

def versionsOf : WorkerM (logging 2) (List (Py (String × Ensemble (logging 2)))) → Option (List (Option String))
  | .pure answers => some (answers.map fun response => response.toOption.map Prod.fst)
  | _ => none

theorem exists_of_versionsOf {p : WorkerM (logging 2) (List (Py (String × Ensemble (logging 2))))} {v : String}
    (h : versionsOf p = some [some v,some v]) : ∃ answers ensemble, p = .pure answers ∧ .ok (v,ensemble) ∈ answers := by
  unfold versionsOf at h
  split at h
  · next answers =>
    have hin : some v ∈ answers.map fun response => response.toOption.map Prod.fst := by
      rw [Option.some.inj h]
      exact List.mem_cons_self
    obtain ⟨response,hresponse,hv⟩ := List.mem_map.mp hin
    cases response with
    | error e => cases hv
    | ok served =>
      refine ⟨answers,served.2,rfl,?_⟩
      rwa [show (v,served.2) = served from Prod.ext (Option.some.inj hv).symm rfl]
  · cases h

theorem served_whole_sample : ∃ answers ensemble row, ∃ used : List (String × CheckpointRow),
    sampleServed.1 false = .pure answers ∧ .ok ("v0-baseline",ensemble) ∈ answers ∧
    sampleServed.2.server.committed.versions.get? "v0-baseline" = some row ∧
    (used.map fun e => toString e.2.shard).Perm row.shardCheckpoints.keys ∧
    ensemble.ReadFrom (Between sampleOutside Postgres.inOrder sampleServing sampleServed)
      (used.map fun e => (toString e.2.shard,e.2.filePath)) := by
  have hquiescent : Quiescent sampleLoad.2.world :=
    Dict.ext (List.isEmpty_iff.mp (show sampleLoad.2.world.server.sessions.entries.isEmpty = true by decide +kernel))
  have hcache : sampleLoad.2.world.ensembles false = Dict.empty :=
    Dict.ext (List.isEmpty_iff.mp (show (sampleLoad.2.world.ensembles false).entries.isEmpty = true by decide +kernel))
  obtain ⟨answers,ensemble,hanswers,hin⟩ :=
    exists_of_versionsOf (p := sampleServed.1 false) (v := "v0-baseline") (by decide +kernel)
  have hreaches := Machine.reaches_iterate (M := fleet sampleOutside Postgres.inOrder) false 15 sampleServing
  obtain ⟨row,used,hrow,-,-,hshards,hread,-⟩ := served_whole hquiescent hcache rfl hreaches hanswers hin
  exact ⟨answers,ensemble,row,used,hanswers,hin,hrow,hshards,hread⟩

end Sample

end Responses

end UnlearnShield.Worker
