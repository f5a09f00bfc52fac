import UnlearnShield.Db.Server

/-! # What statements do

The rows each statement writes when nothing is locked, and the rows that a list of writes
leaves alone.
-/
namespace UnlearnShield.Db

theorem Database.writes_subjects (db : Database) (entries : List (Ref × RoutingEntry)) :
    db.writes (entries.map fun e => .subject e.1 e.2) =
      {db with subjectShardMap := db.subjectShardMap.insertAll entries} := by
  induction entries generalizing db with
  | nil => rfl
  | cons e entries ih => exact ih _

def upserted (old : Dict Ref RoutingEntry) (entries : List (Ref × RoutingEntry)) : List (Ref × RoutingEntry) :=
  entries.map fun e => (e.1,match old.get? e.1 with
    | some entry => {e.2 with tenantId := entry.tenantId}
    | none => e.2)

theorem update_free (ws : List Write) : update (fun _ => false) ws = .does () ws := by
  simp [update]

theorem insertNew_free (present : Bool) (w : Write) :
    insertNew (fun _ => false) present w = .does () (if present then [] else [w]) := by
  cases present <;> rfl

def Database.Latest (db : Database) : Option (String × VersionRow) → Prop
  | some e => e ∈ db.latest
  | none => db.latest = []

theorem Postgres.head?_arrange (pg : Postgres) (n : ℕ) (db : Database) : db.Latest (pg.arrange n db.latest).head? := by
  have hperm := pg.perm n db.latest
  cases h : pg.arrange n db.latest with
  | nil =>
    rw [h] at hperm
    exact List.nil_perm.mp hperm
  | cons e rest =>
    rw [h] at hperm
    exact hperm.mem_iff.mp List.mem_cons_self

def Database.paths (db : Database) (hashes : List String) : List (ℕ × String) :=
  (db.checkpoints.entries.filter fun e => e.1 ∈ hashes).map fun e => (e.2.shard,e.2.filePath)

theorem Database.mem_paths {db : Database} {hashes : List String} {shard : ℕ} {path : String} :
    (shard,path) ∈ db.paths hashes ↔
      ∃ h ∈ hashes, ∃ row, db.checkpoints.get? h = some row ∧ row.shard = shard ∧ row.filePath = path := by
  simp only [paths, List.mem_map, List.mem_filter, Prod.mk.injEq, decide_eq_true_eq]
  constructor
  · rintro ⟨e,⟨he,hh⟩,hs,hp⟩
    exact ⟨e.1,hh,e.2,Dict.get?_eq_some.mpr he,hs,hp⟩
  · rintro ⟨h,hh,row,hr,hs,hp⟩
    exact ⟨(h,row),⟨Dict.get?_eq_some.mp hr,hh⟩,hs,hp⟩

/-- What the statement is about: the jobs and manifests it may write are those of `ids`. -/
def Sql.Touches (ids : List Uuid) : Sql → Prop
  | .failJobs _ erasureIds => ∀ id ∈ erasureIds, id ∈ ids
  | .finishJob erasureId => erasureId ∈ ids
  | .insertManifest erasureId _ => erasureId ∈ ids
  | .reapExpired | .claimBatch .. | .upsertSubjects _ => False
  | _ => True

def Sql.Books : Sql → Prop
  | .failJobs .. | .finishJob _ | .insertManifest .. | .insertCheck .. => True
  | _ => False

def Write.About (ids : List Uuid) : Write → Prop
  | .subject .. => False
  | .job erasureId _ => erasureId ∈ ids
  | .manifest erasureId _ => erasureId ∈ ids
  | _ => True

theorem Sql.Touches.about {ids : List Uuid} {stmt : Sql} (h : stmt.Touches ids) {pg : Postgres} {n : ℕ} {now : Time}
    {db : Database} {answer : stmt.Answer} {ws : List Write}
    (he : stmt.effect pg n now (fun _ => false) db = .does answer ws) : ∀ w ∈ ws, w.About ids := by
  intro w hw
  cases stmt with
  | reapExpired => exact h.elim
  | claimBatch => exact h.elim
  | upsertSubjects => exact h.elim
  | failJobs lastError erasureIds =>
    rw [Sql.effect, update_free] at he
    obtain ⟨-,rfl⟩ := Effect.does.inj he
    obtain ⟨e,hmem,rfl⟩ := List.mem_map.mp hw
    exact h _ (of_decide_eq_true (List.mem_filter.mp hmem).2)
  | finishJob erasureId =>
    rw [Sql.effect, update_free] at he
    obtain ⟨-,rfl⟩ := Effect.does.inj he
    obtain ⟨e,hmem,rfl⟩ := List.mem_map.mp hw
    have hid : e.1 = erasureId := of_decide_eq_true (List.mem_filter.mp hmem).2
    exact (show e.1 ∈ ids from hid ▸ h)
  | insertManifest erasureId row =>
    rw [Sql.effect, foreignKey] at he
    split at he
    · rw [if_neg (by simp)] at he
      split at he
      · cases he
      · obtain ⟨-,rfl⟩ := Effect.does.inj he
        rw [List.mem_singleton.mp hw]
        exact h
    · cases he
  | insertCheckpoint | insertVersion =>
    rw [Sql.effect, insertNew_free] at he
    obtain ⟨-,rfl⟩ := Effect.does.inj he
    split at hw
    · cases hw
    · rw [List.mem_singleton.mp hw]
      trivial
  | insertEval | insertCheck =>
    rw [Sql.effect, foreignKey, insertNew_free] at he
    split at he
    · obtain ⟨-,rfl⟩ := Effect.does.inj he
      split at hw
      · cases hw
      · rw [List.mem_singleton.mp hw]
        trivial
    · cases he
  | latestVersion | checkpointPaths =>
    obtain ⟨-,rfl⟩ := Effect.does.inj he
    cases hw

structure Database.SameModels (db db' : Database) : Prop where
  versions : db'.versions = db.versions
  checkpoints : db'.checkpoints = db.checkpoints

theorem Database.SameModels.refl (db : Database) : db.SameModels db := ⟨rfl,rfl⟩

theorem Database.SameModels.trans {db db' db'' : Database} (h : db.SameModels db') (h' : db'.SameModels db'') :
    db.SameModels db'' := ⟨h'.versions.trans h.versions,h'.checkpoints.trans h.checkpoints⟩

theorem Sql.Books.sameModels {stmt : Sql} (h : stmt.Books) {pg : Postgres} {n : ℕ} {now : Time} {db : Database}
    {answer : stmt.Answer} {ws : List Write} (he : stmt.effect pg n now (fun _ => false) db = .does answer ws) :
    db.SameModels (db.writes ws) := by
  cases stmt with
  | failJobs | finishJob =>
    rw [Sql.effect, update_free] at he
    obtain ⟨-,rfl⟩ := Effect.does.inj he
    refine List.foldlRecOn (motive := db.SameModels) _ Database.write (.refl db) fun db' hdb write hwrite => ?_
    obtain ⟨e,-,rfl⟩ := List.mem_map.mp hwrite
    exact hdb.trans ⟨rfl,rfl⟩
  | insertManifest =>
    rw [Sql.effect, foreignKey] at he
    split at he
    · rw [if_neg (by simp)] at he
      split at he
      · cases he
      · obtain ⟨-,rfl⟩ := Effect.does.inj he
        exact ⟨rfl,rfl⟩
    · cases he
  | insertCheck =>
    rw [Sql.effect, foreignKey, insertNew_free] at he
    split at he
    · obtain ⟨-,rfl⟩ := Effect.does.inj he
      split <;> exact ⟨rfl,rfl⟩
    · cases he
  | _ => exact h.elim

structure Database.Grows (db db' : Database) : Prop where
  jobs : ∀ id ∈ db.jobs, id ∈ db'.jobs
  manifests : ∀ id ∈ db.manifests, id ∈ db'.manifests

structure Database.SameBut (ids : List Uuid) (db db' : Database) : Prop where
  jobs : ∀ id ∉ ids, db'.jobs.get? id = db.jobs.get? id
  manifests : ∀ id ∉ ids, db'.manifests.get? id = db.manifests.get? id
  subjects : db'.subjectShardMap = db.subjectShardMap

theorem Database.SameBut.refl (ids : List Uuid) (db : Database) : db.SameBut ids db :=
  ⟨fun _ _ => rfl,fun _ _ => rfl,rfl⟩

theorem Database.SameBut.trans {ids : List Uuid} {db db' db'' : Database} (h : db.SameBut ids db')
    (h' : db'.SameBut ids db'') :
    db.SameBut ids db'' :=
  ⟨fun id hid => (h'.jobs id hid).trans (h.jobs id hid),fun id hid => (h'.manifests id hid).trans (h.manifests id hid),
    h'.subjects.trans h.subjects⟩

theorem Database.SameBut.mono {ids ids' : List Uuid} {db db' : Database} (h : db.SameBut ids db')
    (hids : ∀ id ∈ ids, id ∈ ids') :
    db.SameBut ids' db' :=
  ⟨fun id hid => h.jobs id fun hin => hid (hids id hin),
    fun id hid => h.manifests id fun hin => hid (hids id hin),h.subjects⟩

theorem Database.Grows.refl (db : Database) : db.Grows db := ⟨fun _ h => h,fun _ h => h⟩

theorem Database.Grows.trans {db db' db'' : Database} (h : db.Grows db') (h' : db'.Grows db'') : db.Grows db'' :=
  ⟨fun id hid => h'.jobs id (h.jobs id hid),fun id hid => h'.manifests id (h.manifests id hid)⟩

theorem Database.grows_write (db : Database) (w : Write) : db.Grows (db.write w) := by
  cases w with
  | job erasureId job => exact ⟨fun id h => Dict.mem_insert.mpr (Or.inr h),fun _ h => h⟩
  | manifest erasureId row => exact ⟨fun _ h => h,fun id h => Dict.mem_insert.mpr (Or.inr h)⟩
  | _ => exact ⟨fun _ h => h,fun _ h => h⟩

theorem Write.About.sameBut {ids : List Uuid} {w : Write} (h : w.About ids) (db : Database) :
    db.SameBut ids (db.write w) := by
  cases w with
  | subject => exact h.elim
  | job erasureId job =>
    refine ⟨fun id hid => Dict.get?_insert_of_ne ?_ _,fun _ _ => rfl,rfl⟩
    rintro rfl
    exact hid h
  | manifest erasureId row =>
    refine ⟨fun _ _ => rfl,fun id hid => Dict.get?_insert_of_ne ?_ _,rfl⟩
    rintro rfl
    exact hid h
  | _ => exact ⟨fun _ _ => rfl,fun _ _ => rfl,rfl⟩

theorem Database.grows_writes (db : Database) (ws : List Write) : db.Grows (db.writes ws) := by
  induction ws generalizing db with
  | nil => exact .refl db
  | cons w ws ih => exact (db.grows_write w).trans (ih _)

theorem Database.sameBut_writes {ids : List Uuid} {ws : List Write} (h : ∀ w ∈ ws, w.About ids) (db : Database) :
    db.SameBut ids (db.writes ws) := by
  induction ws generalizing db with
  | nil => exact .refl ids db
  | cons w ws ih =>
    obtain ⟨hw,hws⟩ := List.forall_mem_cons.mp h
    exact (hw.sameBut db).trans (ih hws _)

/-- The rows of some jobs after an update of each. -/
theorem Database.writes_jobs (db : Database) (rows : List (Uuid × Job)) :
    db.writes (rows.map fun e => .job e.1 e.2) = {db with jobs := db.jobs.insertAll rows} := by
  induction rows generalizing db with
  | nil => rfl
  | cons e rows ih => exact ih _

/-- An update of the jobs that satisfy a condition on their id. -/
theorem Database.get?_jobs_update (db : Database) (P : Uuid → Bool) (f : Job → Job) (id : Uuid) :
    (db.writes ((db.jobs.entries.filter fun e => P e.1).map fun e => .job e.1 (f e.2))).jobs.get? id =
      if P id then (db.jobs.get? id).map f else db.jobs.get? id := by
  have hmap : (db.jobs.entries.filter fun e => P e.1).map (fun e => Write.job e.1 (f e.2)) =
      ((db.jobs.entries.filter fun e => P e.1).map fun e => (e.1,f e.2)).map fun e => .job e.1 e.2 := by
    rw [List.map_map]
    rfl
  rw [hmap, Database.writes_jobs]
  dsimp only
  have hkeys : ((db.jobs.entries.filter fun e => P e.1).map fun e => (e.1,f e.2)).map Prod.fst =
      (db.jobs.entries.filter fun e => P e.1).map Prod.fst := by
    rw [List.map_map]
    rfl
  have hn : (((db.jobs.entries.filter fun e => P e.1).map fun e => (e.1,f e.2)).map Prod.fst).Nodup := by
    rw [hkeys]
    exact db.jobs.nodup.sublist (List.filter_sublist.map _)
  cases hj : db.jobs.get? id with
  | none =>
    rw [Dict.get?_insertAll_of_notMem, hj]
    · simp
    · rw [hkeys]
      intro hmem
      obtain ⟨e,he,rfl⟩ := List.mem_map.mp hmem
      exact Dict.get?_eq_none.mp hj (List.mem_map_of_mem (List.mem_filter.mp he).1)
  | some job =>
    have hentry := Dict.get?_eq_some.mp hj
    by_cases hp : P id = true
    · rw [if_pos hp, Option.map_some]
      exact Dict.get?_insertAll_of_mem hn (List.mem_map.mpr ⟨(id,job),List.mem_filter.mpr ⟨hentry,hp⟩,rfl⟩) _
    · rw [if_neg hp, Dict.get?_insertAll_of_notMem, hj]
      rw [hkeys]
      intro hmem
      obtain ⟨e,he,rfl⟩ := List.mem_map.mp hmem
      exact hp (List.mem_filter.mp he).2

/-- Such an update writes nothing but jobs. -/
theorem Database.writes_update (db : Database) (P : Uuid → Bool) (f : Job → Job) :
    ∃ jobs, db.writes ((db.jobs.entries.filter fun e => P e.1).map fun e => .job e.1 (f e.2)) = {db with jobs := jobs} ∧
      ∀ id, jobs.get? id = if P id then (db.jobs.get? id).map f else db.jobs.get? id := by
  have hmap : (db.jobs.entries.filter fun e => P e.1).map (fun e => Write.job e.1 (f e.2)) =
      ((db.jobs.entries.filter fun e => P e.1).map fun e => (e.1,f e.2)).map fun e => .job e.1 e.2 := by
    rw [List.map_map]
    rfl
  refine ⟨_,(congrArg db.writes hmap).trans (db.writes_jobs _),fun id => ?_⟩
  rw [← db.get?_jobs_update P f id, hmap, db.writes_jobs]

/-- A row of a job after some writes is as it was or one of them. -/
theorem Database.get?_jobs_writes {db : Database} {ws : List Write} {id : Uuid} {job : Job}
    (h : (db.writes ws).jobs.get? id = some job) : db.jobs.get? id = some job ∨ .job id job ∈ ws := by
  induction ws generalizing db with
  | nil => exact Or.inl h
  | cons w ws ih =>
    rcases ih h with hold | hin
    · cases w with
      | job erasureId row =>
        rw [show (db.write (.job erasureId row)).jobs = db.jobs.insert erasureId row from rfl, Dict.get?_insert] at hold
        split at hold
        · next heq =>
          obtain rfl := Option.some.inj hold
          rw [heq]
          exact Or.inr List.mem_cons_self
        · exact Or.inl hold
      | _ => exact Or.inl hold
    · exact Or.inr (List.mem_cons_of_mem _ hin)

def Sql.Wrote (now : Time) (db : Database) (stmt : Sql) : Write → Prop
  | .subject .. => ∃ entries, stmt = .upsertSubjects entries
  | .job id job =>
    ∃ old, db.jobs.get? id = some old ∧ job.subjectRef = old.subjectRef ∧ (job.status = .done → stmt = .finishJob id)
  | .manifest id row => stmt = .insertManifest id row ∧ id ∉ db.manifests
  | .checkpoint checkpointHash row => stmt = .insertCheckpoint checkpointHash row ∧ checkpointHash ∉ db.checkpoints
  | .version modelVersion row =>
    ∃ shardCheckpoints evalSetVersion, stmt = .insertVersion modelVersion shardCheckpoints evalSetVersion ∧
      row = ⟨shardCheckpoints,evalSetVersion,now⟩ ∧ modelVersion ∉ db.versions
  | .eval .. => True
  | .check .. => True

section Effects
variable {locked : RowKey → Bool} {ws : List Write}

theorem update_eq_does {ws' : List Write} (h : update locked ws' = .does () ws) :
    ws' = ws ∧ ∀ w ∈ ws, locked w.key = false := by
  rw [update] at h
  split at h
  · cases h
  · next hfree =>
    obtain ⟨-,rfl⟩ := Effect.does.inj h
    rw [Bool.not_eq_true, List.any_eq_false] at hfree
    exact ⟨rfl,fun w hw => by simpa using hfree w hw⟩

theorem insertNew_eq_does {present : Bool} {write w : Write} (h : insertNew locked present write = .does () ws)
    (hw : w ∈ ws) :
    present = false ∧ w = write := by
  rw [insertNew] at h
  split at h
  · cases h
  · split at h
    · obtain ⟨-,rfl⟩ := Effect.does.inj h
      cases hw
    · next hp =>
      obtain ⟨-,rfl⟩ := Effect.does.inj h
      exact ⟨by simpa using hp,List.mem_singleton.mp hw⟩

theorem foreignKey_eq_does {present : Bool} {effect : Effect Unit} (h : foreignKey present effect = .does () ws) :
    effect = .does () ws := by
  rw [foreignKey] at h
  split at h
  · exact h
  · cases h

end Effects

theorem Sql.wrote {stmt : Sql} {pg : Postgres} {n : ℕ} {now : Time} {locked : RowKey → Bool} {db : Database}
    {answer : stmt.Answer} {ws : List Write} (he : stmt.effect pg n now locked db = .does answer ws) :
    ∀ w ∈ ws, stmt.Wrote now db w := by
  intro w hw
  cases stmt with
  | reapExpired =>
    obtain ⟨rfl,-⟩ := update_eq_does he
    obtain ⟨e,hmem,rfl⟩ := List.mem_map.mp hw
    exact ⟨e.2,Dict.get?_eq_some.mpr (List.mem_filter.mp hmem).1,rfl,by simp [Job.requeued]⟩
  | claimBatch workerId leaseSeconds limit =>
    obtain ⟨-,rfl⟩ := Effect.does.inj he
    obtain ⟨e,hmem,rfl⟩ := List.mem_map.mp hw
    have hin := (List.perm_insertionSort _ _).mem_iff.mp (List.mem_of_mem_take hmem)
    have hrow := (pg.perm n db.jobs.entries).mem_iff.mp (List.mem_filter.mp hin).1
    exact ⟨e.2,Dict.get?_eq_some.mpr hrow,rfl,by simp [Job.claimed]⟩
  | failJobs lastError erasureIds =>
    obtain ⟨rfl,-⟩ := update_eq_does he
    obtain ⟨e,hmem,rfl⟩ := List.mem_map.mp hw
    exact ⟨e.2,Dict.get?_eq_some.mpr (List.mem_filter.mp hmem).1,rfl,by simp [Job.failedWith]⟩
  | finishJob erasureId =>
    obtain ⟨rfl,-⟩ := update_eq_does he
    obtain ⟨e,hmem,rfl⟩ := List.mem_map.mp hw
    obtain ⟨hmem,hid⟩ := List.mem_filter.mp hmem
    exact ⟨e.2,Dict.get?_eq_some.mpr hmem,rfl,fun _ => by rw [of_decide_eq_true hid]⟩
  | insertManifest erasureId row =>
    have heffect := foreignKey_eq_does he
    split at heffect
    · cases heffect
    · split at heffect
      · cases heffect
      · next hfresh =>
        obtain ⟨-,rfl⟩ := Effect.does.inj heffect
        rw [List.mem_singleton.mp hw]
        exact ⟨rfl,hfresh⟩
  | insertCheckpoint =>
    obtain ⟨hfresh,rfl⟩ := insertNew_eq_does he hw
    exact ⟨rfl,of_decide_eq_false hfresh⟩
  | insertVersion =>
    obtain ⟨hfresh,rfl⟩ := insertNew_eq_does he hw
    exact ⟨_,_,rfl,rfl,of_decide_eq_false hfresh⟩
  | insertEval | insertCheck =>
    obtain ⟨-,rfl⟩ := insertNew_eq_does (foreignKey_eq_does he) hw
    trivial
  | latestVersion | checkpointPaths =>
    obtain ⟨-,rfl⟩ := Effect.does.inj he
    cases hw
  | upsertSubjects entries =>
    obtain ⟨rfl,-⟩ := update_eq_does he
    obtain ⟨e,-,rfl⟩ := List.mem_map.mp hw
    exact ⟨entries,rfl⟩

theorem Database.subjects_writes {db : Database} {ws : List Write} (h : ∀ ref entry, .subject ref entry ∉ ws) :
    (db.writes ws).subjectShardMap = db.subjectShardMap := by
  induction ws generalizing db with
  | nil => rfl
  | cons w ws ih =>
    rw [Database.writes_cons, ih fun ref entry hin => h ref entry (List.mem_cons_of_mem _ hin)]
    cases w with
    | subject ref entry => exact absurd List.mem_cons_self (h ref entry)
    | _ => rfl

end UnlearnShield.Db
