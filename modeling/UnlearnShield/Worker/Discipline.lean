import UnlearnShield.Worker.Claimed
import UnlearnShield.Worker.Fleet

/-! # What a process does where

The programs of a fleet keep to what they may do, whatever the others do between their
operations. A worker has its books in order at each point of a batch: the manifests its
transaction has written are of jobs it leaves as done, and it still holds the jobs of the
groups to come.
-/
namespace UnlearnShield.Worker
open Db Engine Deployment Program Relation
variable {D : Deployment} {ι : Type} [DecidableEq ι]

abbrev Orderly (o : Outside D) (pg : Postgres) (i : ι) {α : Type} (P : Fleet D ι → Prop) (p : WorkerM D α)
    (Q : Py α → Fleet D ι → Prop) : Prop :=
  Contract (Fleet.exec o pg i) (Fleet.Consistent o) (Fleet.Rely i) (fun op s => s.Allowed o i op) P p Q

section Discipline
variable {o : Outside D} {pg : Postgres} {i : ι} {pending : List Uuid} {jobs : List ClaimedJob}
    {s t : Fleet D ι} {α : Type}

theorem orderly_execute {stmt : Sql} {P : Fleet D ι → Prop} {Q : Py stmt.Answer → Fleet D ι → Prop}
    (hP : Stable (Fleet.Rely i) P) (hQ : ∀ r, Stable (Fleet.Rely i) (Q r))
    (hmay : ∀ s, P s → s.Allowed o i (.sql stmt))
    (hok : ∀ s answer ws, s.Consistent o → P s →
      stmt.effect pg s.server.statements (s.server.session i).now (s.server.locked i) (s.server.view i) =
        .does answer ws →
      Q (.ok answer) (s.setServer (s.server.wrote i ws) s.held))
    (herror : ∀ s e, P s → Q (.error e) (s.setServer (s.server.abort i) s.held)) :
    Orderly o pg i P (execute stmt) Q := by
  refine contract_call (R := fun r s => Q r s) hP (fun s _ hs => hmay s hs) (fun s hI hs r t he _ => ?_)
    fun r => contract_lift (hQ r) fun _ _ h => h
  rcases Fleet.exec_sql he with ⟨answer,ws,rfl,rfl,heffect⟩ | ⟨⟨e,rfl⟩,rfl⟩
  · exact hok s answer ws hI hs heffect
  · exact herror s e hs

/-- The manifests written are of jobs left as done, but for one being recorded, and of none that is pending; the
jobs are held. -/
structure Books (i : ι) (opened : Option Uuid) (pending : List Uuid) (jobs : List ClaimedJob) (s : Fleet D ι) :
    Prop where
  booked : ∀ id row, .manifest id row ∈ s.server.writesOf i →
    id ∉ pending ∧ (opened = some id ∨ ∃ job, jobWritten id (s.server.writesOf i) = some job ∧ job.status = .done)
  held : ∀ job ∈ jobs, ∃ row, s.held i job.erasureId = some row ∧ row.subjectRef = job.subjectRef

theorem Fleet.Rely.writesOf (h : Fleet.Rely i s t) : t.server.writesOf i = s.server.writesOf i :=
  (Prod.ext_iff.mp (Prod.ext_iff.mp h.own).2).1

theorem Fleet.Rely.held (h : Fleet.Rely i s t) : t.held i = s.held i := (Prod.ext_iff.mp (Prod.ext_iff.mp h.own).2).2

namespace Books
variable {opened : Option Uuid}

theorem stable : Stable (Fleet.Rely i) (Books (D := D) i opened pending jobs) := by
  intro s t h hr
  refine ⟨?_,?_⟩
  · rw [hr.writesOf]
    exact h.booked
  · rw [hr.held]
    exact h.held

theorem mono {pending' : List Uuid} (h : Books i opened pending jobs s) (hp : ∀ id ∈ pending', id ∈ pending) :
    Books i opened pending' jobs s :=
  ⟨fun id row hin => ⟨fun hid => (h.booked id row hin).1 (hp id hid),(h.booked id row hin).2⟩,h.held⟩

/-- A transaction that has written nothing. -/
theorem blank (hw : s.server.writesOf i = [])
    (hheld : ∀ job ∈ jobs, ∃ row, s.held i job.erasureId = some row ∧ row.subjectRef = job.subjectRef)
    (opened : Option Uuid) (pending : List Uuid) : Books i opened pending jobs s := by
  refine ⟨fun id row hin => ?_,hheld⟩
  rw [hw] at hin
  cases hin

/-- An aborted transaction has written nothing. -/
theorem aborted (h : Books i opened pending jobs s) (opened' : Option Uuid) (pending' : List Uuid) :
    Books i opened' pending' jobs (s.setServer (s.server.abort i) s.held) := by
  have hw : (s.server.abort i).writesOf i = [] := by
    rw [Server.writesOf_abort, if_pos rfl]
  exact blank (s := s.setServer (s.server.abort i) s.held) hw h.held opened' pending'

/-- A statement that writes no manifest, and no job but those that are open or pending. -/
theorem wrote (h : Books i opened pending jobs s) {ws : List Write} (hm : ∀ id row, .manifest id row ∉ ws)
    {opened' : Option Uuid} {pending' : List Uuid} (hp : ∀ id ∈ pending', id ∈ pending)
    (hws : ∀ id, id ∉ pending → (opened ≠ some id ∧ ∀ job, .job id job ∉ ws) ∨ opened' = some id ∨
      ∃ job, jobWritten id ws = some job ∧ job.status = .done) :
    Books i opened' pending' jobs (s.setServer (s.server.wrote i ws) s.held) := by
  have hw : (s.server.wrote i ws).writesOf i = s.server.writesOf i ++ ws := by
    rw [Server.writesOf_wrote, if_pos rfl]
  refine ⟨fun id row hin => ?_,h.held⟩
  have hin' : .manifest id row ∈ s.server.writesOf i ++ ws := hw ▸ hin
  rw [show (s.setServer (s.server.wrote i ws) s.held).server.writesOf i = s.server.writesOf i ++ ws from hw,
    jobWritten_append]
  have hold := (List.mem_append.mp hin').resolve_right (hm id row)
  obtain ⟨hid,hdone⟩ := h.booked id row hold
  refine ⟨fun h' => hid (hp id h'),?_⟩
  rcases hws id hid with ⟨hopened,hno⟩ | hopened' | ⟨job,hjob,hst⟩
  · obtain ⟨job,hjob,hst⟩ := hdone.resolve_left hopened
    rw [jobWritten_eq_none.mpr hno, Option.none_or]
    exact Or.inr ⟨job,hjob,hst⟩
  · exact Or.inl hopened'
  · rw [hjob]
    exact Or.inr ⟨job,rfl,hst⟩

theorem plain (h : Books i none pending jobs s) {ws : List Write} (hws : ∀ w ∈ ws, w.plain = true) :
    Books i none pending jobs (s.setServer (s.server.wrote i ws) s.held) := by
  refine h.wrote (fun id row hin => ?_) (fun _ h => h) fun id _ => Or.inl ⟨by simp,fun job hin => ?_⟩
  · cases hws _ hin
  · cases hws _ hin

theorem closed (h : Books i none pending jobs s) : Closed (s.server.writesOf i) := by
  intro id row hin
  exact (h.booked id row hin).2.resolve_left (by simp)

end Books

def WorkerOp.Quiet : WorkerOp D → Prop
  | .sql stmt =>
    stmt.plain = true ∧ (∀ h row, stmt ≠ .insertCheckpoint h row) ∧ ∀ v map eval, stmt ≠ .insertVersion v map eval
  | .commit | .rollback | .readCopy _ => False
  | _ => True

theorem orderly_quiet {p : WorkerM D α} (hp : p.Performs WorkerOp.Quiet) :
    Orderly o pg i (Books i none pending jobs) p (fun _ => Books i none pending jobs) := by
  refine contract_of_performs hp Books.stable (fun op s hop _ _ => ?_) (fun op s r t hop _ hs he => ?_)
  · cases op with
    | sql stmt =>
      obtain ⟨hplain,hcheckpoint,hversion⟩ := hop
      cases stmt with
      | insertCheckpoint h row => exact absurd rfl (hcheckpoint h row)
      | insertVersion v map eval => exact absurd rfl (hversion v map eval)
      | _ => trivial
    | commit | readCopy => exact hop.elim
    | _ => trivial
  · cases op with
    | sql stmt =>
      rcases Fleet.exec_sql he with ⟨answer,ws,rfl,rfl,heffect⟩ | ⟨-,rfl⟩
      · exact hs.plain (Sql.writes_plain hop.1 heffect)
      · exact hs.aborted none pending
    | commit | rollback => exact hop.elim
    | _ =>
      obtain ⟨hserver,hheld⟩ := Fleet.exec_noSql (by trivial) he
      refine ⟨?_,?_⟩
      · rw [hserver]
        exact hs.booked
      · rw [hheld]
        exact hs.held

/-- What one is sure of and the others do not disturb. -/
theorem stable_and {P Q : Fleet D ι → Prop} (hP : Stable (Fleet.Rely i) P) (hQ : Stable (Fleet.Rely i) Q) :
    Stable (Fleet.Rely i) fun s => P s ∧ Q s := fun s t h hr => ⟨hP s t h.1 hr,hQ s t h.2 hr⟩

/-- A fact of an outcome, when it is the one expected. -/
theorem stable_ok {Q : α → Fleet D ι → Prop} (hQ : ∀ a, Stable (Fleet.Rely i) (Q a)) (r : Py α) :
    Stable (Fleet.Rely i) fun s => ∀ a, r = .ok a → Q a s := fun s t h hr a ha => hQ a s t (h a ha) hr

def OnFile (path : String) (s : Fleet D ι) : Prop := path ∈ s.world.cas

theorem OnFile.stable {path : String} : Stable (Fleet.Rely i) (OnFile (D := D) (ι := ι) path) :=
  fun _ _ h hr => hr.cas path h

def Sees (i : ι) (key : RowKey) (s : Fleet D ι) : Prop := (s.server.view i).Has key

theorem sees_iff {key : RowKey} : Sees i key s ↔ (∃ w ∈ s.server.writesOf i, w.key = key) ∨
    s.server.committed.Has key :=
  Database.has_writes

theorem Sees.stable {key : RowKey} : Stable (Fleet.Rely i) (Sees (D := D) i key) := by
  intro s t h hr
  rw [sees_iff] at h ⊢
  rw [hr.writesOf]
  exact h.imp_right (hr.rows key)

theorem Sees.wrote {key : RowKey} (h : Sees i key s) (ws : List Write) :
    Sees i key (s.setServer (s.server.wrote i ws) s.held) := by
  have hview : (s.setServer (s.server.wrote i ws) s.held).server.view i = (s.server.view i).writes ws :=
    s.server.view_wrote_self i ws
  rw [Sees, hview]
  exact Database.has_writes.mpr (Or.inr h)

theorem sees_wrote {w : Write} {ws : List Write} (h : w ∈ ws) :
    Sees i w.key (s.setServer (s.server.wrote i ws) s.held) := by
  have hview : (s.setServer (s.server.wrote i ws) s.held).server.view i = (s.server.view i).writes ws :=
    s.server.view_wrote_self i ws
  rw [Sees, hview]
  exact Database.has_writes.mpr (Or.inl ⟨w,h,rfl⟩)

section Models

/-- A copy is made. -/
theorem orderly_copyfile (shard : ℕ) (path : String) : Orderly o pg i (Books i none pending jobs) (copyfile shard path)
    (fun r s => Books i none pending jobs s ∧ ∀ u, r = .ok u → OnFile path s) := by
  have hopen : (.call (.openCopy shard path) orRaise : WorkerM D Unit).Performs WorkerOp.Quiet :=
    ⟨trivial,fun r => performs_lift r⟩
  refine (orderly_quiet hopen).bind (fun _ => ?_) fun e s _ h => ⟨h,fun _ he => by cases he⟩
  refine contract_call (R := fun r s => Books i none pending jobs s ∧ ∀ u, r = .ok u → OnFile path s) Books.stable
    (fun _ _ _ => trivial) (fun s _ hs r t he _ => ?_) fun r =>
      contract_lift (stable_and Books.stable (stable_ok (fun _ => OnFile.stable) r)) fun _ _ h => h
  obtain ⟨hserver,hheld⟩ := Fleet.exec_noSql (by trivial) he
  refine ⟨⟨by rw [hserver]; exact hs.booked,by rw [hheld]; exact hs.held⟩,fun u hu => ?_⟩
  obtain ⟨hw,-⟩ := Fleet.exec_eq_ok.mp he
  obtain ⟨hr,hcopied⟩ := Prod.mk.inj (Except.ok.inj hw)
  rw [OnFile, ← hcopied]
  rw [hu] at hr
  cases hlive : liveModel o.engine s.world.disk shard with
  | none =>
    rw [hlive] at hr
    cases hr
  | some artifact => exact Dict.mem_insert.mpr (Or.inl rfl)

/-- A promotion copies the model to the path of its digest. -/
theorem orderly_promoteArtifact (shard : ℕ) (resultWeights : String) :
    Orderly o pg i (Books i none pending jobs) (promoteArtifact o shard resultWeights)
      (fun r s => Books i none pending jobs s ∧ ∀ path, r = .ok path →
      path = casPath o resultWeights ∧ OnFile path s) := by
  have hexists : Orderly o pg i (Books i none pending jobs) (pathExists (casPath o resultWeights))
      (fun r s => Books i none pending jobs s ∧ (r = .ok true → OnFile (casPath o resultWeights) s)) := by
    refine contract_call (R := fun r s => Books i none pending jobs s ∧
      (r = true → OnFile (casPath o resultWeights) s)) Books.stable
      (fun _ _ _ => trivial) (fun s _ hs r t he _ => ?_) fun r => contract_pure ?_ fun s _ h =>
        ⟨h.1,fun hr => h.2 (Except.ok.inj hr)⟩
    · obtain ⟨hserver,hheld⟩ := Fleet.exec_noSql (by trivial) he
      obtain ⟨hw,-⟩ := Fleet.exec_eq_ok.mp he
      obtain ⟨hr,hsame⟩ := Prod.mk.inj (Except.ok.inj hw)
      refine ⟨⟨by rw [hserver]; exact hs.booked,by rw [hheld]; exact hs.held⟩,fun hu => ?_⟩
      rw [OnFile, ← hsame]
      exact of_decide_eq_true (hr.trans hu)
    · exact stable_and Books.stable fun s t h hr hu => OnFile.stable s t (h hu) hr
  refine hexists.bind (fun present => ?_) fun e s _ h => ⟨h.1,fun _ he => by cases he⟩
  split
  · next hp =>
    subst hp
    refine contract_pure (stable_and Books.stable fun s t h hr hu => OnFile.stable s t (h hu) hr) fun s _ h =>
      ⟨h.1,fun path hpath => ?_⟩
    rw [← Except.ok.inj hpath]
    exact ⟨rfl,h.2 rfl⟩
  · refine ((orderly_copyfile shard _).mono (fun _ _ h => h.1) fun _ _ _ h => h).bind (fun u => ?_) fun e s _ h =>
      ⟨h.1,fun _ he => by cases he⟩
    refine contract_pure (stable_and Books.stable (stable_ok (fun _ => OnFile.stable) _)) fun s _ h =>
      ⟨h.1,fun path hpath => ?_⟩
    rw [← Except.ok.inj hpath]
    exact ⟨rfl,h.2 u rfl⟩

/-- The row of a checkpoint whose file is there. -/
theorem orderly_insertCheckpoint (checkpointHash : String) (row : CheckpointRow)
    (hrow : row.filePath = casPath o checkpointHash) {P : Fleet D ι → Prop} (hP : Stable (Fleet.Rely i) P)
    (hwrote : ∀ s ws, P s → P (s.setServer (s.server.wrote i ws) s.held)) :
    Orderly o pg i (fun s => Books i none pending jobs s ∧ OnFile row.filePath s ∧ P s)
      (execute (.insertCheckpoint checkpointHash row))
      (fun r s => Books i none pending jobs s ∧ ∀ u, r = .ok u → P s ∧ Sees i (.checkpoint checkpointHash) s) := by
  refine orderly_execute (stable_and Books.stable (stable_and OnFile.stable hP))
    (fun r => stable_and Books.stable (stable_ok (fun _ => stable_and hP Sees.stable) r))
      (fun s h => ⟨hrow,h.2.1⟩) ?_ ?_
  · intro s answer ws _ h heffect
    refine ⟨h.1.plain (Sql.writes_plain rfl heffect),fun _ _ => ⟨hwrote s ws h.2.2,?_⟩⟩
    rw [Sql.effect, insertNew] at heffect
    split at heffect
    · cases heffect
    · split at heffect
      · next hpresent =>
        have hhas : checkpointHash ∈ (s.server.view i).checkpoints := of_decide_eq_true hpresent
        have hsees : Sees i (.checkpoint checkpointHash) s := hhas
        exact hsees.wrote ws
      · obtain ⟨-,rfl⟩ := Effect.does.inj heffect
        exact sees_wrote (w := .checkpoint checkpointHash row) List.mem_cons_self
  · exact fun s e h => ⟨h.1.aborted none pending,fun _ he => by cases he⟩

def SeesAll (i : ι) (shardCheckpoints : Dict String String) (s : Fleet D ι) : Prop :=
  ∀ h ∈ shardCheckpoints.values, Sees i (.checkpoint h) s

theorem SeesAll.stable {shardCheckpoints : Dict String String} :
    Stable (Fleet.Rely i) (SeesAll (D := D) i shardCheckpoints) :=
  fun s t h hr hash hin => Sees.stable s t (h hash hin) hr

theorem SeesAll.wrote {shardCheckpoints : Dict String String} (h : SeesAll i shardCheckpoints s) (ws : List Write) :
    SeesAll i shardCheckpoints (s.setServer (s.server.wrote i ws) s.held) := fun hash hin => (h hash hin).wrote ws

theorem SeesAll.insert {shardCheckpoints : Dict String String} {shard checkpointHash : String}
    (h : SeesAll i shardCheckpoints s)
    (hnew : Sees i (.checkpoint checkpointHash) s) : SeesAll i (shardCheckpoints.insert shard checkpointHash) s := by
  intro hash hin
  obtain ⟨k,hk⟩ := Dict.mem_values.mp hin
  rw [Dict.get?_insert] at hk
  split at hk
  · rw [← Option.some.inj hk]
    exact hnew
  · exact h hash (Dict.mem_values.mpr ⟨k,hk⟩)

/-- The latest version names checkpoints that the transaction sees. -/
theorem orderly_latestVersion {P : Fleet D ι → Prop} (hP : Stable (Fleet.Rely i) P)
    (hwrote : ∀ s ws, P s → P (s.setServer (s.server.wrote i ws) s.held)) :
    Orderly o pg i (fun s => Books i none pending jobs s ∧ P s) (execute .latestVersion)
      (fun r s => Books i none pending jobs s ∧ ∀ latest, r = .ok latest →
      P s ∧ SeesAll i (carriedForward latest) s) := by
  refine orderly_execute (stable_and Books.stable hP)
    (fun r => stable_and Books.stable (stable_ok (fun _ => stable_and hP SeesAll.stable) r)) (fun _ _ => trivial) ?_ ?_
  · intro s answer ws hconsistent h heffect
    refine ⟨h.1.plain (Sql.writes_plain rfl heffect),fun latest hlatest => ⟨hwrote s ws h.2,?_⟩⟩
    obtain ⟨rfl,-⟩ := Effect.does.inj heffect
    obtain rfl := Except.ok.inj hlatest
    have hone := pg.head?_arrange s.server.statements (s.server.view i)
    refine SeesAll.wrote ?_ ws
    cases hl : (pg.arrange s.server.statements (s.server.view i).latest).head? with
    | none =>
      intro hash hin
      cases hin
    | some e =>
      rw [hl] at hone
      obtain ⟨hrow,-⟩ := List.mem_filter.mp hone
      exact hconsistent.backed.view (Dict.get?_eq_some.mpr hrow)
  · exact fun s e h => ⟨h.1.aborted none pending,fun _ he => by cases he⟩

theorem orderly_insertVersion (modelVersion : String) (shardCheckpoints : Dict String String)
    (evalSetVersion : String) :
    Orderly o pg i (fun s => Books i none pending jobs s ∧ SeesAll i shardCheckpoints s)
      (execute (.insertVersion modelVersion shardCheckpoints evalSetVersion)) (fun _ => Books i none pending jobs) := by
  refine orderly_execute (stable_and Books.stable SeesAll.stable) (fun _ => Books.stable) (fun _ h => h.2) ?_ ?_
  · exact fun s answer ws _ h heffect => h.1.plain (Sql.writes_plain rfl heffect)
  · exact fun s e h => h.1.aborted none pending

def AllOnFile (paths : List String) (s : Fleet D ι) : Prop := ∀ path ∈ paths, path ∈ s.world.cas

theorem AllOnFile.stable {paths : List String} : Stable (Fleet.Rely i) (AllOnFile (D := D) (ι := ι) paths) :=
  fun _ _ h hr path hpath => hr.cas path (h path hpath)

/-- The paths of checkpoints on record are those of files. -/
theorem orderly_checkpointPaths (hashes : List String) :
    Orderly o pg i (Books i none pending jobs) (execute (.checkpointPaths hashes))
      (fun r s => Books i none pending jobs s ∧ ∀ rows, r = .ok rows → AllOnFile (shardPaths rows).values s) := by
  refine orderly_execute Books.stable (fun r => stable_and Books.stable (stable_ok (fun _ => AllOnFile.stable) r))
    (fun _ _ => trivial) ?_ ?_
  · intro s rows ws hconsistent h heffect
    refine ⟨h.plain (Sql.writes_plain rfl heffect),fun rows' hrows path hpath => ?_⟩
    obtain rfl := Except.ok.inj hrows
    obtain ⟨hanswer,-⟩ := Effect.does.inj heffect
    obtain ⟨shard,hshard⟩ := Dict.mem_values.mp hpath
    obtain ⟨⟨k,path'⟩,hin,heq⟩ := List.mem_map.mp (Dict.mem_of_get?_ofList hshard)
    obtain ⟨-,rfl⟩ := Prod.mk.inj heq
    have hrow : (k,path') ∈ (s.server.view i).paths hashes := (pg.perm ..).mem_iff.mp (hanswer ▸ hin)
    obtain ⟨hash,-,row,hget,-,rfl⟩ := Database.mem_paths.mp hrow
    have hview : (Write.checkpoint hash row).In (s.server.committed.writes (s.server.writesOf i)) := hget
    rcases Write.in_or_mem hview with hcommitted | hwritten
    · exact (hconsistent.filed.committed hash row hcommitted).2
    · exact (hconsistent.filed.written i hash row hwritten).2
  · exact fun s e h => ⟨h.aborted none pending,fun _ he => by cases he⟩

theorem mem_byShard {shardPaths : Dict String String} {paths : List (String × String)}
    (h : byShard shardPaths = .ok paths) {e : String × String} (he : e ∈ paths) : e ∈ shardPaths.entries := by
  obtain ⟨numbered,hnumbered,hpaths⟩ := bind_eq_ok.mp h
  rw [← Except.ok.inj hpaths] at he
  obtain ⟨x,hx,rfl⟩ := List.mem_map.mp he
  have hx' : x ∈ numbered := (List.perm_insertionSort _ _).mem_iff.mp hx
  rw [mapM_eq_ok] at hnumbered
  have hok : (Except.ok x : Py (ℤ × String × String)) ∈ numbered.map Except.ok := List.mem_map_of_mem hx'
  rw [← hnumbered] at hok
  obtain ⟨e',he',heq⟩ := List.mem_map.mp hok
  obtain ⟨n,-,hn⟩ := bind_eq_ok.mp heq
  rw [← Except.ok.inj hn]
  exact he'

theorem orderly_readCopy (path : String) :
    Orderly o pg i (fun s => Books i none pending jobs s ∧ OnFile path s) (readCopy path)
    (fun _ => Books i none pending jobs) := by
  refine contract_call (R := fun _ => Books i none pending jobs) (stable_and Books.stable OnFile.stable)
    (fun _ _ h => h.2)
    (fun s _ hs r t he _ => ?_) fun r => contract_lift Books.stable fun _ _ h => h
  obtain ⟨hserver,hheld⟩ := Fleet.exec_noSql (by trivial) he
  exact ⟨by rw [hserver]; exact hs.1.booked,by rw [hheld]; exact hs.1.held⟩

theorem AllOnFile.kept {paths : List String} {op : WorkerOp D} {r : op.Resp} (h : AllOnFile paths s)
    (he : Fleet.exec o pg i op s = .ok (r,t)) :
    AllOnFile paths t := fun path hpath => Fleet.exec_cas he path (h path hpath)

/-- The first of some copies is read, the others stay. -/
theorem orderly_readFirst (path : String) (paths : List String) :
    Orderly o pg i (fun s => Books i none pending jobs s ∧ AllOnFile (path :: paths) s) (readCopy path)
      (fun _ s => Books i none pending jobs s ∧ AllOnFile paths s) := by
  have hread : (readCopy path : WorkerM D _).Performs fun _ => True := performs_trivial _
  refine ((orderly_readCopy path).frame hread AllOnFile.stable fun _ _ _ _ _ h he => h.kept he).mono
    (fun s _ h => ⟨⟨h.1,?_⟩,?_⟩) fun _ _ _ h => h
  · exact h.2 path List.mem_cons_self
  · exact fun path' hpath => h.2 path' (List.mem_cons_of_mem _ hpath)

/-- An operation that is quiet leaves the books and the files. -/
theorem orderly_quiet_files {p : WorkerM D α} (hp : p.Performs WorkerOp.Quiet) (paths : List String) :
    Orderly o pg i (fun s => Books i none pending jobs s ∧ AllOnFile paths s) p
      (fun _ s => Books i none pending jobs s ∧ AllOnFile paths s) :=
  (orderly_quiet hp).frame hp AllOnFile.stable fun _ _ _ _ _ h he => h.kept he

theorem orderly_loadShardModels (paths : List (String × String)) :
    Orderly o pg i (fun s => Books i none pending jobs s ∧ AllOnFile (paths.map Prod.snd) s) (loadShardModels paths)
      (fun _ => Books i none pending jobs) := by
  induction paths with
  | nil => exact contract_pure (stable_and Books.stable AllOnFile.stable) fun _ _ h => h.1
  | cons e paths ih =>
    refine (orderly_readFirst e.2 (paths.map Prod.snd)).bind (fun artifact => ?_) fun _ _ _ h => h.1
    refine (orderly_quiet_files (performs_lift _) _).bind (fun weights => ?_) fun _ _ _ h => h.1
    have hpreproc : (readPreproc e.1 : WorkerM D _).Performs WorkerOp.Quiet := ⟨trivial,fun r => performs_lift r⟩
    refine (orderly_quiet_files hpreproc _).bind (fun text => ?_) fun _ _ _ h => h.1
    exact ih.bind (fun models => contract_pure Books.stable fun _ _ h => h) fun _ _ _ h => h

theorem orderly_loadBoosters (paths : List (String × String)) :
    Orderly o pg i (fun s => Books i none pending jobs s ∧ AllOnFile (paths.map Prod.snd) s) (loadBoosters paths)
      (fun _ => Books i none pending jobs) := by
  induction paths with
  | nil => exact contract_pure (stable_and Books.stable AllOnFile.stable) fun _ _ h => h.1
  | cons e paths ih =>
    refine (orderly_readFirst e.2 (paths.map Prod.snd)).bind (fun artifact => ?_) fun _ _ _ h => h.1
    refine (orderly_quiet_files (performs_lift _) _).bind (fun booster => ?_) fun _ _ _ h => h.1
    exact ih.bind (fun models => contract_pure Books.stable fun _ _ h => h) fun _ _ _ h => h

/-- An ensemble is loaded from copies that are there. -/
theorem orderly_loadEnsemble (shardPaths : Dict String String) :
    Orderly o pg i (fun s => Books i none pending jobs s ∧ AllOnFile shardPaths.values s) (loadEnsemble o shardPaths)
      (fun _ => Books i none pending jobs) := by
  have hlift : ∀ {β : Type} (x : Py β), Orderly o pg i (Books i none pending jobs) (Program.lift x)
    (fun _ => Books i none pending jobs) :=
    fun x => orderly_quiet (performs_lift x)
  have hpure : ∀ {β : Type} (b : β), Orderly o pg i (Books i none pending jobs) (Program.pure b)
    (fun _ => Books i none pending jobs) :=
    fun b => orderly_quiet (performs_pure b)
  have hnew : Orderly o pg i (fun s => Books i none pending jobs s ∧ AllOnFile shardPaths.values s)
    (newEnsemble o shardPaths)
      (fun _ => Books i none pending jobs) := by
    cases hsorted : byShard shardPaths with
    | error e =>
      rw [newEnsemble, hsorted]
      exact contract_throw (stable_and Books.stable AllOnFile.stable) fun _ _ h => h.1
    | ok paths =>
      have hpaths : ∀ s : Fleet D ι, AllOnFile shardPaths.values s → AllOnFile (paths.map Prod.snd) s := by
        intro s h path hpath
        obtain ⟨e,he,rfl⟩ := List.mem_map.mp hpath
        exact h e.2 (List.mem_map_of_mem (mem_byShard hsorted he))
      rw [newEnsemble, hsorted, Program.lift, Program.bind_pure']
      split
      · refine ((orderly_loadShardModels paths).mono (fun s _ h => ⟨h.1,hpaths s h.2⟩) fun _ _ _ h => h).bind
          (fun models => ?_) fun _ _ _ h => h
        split
        · exact hlift _
        · exact hpure _
      · refine ((orderly_loadBoosters paths).mono (fun s _ h => ⟨h.1,hpaths s h.2⟩) fun _ _ _ h => h).bind
          (fun models => ?_) fun _ _ _ h => h
        split
        · exact hlift _
        · exact hpure _
  have hcached : (.call (.cachedEnsemble (ensembleKey o shardPaths)) .pure : WorkerM D (Option (Ensemble D))).Performs
    WorkerOp.Quiet :=
    performs_call trivial
  refine (orderly_quiet_files hcached _).bind (fun hit => ?_) fun _ _ _ h => h.1
  cases hit with
  | some hit => exact contract_pure (stable_and Books.stable AllOnFile.stable) fun _ _ h => h.1
  | none =>
    refine hnew.bind (fun ensemble => ?_) fun _ _ _ h => h
    exact orderly_quiet (performs_call trivial)

theorem orderly_recordEval (modelVersion : String) (shardCheckpoints : Dict String String) :
    Orderly o pg i (Books i none pending jobs) (recordEval o modelVersion shardCheckpoints)
      (fun _ => Books i none pending jobs) := by
  refine (orderly_checkpointPaths _).bind (fun rows => ?_) fun _ _ _ h => h.1
  refine ((orderly_loadEnsemble (shardPaths rows)).mono (fun s _ h => ⟨h.1,h.2 rows rfl⟩) fun _ _ _ h => h).bind
    (fun ensemble => ?_) fun _ _ _ h => h
  have hrest : (do
      let score ← (Program.lift (o.score ensemble) : WorkerM D String)
      execute (.insertEval modelVersion ⟨score,o.nEval⟩)
      Pure.pure score : WorkerM D String).Performs WorkerOp.Quiet := by
    refine (performs_lift _).bind fun score => ?_
    exact (performs_execute _ ⟨rfl,fun _ _ => by simp,fun _ _ _ => by simp⟩).bind fun _ => performs_pure _
  exact orderly_quiet hrest

/-- A promotion records a version of checkpoints that are on record. -/
theorem orderly_promote (shard : ℕ) (resultWeights : String) :
    Orderly o pg i (Books i none pending jobs) (promote o shard resultWeights)
      (fun _ => Books i none pending jobs) := by
  refine (orderly_promoteArtifact shard resultWeights).bind (fun path => ?_) fun _ _ _ h => h.1
  by_cases hpath : path = casPath o resultWeights
  · let row : CheckpointRow := ⟨shard,(D.settings.NUM_SLICES : ℤ) - 1,path,D.settings.CODE_DIGEST⟩
    have hcheckpoint : Orderly o pg i (fun s => Books i none pending jobs s ∧ OnFile row.filePath s ∧ True)
      (execute (.insertCheckpoint resultWeights row))
        (fun r s => Books i none pending jobs s ∧ ∀ u, r = .ok u → True ∧ Sees i (.checkpoint resultWeights) s) :=
      orderly_insertCheckpoint resultWeights row hpath (fun _ _ _ _ => trivial) fun _ _ _ => trivial
    refine (hcheckpoint.mono (fun s _ h => ⟨h.1,(h.2 path rfl).2,trivial⟩) fun _ _ _ h => h).bind (fun u => ?_)
      fun _ _ _ h => h.1
    have hlatest : Orderly o pg i (fun s => Books i none pending jobs s ∧ Sees i (.checkpoint resultWeights) s)
      (execute .latestVersion)
        (fun r s => Books i none pending jobs s ∧ ∀ latest, r = .ok latest →
          Sees i (.checkpoint resultWeights) s ∧ SeesAll i (carriedForward latest) s) :=
      orderly_latestVersion Sees.stable fun s ws h => h.wrote ws
    refine (hlatest.mono (fun s _ h => ⟨h.1,(h.2 u rfl).2⟩) fun _ _ _ h => h).bind (fun latest => ?_) fun _ _ _ h => h.1
    refine ((orderly_insertVersion _ _ _).mono (fun s _ h => ?_) fun _ _ _ h => h).bind (fun _ => ?_) fun _ _ _ h => h
    · exact ⟨h.1,(h.2 latest rfl).2.insert (h.2 latest rfl).1⟩
    · exact (orderly_recordEval _ _).bind (fun _ => contract_pure Books.stable fun _ _ h => h) fun _ _ _ h => h
  · exact fun s _ h => absurd (h.2 path rfl).1 hpath

end Models

section Jobs
variable {id : Uuid} {rest : List Uuid}

def Certified (refs : List Ref) (result : Result D) : Prop :=
  ∀ ref ∈ refs, ∃ row, manifestOf result.manifests ref = .ok row ∧ Names row ref

theorem yields_rebuildBatch (parts : EngineParts D) (refs : List Ref) (clock : Clock) :
    (rebuildBatch parts refs true clock).Yields (Certified refs) := by
  unfold rebuildBatch
  split
  · trivial
  · refine (yields_trivial _).bind fun routing _ => (yields_trivial _).bind fun batch _ =>
      (yields_trivial _).bind fun records _ => ?_
    refine (yields_trivial _).bind fun treeBefore _ => (yields_trivial _).bind fun retrained _ =>
      (yields_trivial _).bind fun tree _ => ?_
    refine (yields_trivial _).bind fun _ _ => (yields_trivial _).bind fun cfgDigest _ => ?_
    refine (yields_lift fun manifests h => h).bind fun manifests hissued => ?_
    refine (yields_trivial _).bind fun routing' _ => (yields_trivial _).bind fun _ _ => ?_
    intro ref href
    obtain ⟨m,hm,hget⟩ := issueManifests_get? hissued (Or.inl href)
    obtain ⟨hcolumns,hsubject⟩ := subscript_manifestFor hm
    obtain ⟨row,hrow,rfl⟩ := exists_manifestRow hcolumns
    refine ⟨row,?_,hsubject⟩
    rw [manifestOf]
    dsimp only
    rw [hget]
    exact hrow

theorem yields_rebuildBatchByRef (refs : List Ref) : (rebuildBatchByRef o refs).Yields (Certified refs) := by
  refine fun clock => yields_embed ?_
  rw [Call.program_eq]
  exact yields_rebuildBatch _ _ _

def Entered (i : ι) (rest : List Uuid) (jobs : List ClaimedJob) (r : Py Unit) (s : Fleet D ι) : Prop :=
  (∀ u, r = .ok u → Books i none rest jobs s) ∧ ∀ e, r = .error e → ∀ pending, Books i none pending jobs s

theorem Entered.stable {r : Py Unit} : Stable (Fleet.Rely i) (Entered (D := D) i rest jobs r) :=
  stable_and (stable_ok (fun _ => Books.stable) r) fun s t h hr e he pending => Books.stable s t (h e he pending) hr

/-- The manifest of a job that is held, by the name of its subject. -/
theorem orderly_insertManifest {job : ClaimedJob} (hjob : job ∈ jobs) {row : ManifestRow}
    (hrow : Names row job.subjectRef) (hid : job.erasureId ∉ rest) :
    Orderly o pg i (Books i none (job.erasureId :: rest) jobs) (execute (.insertManifest job.erasureId row))
      (fun r s => (∀ u, r = .ok u → Books i (some job.erasureId) rest jobs s ∧
        ((∃ row, .manifest job.erasureId row ∈ s.server.writesOf i) ∧ Sees i (.job job.erasureId) s)) ∧
        ∀ e, r = .error e → ∀ pending, Books i none pending jobs s) := by
  have hentered : Stable (Fleet.Rely i) fun s : Fleet D ι => ∃ row, .manifest job.erasureId row ∈
    s.server.writesOf i := by
    intro s t h hr
    rwa [hr.writesOf]
  refine orderly_execute Books.stable (fun r => stable_and ?_ ?_) (fun s h => ?_) ?_ ?_
  · exact stable_ok (fun _ => stable_and Books.stable (stable_and hentered Sees.stable)) r
  · exact fun s t h hr e he pending => Books.stable s t (h e he pending) hr
  · obtain ⟨mine,hmine,hsubject⟩ := h.held job hjob
    exact ⟨mine,hmine,hsubject ▸ hrow⟩
  · intro s answer ws _ h heffect
    refine ⟨fun u _ => ?_,fun e he => by cases he⟩
    have hw : (s.server.wrote i ws).writesOf i = s.server.writesOf i ++ ws := by
      rw [Server.writesOf_wrote, if_pos rfl]
    have hpresent : job.erasureId ∈ (s.server.view i).jobs := by
      rw [Sql.effect, foreignKey] at heffect
      split at heffect
      · next hp => exact of_decide_eq_true hp
      · cases heffect
    have hws : ws = [.manifest job.erasureId row] := by
      have heffect := foreignKey_eq_does heffect
      split at heffect
      · cases heffect
      · split at heffect
        · cases heffect
        · exact (Effect.does.inj heffect).2.symm
    have hsees : Sees i (.job job.erasureId) s := hpresent
    subst hws
    refine ⟨⟨fun id' row' hin => ?_,h.held⟩,⟨row,?_⟩,hsees.wrote _⟩
    · have hin' : .manifest id' row' ∈ s.server.writesOf i ++ [.manifest job.erasureId row] := hw ▸ hin
      rw [show (s.setServer (s.server.wrote i [.manifest job.erasureId row]) s.held).server.writesOf i = _ from hw,
        jobWritten_append,
        jobWritten_eq_none.mpr (by simp), Option.none_or]
      rcases List.mem_append.mp hin' with hold | hnew
      · obtain ⟨hnot,hdone⟩ := h.booked id' row' hold
        exact ⟨fun h' => hnot (List.mem_cons_of_mem _ h'),Or.inr (hdone.resolve_left (by simp))⟩
      · obtain ⟨rfl,-⟩ := Write.manifest.inj (List.mem_singleton.mp hnew)
        exact ⟨hid,Or.inl rfl⟩
    · rw [show (s.setServer (s.server.wrote i [.manifest job.erasureId row]) s.held).server.writesOf i = _ from hw]
      exact List.mem_append_right _ List.mem_cons_self
  · intro s e h
    exact ⟨fun u hu => (by cases hu),fun _ _ pending => h.aborted none pending⟩

/-- A job whose manifest is written is left as done. -/
theorem orderly_finishJob {job : ClaimedJob} (hjob : job ∈ jobs) :
    Orderly o pg i (fun s => Books i (some job.erasureId) rest jobs s ∧
        ((∃ row, .manifest job.erasureId row ∈ s.server.writesOf i) ∧ Sees i (.job job.erasureId) s))
      (execute (.finishJob job.erasureId)) (Entered i rest jobs) := by
  have hentered : Stable (Fleet.Rely i) fun s : Fleet D ι => ∃ row, .manifest job.erasureId row ∈
    s.server.writesOf i := by
    intro s t h hr
    rwa [hr.writesOf]
  refine orderly_execute (stable_and Books.stable (stable_and hentered Sees.stable)) (fun _ => Entered.stable)
    (fun s h => ?_) ?_ ?_
  · obtain ⟨mine,hmine,-⟩ := h.1.held job hjob
    refine ⟨?_,h.2.1⟩
    rw [hmine]
    exact Option.some_ne_none mine
  · intro s answer ws _ h heffect
    refine ⟨fun u _ => ?_,fun e he => by cases he⟩
    obtain ⟨rfl,-⟩ := update_eq_does heffect
    have hmine : ∀ id' row', .job id' row' ∈ ((s.server.view i).jobs.entries.filter fun e => e.1 = job.erasureId).map
      (fun e => Write.job e.1 (e.2.finished (s.server.session i).now)) →
        id' = job.erasureId := by
      intro id' row' hin
      obtain ⟨e,he,heq⟩ := List.mem_map.mp hin
      obtain ⟨rfl,-⟩ := Write.job.inj heq
      exact of_decide_eq_true (List.mem_filter.mp he).2
    refine h.1.wrote (fun id' row' hin => ?_) (fun _ h => h) fun id' hid' => ?_
    · obtain ⟨e,-,heq⟩ := List.mem_map.mp hin
      cases heq
    · by_cases hid : id' = job.erasureId
      · subst hid
        refine Or.inr (Or.inr ?_)
        obtain ⟨old,hold⟩ := Dict.exists_get?_of_mem (show job.erasureId ∈ (s.server.view i).jobs from h.2.2)
        have hn : ((s.server.view i).jobs.entries.filter fun e => e.1 = job.erasureId).map Prod.fst |>.Nodup :=
          (s.server.view i).jobs.nodup.sublist (List.filter_sublist.map _)
        have hmem : (job.erasureId,old) ∈ (s.server.view i).jobs.entries.filter fun e => e.1 = job.erasureId :=
          List.mem_filter.mpr ⟨Dict.get?_eq_some.mp hold,by simp⟩
        exact ⟨_,jobWritten_map hn (fun row => row.finished (s.server.session i).now) hmem,rfl⟩
      · exact Or.inl ⟨fun he => hid (Option.some.inj he).symm,fun row' hin => hid (hmine id' row' hin)⟩
  · intro s e h
    exact ⟨fun u hu => (by cases hu),fun _ _ pending => h.1.aborted none pending⟩

theorem orderly_recordJobs {manifests : Dict Ref Manifest.Pairs} {group : List ClaimedJob}
    (hsub : ∀ job ∈ group, job ∈ jobs) (hn : (group.map ClaimedJob.erasureId ++ rest).Nodup)
    (hm : ∀ job ∈ group, ∃ row, manifestOf manifests job.subjectRef = .ok row ∧ Names row job.subjectRef) :
    Orderly o pg i (Books i none (group.map ClaimedJob.erasureId ++ rest) jobs) (recordJobs manifests group)
      (Entered i rest jobs) := by
  induction group with
  | nil => exact contract_pure Books.stable fun s _ h => ⟨fun _ _ => h,fun e he => by cases he⟩
  | cons job group ih =>
    obtain ⟨hjob,hsub⟩ := List.forall_mem_cons.mp hsub
    obtain ⟨⟨row,hrow,hnames⟩,hm⟩ := List.forall_mem_cons.mp hm
    rw [List.map_cons, List.cons_append, List.nodup_cons] at hn
    have hstep : (recordJobs manifests (job :: group) : WorkerM D Unit) =
        execute (.insertManifest job.erasureId row) >>= fun _ => execute (.finishJob job.erasureId) >>= fun _ =>
          recordJobs manifests group := by
      rw [recordJobs, hrow]
      rfl
    have hstopped : ∀ (e : PyErr) (s : Fleet D ι), (∀ pending, Books i none pending jobs s) →
      Entered i rest jobs (.error e) s :=
      fun e s h => ⟨fun u hu => (by cases hu),fun _ _ => h⟩
    rw [hstep]
    refine (orderly_insertManifest hjob hnames hn.1).bind (fun u => ?_) fun e s _ h => hstopped e s (h.2 e rfl)
    refine ((orderly_finishJob hjob).mono (fun s _ h => h.1 u rfl) fun _ _ _ h => h).bind (fun u => ?_) fun e s _ h =>
      hstopped e s (h.2 e rfl)
    exact (ih hsub hn.2 hm).mono (fun s _ h => h.1 u rfl) fun _ _ _ h => h

/-- The jobs of a group are failed. -/
theorem orderly_failJobs {group : List ClaimedJob} (hsub : ∀ job ∈ group, job ∈ jobs) (lastError : String) :
    Orderly o pg i (Books i none (group.map ClaimedJob.erasureId ++ rest) jobs)
      (execute (.failJobs lastError (group.map ClaimedJob.erasureId)))
      (fun _ => Books i none rest jobs) := by
  refine orderly_execute Books.stable (fun _ => Books.stable) (fun s h => ?_) ?_ ?_
  · intro id hid
    obtain ⟨job,hjob,rfl⟩ := List.mem_map.mp hid
    obtain ⟨mine,hmine,-⟩ := h.held job (hsub job hjob)
    rw [hmine]
    exact Option.some_ne_none mine
  · intro s answer ws _ h heffect
    obtain ⟨rfl,-⟩ := update_eq_does heffect
    refine h.wrote (fun id row hin => ?_) (fun id hid => List.mem_append_right _ hid) fun id hid =>
      Or.inl ⟨by simp,fun row hin => ?_⟩
    · obtain ⟨e,-,heq⟩ := List.mem_map.mp hin
      cases heq
    · obtain ⟨e,he,heq⟩ := List.mem_map.mp hin
      obtain ⟨rfl,-⟩ := Write.job.inj heq
      have hgroup : e.1 ∈ group.map ClaimedJob.erasureId := of_decide_eq_true (List.mem_filter.mp he).2
      exact hid (List.mem_append_left _ hgroup)
  · exact fun s e h => h.aborted none rest

/-- A group that is processed is recorded, or failed, or nothing of it is there. -/
theorem orderly_processGroup {group : List ClaimedJob} (hsub : ∀ job ∈ group, job ∈ jobs)
    (hn : (group.map ClaimedJob.erasureId ++ rest).Nodup) (shard : ℕ) :
    Orderly o pg i (Books i none (group.map ClaimedJob.erasureId ++ rest) jobs) (processGroup o shard group)
      (fun _ => Books i none rest jobs) := by
  have hrest : ∀ {s : Fleet D ι}, Books i none (group.map ClaimedJob.erasureId ++ rest) jobs s →
    Books i none rest jobs s :=
    fun h => h.mono fun id hid => List.mem_append_right _ hid
  have hrebuild : (rebuildBatchByRef o (group.map ClaimedJob.subjectRef)).Performs WorkerOp.Quiet :=
    Performs.bind ⟨trivial,fun _ => trivial⟩ fun _ => performs_embed (fun _ => trivial) _
  refine ((orderly_quiet hrebuild).yields (yields_rebuildBatchByRef _)).attempt.bind (fun rebuilt => ?_) ?_
  · cases rebuilt with
    | error exc =>
      refine (orderly_failJobs hsub _).mono (fun s _ h => ?_) fun _ _ _ h => h
      obtain ⟨x,-,hbooks,-⟩ := h
      exact hbooks
    | ok result =>
      by_cases hcertified : Certified (group.map ClaimedJob.subjectRef) result
      · have hm : ∀ job ∈ group, ∃ row, manifestOf result.manifests job.subjectRef = .ok row ∧
          Names row job.subjectRef :=
          fun job hjob => hcertified _ (List.mem_map_of_mem hjob)
        have hbookkeep : Orderly o pg i (Books i none (group.map ClaimedJob.erasureId ++ rest) jobs)
          (bookkeep o shard group result)
            (fun r s => (∀ u, r = .ok u → Books i none rest jobs s) ∧ ∀ e, r = .error e →
              Books i none (group.map ClaimedJob.erasureId ++ rest) jobs s) := by
          refine (orderly_promote shard result.resultWeights).bind (fun _ => ?_) fun e s _ h =>
            ⟨fun _ he => (by cases he),fun _ _ => h⟩
          exact (orderly_recordJobs hsub hn hm).mono (fun _ _ h => h) fun _ _ _ h => ⟨h.1,fun e he => h.2 e he _⟩
        refine (hbookkeep.attempt.mono (fun s _ h => ?_) fun _ _ _ h => h).bind (fun booked => ?_) ?_
        · obtain ⟨x,-,hbooks,-⟩ := h
          exact hbooks
        · cases booked with
          | error exc =>
            refine (orderly_failJobs hsub _).mono (fun s _ h => ?_) fun _ _ _ h => h
            obtain ⟨x,hx,hbooks⟩ := h
            exact hbooks.2 exc (Except.ok.inj hx).symm
          | ok u =>
            have hspot : (spotChecks o shard result group).Performs WorkerOp.Quiet :=
              performs_spotChecks (fun _ _ => ⟨rfl,fun _ _ => by simp,fun _ _ _ => by simp⟩) shard result group
            refine (orderly_quiet hspot).mono (fun s _ h => ?_) fun _ _ _ h => h
            obtain ⟨x,hx,hbooks⟩ := h
            exact hbooks.1 u (Except.ok.inj hx).symm
        · rintro e s - ⟨x,hx,-⟩
          cases hx
      · intro s _ h
        obtain ⟨x,hx,-,hyields⟩ := h
        exact absurd (hyields result (Except.ok.inj hx).symm) hcertified
  · rintro e s - ⟨x,hx,-⟩
    cases hx

def idsOf (groups : List (ℕ × List ClaimedJob)) : List Uuid := (groups.flatMap Prod.snd).map ClaimedJob.erasureId

theorem orderly_processGroups {groups : List (ℕ × List ClaimedJob)} (hsub : ∀ job ∈ groups.flatMap Prod.snd, job ∈ jobs)
    (hn : (idsOf groups).Nodup) :
    Orderly o pg i (Books i none (idsOf groups) jobs) (processGroups o groups) (fun _ => Books i none [] jobs) := by
  induction groups with
  | nil => exact contract_pure Books.stable fun _ _ h => h
  | cons g groups ih =>
    obtain ⟨shard,group⟩ := g
    have hids : idsOf ((shard,group) :: groups) = group.map ClaimedJob.erasureId ++ idsOf groups := by
      rw [idsOf, List.flatMap_cons, List.map_append]
      rfl
    rw [List.flatMap_cons] at hsub
    rw [hids] at hn ⊢
    refine (orderly_processGroup (fun job hjob => hsub job (List.mem_append_left _ hjob)) hn shard).bind (fun _ => ?_)
      fun _ _ _ h =>
      h.mono fun id hid => absurd hid List.not_mem_nil
    exact ih (fun job hjob => hsub job (List.mem_append_right _ hjob)) (List.nodup_append.mp hn).2.1

end Jobs

section Transactions
variable {P : Fleet D ι → Prop}

def Blank (i : ι) (s : Fleet D ι) : Prop := s.server.writesOf i = []

theorem Blank.stable : Stable (Fleet.Rely i) (Blank (D := D) i) := fun _ _ h hr => hr.writesOf.trans h

theorem blank_commit (s : Fleet D ι) (i : ι) : Blank i (s.commit i) := (s.server.writesOf_commit i i).trans (if_pos rfl)

theorem blank_rollback (s : Fleet D ι) (i : ι) : Blank i (s.rollback i) :=
  (s.server.writesOf_rollback i i).trans (if_pos rfl)

/-- A transaction is committed when its manifests are of jobs left as done. -/
theorem orderly_withConn {body : WorkerM D α} {Q T : Py α → Fleet D ι → Prop} (h : Orderly o pg i P body Q)
    (hQ : ∀ r, Stable (Fleet.Rely i) (Q r)) (hT : ∀ r, Stable (Fleet.Rely i) (T r))
    (hclosed : ∀ a s, Q (.ok a) s → Closed (s.server.writesOf i))
    (hcommit : ∀ a s, Q (.ok a) s → T (.ok a) (s.commit i))
    (hrollback : ∀ e s, Q (.error e) s → T (.error e) (s.rollback i)) : Orderly o pg i P (withConn body) T := by
  have hstable : ∀ r : Py (Py α), Stable (Fleet.Rely i) fun s => ∃ x, r = .ok x ∧ Q x s := by
    rintro r s t ⟨x,rfl,hx⟩ hr
    exact ⟨x,rfl,hQ x s t hx hr⟩
  refine h.attempt.bind (fun outcome => ?_) ?_
  · cases outcome with
    | ok a =>
      refine contract_call (R := fun _ => T (.ok a)) (hstable _) (fun s _ hs => ?_) (fun s _ hs r t he _ => ?_)
        fun _ => contract_pure (hT _) fun _ _ h => h
      · obtain ⟨x,hx,hq⟩ := hs
        cases hx
        exact hclosed a s hq
      · obtain ⟨x,hx,hq⟩ := hs
        cases hx
        rw [Fleet.exec_commit he]
        exact hcommit a s hq
    | error e =>
      refine contract_call (R := fun _ => T (.error e)) (hstable _) (fun _ _ _ => trivial) (fun s _ hs r t he _ => ?_)
        fun _ => contract_throw (hT _) fun _ _ h => h
      obtain ⟨x,hx,hq⟩ := hs
      cases hx
      rw [Fleet.exec_rollback he]
      exact hrollback e s hq
  · rintro e s - ⟨x,hx,-⟩
    cases hx

def Holds (i : ι) (jobs : List ClaimedJob) (s : Fleet D ι) : Prop :=
  (jobs.map ClaimedJob.erasureId).Nodup ∧ ∀ job ∈ jobs, ∃ row, s.held i job.erasureId = some row ∧
    row.subjectRef = job.subjectRef

theorem Holds.stable : Stable (Fleet.Rely i) (Holds (D := D) i jobs) := by
  intro s t h hr
  rw [Holds, hr.held]
  exact h

structure Claiming (i : ι) (jobs : List ClaimedJob) (s : Fleet D ι) : Prop where
  live : (s.server.session i).aborted = false
  unrecorded : ∀ id row, .manifest id row ∉ s.server.writesOf i
  distinct : (jobs.map ClaimedJob.erasureId).Nodup
  claimed : ∀ job ∈ jobs, ∃ row, jobWritten job.erasureId (s.server.writesOf i) = some row ∧ row.status = .processing ∧
    row.subjectRef = job.subjectRef

theorem Claiming.stable : Stable (Fleet.Rely i) (Claiming (D := D) i jobs) := by
  intro s t h hr
  have haborted : (t.server.session i).aborted = (s.server.session i).aborted := (Prod.ext_iff.mp hr.own).1
  refine ⟨haborted.trans h.live,?_,h.distinct,?_⟩
  · rw [hr.writesOf]
    exact h.unrecorded
  · rw [hr.writesOf]
    exact h.claimed

theorem Claiming.perm {jobs' : List ClaimedJob} (h : Claiming i jobs s) (hp : jobs'.Perm jobs) : Claiming i jobs' s :=
  ⟨h.live,h.unrecorded,(hp.map _).nodup_iff.mpr h.distinct,fun job hjob => h.claimed job (hp.mem_iff.mp hjob)⟩

theorem Claiming.holds (h : Claiming i jobs s) : Holds i jobs (s.commit i) := by
  refine ⟨h.distinct,fun job hjob => ?_⟩
  obtain ⟨row,hrow,hst,hsubject⟩ := h.claimed job hjob
  refine ⟨row,?_,hsubject⟩
  have hheld : (s.commit i).held i = s.server.claims i := Function.update_self ..
  rw [hheld]
  exact Server.claims_eq_some.mpr ⟨h.live,hrow,hst⟩

/-- What a transaction that has written nothing claims, it holds once it commits. -/
theorem orderly_claimJobs (workerId : String) (LEASE_SECONDS POLL_BATCH_SIZE : ℕ) :
    Orderly o pg i (Blank i) (claimJobs workerId LEASE_SECONDS POLL_BATCH_SIZE)
      (fun r s => Blank i s ∧ ∀ jobs, r = .ok jobs → Holds i jobs s) := by
  let body : WorkerM D (List ClaimedJob) := do
    execute .reapExpired
    let rows ← execute (.claimBatch workerId LEASE_SECONDS POLL_BATCH_SIZE)
    Pure.pure (rows.insertionSort fun a b => a.shard ≤ b.shard)
  have hunrecorded : Stable (Fleet.Rely i) fun s : Fleet D ι => ∀ id row, .manifest id row ∉ s.server.writesOf i := by
    intro s t h hr
    rwa [hr.writesOf]
  have hwrote : ∀ (s : Fleet D ι) (ws : List Write), (s.setServer (s.server.wrote i ws) s.held).server.writesOf i =
    s.server.writesOf i ++ ws :=
    fun s ws => (s.server.writesOf_wrote i i ws).trans (if_pos rfl)
  have hreap : Orderly o pg i (Blank i) (execute .reapExpired)
      (fun r s => ∀ u, r = .ok u → ∀ id row, .manifest id row ∉ s.server.writesOf i) := by
    refine orderly_execute Blank.stable (stable_ok fun _ => hunrecorded) (fun _ _ => trivial) ?_ fun s e _ u hu => by
      cases hu
    intro s answer ws _ h heffect u _ id row hin
    obtain ⟨rfl,-⟩ := update_eq_does heffect
    rw [hwrote, show s.server.writesOf i = [] from h, List.nil_append] at hin
    obtain ⟨e,-,heq⟩ := List.mem_map.mp hin
    cases heq
  have hclaim : Orderly o pg i (fun s => ∀ id row, .manifest id row ∉ s.server.writesOf i)
      (execute (.claimBatch workerId LEASE_SECONDS POLL_BATCH_SIZE)) (fun r s => ∀ rows, r = .ok rows →
        Claiming i rows s) := by
    refine orderly_execute hunrecorded (stable_ok fun _ => Claiming.stable) (fun _ _ => trivial) ?_
      fun s e _ u hu => by cases hu
    intro s rows ws _ h heffect rows' hrows
    obtain rfl := Except.ok.inj hrows
    obtain ⟨hn,hjobs,hclaimed⟩ := Sql.claimed heffect
    refine ⟨?_,fun id row hin => ?_,hn,fun job hjob => ?_⟩
    · have hsession : ((s.server.wrote i ws).session i).aborted = false := by
        rw [Server.wrote, Server.session_leave_any, if_pos rfl]
      exact hsession
    · rw [hwrote] at hin
      rcases List.mem_append.mp hin with hin | hin
      · exact h id row hin
      · obtain ⟨_,_,heq⟩ := hjobs _ hin
        cases heq
    · obtain ⟨row,hrow,hst,hsubject⟩ := hclaimed job hjob
      refine ⟨row,?_,hst,hsubject⟩
      rw [hwrote, jobWritten_append, hrow]
      rfl
  have hbody : Orderly o pg i (Blank i) body (fun r s => ∀ jobs, r = .ok jobs → Claiming i jobs s) := by
    refine hreap.bind (fun u => ?_) fun e s _ _ jobs hjobs => by cases hjobs
    refine (hclaim.mono (fun s _ h => h u rfl) fun _ _ _ h => h).bind (fun rows => ?_) fun e s _ _ jobs hjobs => by
      cases hjobs
    refine contract_pure (stable_ok (fun _ => Claiming.stable) _) fun s _ h jobs hjobs => ?_
    rw [← Except.ok.inj hjobs]
    exact (h rows rfl).perm (List.perm_insertionSort _ _)
  refine orderly_withConn hbody (stable_ok fun _ => Claiming.stable)
    (fun r => stable_and Blank.stable (stable_ok (fun _ => Holds.stable) r)) ?_ ?_ ?_
  · exact fun jobs s h id row hin => absurd hin ((h jobs rfl).unrecorded id row)
  · refine fun jobs s h => ⟨blank_commit s i,fun jobs' hjobs => ?_⟩
    rw [← Except.ok.inj hjobs]
    exact (h jobs rfl).holds
  · exact fun e s _ => ⟨blank_rollback s i,fun jobs hjobs => by cases hjobs⟩

theorem orderly_processClaimed (jobs : List ClaimedJob) :
    Orderly o pg i (fun s => Blank i s ∧ Holds i jobs s) (withConn (processClaimed o jobs)) (fun _ => Blank i) := by
  refine orderly_withConn (Q := fun _ => Books i none [] jobs) ?_ (fun _ => Books.stable)
    (fun _ => Blank.stable) ?_ ?_ ?_
  · intro s hI h
    have hperm := (shardGroups_perm jobs).map ClaimedJob.erasureId
    refine orderly_processGroups (fun job hjob => (shardGroups_perm jobs).mem_iff.mp hjob)
      (hperm.nodup_iff.mpr h.2.1) s hI ?_
    exact Books.blank h.1 h.2.2 none _
  · exact fun _ s h => h.closed
  · exact fun _ s _ => blank_commit s i
  · exact fun _ s _ => blank_rollback s i

theorem orderly_runOnce (workerId : String) (LEASE_SECONDS POLL_BATCH_SIZE : ℕ) :
    Orderly o pg i (Blank i) (runOnce o workerId LEASE_SECONDS POLL_BATCH_SIZE) (fun _ => Blank i) := by
  refine (orderly_claimJobs workerId LEASE_SECONDS POLL_BATCH_SIZE).bind (fun jobs => ?_) fun _ _ _ h => h.1
  have hstable : Stable (Fleet.Rely i) fun s : Fleet D ι => Blank i s ∧ ∀ jobs', (Except.ok jobs : Py _) = .ok jobs' →
    Holds i jobs' s :=
    stable_and Blank.stable (stable_ok (fun _ => Holds.stable) _)
  split
  · exact contract_pure hstable fun _ _ h => h.1
  · refine ((orderly_processClaimed jobs).mono (fun s _ h => ⟨h.1,h.2 jobs rfl⟩) fun _ _ _ h => h).bind (fun _ => ?_)
      fun _ _ _ h => h
    exact contract_pure Blank.stable fun _ _ h => h

theorem orderly_workerLoop (workerId : String) (LEASE_SECONDS POLL_BATCH_SIZE cycles : ℕ) :
    Orderly o pg i (Blank i) (workerLoop o workerId LEASE_SECONDS POLL_BATCH_SIZE cycles) (fun _ => Blank i) := by
  induction cycles with
  | zero => exact contract_pure Blank.stable fun _ _ h => h
  | succ cycles ih => exact (orderly_runOnce workerId LEASE_SECONDS POLL_BATCH_SIZE).bind (fun _ => ih) fun _ _ _ h => h

/-- A checkpoint of each live model. -/
theorem orderly_recordLive (shardCheckpoints : Dict String String) (shards : List ℕ) :
    Orderly o pg i (fun s => Books i none pending jobs s ∧ SeesAll i shardCheckpoints s)
      (recordLive o shardCheckpoints shards)
      (fun r s => Books i none pending jobs s ∧ ∀ recorded, r = .ok recorded → SeesAll i recorded s) := by
  have hkept : ∀ (map : Dict String String) (op : WorkerOp D) (s : Fleet D ι) (r : op.Resp) (t : Fleet D ι),
    op.Copies → SeesAll i map s →
      Fleet.exec o pg i op s = .ok (r,t) → SeesAll i map t := by
    intro map op s r t hop h he hash hin
    rw [Sees, (Fleet.exec_noSql hop.noSql he).1]
    exact h hash hin
  induction shards generalizing shardCheckpoints with
  | nil =>
    refine contract_pure (stable_and Books.stable SeesAll.stable) fun s _ h => ⟨h.1,fun recorded hrecorded => ?_⟩
    rw [← Except.ok.inj hrecorded]
    exact h.2
  | cons shard shards ih =>
    have hread : Orderly o pg i (Books i none pending jobs) (readLive shard) (fun _ => Books i none pending jobs) :=
      orderly_quiet ⟨trivial,fun r => performs_lift r⟩
    refine (hread.frame ((performs_readLive shard).mono fun _ h => h.copies) SeesAll.stable
      (hkept shardCheckpoints)).bind (fun live => ?_)
      fun e s _ h => ⟨h.1,fun _ hr => by cases hr⟩
    have hcopy : Orderly o pg i (Books i none pending jobs) (promoteArtifact o shard (o.fileHash live))
        (fun r s => Books i none pending jobs s ∧ ∀ path, r = .ok path →
          path = casPath o (o.fileHash live) ∧ OnFile path s) :=
      orderly_promoteArtifact shard (o.fileHash live)
    refine (hcopy.frame (performs_promoteArtifact ..) SeesAll.stable (hkept shardCheckpoints)).bind (fun path => ?_)
      fun e s _ h => ⟨h.1.1,fun _ hr => by cases hr⟩
    by_cases hpath : path = casPath o (o.fileHash live)
    · let row : CheckpointRow := ⟨shard,(D.settings.NUM_SLICES : ℤ) - 1,path,D.settings.CODE_DIGEST⟩
      have hrow : Orderly o pg i (fun s => Books i none pending jobs s ∧ OnFile row.filePath s ∧
        SeesAll i shardCheckpoints s)
          (execute (.insertCheckpoint (o.fileHash live) row))
          (fun r s => Books i none pending jobs s ∧ ∀ u, r = .ok u → SeesAll i shardCheckpoints s ∧
            Sees i (.checkpoint (o.fileHash live)) s) :=
        orderly_insertCheckpoint _ row hpath SeesAll.stable fun s ws h => h.wrote ws
      refine (hrow.mono (fun s _ h => ⟨h.1.1,(h.1.2 path rfl).2,h.2⟩) fun _ _ _ h => h).bind (fun u => ?_)
        fun e s _ h => ⟨h.1,fun _ hr => by cases hr⟩
      exact (ih _).mono (fun s _ h => ⟨h.1,(h.2 u rfl).1.insert (h.2 u rfl).2⟩) fun _ _ _ h => h
    · exact fun s _ h => absurd (h.1.2 path rfl).1 hpath

/-- A load records a baseline of checkpoints that are on record. -/
theorem orderly_loadRoutingScript : Orderly o pg i (Blank i) (loadRoutingScript o) (fun _ _ => True) := by
  have hload : (onFiles (Engine.loadRouting (D := D))).Performs WorkerOp.Quiet := performs_embed (fun _ => trivial) _
  have hbooks : ∀ s : Fleet D ι, Blank i s → Books i none [] [] s := fun s h => Books.blank h (by simp) none []
  refine ((orderly_quiet hload).mono (fun s _ h => hbooks s h) fun _ _ _ h => h).bind (fun routing => ?_)
    fun _ _ _ _ => trivial
  refine orderly_withConn (Q := fun _ => Books i none [] []) ?_ (fun _ => Books.stable) (fun _ _ _ _ _ => trivial)
    (fun _ _ h => h.closed)
    (fun _ _ _ => trivial) fun _ _ _ => trivial
  have hsubjects : (execute (.upsertSubjects routing.entries) : WorkerM D _).Performs WorkerOp.Quiet :=
    performs_execute _ ⟨rfl,fun _ _ => by simp,fun _ _ _ => by simp⟩
  refine (orderly_quiet hsubjects).bind (fun _ => ?_) fun _ _ _ h => h
  have hempty : ∀ s : Fleet D ι, SeesAll i Dict.empty s := fun s hash hin => by cases hin
  refine ((orderly_recordLive Dict.empty _).mono (fun s _ h => ⟨h,hempty s⟩) fun _ _ _ h => h).bind
    (fun recorded => ?_) fun _ _ _ h => h.1
  refine ((orderly_insertVersion _ recorded _).mono (fun s _ h => ⟨h.1,h.2 recorded rfl⟩) fun _ _ _ h => h).bind
    (fun _ => ?_) fun _ _ _ h => h
  exact (orderly_recordEval _ _).bind (fun _ => contract_pure Books.stable fun _ _ h => h) fun _ _ _ h => h

/-- Serving reads, rolls its transaction back, and loads copies that are there. -/
theorem orderly_servedEnsemble :
    Orderly o pg i (Books i none [] []) (Gateway.servedEnsemble o) (fun _ => Books i none [] []) := by
  have hcurrent : Orderly o pg i (Books i none [] []) Gateway.currentModel
      (fun r s => Books i none [] [] s ∧ ∀ served, r = .ok served → AllOnFile served.2.values s) := by
    have hraise : ∀ detail : String,
      Orderly o pg i (Books i none [] []) (Gateway.serviceUnavailable detail : WorkerM D (String × Dict String String))
        (fun r s => Books i none [] [] s ∧ ∀ served, r = .ok served → AllOnFile served.2.values s) :=
      fun detail => contract_throw Books.stable fun _ _ h => ⟨h,fun _ hr => by cases hr⟩
    have hlatest : (execute .latestVersion : WorkerM D (Option (String × VersionRow))).Performs WorkerOp.Quiet :=
      performs_execute _ ⟨rfl,fun _ _ => by simp,fun _ _ _ => by simp⟩
    refine (orderly_quiet hlatest).bind (fun latest => ?_) fun _ _ _ h => ⟨h,fun _ hr => by cases hr⟩
    cases latest with
    | none => exact hraise _
    | some e =>
      refine (orderly_checkpointPaths _).bind (fun rows => ?_) fun _ _ _ h => ⟨h.1,fun _ hr => by cases hr⟩
      dsimp only
      split
      · refine contract_pure (stable_and Books.stable (stable_ok (fun _ => AllOnFile.stable) _)) fun s _ h =>
          ⟨h.1,fun served hserved => ?_⟩
        rw [← Except.ok.inj hserved]
        exact h.2 rows rfl
      · exact (hraise _).mono (fun _ _ h => h.1) fun _ _ _ h => h
  have hrollback : ∀ s : Fleet D ι, Books i none [] [] (s.rollback i) :=
    fun s => Books.blank (blank_rollback s i) (by simp) none []
  have hstable : ∀ r : Py (Py (String × Dict String String)),
    Stable (Fleet.Rely i) fun s : Fleet D ι => ∃ x, r = .ok x ∧
      Books i none [] [] s ∧ ∀ served, x = .ok served → AllOnFile served.2.values s := by
    rintro r s t ⟨x,rfl,hx⟩ hr
    exact ⟨x,rfl,stable_and Books.stable (stable_ok (fun _ => AllOnFile.stable) x) s t hx hr⟩
  refine hcurrent.attempt.bind (fun current => ?_) fun e s _ h => ?_
  · cases current with
    | error e =>
      refine contract_call (R := fun _ => Books i none [] []) (hstable _) (fun _ _ _ => trivial)
        (fun s _ _ r t he _ => ?_)
        fun _ => contract_throw Books.stable fun _ _ h => h
      rw [Fleet.exec_rollback he]
      exact hrollback s
    | ok served =>
      refine contract_call (R := fun _ s => Books i none [] [] s ∧ AllOnFile served.2.values s) (hstable _)
        (fun _ _ _ => trivial)
        (fun s _ hs r t he _ => ?_) fun _ => ?_
      · obtain ⟨x,hx,-,hfiles⟩ := hs
        rw [Fleet.exec_rollback he]
        exact ⟨hrollback s,hfiles served (Except.ok.inj hx).symm⟩
      · refine (orderly_loadEnsemble served.2).bind (fun _ => ?_) fun _ _ _ h => h
        exact contract_pure Books.stable fun _ _ h => h
  · obtain ⟨x,hx,-⟩ := h
    cases hx

theorem orderly_serveLoop (requests : ℕ) :
    Orderly o pg i (Books i none [] []) (serveLoop o requests) (fun _ => Books i none [] []) := by
  induction requests with
  | zero => exact contract_pure Books.stable fun _ _ h => h
  | succ requests ih =>
    refine orderly_servedEnsemble.attempt.bind (fun served => ih.mono (fun s _ h => ?_) fun _ _ _ h => h)
      fun e s _ h => ?_
    · obtain ⟨x,-,h⟩ := h
      exact h
    · obtain ⟨x,-,h⟩ := h
      exact h

/-- Whatever its role, a process keeps to what it may do. -/
theorem Role.orderly (LEASE_SECONDS POLL_BATCH_SIZE : ℕ) (role : Role) :
    Orderly o pg i (Blank i) (role.program o LEASE_SECONDS POLL_BATCH_SIZE) (fun _ _ => True) := by
  cases role with
  | worker workerId cycles =>
    exact (orderly_workerLoop workerId LEASE_SECONDS POLL_BATCH_SIZE cycles).mono (fun _ _ h => h)
      fun _ _ _ _ => trivial
  | loader => exact orderly_loadRoutingScript
  | gateway requests =>
    exact (orderly_serveLoop requests).mono (fun s _ h => Books.blank h (by simp) none []) fun _ _ _ _ => trivial

end Transactions

end Discipline

end UnlearnShield.Worker
