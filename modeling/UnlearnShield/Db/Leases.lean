import UnlearnShield.Db.Locks

/-! # Leased jobs

Between the transaction that claims a job and the one that ends it, the job is held. When
a lease runs out only for a job that nobody holds, a job is held by one, nobody writes a
job that another holds, and nobody writes a job that is done.
-/
namespace UnlearnShield.Db

def Sql.MayWrite (now : Time) (db : Database) (id : Uuid) : Sql → Prop
  | .reapExpired => ∃ job, db.jobs.get? id = some job ∧ job.Expired now
  | .claimBatch .. => ∃ job, db.jobs.get? id = some job ∧ job.status = .queued
  | .failJobs _ erasureIds => id ∈ erasureIds
  | .finishJob erasureId => id = erasureId
  | _ => False

theorem Sql.mayWrite {stmt : Sql} {pg : Postgres} {n : ℕ} {now : Time} {locked : RowKey → Bool} {db : Database}
    {answer : stmt.Answer} {ws : List Write} (he : stmt.effect pg n now locked db = .does answer ws)
    {id : Uuid} {job : Job} (h : .job id job ∈ ws) : stmt.MayWrite now db id := by
  cases stmt with
  | reapExpired =>
    obtain ⟨rfl,-⟩ := update_eq_does he
    obtain ⟨e,hmem,heq⟩ := List.mem_map.mp h
    obtain ⟨rfl,-⟩ := Write.job.inj heq
    obtain ⟨hrow,hexpired⟩ := List.mem_filter.mp hmem
    exact ⟨e.2,Dict.get?_eq_some.mpr hrow,of_decide_eq_true hexpired⟩
  | claimBatch workerId leaseSeconds limit =>
    obtain ⟨-,rfl⟩ := Effect.does.inj he
    obtain ⟨e,hmem,heq⟩ := List.mem_map.mp h
    obtain ⟨rfl,-⟩ := Write.job.inj heq
    have hin := (List.perm_insertionSort _ _).mem_iff.mp (List.mem_of_mem_take hmem)
    obtain ⟨hrow,hqueued⟩ := List.mem_filter.mp hin
    exact ⟨e.2,Dict.get?_eq_some.mpr ((pg.perm n db.jobs.entries).mem_iff.mp hrow),(of_decide_eq_true hqueued).1⟩
  | failJobs lastError erasureIds =>
    obtain ⟨rfl,-⟩ := update_eq_does he
    obtain ⟨e,hmem,heq⟩ := List.mem_map.mp h
    obtain ⟨rfl,-⟩ := Write.job.inj heq
    have hid : e.1 ∈ erasureIds := of_decide_eq_true (List.mem_filter.mp hmem).2
    exact hid
  | finishJob erasureId =>
    obtain ⟨rfl,-⟩ := update_eq_does he
    obtain ⟨e,hmem,heq⟩ := List.mem_map.mp h
    obtain ⟨rfl,-⟩ := Write.job.inj heq
    have hid : e.1 = erasureId := of_decide_eq_true (List.mem_filter.mp hmem).2
    exact hid
  | insertManifest erasureId row =>
    have heffect := foreignKey_eq_does he
    split at heffect
    · cases heffect
    · split at heffect
      · cases heffect
      · obtain ⟨-,rfl⟩ := Effect.does.inj heffect
        cases List.mem_singleton.mp h
  | insertCheckpoint | insertVersion => cases (insertNew_eq_does he h).2
  | insertEval | insertCheck => cases (insertNew_eq_does (foreignKey_eq_does he) h).2
  | latestVersion | checkpointPaths =>
    obtain ⟨-,rfl⟩ := Effect.does.inj he
    cases h
  | upsertSubjects entries =>
    obtain ⟨rfl,-⟩ := update_eq_does he
    obtain ⟨e,-,heq⟩ := List.mem_map.mp h
    cases heq

theorem jobWritten_map {rows : List (Uuid × Job)} (hn : (rows.map Prod.fst).Nodup) (f : Job → Job) {e : Uuid × Job}
    (he : e ∈ rows) :
    jobWritten e.1 (rows.map fun e => .job e.1 (f e.2)) = some (f e.2) := by
  induction rows with
  | nil => cases he
  | cons x rows ih =>
    rw [List.map_cons, List.nodup_cons] at hn
    obtain ⟨hx,hn⟩ := hn
    rw [List.map_cons, jobWritten_cons_job]
    rcases List.mem_cons.mp he with rfl | he
    · have hnone : jobWritten e.1 (rows.map fun e => .job e.1 (f e.2)) = none := by
        rw [jobWritten_eq_none]
        intro job hin
        obtain ⟨e',he',heq⟩ := List.mem_map.mp hin
        exact hx ((Write.job.inj heq).1 ▸ List.mem_map_of_mem he')
      rw [hnone, Option.none_or, if_pos rfl]
    · rw [ih hn he]
      rfl

/-- What is claimed are jobs of their own, each written as processing. -/
theorem Sql.claimed {workerId : String} {leaseSeconds limit : ℕ} {pg : Postgres} {n : ℕ} {now : Time}
    {locked : RowKey → Bool} {db : Database} {rows : List ClaimedJob} {ws : List Write}
    (he : (Sql.claimBatch workerId leaseSeconds limit).effect pg n now locked db = .does rows ws) :
    (rows.map ClaimedJob.erasureId).Nodup ∧ (∀ w ∈ ws, ∃ id job, w = .job id job) ∧
    ∀ row ∈ rows, ∃ job, jobWritten row.erasureId ws = some job ∧ job.status = .processing ∧
      job.subjectRef = row.subjectRef := by
  rw [Sql.effect] at he
  set chosen := (claimable locked (pg.arrange n db.jobs.entries)).take limit
  obtain ⟨rfl,rfl⟩ := Effect.does.inj he
  have hkeys : (chosen.map Prod.fst).Nodup := by
    have hall : ((pg.arrange n db.jobs.entries).map Prod.fst).Nodup :=
      ((pg.perm n db.jobs.entries).map Prod.fst).nodup_iff.mpr db.jobs.nodup
    have hsort : (claimable locked (pg.arrange n db.jobs.entries)).Perm ((pg.arrange n db.jobs.entries).filter _) :=
      List.perm_insertionSort _ _
    have hsorted := (hsort.map Prod.fst).nodup_iff.mpr (hall.sublist (List.filter_sublist.map _))
    exact hsorted.sublist ((List.take_sublist _ _).map _)
  have hperm := pg.perm n chosen
  refine ⟨?_,fun w hw => ?_,fun row hrow => ?_⟩
  · have hids := (hperm.map Prod.fst).nodup_iff.mpr hkeys
    rwa [List.map_map]
  · obtain ⟨e,-,rfl⟩ := List.mem_map.mp hw
    exact ⟨_,_,rfl⟩
  · obtain ⟨e,he,rfl⟩ := List.mem_map.mp hrow
    exact ⟨_,jobWritten_map hkeys (fun job => job.claimed workerId (now + leaseSeconds)) (hperm.mem_iff.mp he),rfl,rfl⟩

/-- Statements that write neither jobs nor manifests. -/
def Sql.plain : Sql → Bool
  | .reapExpired | .claimBatch .. | .failJobs .. | .finishJob _ | .insertManifest .. => false
  | _ => true

def Write.plain : Write → Bool
  | .job .. | .manifest .. => false
  | _ => true

theorem Sql.writes_plain {stmt : Sql} (hstmt : stmt.plain = true) {pg : Postgres} {n : ℕ} {now : Time}
    {locked : RowKey → Bool} {db : Database}
    {answer : stmt.Answer} {ws : List Write} (he : stmt.effect pg n now locked db = .does answer ws) :
    ∀ w ∈ ws, w.plain = true := by
  intro w hw
  cases stmt with
  | insertCheckpoint | insertVersion =>
    rw [(insertNew_eq_does he hw).2]
    rfl
  | insertEval | insertCheck =>
    rw [(insertNew_eq_does (foreignKey_eq_does he) hw).2]
    rfl
  | latestVersion | checkpointPaths =>
    obtain ⟨-,rfl⟩ := Effect.does.inj he
    cases hw
  | upsertSubjects entries =>
    obtain ⟨rfl,-⟩ := update_eq_does he
    obtain ⟨e,-,rfl⟩ := List.mem_map.mp hw
    rfl
  | _ => cases hstmt

section Server
variable {ι : Type} [DecidableEq ι]

abbrev Held (ι : Type) := ι → Uuid → Option Job

/-- The jobs that the transaction of a connection leaves as processing if it commits. -/
def Server.claims (s : Server ι) (i : ι) (id : Uuid) : Option Job :=
  if (s.session i).aborted then none else (jobWritten id (s.writesOf i)).filter fun job => job.status = .processing

theorem Server.claims_eq_some {s : Server ι} {i : ι} {id : Uuid} {job : Job} :
    s.claims i id = some job ↔ (s.session i).aborted = false ∧ jobWritten id (s.writesOf i) = some job ∧
      job.status = .processing := by
  rw [claims]
  split
  · next h => simp [h]
  · next h => simp [h, Option.filter_eq_some_iff]

/-- What a transaction claims is committed as it claims it. -/
theorem Server.committed_claims {s : Server ι} {i : ι} {id : Uuid} {job : Job} (h : s.claims i id = some job) :
    (s.commit i).committed.jobs.get? id = some job := by
  obtain ⟨ha,hjob,-⟩ := Server.claims_eq_some.mp h
  have hc : (s.commit i).committed = s.committed.writes (s.writesOf i) := by
    rw [Server.commit, ha]
    rfl
  rw [hc, Database.get?_jobs_writes_eq, hjob]
  rfl

/-- No transaction writes a job that is done or that another holds, and a job is held by one. -/
structure Leases (s : Server ι) (held : Held ι) : Prop where
  recorded : ∀ id ∈ s.committed.manifests, ∃ job, s.committed.jobs.get? id = some job ∧ job.status = .done
  unfinished : ∀ i id job, .job id job ∈ s.writesOf i → ∃ old, s.committed.jobs.get? id = some old ∧ old.status ≠ .done
  apart : ∀ i j id job, j ≠ i → .job id job ∈ s.writesOf i → held j id = none
  working : ∀ i id job, held i id = some job → s.committed.jobs.get? id = some job ∧ job.status = .processing
  single : ∀ i j id job, j ≠ i → held i id = some job → held j id = none

/-- The row of a job as a transaction of `i` writes it has to do with nobody else. -/
structure Free (s : Server ι) (held : Held ι) (i : ι) (id : Uuid) : Prop where
  unfinished : ∃ old, s.committed.jobs.get? id = some old ∧ old.status ≠ .done
  apart : ∀ j, j ≠ i → held j id = none

namespace Leases
variable {s t : Server ι} {held held' : Held ι} {i : ι}

/-- A transaction may be dropped, and jobs let go. -/
theorem mono (h : Leases s held) (hc : t.committed = s.committed)
    (hw : ∀ j, t.writesOf j = s.writesOf j ∨ t.writesOf j = [])
    (hheld : ∀ j id job, held' j id = some job → held j id = some job) : Leases t held' := by
  have hin : ∀ j, ∀ w ∈ t.writesOf j, w ∈ s.writesOf j := by
    intro j w hw'
    rcases hw j with heq | heq
    · rwa [heq] at hw'
    · rw [heq] at hw'
      cases hw'
  have hnone : ∀ j id, held j id = none → held' j id = none := by
    intro j id hn
    cases hs : held' j id with
    | none => rfl
    | some job => cases hn.symm.trans (hheld j id job hs)
  refine ⟨?_,?_,?_,?_,?_⟩
  · rw [hc]
    exact h.recorded
  · rw [hc]
    exact fun i id job hjob => h.unfinished i id job (hin i _ hjob)
  · exact fun i j id job hj hjob => hnone j id (h.apart i j id job hj (hin i _ hjob))
  · rw [hc]
    exact fun i id job hjob => h.working i id job (hheld i id job hjob)
  · exact fun i j id job hj hjob => hnone j id (h.single i j id job hj (hheld i id job hjob))

/-- A transaction may write jobs that have to do with nobody else. -/
theorem wrote (h : Leases s held) {ws : List Write} (hws : ∀ id job, .job id job ∈ ws → Free s held i id) :
    Leases (s.wrote i ws) held := by
  have hin : ∀ j, ∀ w ∈ (s.wrote i ws).writesOf j, w ∈ s.writesOf j ∨ (j = i ∧ w ∈ ws) := by
    intro j w hw
    rw [Server.writesOf_wrote] at hw
    split at hw
    · next hj =>
      rcases List.mem_append.mp hw with hw | hw
      · exact Or.inl (hj ▸ hw)
      · exact Or.inr ⟨hj,hw⟩
    · exact Or.inl hw
  refine ⟨h.recorded,?_,?_,h.working,h.single⟩
  · intro j id job hjob
    rcases hin j _ hjob with hold | ⟨-,hnew⟩
    · exact h.unfinished j id job hold
    · exact (hws id job hnew).unfinished
  · intro j k id job hk hjob
    rcases hin j _ hjob with hold | ⟨hj,hnew⟩
    · exact h.apart j k id job hk hold
    · exact (hws id job hnew).apart k (hj ▸ hk)

/-- What a transaction has written of its own is free to it, and so is what it sees unfinished and no other holds. -/
theorem free (h : Leases s held) {id : Uuid} {old : Job} (hv : (s.view i).jobs.get? id = some old)
    (hne : old.status ≠ .done)
    (hheld : s.committed.jobs.get? id = some old → ∀ j, j ≠ i → held j id = none) : Free s held i id := by
  rw [Server.view, Database.get?_jobs_writes_eq, Option.or_eq_some_iff] at hv
  rcases hv with hv | ⟨-,hv⟩
  · have hin := mem_of_jobWritten hv
    exact ⟨h.unfinished i id old hin,fun j hj => h.apart i j id old hj hin⟩
  · exact ⟨⟨old,hv,hne⟩,hheld hv⟩

/-- `COMMIT`, when the jobs of the manifests written are done. -/
theorem commit (h : Leases s held) (hl : Locks s)
    (hclosed : ∀ id row, .manifest id row ∈ s.writesOf i → ∃ job, jobWritten id (s.writesOf i) = some job ∧
      job.status = .done) :
    Leases (s.commit i) (Function.update held i (s.claims i)) := by
  have hwrites : ∀ j, (s.commit i).writesOf j = s.writesOf j ∨ (s.commit i).writesOf j = [] := by
    intro j
    rw [Server.writesOf_commit]
    split
    · exact Or.inr rfl
    · exact Or.inl rfl
  cases ha : (s.session i).aborted with
  | true =>
    have hc : (s.commit i).committed = s.committed := by
      rw [Server.commit, ha]
      rfl
    refine h.mono hc hwrites fun j id job hjob => ?_
    by_cases hj : j = i
    · rw [hj, Function.update_self, Server.claims, ha] at hjob
      cases hjob
    · rwa [Function.update_of_ne hj] at hjob
  | false =>
    have hc : (s.commit i).committed = s.committed.writes (s.writesOf i) := by
      rw [Server.commit, ha]
      rfl
    have hother : ∀ j, ∀ w ∈ (s.commit i).writesOf j, j ≠ i ∧ w ∈ s.writesOf j := by
      intro j w hw
      rw [Server.writesOf_commit] at hw
      split at hw
      · cases hw
      · next hj => exact ⟨hj,hw⟩
    -- a row that the transaction has not written is as it was
    have hkept : ∀ id, (∀ job, .job id job ∉ s.writesOf i) →
      (s.commit i).committed.jobs.get? id = s.committed.jobs.get? id := by
      intro id hno
      rw [hc, Database.get?_jobs_writes_eq, jobWritten_eq_none.mpr hno, Option.none_or]
    constructor
    · intro id hid
      have hhas : s.committed.Has (.manifest id) ∨ ∃ w ∈ s.writesOf i, w.key = .manifest id := by
        rw [hc] at hid
        have hview : (s.committed.writes (s.writesOf i)).Has (.manifest id) := hid
        exact (Database.has_writes.mp hview).symm
      rcases hhas with hid | ⟨w,hw,hkey⟩
      · obtain ⟨job,hjob,hdone⟩ := h.recorded id hid
        refine ⟨job,?_,hdone⟩
        rw [hkept id fun job' hjob' => ?_]
        · exact hjob
        · obtain ⟨old,hold,hne⟩ := h.unfinished i id job' hjob'
          cases hjob.symm.trans hold
          exact hne hdone
      · cases w with
        | manifest erasureId row =>
          obtain rfl := RowKey.manifest.inj hkey
          obtain ⟨job,hjob,hdone⟩ := hclosed erasureId row hw
          refine ⟨job,?_,hdone⟩
          rw [hc, Database.get?_jobs_writes_eq, hjob]
          rfl
        | _ => cases hkey
    · intro j id job hjob
      obtain ⟨hj,hjob⟩ := hother j _ hjob
      rw [hkept id fun job' hjob' => hl.exclusive i j (Ne.symm hj) _ hjob' _ hjob rfl]
      exact h.unfinished j id job hjob
    · intro j k id job hk hjob
      obtain ⟨hj,hjob⟩ := hother j _ hjob
      by_cases hki : k = i
      · rw [hki, Function.update_self]
        cases hclaim : s.claims i id with
        | none => rfl
        | some job' =>
          have hin := mem_of_jobWritten (Server.claims_eq_some.mp hclaim).2.1
          exact (hl.exclusive i j (Ne.symm hj) _ hin _ hjob rfl).elim
      · rw [Function.update_of_ne hki]
        exact h.apart j k id job hk hjob
    · intro j id job hjob
      by_cases hj : j = i
      · rw [hj, Function.update_self] at hjob
        exact ⟨Server.committed_claims hjob,(Server.claims_eq_some.mp hjob).2.2⟩
      · rw [Function.update_of_ne hj] at hjob
        rw [hkept id fun job' hjob' => ?_]
        · exact h.working j id job hjob
        · cases (h.apart i j id job' hj hjob').symm.trans hjob
    · intro j k id job hk hjob
      by_cases hj : j = i
      · rw [hj, Function.update_self, Server.claims_eq_some] at hjob
        rw [Function.update_of_ne (hj ▸ hk)]
        exact h.apart i k id job (hj ▸ hk) (mem_of_jobWritten hjob.2.1)
      · rw [Function.update_of_ne hj] at hjob
        by_cases hki : k = i
        · rw [hki, Function.update_self]
          cases hclaim : s.claims i id with
          | none => rfl
          | some job' =>
            cases (h.apart i j id job' hj (mem_of_jobWritten (Server.claims_eq_some.mp hclaim).2.1)).symm.trans hjob
        · rw [Function.update_of_ne hki]
          exact h.single j k id job hk hjob

/-- A new job is queued. -/
theorem queue (h : Leases s held) {id : Uuid} {job : Job} (hfresh : id ∉ s.committed.jobs)
    (hc : t.committed = {s.committed with jobs := s.committed.jobs.insert id job})
    (hw : ∀ j, t.writesOf j = s.writesOf j) :
    Leases t held := by
  have hkept : ∀ id' old, s.committed.jobs.get? id' = some old → t.committed.jobs.get? id' = some old := by
    intro id' old hold
    rw [hc]
    refine (Dict.get?_insert_of_ne ?_ _).trans hold
    rintro rfl
    exact hfresh (Dict.mem_of_get? hold)
  refine ⟨?_,?_,?_,?_,h.single⟩
  · intro id' hid
    rw [hc] at hid
    obtain ⟨old,hold,hdone⟩ := h.recorded id' hid
    exact ⟨old,hkept id' old hold,hdone⟩
  · intro j id' job' hjob
    rw [hw] at hjob
    obtain ⟨old,hold,hne⟩ := h.unfinished j id' job' hjob
    exact ⟨old,hkept id' old hold,hne⟩
  · intro j k id' job' hk hjob
    rw [hw] at hjob
    exact h.apart j k id' job' hk hjob
  · intro j id' job' hjob
    obtain ⟨hold,hst⟩ := h.working j id' job' hjob
    exact ⟨hkept id' job' hold,hst⟩

end Leases

/-- What the statement ends is held by the one who sends it. -/
def Sql.Ends (mine : Uuid → Option Job) : Sql → Prop
  | .failJobs _ erasureIds => ∀ id ∈ erasureIds, mine id ≠ none
  | .finishJob erasureId => mine erasureId ≠ none
  | _ => True

/-- A lease that is found expired is that of a job nobody holds. -/
def Server.Timely (s : Server ι) (held : Held ι) (i : ι) : Prop :=
  ∀ id job, (s.view i).jobs.get? id = some job → job.Expired (s.session i).now → ∀ j, held j id = none

theorem Leases.effect {s : Server ι} {held : Held ι} {i : ι} {pg : Postgres} {stmt : Sql} {answer : stmt.Answer}
    {ws : List Write} (h : Leases s held)
    (hends : stmt.Ends (held i)) (htimely : stmt = .reapExpired → s.Timely held i)
    (he : stmt.effect pg s.statements (s.session i).now (s.locked i) (s.view i) = .does answer ws) :
    Leases (s.wrote i ws) held := by
  refine h.wrote fun id job hin => ?_
  have hmay := Sql.mayWrite he hin
  -- what the worker holds is unfinished and held by no other
  have hmine : held i id ≠ none → Free s held i id := by
    intro hne
    obtain ⟨mine,hmine⟩ := Option.ne_none_iff_exists'.mp hne
    obtain ⟨hrow,hst⟩ := h.working i id mine hmine
    exact ⟨⟨mine,hrow,by rw [hst]; decide⟩,fun j hj => h.single i j id mine hj hmine⟩
  cases stmt with
  | reapExpired =>
    obtain ⟨old,hold,hexpired⟩ := hmay
    refine h.free hold (by rw [hexpired.1]; decide) fun _ j _ => ?_
    exact htimely rfl id old hold hexpired j
  | claimBatch =>
    obtain ⟨old,hold,hqueued⟩ := hmay
    refine h.free hold (by rw [hqueued]; decide) fun hc j hj => ?_
    cases hheld : held j id with
    | none => rfl
    | some mine =>
      obtain ⟨hrow,hst⟩ := h.working j id mine hheld
      cases hc.symm.trans hrow
      cases hqueued.symm.trans hst
  | failJobs lastError erasureIds => exact hmine (hends id hmay)
  | finishJob erasureId =>
    have hid : id = erasureId := hmay
    exact hmine (hid ▸ hends)
  | _ => exact hmay.elim

end Server

end UnlearnShield.Db
