import UnlearnShield.Worker.Groups
import UnlearnShield.Worker.Promotions

/-! # Claiming a batch

The first transaction of a cycle: what it returns are jobs of their own, each processing
when it commits. The groups they are processed in share none.
-/
namespace UnlearnShield.Worker
open Db Engine Deployment Program
variable {D : Deployment} {o : Outside D} {pg : Postgres} {w w' : Lone D}

def Claimed (db : Database) (job : ClaimedJob) : Prop := ∃ j, db.jobs.get? job.erasureId = some j ∧
  j.status = .processing ∧ j.subjectRef = job.subjectRef ∧ j.shard = job.shard

theorem run_claimBatch {workerId : String} {LEASE_SECONDS POLL_BATCH_SIZE : ℕ} {rows : List ClaimedJob}
    (h : (execute (.claimBatch workerId LEASE_SECONDS POLL_BATCH_SIZE)).run (lone o pg) w = (.ok rows,w')) :
    (rows.map ClaimedJob.erasureId).Nodup ∧ ∀ job ∈ rows, Claimed w'.view job := by
  obtain ⟨-,-,ws,he,hv⟩ := run_execute_ok h
  rw [effectOf, Sql.effect] at he
  set n := w.server.statements
  set chosen := (claimable (fun _ => false) (pg.arrange n w.view.jobs.entries)).take POLL_BATCH_SIZE with hchosen
  obtain ⟨rfl,rfl⟩ := Effect.does.inj he
  have hsort : (claimable (fun _ => false) (pg.arrange n w.view.jobs.entries)).Perm
      ((pg.arrange n w.view.jobs.entries).filter _) := List.perm_insertionSort _ _
  have hkeys : (chosen.map Prod.fst).Nodup := by
    have hall : ((pg.arrange n w.view.jobs.entries).map Prod.fst).Nodup :=
      ((pg.perm n w.view.jobs.entries).map Prod.fst).nodup_iff.mpr w.view.jobs.nodup
    have hsorted := (hsort.map Prod.fst).nodup_iff.mpr (hall.sublist (List.filter_sublist.map _))
    exact hsorted.sublist ((List.take_sublist _ _).map _)
  have hperm := pg.perm n chosen
  constructor
  · have hids := (hperm.map Prod.fst).nodup_iff.mpr hkeys
    rwa [List.map_map]
  · intro job hjob
    obtain ⟨e,he,rfl⟩ := List.mem_map.mp hjob
    have hin := hperm.mem_iff.mp he
    let written := chosen.map fun e => (e.1,e.2.claimed workerId (w.now + LEASE_SECONDS))
    have hwrites : w'.view = {w.view with jobs := w.view.jobs.insertAll written} := by
      rw [hv, ← Database.writes_jobs, List.map_map]
      rfl
    refine ⟨e.2.claimed workerId (w.now + LEASE_SECONDS),?_,rfl,rfl,rfl⟩
    rw [hwrites]
    refine Dict.get?_insertAll_of_mem ?_
      (List.mem_map_of_mem (f := fun e : Uuid × Job => (e.1,e.2.claimed workerId (w.now + LEASE_SECONDS))) hin) _
    rw [List.map_map]
    exact hkeys

/-- What is claimed is committed as processing before anything is done about it. -/
theorem run_claimJobs {workerId : String} {LEASE_SECONDS POLL_BATCH_SIZE : ℕ} {jobs : List ClaimedJob}
    (h : (claimJobs workerId LEASE_SECONDS POLL_BATCH_SIZE).run (lone o pg) w = (.ok jobs,w')) :
    w'.Idle ∧ (jobs.map ClaimedJob.erasureId).Nodup ∧ ∀ job ∈ jobs, Claimed w'.server.committed job := by
  obtain ⟨t,ht,rfl⟩ := run_withConn_eq_ok.mp h
  obtain ⟨_,w₁,-,ht⟩ := run_bind_eq_ok.mp ht
  obtain ⟨rows,w₂,h₂,ht⟩ := run_bind_eq_ok.mp ht
  obtain ⟨rfl,rfl⟩ := run_pure_eq_ok.mp ht
  obtain ⟨hn,hclaimed⟩ := run_claimBatch h₂
  have hperm := List.perm_insertionSort (fun a b : ClaimedJob => a.shard ≤ b.shard) rows
  refine ⟨idle_commit w₂,(hperm.map _).nodup_iff.mpr hn,fun job hjob => ?_⟩
  rw [committed_commit (run_execute_ok h₂).2.1]
  exact hclaimed job (hperm.mem_iff.mp hjob)

section Groups
variable {α κ : Type} [DecidableEq κ]

/-- Groups are runs of the list. -/
theorem groupby_flatMap (key : α → κ) (xs : List α) : (groupby key xs).flatMap Prod.snd = xs := by
  induction xs with
  | nil => rfl
  | cons a xs ih =>
    rw [groupby]
    split
    · next k group groups hgroups =>
      rw [hgroups, List.flatMap_cons] at ih
      split
      · rw [List.flatMap_cons, List.cons_append, ih]
      · rw [List.flatMap_cons, List.flatMap_cons, ih]
        rfl
    · next hgroups =>
      rw [hgroups] at ih
      rw [← ih]
      rfl

theorem groupby_key {key : α → κ} {xs : List α} : ∀ g ∈ groupby key xs, g.2 ≠ [] ∧ ∀ a ∈ g.2, key a = g.1 := by
  induction xs with
  | nil => simp [groupby]
  | cons a xs ih =>
    rw [groupby]
    split
    · next k group groups hgroups =>
      rw [hgroups] at ih
      obtain ⟨⟨hne,hkey⟩,hrest⟩ := List.forall_mem_cons.mp ih
      split
      · next hk =>
        exact List.forall_mem_cons.mpr ⟨⟨List.cons_ne_nil _ _,List.forall_mem_cons.mpr ⟨hk,hkey⟩⟩,hrest⟩
      · refine List.forall_mem_cons.mpr ⟨⟨List.cons_ne_nil _ _,?_⟩,ih⟩
        simp
    · simp

/-- The keys of a sorted list's groups are distinct. -/
theorem groupby_pairwise [LinearOrder κ] {key : α → κ} {xs : List α} (hs : xs.Pairwise fun a b => key a ≤ key b) :
    ((groupby key xs).map Prod.fst).Pairwise (· < ·) := by
  induction xs with
  | nil => simp [groupby]
  | cons a xs ih =>
    obtain ⟨hle,hs'⟩ := List.pairwise_cons.mp hs
    have ih' := ih hs'
    rw [groupby]
    split
    · next k group groups hgroups =>
      rw [hgroups, List.map_cons] at ih'
      split
      · exact ih'
      · next hne =>
        have hmem : (k,group) ∈ groupby key xs := hgroups ▸ List.mem_cons_self
        obtain ⟨b,hb⟩ := List.exists_mem_of_ne_nil _ (groupby_key _ hmem).1
        have hbxs : b ∈ xs := by
          rw [← groupby_flatMap key xs]
          exact List.mem_flatMap.mpr ⟨_,hmem,hb⟩
        have hkb : key b = k := (groupby_key _ hmem).2 b hb
        have hlt : key a < k := lt_of_le_of_ne (hkb ▸ hle b hbxs) hne
        refine List.pairwise_cons.mpr ⟨List.forall_mem_cons.mpr ⟨hlt,fun j hj => ?_⟩,ih'⟩
        exact hlt.trans ((List.pairwise_cons.mp ih').1 j hj)
    · simp

end Groups

theorem shardGroups_perm (jobs : List ClaimedJob) : ((shardGroups jobs).flatMap Prod.snd).Perm jobs := by
  rw [shardGroups, groupby_flatMap]
  exact List.perm_insertionSort _ _

/-- Every group is of one shard, and has a job. -/
theorem mem_shardGroups {jobs : List ClaimedJob} {shard : ℕ} {group : List ClaimedJob}
    (h : (shard,group) ∈ shardGroups jobs) :
    group ≠ [] ∧ ∀ job ∈ group, job ∈ jobs ∧ job.shard = shard := by
  obtain ⟨hne,hkey⟩ := groupby_key (shard,group) h
  refine ⟨hne,fun job hjob => ⟨?_,hkey job hjob⟩⟩
  exact (shardGroups_perm jobs).mem_iff.mp (List.mem_flatMap.mpr ⟨_,h,hjob⟩)

section Sample

def queuedJob (subjectRef : Ref) : Job := ⟨subjectRef,.fraudExcision,0,.queued,"k",none,none,0,none,10,"tenant-a",none⟩

def sampleQueue (jobs : List (Uuid × Job)) : Lone (logging 2) :=
  {sampleWorld with server := ⟨{emptyTables with jobs := Dict.ofList jobs},Dict.empty,1,0⟩}

def failingAt (statement : ℕ) : Postgres :=
  {Postgres.inOrder with
    fails := fun n => if n = statement then some "canceling statement due to statement timeout" else none}

def sampleClaim (pg : Postgres) (jobs : List (Uuid × Job)) : Except PyErr (List ClaimedJob) × Lone (logging 2) :=
  (claimJobs "w" 300 8).run (lone sampleOutside pg) (sampleQueue jobs)

end Sample

end UnlearnShield.Worker
