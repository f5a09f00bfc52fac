import UnlearnShield.Worker.Discipline
import UnlearnShield.Worker.TwoStores

/-! # What a fleet records

In every run of any number of workers, loads and servers: what is committed is never taken
back, a job is done only with a manifest that names its subject, and a version names only
checkpoints whose files are there. When no lease runs out under a worker that still has
its job, a job is held by one worker, and once it is done it stays done.
-/
namespace UnlearnShield.Worker
open Db Engine Deployment Program Relation
variable {D : Deployment} {ι : Type} [DecidableEq ι] {o : Outside D} {pg : Postgres}

section Moves
variable {may : ι → WorkerOp D → Fleet D ι → Prop} {α : Type}

theorem Fleet.moves_of_step {p q : Pool ι (WorkerOp D) WorkerOp.Resp PyErr α (Fleet D ι)}
    (h : ((fleet o pg).within may).Step p q) :
    p.2.Moves pg may q.2 := by
  cases h with
  | op _ he =>
    obtain ⟨hmay,he⟩ := Machine.exec_within.mp he
    exact Fleet.moves_of_exec hmay he
  | crash i e => exact .rollback i
  | env he => exact .meanwhile he

theorem Fleet.moves_of_reaches {p q : Pool ι (WorkerOp D) WorkerOp.Resp PyErr α (Fleet D ι)}
    (h : ((fleet o pg).within may).Reaches p q) : ReflTransGen (Fleet.Moves pg may) p.2 q.2 :=
  h.lift Prod.snd fun _ _ => Fleet.moves_of_step

theorem Fleet.Moves.weaken {may' : ι → WorkerOp D → Fleet D ι → Prop} {s t : Fleet D ι} (h : s.Moves pg may t)
    (hmay : ∀ i op s, may i op s → may' i op s) : s.Moves pg may' t := by
  cases h with
  | wrote i h heffect => exact .wrote i (hmay _ _ _ h) heffect
  | abort i => exact .abort i
  | commit i h => exact .commit i (hmay _ _ _ h)
  | rollback i => exact .rollback i
  | elsewhere hserver hheld hcas => exact .elsewhere hserver hheld hcas
  | meanwhile he => exact .meanwhile he

/-- Locks and what is committed, over any step. -/
theorem Fleet.Moves.locks {s t : Fleet D ι} (h : s.Moves pg may t) (hl : Locks s.server) :
    Locks t.server ∧ s.server.committed.Keeps t.server.committed := by
  have hstep : ∀ server, s.server.Steps pg server → Locks server ∧ s.server.committed.Keeps server.committed :=
    fun _ => hl.step
  cases h with
  | wrote i _ heffect => exact hstep _ (.wrote i heffect)
  | abort i => exact hstep _ (.abort i)
  | commit i _ => exact hstep _ (.commit i)
  | rollback i => exact hstep _ (.rollback i)
  | elsewhere hserver _ _ =>
    rw [hserver]
    exact ⟨hl,.refl _⟩
  | meanwhile he =>
    have hwrites : ∀ j, t.server.writesOf j = s.server.writesOf j :=
      fun j => (Prod.ext_iff.mp (Prod.ext_iff.mp (Fleet.own_meanwhile he j)).2).1
    cases he with
    | tick clock => exact ⟨hl.mono rfl fun j => Or.inl (hwrites j),.refl _⟩
    | request erasureId job hfresh _ => exact hl.queue hfresh rfl hwrites

theorem Fleet.Moves.run_locks {s t : Fleet D ι} (h : ReflTransGen (Fleet.Moves pg may) s t) (hl : Locks s.server) :
    Locks t.server ∧ s.server.committed.Keeps t.server.committed := by
  induction h with
  | refl => exact ⟨hl,.refl _⟩
  | tail _ hstep ih =>
    obtain ⟨hl',hkeeps⟩ := hstep.locks ih.1
    exact ⟨hl',ih.2.trans hkeeps⟩

end Moves

section Requests
variable {subjectRef : String → Ref} {SLA_HOURS : ℕ} {post : Gateway.Post}

omit [DecidableEq ι] in
/-- A request that is accepted is a step of the fleet, or finds its job there. -/
theorem Fleet.meanwhile_of_request {s : Fleet D ι} {accepted : Gateway.ErasureAccepted} {tables : Gateway.Tables Unit}
    (h : request subjectRef SLA_HOURS post s.server.committed = (.ok accepted,tables)) :
    tables.jobs = s.server.committed.jobs ∨ ∃ t, s.Meanwhile t ∧ t.server.committed.jobs = tables.jobs := by
  obtain ⟨found,_,hselect,h⟩ := run_call_eq_ok.mp h
  obtain ⟨-,rfl⟩ := Prod.mk.inj (Except.ok.inj hselect)
  cases found with
  | none => cases (Prod.mk.inj h).1
  | some shard =>
    obtain ⟨⟨id,_⟩,u,hinsert,h⟩ := run_bind_eq_ok.mp h
    obtain ⟨_,_,hcommit,h⟩ := run_call_eq_ok.mp h
    obtain ⟨-,rfl⟩ := Prod.mk.inj (Except.ok.inj hcommit)
    obtain ⟨deadline,_,hdeadline,h⟩ := run_call_eq_ok.mp h
    obtain ⟨-,rfl⟩ := Prod.mk.inj (Except.ok.inj hdeadline)
    have hjobs : tables.jobs = u.view () := by
      cases deadline with
      | none => cases (Prod.mk.inj h).1
      | some deadline => rw [← (Prod.mk.inj h).2]
    rw [hjobs]
    obtain ⟨r,v,hrow,hinsert⟩ := run_call_eq_ok.mp hinsert
    rw [Gateway.exec] at hrow
    split at hrow
    · cases hrow
    · split at hrow
      · -- the row with its key is there
        obtain ⟨rfl,rfl⟩ := Prod.mk.inj (Except.ok.inj hrow)
        obtain ⟨key,_,hkey,hinsert⟩ := run_call_eq_ok.mp hinsert
        obtain ⟨-,rfl⟩ := Prod.mk.inj (Except.ok.inj hkey)
        cases key with
        | none => cases (Prod.mk.inj hinsert).1
        | some id =>
          obtain ⟨-,rfl⟩ := run_pure_eq_ok.mp hinsert
          exact Or.inl rfl
      · split at hrow
        · obtain ⟨rfl,-⟩ := Prod.mk.inj (Except.ok.inj hrow)
          cases (Prod.mk.inj hinsert).1
        · next hfresh =>
          obtain ⟨rfl,rfl⟩ := Prod.mk.inj (Except.ok.inj hrow)
          obtain ⟨-,rfl⟩ := run_pure_eq_ok.mp hinsert
          exact Or.inr ⟨_,.request post.uuid (post.job subjectRef SLA_HOURS shard) hfresh rfl,rfl⟩

end Requests

section Runs
variable {LEASE_SECONDS POLL_BATCH_SIZE : ℕ} {roles : ι → Role}

def deployed (o : Outside D) (LEASE_SECONDS POLL_BATCH_SIZE : ℕ) (roles : ι → Role) : ι → WorkerM D Unit :=
  fun i => (roles i).program o LEASE_SECONDS POLL_BATCH_SIZE

def Quiescent (w : World D ι) : Prop := w.server.sessions = Dict.empty

def Fleet.start (w : World D ι) : Fleet D ι := ⟨w,fun _ _ => none⟩

theorem Quiescent.writesOf {w : World D ι} (h : Quiescent w) (i : ι) : (Fleet.start w).server.writesOf i = [] := by
  rw [Server.writesOf, Server.session, show (Fleet.start w).server.sessions = Dict.empty from h]
  rfl

theorem Quiescent.locks {w : World D ι} (h : Quiescent w) : Locks (Fleet.start w).server := by
  refine ⟨fun i j _ w' hin => ?_,fun i w' hin => ?_,fun i id job hin => ?_⟩
  · rw [h.writesOf] at hin
    cases hin
  · rw [h.writesOf] at hin
    cases hin
  · rw [h.writesOf] at hin
    cases hin

structure AtRest (o : Outside D) (w : World D ι) : Prop where
  quiescent : Quiescent w
  backed : Database.Backed w.server.committed
  filed : Fleet.OnRecord o w.server.committed.checkpoints w.cas

theorem AtRest.consistent {w : World D ι} (h : AtRest o w) : Fleet.Consistent o (Fleet.start w) := by
  refine ⟨⟨h.backed,fun i v row hin => ?_⟩,h.filed,fun i hash row hin => ?_⟩
  · rw [h.quiescent.writesOf] at hin
    cases hin
  · rw [h.quiescent.writesOf] at hin
    cases hin

/-- In a run of a fleet every process keeps to what it may do, and the fleet stays consistent. -/
theorem deployed_obeys {w : World D ι} (hw : AtRest o w) {extra : ι → WorkerOp D → Fleet D ι → Prop}
    {q : Pool ι (WorkerOp D) WorkerOp.Resp PyErr Unit (Fleet D ι)}
    (h : ((fleet o pg).within extra).Reaches (deployed o LEASE_SECONDS POLL_BATCH_SIZE roles,Fleet.start w) q) :
    ((fleet o pg).within fun i op s => extra i op s ∧ s.Allowed o i op).Reaches
      (deployed o LEASE_SECONDS POLL_BATCH_SIZE roles,Fleet.start w) q ∧
      Fleet.Consistent o q.2 ∧ ∀ i, ((fleet o pg).within extra).Obedient (Fleet.Consistent o) Fleet.Rely
        (fun i op s => s.Allowed o i op)
        (fun _ _ _ => True) q i := by
  have hobedient : ∀ i, ((fleet o pg).within extra).Obedient (Fleet.Consistent o) Fleet.Rely
    (fun i op s => s.Allowed o i op)
      (fun _ _ _ => True) (deployed o LEASE_SECONDS POLL_BATCH_SIZE roles,Fleet.start w) i := by
    intro i
    have horderly : Orderly o pg i (Blank i) ((roles i).program o LEASE_SECONDS POLL_BATCH_SIZE) (fun _ _ => True) :=
      (roles i).orderly LEASE_SECONDS POLL_BATCH_SIZE
    exact Or.inr ((horderly (Fleet.start w) hw.consistent (hw.quiescent.writesOf i)).restrict fun op s r t he =>
      (Machine.exec_within.mp he).2)
  obtain ⟨hreaches,hconsistent,hobeys⟩ := h.obeys ((Fleet.respects o pg).within extra) hw.consistent hobedient
  exact ⟨Machine.within_within _ hreaches,hconsistent,hobeys⟩

theorem deployed_moves {w : World D ι} (hw : AtRest o w) {q : Pool ι (WorkerOp D) WorkerOp.Resp PyErr Unit (Fleet D ι)}
    (h : (fleet o pg).Reaches (deployed o LEASE_SECONDS POLL_BATCH_SIZE roles,Fleet.start w) q) :
    ReflTransGen (Fleet.Moves pg fun i op s => s.Allowed o i op) (Fleet.start w) q.2 ∧ Fleet.Consistent o q.2 := by
  obtain ⟨hreaches,hconsistent,-⟩ := deployed_obeys hw h.to_within
  exact ⟨(Fleet.moves_of_reaches hreaches).lift id fun _ _ hm => hm.weaken fun _ _ _ h => h.2,hconsistent⟩

/-- Whatever programs the processes run, what is committed is never taken back. -/
theorem committed_keeps {α : Type} {pool : ι → WorkerM D α} {w : World D ι} (hw : Quiescent w)
    {p q : Pool ι (WorkerOp D) WorkerOp.Resp PyErr α (Fleet D ι)} (hp : (fleet o pg).Reaches (pool,Fleet.start w) p)
    (hq : (fleet o pg).Reaches p q) : p.2.server.committed.Keeps q.2.server.committed := by
  obtain ⟨hlocks,-⟩ := Fleet.Moves.run_locks (Fleet.moves_of_reaches hp.to_within) hw.locks
  exact (Fleet.Moves.run_locks (Fleet.moves_of_reaches hq.to_within) hlocks).2

end Runs

section Sample

/-- Trained models; one job is queued, one is done. -/
def sampleDeployment : World (logging 2) Bool :=
  ⟨sampleBoosted.1,Dict.empty,⟨{emptyTables with
      jobs := Dict.ofList [("a",queuedJob (sampleRef 3)),("b",{queuedJob (sampleRef 2) with status := .done})]
      manifests := Dict.ofList [("b",⟨.int 0,.str "fresh_init",.none,.none,.none,.none,.none,.none,.none,
        [(.str "subject_ref",.str (sampleRef 2).val.hex)]⟩)]},Dict.empty,1,0⟩,
    fun _ => sampleBoosted.2,fun _ => Dict.empty⟩

def sampleRoles : Bool → Role
  | true => .loader
  | false => .worker "w" 1

def sampleFleet : Pool Bool (WorkerOp (logging 2)) WorkerOp.Resp PyErr Unit (Fleet (logging 2) Bool) :=
  (deployed sampleOutside 300 8 sampleRoles,Fleet.start sampleDeployment)

def sampleLoad : Py Unit × Fleet (logging 2) Bool :=
  ((deployed sampleOutside 300 8 sampleRoles) true).run (Fleet.exec sampleOutside Postgres.inOrder true)
    (Fleet.start sampleDeployment)

theorem sampleFleet_loads : ∃ pool, (fleet sampleOutside Postgres.inOrder).Reaches sampleFleet (pool,sampleLoad.2) := by
  have hok : sampleLoad.1.isOk = true := by decide +kernel
  exact ⟨_,Machine.reaches_of_run (returned_of_isOk hok)⟩

theorem sampleDeployment_atRest : AtRest sampleOutside sampleDeployment := by
  refine ⟨rfl,fun v row hrow => ?_,fun h row hrow => ?_⟩
  · cases hrow
  · cases hrow

theorem committed_keeps_sample :
    ∃ q : Pool Bool (WorkerOp (logging 2)) WorkerOp.Resp PyErr Unit (Fleet (logging 2) Bool),
    q.2.server.committed.versions.keys = ["v0-baseline"] ∧
      sampleFleet.2.server.committed.Keeps q.2.server.committed := by
  have hversions : sampleLoad.2.server.committed.versions.keys = ["v0-baseline"] := by decide +kernel
  obtain ⟨pool,hreaches⟩ := sampleFleet_loads
  exact ⟨_,hversions,committed_keeps sampleDeployment_atRest.quiescent .refl hreaches⟩

/-- The deployment whose hash of a text is how it begins. -/
def beginning : Deployment := {logging 2 with H := fun data => ⟨(data ++ List.replicate 32 0).take 32,by simp⟩}

def beginningBoosted : Process beginning :=
  ((Gbdt.build (D := beginning) sampleRouting 1).run fileExec
    (⟨some sampleRouting,fun shard => if shard = 0 then some sampleRecords else none,fun _ => none,fun _ _ => none,
      fun _ => none⟩,fun _ => none)).2

def beginningWorld : World beginning Bool :=
  ⟨beginningBoosted.1,Dict.empty,
    ⟨{emptyTables with jobs := Dict.ofList [("a",queuedJob (sampleRef 3))]},Dict.empty,1,0⟩,
    fun _ => beginningBoosted.2,fun _ => Dict.empty⟩

def beginningOutside : Outside beginning where
  engine := .gbdt 1
  CHECKPOINT_DIR := "checkpoints"
  shouldSpotCheck := fun _ => true
  score := fun _ => .ok "0.5"
  nEval := 4000
  fileHash := fun _ => ""
  clock := fun _ => ⟨"2024-01-01","2024-01-02"⟩

def beginningRun : Py Unit × Fleet beginning Bool :=
  (deployed beginningOutside 300 8 sampleRoles false).run (Fleet.exec beginningOutside Postgres.inOrder false)
    (Fleet.start beginningWorld)

/-- The worker erases, records and checks. -/
theorem beginningRun_records : beginningRun.1.isOk = true ∧ beginningRun.2.server.committed.manifests.keys = ["a"] ∧
    beginningRun.2.server.committed.checks.keys = ["a"] ∧
      (beginningRun.2.server.committed.jobs.get? "a").map Job.status = some .done := by
  decide +kernel

theorem beginningWorld_atRest : AtRest beginningOutside beginningWorld :=
  ⟨rfl,fun v row hrow => (by cases hrow),fun h row hrow => (by cases hrow)⟩

theorem beginningRun_reaches : ∃ pool, (fleet beginningOutside Postgres.inOrder).Reaches
    (deployed beginningOutside 300 8 sampleRoles,Fleet.start beginningWorld) (pool,beginningRun.2) :=
  ⟨_,Machine.reaches_of_run (returned_of_isOk beginningRun_records.1)⟩

end Sample

section Receipts

/-- Every manifest is that of a job and names its subject, and every job that is done has one. -/
structure Receipted (db : Database) : Prop where
  named : ∀ id row, db.manifests.get? id = some row → ∃ job, db.jobs.get? id = some job ∧ Names row job.subjectRef
  done : ∀ id job, db.jobs.get? id = some job → job.status = .done → id ∈ db.manifests

structure Receipts (s : Fleet D ι) : Prop where
  committed : Receipted s.server.committed
  naming : ∀ i id row, .manifest id row ∈ s.server.writesOf i → ∃ job, s.server.committed.jobs.get? id = some job ∧
    Names row job.subjectRef
  finishing : ∀ i id job, .job id job ∈ s.server.writesOf i → job.status = .done → ∃ row, .manifest id row ∈
    s.server.writesOf i
  held : ∀ i id job, s.held i id = some job → ∃ row, s.server.committed.jobs.get? id = some row ∧
    row.subjectRef = job.subjectRef

namespace Receipts
variable {s t : Fleet D ι}

/-- Jobs stay the jobs they were, whoever commits. -/
theorem keeps (h : Receipts s) (hk : s.server.committed.Keeps t.server.committed) (hc : Receipted t.server.committed)
    (hw : ∀ j, t.server.writesOf j = s.server.writesOf j ∨ t.server.writesOf j = [])
    (hheld : ∀ j id job, t.held j id = some job → s.held j id = some job ∨
      ∃ row, t.server.committed.jobs.get? id = some row ∧ row.subjectRef = job.subjectRef) : Receipts t := by
  have hin : ∀ {j : ι} {w : Write}, w ∈ t.server.writesOf j → t.server.writesOf j = s.server.writesOf j := by
    intro j w hw'
    rcases hw j with heq | heq
    · exact heq
    · rw [heq] at hw'
      cases hw'
  refine ⟨hc,fun i id row hrow => ?_,fun i id job hjob hdone => ?_,fun i id job hjob => ?_⟩
  · obtain ⟨old,hold,hnames⟩ := h.naming i id row (hin hrow ▸ hrow)
    obtain ⟨job,hjob,hcont⟩ := hk.jobs id old hold
    exact ⟨job,hjob,hcont.subjectRef ▸ hnames⟩
  · have hsame := hin hjob
    rw [hsame] at hjob ⊢
    exact h.finishing i id job hjob hdone
  · rcases hheld i id job hjob with hsame | hnew
    · obtain ⟨old,hold,hsubject⟩ := h.held i id job hsame
      obtain ⟨row,hrow,hcont⟩ := hk.jobs id old hold
      exact ⟨row,hrow,hcont.subjectRef.trans hsubject⟩
    · exact hnew

theorem mono (h : Receipts s) (hc : t.server.committed = s.server.committed)
    (hw : ∀ j, t.server.writesOf j = s.server.writesOf j ∨ t.server.writesOf j = [])
    (hheld : ∀ j id job, t.held j id = some job → s.held j id = some job) : Receipts t :=
  h.keeps (hc ▸ .refl _) (hc ▸ h.committed) hw fun j id job hjob => Or.inl (hheld j id job hjob)

theorem wrote (h : Receipts s) {i : ι} {stmt : Sql} {answer : stmt.Answer} {ws : List Write}
    (hmay : s.Allowed o i (.sql stmt))
    (heffect : stmt.effect pg s.server.statements (s.server.session i).now (s.server.locked i) (s.server.view i) =
      .does answer ws) :
    Receipts (s.setServer (s.server.wrote i ws) s.held) := by
  have hwrites : ∀ j, (s.setServer (s.server.wrote i ws) s.held).server.writesOf j =
    if j = i then s.server.writesOf i ++ ws else s.server.writesOf j :=
    fun j => s.server.writesOf_wrote i j ws
  have hin : ∀ j, ∀ w ∈ (s.setServer (s.server.wrote i ws) s.held).server.writesOf j, w ∈ s.server.writesOf j ∨
    (j = i ∧ w ∈ ws) := by
    intro j w hw
    rw [hwrites] at hw
    split at hw
    · next hj =>
      rcases List.mem_append.mp hw with hw | hw
      · exact Or.inl (hj ▸ hw)
      · exact Or.inr ⟨hj,hw⟩
    · exact Or.inl hw
  have hout : ∀ j, ∀ w ∈ s.server.writesOf j, w ∈ (s.setServer (s.server.wrote i ws) s.held).server.writesOf j := by
    intro j w hw
    rw [hwrites]
    split
    · next hj => exact List.mem_append_left _ (hj ▸ hw)
    · exact hw
  refine ⟨h.committed,fun j id row hrow => ?_,fun j id job hjob hdone => ?_,h.held⟩
  · rcases hin j _ hrow with hold | ⟨-,hnew⟩
    · exact h.naming j id row hold
    · obtain ⟨rfl,-⟩ := Sql.wrote heffect _ hnew
      obtain ⟨mine,hmine,hnames⟩ := hmay
      obtain ⟨job,hjob,hsubject⟩ := h.held i id mine hmine
      exact ⟨job,hjob,hsubject ▸ hnames⟩
  · rcases hin j _ hjob with hold | ⟨hj,hnew⟩
    · obtain ⟨row,hrow⟩ := h.finishing j id job hold hdone
      exact ⟨row,hout j _ hrow⟩
    · obtain ⟨-,-,-,hfinish⟩ := Sql.wrote heffect _ hnew
      obtain rfl := hfinish hdone
      obtain ⟨-,row,hrow⟩ := hmay
      exact ⟨row,hout j _ (hj ▸ hrow)⟩

/-- A transaction that commits leaves what it wrote in order. -/
theorem written (h : Receipts s) (i : ι) (hl : Locks s.server) :
    Receipted (s.server.committed.writes (s.server.writesOf i)) := by
  have hk := hl.keeps i
  have hjob : ∀ id row, (∃ job, s.server.committed.jobs.get? id = some job ∧ Names row job.subjectRef) →
      ∃ job, (s.server.committed.writes (s.server.writesOf i)).jobs.get? id = some job ∧ Names row job.subjectRef := by
    rintro id row ⟨old,hold,hnames⟩
    obtain ⟨job,hjob,hcont⟩ := hk.jobs id old hold
    exact ⟨job,hjob,hcont.subjectRef ▸ hnames⟩
  constructor
  · intro id row hrow
    have hin : (Write.manifest id row).In (s.server.committed.writes (s.server.writesOf i)) := hrow
    rcases Write.in_or_mem hin with hin | hin
    · exact hjob id row (h.committed.named id row hin)
    · exact hjob id row (h.naming i id row hin)
  · intro id job hrow hdone
    have hhas : (s.server.committed.writes (s.server.writesOf i)).Has (.manifest id) := by
      rw [Database.get?_jobs_writes_eq, Option.or_eq_some_iff] at hrow
      rcases hrow with hrow | ⟨-,hrow⟩
      · obtain ⟨row,hin⟩ := h.finishing i id job (mem_of_jobWritten hrow) hdone
        exact Database.has_writes.mpr (Or.inl ⟨_,hin,rfl⟩)
      · exact Database.has_writes.mpr (Or.inr (h.committed.done id job hrow hdone))
    exact hhas

theorem step (h : Receipts s) (hl : Locks s.server) (hm : s.Moves pg (fun i op s => s.Allowed o i op) t) :
    Receipts t := by
  have hk := (hm.locks hl).2
  cases hm with
  | wrote i hmay heffect => exact h.wrote hmay heffect
  | abort i => exact h.mono rfl (Server.kept_or_dropped (s.server.writesOf_abort i)) fun _ _ _ hjob => hjob
  | commit i _ =>
    refine h.keeps hk ?_ (Server.kept_or_dropped (s.server.writesOf_commit i)) fun j id job hjob => ?_
    · rcases s.server.committed_commit i with hc | hc
      · exact (show (s.commit i).server.committed = _ from hc) ▸ h.committed
      · exact (show (s.commit i).server.committed = _ from hc) ▸ h.written i hl
    · rcases Fleet.held_commit hjob with hjob | ⟨rfl,hclaim⟩
      · exact Or.inl hjob
      · exact Or.inr ⟨job,Server.committed_claims hclaim,rfl⟩
  | rollback i =>
    exact h.mono rfl (Server.kept_or_dropped (s.server.writesOf_rollback i)) fun _ _ _ hjob => Fleet.held_rollback hjob
  | elsewhere hserver hheld _ =>
    exact h.mono (by rw [hserver]) (fun j => Or.inl (by rw [hserver])) fun j id job hjob => hheld ▸ hjob
  | meanwhile he =>
    have hown := Fleet.own_meanwhile he
    have hw : ∀ j, t.server.writesOf j = s.server.writesOf j :=
      fun j => (Prod.ext_iff.mp (Prod.ext_iff.mp (hown j)).2).1
    have hheld : ∀ j, t.held j = s.held j := fun j => (Prod.ext_iff.mp (Prod.ext_iff.mp (hown j)).2).2
    refine h.keeps hk ?_ (fun j => Or.inl (hw j)) fun j id job hjob => Or.inl (hheld j ▸ hjob)
    cases he with
    | tick clock => exact h.committed
    | request erasureId job hfresh hqueued =>
      refine ⟨fun id row hrow => ?_,fun id job' hjob' hdone => ?_⟩
      · obtain ⟨old,hold,hnames⟩ := h.committed.named id row hrow
        obtain ⟨job',hjob',hcont⟩ := hk.jobs id old hold
        exact ⟨job',hjob',hcont.subjectRef ▸ hnames⟩
      · have hget : (s.server.committed.jobs.insert erasureId job).get? id = some job' := hjob'
        rw [Dict.get?_insert] at hget
        split at hget
        · rw [← Option.some.inj hget, hqueued] at hdone
          cases hdone
        · exact h.committed.done id job' hget hdone

theorem run (h : Receipts s) (hl : Locks s.server)
    (hm : ReflTransGen (Fleet.Moves pg fun i op s => s.Allowed o i op) s t) : Receipts t := by
  have hboth : Receipts t ∧ Locks t.server := by
    induction hm with
    | refl => exact ⟨h,hl⟩
    | tail _ hstep ih => exact ⟨ih.1.step ih.2 hstep,(hstep.locks ih.2).1⟩
  exact hboth.1

end Receipts

variable {LEASE_SECONDS POLL_BATCH_SIZE : ℕ} {roles : ι → Role}

theorem deployed_receipts {w : World D ι} (hw : AtRest o w) (hr : Receipted w.server.committed)
    {q : Pool ι (WorkerOp D) WorkerOp.Resp PyErr Unit (Fleet D ι)}
    (h : (fleet o pg).Reaches (deployed o LEASE_SECONDS POLL_BATCH_SIZE roles,Fleet.start w) q) : Receipts q.2 := by
  have hstart : Receipts (Fleet.start w) := by
    refine ⟨hr,fun i id row hin => ?_,fun i id job hin => ?_,fun i id job hjob => ?_⟩
    · rw [hw.quiescent.writesOf] at hin
      cases hin
    · rw [hw.quiescent.writesOf] at hin
      cases hin
    · cases hjob
  exact hstart.run hw.quiescent.locks (deployed_moves hw h).1

/-- A job is done only with a manifest that names its subject, whatever the processes do and wherever they stop. -/
theorem done_receipted {w : World D ι} (hw : AtRest o w) (hr : Receipted w.server.committed)
    {q : Pool ι (WorkerOp D) WorkerOp.Resp PyErr Unit (Fleet D ι)}
    (h : (fleet o pg).Reaches (deployed o LEASE_SECONDS POLL_BATCH_SIZE roles,Fleet.start w) q) :
    Receipted q.2.server.committed :=
  (deployed_receipts hw hr h).committed

/-- A worker takes the only job from the queue until it is done. -/
theorem done_receipted_sample : ∃ q : Pool Bool (WorkerOp beginning) WorkerOp.Resp PyErr Unit (Fleet beginning Bool),
    (beginningWorld.server.committed.jobs.get? "a").map Job.status = some .queued ∧
    (q.2.server.committed.jobs.get? "a").map Job.status = some .done ∧ Receipted q.2.server.committed := by
  have hqueued : ∀ e ∈ beginningWorld.server.committed.jobs.entries, e.2.status ≠ .done := by decide
  have hstart : Receipted beginningWorld.server.committed :=
    ⟨fun id row hrow => (by cases hrow),fun id job hjob hdone => absurd hdone (hqueued _ (Dict.get?_eq_some.mp hjob))⟩
  obtain ⟨pool,hreaches⟩ := beginningRun_reaches
  exact ⟨_,rfl,beginningRun_records.2.2.2,done_receipted beginningWorld_atRest hstart hreaches⟩

end Receipts

section Files

variable {LEASE_SECONDS POLL_BATCH_SIZE : ℕ} {roles : ι → Role}

/-- Every version names checkpoints on record, each at the path of its digest, where there is a file. -/
theorem versions_filed {w : World D ι} (hw : AtRest o w) {q : Pool ι (WorkerOp D) WorkerOp.Resp PyErr Unit (Fleet D ι)}
    (h : (fleet o pg).Reaches (deployed o LEASE_SECONDS POLL_BATCH_SIZE roles,Fleet.start w) q) :
    ∀ v row, q.2.server.committed.versions.get? v = some row → ∀ digest ∈ row.shardCheckpoints.values,
      ∃ checkpoint, q.2.server.committed.checkpoints.get? digest = some checkpoint ∧
        checkpoint.filePath = casPath o digest ∧
        casPath o digest ∈ q.2.world.cas := by
  obtain ⟨-,hbacked,hfiled⟩ := deployed_moves hw h
  intro v row hrow digest hin
  obtain ⟨checkpoint,hcheckpoint⟩ := Dict.exists_get?_of_mem (hbacked.committed v row hrow digest hin)
  obtain ⟨hpath,hfile⟩ := hfiled.committed digest checkpoint hcheckpoint
  exact ⟨checkpoint,hcheckpoint,hpath,hpath ▸ hfile⟩

theorem versions_filed_sample :
    ∃ q : Pool Bool (WorkerOp (logging 2)) WorkerOp.Resp PyErr Unit (Fleet (logging 2) Bool),
    q.2.server.committed.versions.keys = ["v0-baseline"] ∧
    ∀ v row, q.2.server.committed.versions.get? v = some row → ∀ digest ∈ row.shardCheckpoints.values,
      ∃ checkpoint, q.2.server.committed.checkpoints.get? digest = some checkpoint ∧
        checkpoint.filePath = casPath sampleOutside digest ∧ casPath sampleOutside digest ∈ q.2.world.cas := by
  have hversions : sampleLoad.2.server.committed.versions.keys = ["v0-baseline"] := by decide +kernel
  obtain ⟨pool,hreaches⟩ := sampleFleet_loads
  exact ⟨_,hversions,versions_filed sampleDeployment_atRest hreaches⟩

/-- No model that a worker, a load or a server opens is missing, whatever the others are doing. -/
theorem reads_found {w : World D ι} (hw : AtRest o w) {q : Pool ι (WorkerOp D) WorkerOp.Resp PyErr Unit (Fleet D ι)}
    (h : (fleet o pg).Reaches (deployed o LEASE_SECONDS POLL_BATCH_SIZE roles,Fleet.start w) q) {i : ι} {path : String}
    {next : Py (Artifact D) → WorkerM D Unit} (hnext : q.1 i = .call (.readCopy path) next) :
    ∃ artifact, q.2.world.cas.get? path = some artifact ∧ Fleet.exec o pg i (.readCopy path) q.2 =
      .ok (.ok artifact,q.2) := by
  obtain ⟨-,hconsistent,hobeys⟩ := deployed_obeys hw h.to_within
  have hpath : path ∈ q.2.world.cas := (hobeys i).allowed hconsistent hnext
  obtain ⟨artifact,hartifact⟩ := Dict.exists_get?_of_mem hpath
  refine ⟨artifact,hartifact,Fleet.exec_eq_ok.mpr ⟨?_,rfl⟩⟩
  rw [Worker.exec, hartifact]
  rfl

def sampleScoring : Pool Bool (WorkerOp (logging 2)) WorkerOp.Resp PyErr Unit (Fleet (logging 2) Bool) :=
  ((fleet sampleOutside Postgres.inOrder).next true)^[10] sampleFleet

def opened : WorkerM (logging 2) Unit → Option String
  | .call (.readCopy path) _ => some path
  | _ => none

theorem exists_of_opened {p : WorkerM (logging 2) Unit} (h : (opened p).isSome = true) :
    ∃ path next, p = .call (.readCopy path) next := by
  unfold opened at h
  split at h
  · exact ⟨_,_,rfl⟩
  · cases h

theorem reads_found_sample : ∃ path artifact, opened (sampleScoring.1 true) = some path ∧
    sampleScoring.2.world.cas.get? path = some artifact := by
  obtain ⟨path,next,hnext⟩ := exists_of_opened (show (opened (sampleScoring.1 true)).isSome = true by decide +kernel)
  obtain ⟨artifact,hartifact,-⟩ :=
    reads_found sampleDeployment_atRest (Machine.reaches_iterate true 10 sampleFleet) hnext
  exact ⟨path,artifact,by rw [hnext]; rfl,hartifact⟩

end Files

section Leases
variable {s t : Fleet D ι}

/-- A reap finds expired only leases of jobs that nobody holds. -/
def Fleet.Timely (i : ι) (op : WorkerOp D) (s : Fleet D ι) : Prop := op = .sql .reapExpired → s.server.Timely s.held i

theorem Sql.Ends.of_allowed {i : ι} {stmt : Sql} (h : s.Allowed o i (.sql stmt)) : stmt.Ends (s.held i) := by
  cases stmt with
  | finishJob erasureId => exact h.1
  | failJobs lastError erasureIds => exact h
  | _ => trivial

theorem leases_step (h : Leases s.server s.held) (hl : Locks s.server)
    (hm : s.Moves pg (fun i op s => Fleet.Timely i op s ∧ s.Allowed o i op) t) : Leases t.server t.held := by
  cases hm with
  | @wrote i stmt answer ws hmay heffect =>
    exact h.effect (Sql.Ends.of_allowed hmay.2) (fun hreap => hmay.1 (by rw [hreap])) heffect
  | abort i => exact h.mono rfl (Server.kept_or_dropped (s.server.writesOf_abort i)) fun _ _ _ hjob => hjob
  | commit i hmay => exact h.commit hl hmay.2
  | rollback i =>
    exact h.mono rfl (Server.kept_or_dropped (s.server.writesOf_rollback i)) fun _ _ _ hjob => Fleet.held_rollback hjob
  | elsewhere hserver hheld _ =>
    rw [hserver, hheld]
    exact h
  | meanwhile he =>
    have hw : ∀ j, t.server.writesOf j = s.server.writesOf j :=
      fun j => (Prod.ext_iff.mp (Prod.ext_iff.mp (Fleet.own_meanwhile he j)).2).1
    cases he with
    | tick clock => exact h.mono rfl (fun j => Or.inl (hw j)) fun _ _ _ hjob => hjob
    | request erasureId job hfresh hqueued => exact h.queue hfresh rfl hw

theorem leases_moves (h : Leases s.server s.held) (hl : Locks s.server)
    (hm : ReflTransGen (Fleet.Moves pg fun i op s => Fleet.Timely i op s ∧ s.Allowed o i op) s t) :
    Leases t.server t.held ∧ Locks t.server := by
  induction hm with
  | refl => exact ⟨h,hl⟩
  | tail _ hstep ih => exact ⟨leases_step ih.1 ih.2 hstep,(hstep.locks ih.2).1⟩

variable {LEASE_SECONDS POLL_BATCH_SIZE : ℕ} {roles : ι → Role}

/-- What holds of the leases in every timely run. -/
theorem leases_run {w : World D ι} (hw : AtRest o w)
    (hr : ∀ id ∈ w.server.committed.manifests, ∃ job, w.server.committed.jobs.get? id = some job ∧ job.status = .done)
    {q : Pool ι (WorkerOp D) WorkerOp.Resp PyErr Unit (Fleet D ι)}
    (h : ((fleet o pg).within Fleet.Timely).Reaches (deployed o LEASE_SECONDS POLL_BATCH_SIZE roles,Fleet.start w) q) :
    Leases q.2.server q.2.held ∧ Locks q.2.server := by
  have hstart : Leases (Fleet.start w).server (Fleet.start w).held := by
    refine ⟨hr,fun i id job hin => ?_,fun i j id job _ _ => rfl,fun i id job hjob => ?_,fun i j id job _ hjob => ?_⟩
    · rw [hw.quiescent.writesOf] at hin
      cases hin
    · cases hjob
    · cases hjob
  obtain ⟨hreaches,-⟩ := deployed_obeys hw h
  exact leases_moves hstart hw.quiescent.locks (Fleet.moves_of_reaches hreaches)

/-- Once a job is done it stays done, with its manifest. -/
theorem done_stays {w : World D ι} (hw : AtRest o w)
    (hr : ∀ id ∈ w.server.committed.manifests, ∃ job, w.server.committed.jobs.get? id = some job ∧ job.status = .done)
    {p q : Pool ι (WorkerOp D) WorkerOp.Resp PyErr Unit (Fleet D ι)}
    (hp : ((fleet o pg).within Fleet.Timely).Reaches (deployed o LEASE_SECONDS POLL_BATCH_SIZE roles,Fleet.start w) p)
    (hq : ((fleet o pg).within Fleet.Timely).Reaches p q) {id : Uuid} {row : ManifestRow}
    (hrow : p.2.server.committed.manifests.get? id = some row) : q.2.server.committed.manifests.get? id = some row ∧
      ∃ job, q.2.server.committed.jobs.get? id = some job ∧ job.status = .done := by
  obtain ⟨-,hlocks⟩ := leases_run hw hr hp
  obtain ⟨hleases,-⟩ := leases_run hw hr (hp.trans hq)
  obtain ⟨-,hkeeps⟩ := Fleet.Moves.run_locks (Fleet.moves_of_reaches hq) hlocks
  have hkept : q.2.server.committed.manifests.get? id = some row := hkeeps.rows (.manifest id row) rfl hrow
  exact ⟨hkept,hleases.recorded id (Dict.mem_of_get? hkept)⟩

section Sample

def reaps : WorkerM (logging 2) Unit → Bool
  | .call (.sql .reapExpired) _ => true
  | _ => false

theorem sampleFleet_next {p : Pool Bool (WorkerOp (logging 2)) WorkerOp.Resp PyErr Unit (Fleet (logging 2) Bool)}
    (h : reaps (p.1 false) = false ∨ p.2.held = fun _ _ => none) :
    ((fleet sampleOutside Postgres.inOrder).within Fleet.Timely).Reaches p
      ((fleet sampleOutside Postgres.inOrder).next false p) := by
  refine Machine.reaches_next fun op next hp hreap id job _ _ j => ?_
  rcases h with h | h
  · rw [hp] at h
    subst hreap
    cases h
  · rw [h]

def sampleStepped (n : ℕ) : Pool Bool (WorkerOp (logging 2)) WorkerOp.Resp PyErr Unit (Fleet (logging 2) Bool) :=
  ((fleet sampleOutside Postgres.inOrder).next false)^[n] sampleFleet

/-- The worker reaps, claims and commits. -/
theorem sampleStepped_reaches :
    ((fleet sampleOutside Postgres.inOrder).within Fleet.Timely).Reaches sampleFleet (sampleStepped 3) := by
  have h₁ := sampleFleet_next (p := sampleFleet) (Or.inr rfl)
  have h₂ := sampleFleet_next (p := sampleStepped 1) (Or.inl (by decide +kernel))
  have h₃ := sampleFleet_next (p := sampleStepped 2) (Or.inl (by decide +kernel))
  exact (h₁.trans h₂).trans h₃

theorem sampleDeployment_recorded : ∀ id ∈ sampleDeployment.server.committed.manifests, ∃ job,
    sampleDeployment.server.committed.jobs.get? id = some job ∧ job.status = .done := by
  intro id hid
  have hkeys : ∀ id ∈ sampleDeployment.server.committed.manifests.keys, id = "b" := by decide
  obtain rfl := hkeys id (Dict.mem_iff.mp hid)
  exact ⟨_,rfl,rfl⟩

/-- No lease that a reap sees has run out. -/
def Fleet.Unexpired (i : ι) (op : WorkerOp D) (s : Fleet D ι) : Prop :=
  match op with
  | .sql .reapExpired => ∀ e ∈ (s.server.view i).jobs.entries, ¬e.2.Expired (s.server.session i).now
  | _ => True

instance (i : ι) (op : WorkerOp D) (s : Fleet D ι) : Decidable (Fleet.Unexpired i op s) := by
  unfold Fleet.Unexpired
  split <;> infer_instance

theorem Fleet.Unexpired.timely {i : ι} {op : WorkerOp D} (h : Fleet.Unexpired i op s) : Fleet.Timely i op s := by
  rintro rfl id job hjob hexpired
  exact absurd hexpired (h (id,job) (Dict.get?_eq_some.mp hjob))

def beginningLoad : Py Unit × Fleet beginning Bool :=
  (deployed beginningOutside 300 8 sampleRoles true).run (Fleet.exec beginningOutside Postgres.inOrder true)
    beginningRun.2

/-- The worker takes the job until it is done, and the load finds it so. -/
theorem done_stays_sample : (beginningWorld.server.committed.jobs.get? "a").map Job.status = some .queued ∧
    beginningLoad.1.isOk = true ∧
    ∃ row, beginningRun.2.server.committed.manifests.get? "a" = some row ∧
      beginningLoad.2.server.committed.manifests.get? "a" = some row ∧
      ∃ job, beginningLoad.2.server.committed.jobs.get? "a" = some job ∧ job.status = .done := by
  have hworks : (deployed beginningOutside 300 8 sampleRoles false).Along
      (Fleet.exec beginningOutside Postgres.inOrder false) (Fleet.Unexpired false) (Fleet.start beginningWorld) := by
    decide +kernel
  have hloads : (deployed beginningOutside 300 8 sampleRoles true).Along
      (Fleet.exec beginningOutside Postgres.inOrder true) (Fleet.Unexpired true) beginningRun.2 := by
    decide +kernel
  have hloaded : beginningLoad.1.isOk = true := by decide +kernel
  let finished : Bool → WorkerM beginning Unit :=
    Function.update (deployed beginningOutside 300 8 sampleRoles) false (.pure ())
  have hp : ((fleet beginningOutside Postgres.inOrder).within Fleet.Timely).Reaches
      (deployed beginningOutside 300 8 sampleRoles,Fleet.start beginningWorld) (finished,beginningRun.2) :=
    Machine.reaches_of_along (returned_of_isOk beginningRun_records.1) (hworks.mono fun _ _ hop => hop.timely)
  have hq : ((fleet beginningOutside Postgres.inOrder).within Fleet.Timely).Reaches
      (finished,beginningRun.2) (Function.update finished true (.pure ()),beginningLoad.2) :=
    Machine.reaches_of_along (returned_of_isOk hloaded) (hloads.mono fun _ _ hop => hop.timely)
  obtain ⟨row,hrow⟩ := Dict.exists_get?_of_mem (Dict.mem_iff.mpr
    (show "a" ∈
      beginningRun.2.server.committed.manifests.keys by rw [beginningRun_records.2.1]; exact List.mem_singleton_self _))
  exact ⟨rfl,hloaded,row,hrow,
    done_stays beginningWorld_atRest (fun id hid => by cases hid) hp hq hrow⟩

end Sample

/-- A job is held by one process, and is processing as that process claimed it. -/
theorem held_once {w : World D ι} (hw : AtRest o w)
    (hr : ∀ id ∈ w.server.committed.manifests, ∃ job, w.server.committed.jobs.get? id = some job ∧ job.status = .done)
    {q : Pool ι (WorkerOp D) WorkerOp.Resp PyErr Unit (Fleet D ι)}
    (h : ((fleet o pg).within Fleet.Timely).Reaches (deployed o LEASE_SECONDS POLL_BATCH_SIZE roles,Fleet.start w) q)
    {i : ι} {id : Uuid} {job : Job} (hheld : q.2.held i id = some job) :
    q.2.server.committed.jobs.get? id = some job ∧ job.status = .processing ∧ id ∉ q.2.server.committed.manifests ∧
      ∀ j, j ≠ i → q.2.held j id = none ∧ ∀ row, .job id row ∉ q.2.server.writesOf j := by
  obtain ⟨hleases,-⟩ := leases_run hw hr h
  obtain ⟨hrow,hst⟩ := hleases.working i id job hheld
  refine ⟨hrow,hst,fun hin => ?_,fun j hj => ⟨hleases.single i j id job hj hheld,fun row hin => ?_⟩⟩
  · obtain ⟨job',hjob',hdone⟩ := hleases.recorded id hin
    cases hrow.symm.trans hjob'
    cases hst.symm.trans hdone
  · cases hheld.symm.trans (hleases.apart j i id row (Ne.symm hj) hin)

theorem held_once_sample : ∃ job, (sampleStepped 3).2.held false "a" = some job ∧
    (sampleStepped 3).2.server.committed.jobs.get? "a" = some job ∧ (sampleStepped 3).2.held true "a" = none := by
  have hheld : ((sampleStepped 3).2.held false "a").isSome = true := by decide +kernel
  obtain ⟨job,hjob⟩ := Option.isSome_iff_exists.mp hheld
  obtain ⟨hrow,-,-,hothers⟩ := held_once sampleDeployment_atRest sampleDeployment_recorded sampleStepped_reaches hjob
  exact ⟨job,hjob,hrow,(hothers true (by decide)).1⟩

end Leases

end UnlearnShield.Worker
