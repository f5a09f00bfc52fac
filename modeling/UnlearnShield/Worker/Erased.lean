import UnlearnShield.Engine.Shrinking
import UnlearnShield.Worker.Audit

/-! # What is erased stays erased

When one worker alone writes the data, next to any number of loads and servers, no row and
no entry ever comes back, and a job that is done has left nothing of its subject, in every
state of every run and wherever a process stops.
-/
namespace UnlearnShield.Worker
open Db Engine Deployment Program Relation
variable {D : Deployment} {ι : Type} [DecidableEq ι] {o : Outside D} {pg : Postgres}

section Steps
variable {i : ι} {s t : Fleet D ι}

/-- An engine's operation does what it does to the files of the process, or raises. -/
theorem Fleet.exec_file {op : FileOp D} {r : Py op.Resp} (h : Fleet.exec o pg i (.file op) s = .ok (r,t)) :
    (∃ x, r = .ok x ∧ fileExec op (s.world.files i) = .ok (x,t.world.files i)) ∨ (∃ e, r = .error e) ∧
      t.world.disk = s.world.disk := by
  obtain ⟨h,-⟩ := Fleet.exec_eq_ok.mp h
  rw [Worker.exec] at h
  cases he : fileExec op (s.world.files i) with
  | ok p =>
    rw [he] at h
    obtain ⟨rfl,hw⟩ := Prod.mk.inj (Except.ok.inj h)
    refine Or.inl ⟨p.1,rfl,?_⟩
    rw [← hw, World.files_setFiles]
  | error e =>
    rw [he] at h
    obtain ⟨rfl,hw⟩ := Prod.mk.inj (Except.ok.inj h)
    exact Or.inr ⟨⟨e,rfl⟩,by rw [← hw]⟩

theorem Fleet.exec_noFile {op : WorkerOp D} {r : op.Resp} (hop : op.NoFile) (h : Fleet.exec o pg i op s = .ok (r,t)) :
    t.world.disk = s.world.disk := by
  obtain ⟨h,-⟩ := Fleet.exec_eq_ok.mp h
  exact (Prod.mk.inj (Worker.exec_noFile hop h)).1

/-- Who works takes data away only, and ends a job as done when nothing is left of its subject; the others leave
the data and the jobs. -/
def Fleet.Purges (works : ι → Prop) (i : ι) : WorkerOp D → Fleet D ι → Prop
  | .file op, s => FileOp.Purges op s.world.disk ∧ (works i ∨ FileOp.Leaves op)
  | .sql (.finishJob erasureId), s => ∃ job, s.held i erasureId = some job ∧ Gone job.subjectRef s.world.disk
  | _, _ => True

omit [DecidableEq ι] in
theorem WorkerOp.Serves.purges {op : WorkerOp D} (h : op.Serves) (works : ι → Prop) (i : ι) (s : Fleet D ι) :
    s.Purges works i op := by
  cases op with
  | file op => exact ⟨FileOp.Leaves.purges h _,Or.inr h⟩
  | sql stmt => cases stmt <;> first | exact trivial | exact h.elim
  | _ => trivial

/-- What one relies on: the rest of what others leave alone, and the data if one works. -/
structure Fleet.RelyData (works : ι → Prop) (i : ι) (s t : Fleet D ι) : Prop where
  rest : Fleet.Rely i s t
  data : works i → SameData s.world.disk t.world.disk

def Fleet.InOrder (o : Outside D) (s : Fleet D ι) : Prop := s.Consistent o ∧ Partitioned s.world.disk

theorem Fleet.exec_purges {works : ι → Prop} {op : WorkerOp D} {r : op.Resp} (hmay : s.Purges works i op)
    (h : Fleet.exec o pg i op s = .ok (r,t)) :
    Shrinks s.world.disk t.world.disk ∧ (Partitioned s.world.disk → Partitioned t.world.disk) ∧
      (works i ∨ SameData s.world.disk t.world.disk) := by
  have hsame : t.world.disk = s.world.disk → Shrinks s.world.disk t.world.disk ∧
    (Partitioned s.world.disk → Partitioned t.world.disk) ∧
      (works i ∨ SameData s.world.disk t.world.disk) := by
    intro hdisk
    rw [hdisk]
    exact ⟨.refl _,id,Or.inr ⟨rfl,rfl⟩⟩
  cases op with
  | file op =>
    rcases Fleet.exec_file h with ⟨x,-,he⟩ | ⟨-,hdisk⟩
    · obtain ⟨hshrinks,hpartitioned⟩ := hmay.1 _ _ _ rfl he
      exact ⟨hshrinks,hpartitioned,hmay.2.imp_right fun hleaves => hleaves.sameData he⟩
    · exact hsame hdisk
  | _ => exact hsame (Fleet.exec_noFile (by trivial) h)

omit [DecidableEq ι] in
theorem Fleet.disk_meanwhile (h : s.Meanwhile t) : t.world.disk = s.world.disk := by
  cases h with
  | tick clock => rfl
  | request erasureId job _ _ => rfl

/-- When one process works, the others leave alone what it relies on. -/
theorem Fleet.respects_data {works : ι → Prop} (hone : ∀ i j, works i → works j → i = j) (o : Outside D)
    (pg : Postgres) :
    (fleet o pg : Machine ι _ _ _ _).Respects (Fleet.InOrder o) (Fleet.RelyData works)
      (fun i op s => s.Allowed o i op ∧ s.Purges works i op) := by
  constructor
  · intro i op s r t hI hmay h
    obtain ⟨hconsistent,hrely⟩ := (Fleet.respects o pg).op i op s r t hI.1 hmay.1 h
    obtain ⟨-,hpartitioned,hdata⟩ := Fleet.exec_purges hmay.2 h
    refine ⟨⟨hconsistent,hpartitioned hI.2⟩,
      fun j hj => ⟨hrely j hj,fun hworks => hdata.resolve_left fun hi => hj (hone j i hworks hi)⟩⟩
  · intro i s hI
    obtain ⟨hconsistent,hrely⟩ := (Fleet.respects o pg).crash i s hI.1
    exact ⟨⟨hconsistent,hI.2⟩,fun j hj => ⟨hrely j hj,fun _ => ⟨rfl,rfl⟩⟩⟩
  · intro s t hI he
    obtain ⟨hconsistent,hrely⟩ := (Fleet.respects o pg).env s t hI.1 he
    have hdisk := Fleet.disk_meanwhile he
    refine ⟨⟨hconsistent,?_⟩,fun j => ⟨hrely j,fun _ => ?_⟩⟩
    · rw [hdisk]
      exact hI.2
    · rw [hdisk]
      exact ⟨rfl,rfl⟩

end Steps

section Programs
variable {works : ι → Prop} {i : ι} {α : Type} {jobs : List ClaimedJob}

abbrev Erasing (o : Outside D) (pg : Postgres) (works : ι → Prop) (i : ι) (P : Fleet D ι → Prop) (p : WorkerM D α)
    (Q : Py α → Fleet D ι → Prop) : Prop :=
  Contract (Fleet.exec o pg i) (Fleet.InOrder o) (Fleet.RelyData works i) (fun op s => s.Purges works i op) P p Q

def OfData (i : ι) (P : Fleet D ι → Prop) : Prop :=
  ∀ s t : Fleet D ι, P s → t.held i = s.held i → SameData s.world.disk t.world.disk → P t

theorem OfData.stable {P : Fleet D ι → Prop} (hP : OfData i P) (hworks : works i) : Stable (Fleet.RelyData works i) P :=
  fun s t h hr => hP s t h hr.rest.held (hr.data hworks)

omit [DecidableEq ι] in
theorem OfData.and {P P' : Fleet D ι → Prop} (hP : OfData i P) (hP' : OfData i P') : OfData i fun s => P s ∧ P' s :=
  fun s t h hheld hdata => ⟨hP s t h.1 hheld hdata,hP' s t h.2 hheld hdata⟩

def WorkerOp.Aside : WorkerOp D → Prop
  | .file _ | .commit | .rollback => False
  | .sql stmt => ∀ erasureId, stmt ≠ .finishJob erasureId
  | _ => True

theorem WorkerOp.Promotes.aside {op : WorkerOp D} (h : op.Promotes) : op.Aside := by
  cases op with
  | sql stmt =>
    intro erasureId heq
    subst heq
    cases h
  | _ => first | exact h.elim | trivial

theorem Fleet.held_within {op : WorkerOp D} (hop : op.Within) {s t : Fleet D ι} {r : op.Resp}
    (h : Fleet.exec o pg i op s = .ok (r,t)) :
    t.held = s.held := by
  obtain ⟨-,hheld⟩ := Fleet.exec_eq_ok.mp h
  rw [hheld]
  cases op with
  | commit | rollback => exact hop.elim
  | _ => rfl

theorem erasing_aside {P : Fleet D ι → Prop} (hP : OfData i P) (hworks : works i) {p : WorkerM D α}
    (hp : p.Performs WorkerOp.Aside) :
    Erasing o pg works i P p (fun _ => P) := by
  refine contract_of_performs hp (hP.stable hworks) (fun op s hop _ _ => ?_) (fun op s r t hop _ hs he => ?_)
  · cases op with
    | file => exact hop.elim
    | sql stmt =>
      cases stmt with
      | finishJob erasureId => exact absurd rfl (hop erasureId)
      | _ => trivial
    | _ => trivial
  · have hwithin : op.Within := by cases op <;> first | exact hop.elim | trivial
    have hfile : op.NoFile := by cases op <;> first | exact hop.elim | trivial
    have hdisk := Fleet.exec_noFile hfile he
    refine hP s t hs (by rw [Fleet.held_within hwithin he]) ?_
    rw [hdisk]
    exact ⟨rfl,rfl⟩

def Mine (i : ι) (jobs : List ClaimedJob) (s : Fleet D ι) : Prop :=
  ∀ job ∈ jobs, ∃ row, s.held i job.erasureId = some row ∧ row.subjectRef = job.subjectRef

omit [DecidableEq ι] in
theorem Mine.ofData (i : ι) (jobs : List ClaimedJob) : OfData (D := D) i (Mine i jobs) := by
  intro s t h hheld _ job hjob
  rw [hheld]
  exact h job hjob

def AllGone (group : List ClaimedJob) (s : Fleet D ι) : Prop := ∀ job ∈ group, Gone job.subjectRef s.world.disk

omit [DecidableEq ι] in
theorem AllGone.ofData (i : ι) (group : List ClaimedJob) : OfData (D := D) i (AllGone group) :=
  fun _ _ h _ hdata job hjob => (h job hjob).shrinks hdata.shrinks

/-- A rebuild that returns leaves nothing of its subjects. -/
theorem erasing_rebuildBatchByRef (hworks : works i) (jobs group : List ClaimedJob) :
    Erasing o pg works i (Mine i jobs) (rebuildBatchByRef o (group.map ClaimedJob.subjectRef))
      (fun r s => Mine i jobs s ∧ ∀ result, r = .ok result → AllGone group s) := by
  have hmine : Stable (Fleet.RelyData works i) (Mine (D := D) i jobs) := (Mine.ofData i jobs).stable hworks
  refine contract_call (R := fun _ => Mine i jobs) hmine (fun _ _ _ => trivial) (fun s _ hs r t he _ => ?_)
    fun clock => ?_
  · rw [Mine, Fleet.held_within (by trivial) he]
    exact hs
  · have hcall : Erasing o pg works i
      (fun _ => True) (onFiles (Call.program ⟨o.engine,group.map ClaimedJob.subjectRef,true,clock⟩))
        (fun r s => ∀ result, r = .ok result → Erases (group.map ClaimedJob.subjectRef) (.ok result) s.world.disk) := by
      rw [Call.program_eq]
      refine contract_embed (fun s : Fleet D ι => s.world.files i)
        (purging_rebuildBatch o.engine (group.map ClaimedJob.subjectRef) true clock)
        (fun op s r' t he r hr => ?_) (fun s hI => hI.2) (fun s t hr => hr.data hworks) fun op s hpurges =>
          ⟨hpurges,Or.inl hworks⟩
      have hr : r' = .ok r := hr
      rcases Fleet.exec_file he with ⟨x,hx,hexec⟩ | ⟨⟨e,herror⟩,-⟩
      · cases hx.symm.trans hr
        exact hexec
      · cases herror.symm.trans hr
    have hfile : (onFiles (Call.program ⟨o.engine,group.map ClaimedJob.subjectRef,true,clock⟩) : WorkerM D _).Performs
      WorkerOp.Within :=
      performs_embed (fun _ => trivial) _
    refine (hcall.frame hfile hmine fun op s r t hop hs he => ?_).mono (fun _ _ h => ⟨trivial,h⟩) fun r s _ h =>
      ⟨h.2,fun result hr job hjob => ?_⟩
    · rw [Mine, Fleet.held_within hop he]
      exact hs
    · exact h.1 result hr result rfl job.subjectRef (List.mem_map_of_mem hjob)

/-- The jobs recorded are jobs one holds whose subjects are gone. -/
theorem erasing_recordJobs (hworks : works i) (manifests : Dict Ref Manifest.Pairs) {group : List ClaimedJob}
    (hgroup : ∀ job ∈ group, job ∈ jobs) :
    Erasing o pg works i (fun s => Mine i jobs s ∧ AllGone group s) (recordJobs manifests group)
      (fun _ => Mine i jobs) := by
  induction group with
  | nil => exact contract_pure (((Mine.ofData i jobs).and (AllGone.ofData i [])).stable hworks) fun _ _ h => h.1
  | cons job group ih =>
    have hdata : OfData (D := D) i fun s => Mine i jobs s ∧ AllGone (job :: group) s :=
      (Mine.ofData i jobs).and (AllGone.ofData i _)
    rw [recordJobs]
    cases hrow : manifestOf manifests job.subjectRef with
    | error e => exact contract_throw (hdata.stable hworks) fun _ _ h => h.1
    | ok row =>
      have hinsert : (execute (.insertManifest job.erasureId row) : WorkerM D Unit).Performs WorkerOp.Aside :=
        performs_execute _ fun _ => by simp
      have hfinish : Erasing o pg works i (fun s => Mine i jobs s ∧ AllGone (job :: group) s)
        (execute (.finishJob job.erasureId))
          (fun _ s => Mine i jobs s ∧ AllGone (job :: group) s) := by
        refine contract_call (R := fun _ s => Mine i jobs s ∧ AllGone (job :: group) s) (hdata.stable hworks)
          (fun s _ hs => ?_)
          (fun s _ hs r t he _ => ?_) fun r => contract_lift (hdata.stable hworks) fun _ _ h => h
        · obtain ⟨row,hheld,hsubject⟩ := hs.1 job (hgroup job List.mem_cons_self)
          exact ⟨row,hheld,hsubject ▸ hs.2 job List.mem_cons_self⟩
        · have hdisk := Fleet.exec_noFile (by trivial) he
          refine hdata s t hs (by rw [Fleet.held_within (by trivial) he]) ?_
          rw [hdisk]
          exact ⟨rfl,rfl⟩
      refine (erasing_aside hdata hworks hinsert).bind (fun _ => ?_) fun _ _ _ h => h.1
      refine hfinish.bind (fun _ => ?_) fun _ _ _ h => h.1
      exact (ih fun job' hjob' => hgroup job' (List.mem_cons_of_mem _ hjob')).mono
        (fun s _ h => ⟨h.1,fun job' hjob' => h.2 job' (List.mem_cons_of_mem _ hjob')⟩) fun _ _ _ h => h

theorem performs_spotChecks_aside (shard : ℕ) (result : Result D) (group : List ClaimedJob) :
    (spotChecks o shard result group).Performs WorkerOp.Aside := by
  induction group with
  | nil => exact performs_pure _
  | cons job group ih =>
    have hcheck : (runSpotCheck job.erasureId shard result.replay result.resultWeights).Performs WorkerOp.Aside :=
      (performs_lift _).bind fun _ => (performs_execute _ fun _ => by simp).bind fun _ => performs_pure _
    rw [spotChecks]
    split
    · exact hcheck.attempt.bind fun _ => ih
    · exact ih

theorem erasing_processGroup (hworks : works i) (shard : ℕ) {group : List ClaimedJob}
    (hgroup : ∀ job ∈ group, job ∈ jobs) :
    Erasing o pg works i (Mine i jobs) (processGroup o shard group) (fun _ => Mine i jobs) := by
  have hmine : OfData (D := D) i (Mine i jobs) := Mine.ofData i jobs
  have hfail : ∀ lastError : String,
    Erasing o pg works i (Mine i jobs) (execute (.failJobs lastError (group.map ClaimedJob.erasureId)))
      (fun _ => Mine i jobs) := fun lastError => erasing_aside hmine hworks (performs_execute _ fun _ => by simp)
  refine (erasing_rebuildBatchByRef hworks jobs group).attempt.bind (fun rebuilt => ?_) fun _ _ _ h => ?_
  · cases rebuilt with
    | error exc =>
      refine (hfail _).mono (fun s _ h => ?_) fun _ _ _ h => h
      obtain ⟨x,-,hx⟩ := h
      exact hx.1
    | ok result =>
      have hpromote : Erasing o pg works i (fun s => Mine i jobs s ∧ AllGone group s)
        (promote o shard result.resultWeights)
          (fun _ s => Mine i jobs s ∧ AllGone group s) :=
        erasing_aside (hmine.and (AllGone.ofData i group)) hworks ((performs_promote ..).mono fun _ h => h.aside)
      have hbooks : Erasing o pg works i (fun s => Mine i jobs s ∧ AllGone group s) (bookkeep o shard group result)
        (fun _ => Mine i jobs) :=
        hpromote.bind (fun _ => erasing_recordJobs hworks _ hgroup) fun _ _ _ h => h.1
      refine (hbooks.mono (fun s _ h => ?_) fun _ _ _ h => h).attempt.bind (fun booked => ?_) fun _ _ _ h => ?_
      · obtain ⟨x,hx,hx'⟩ := h
        exact ⟨hx'.1,hx'.2 result (Except.ok.inj hx).symm⟩
      · cases booked with
        | error exc =>
          refine (hfail _).mono (fun s _ h => ?_) fun _ _ _ h => h
          obtain ⟨x,-,hx⟩ := h
          exact hx
        | ok _ =>
          refine (erasing_aside hmine hworks (performs_spotChecks_aside ..)).mono (fun s _ h => ?_) fun _ _ _ h => h
          obtain ⟨x,-,hx⟩ := h
          exact hx
      · obtain ⟨x,-,hx⟩ := h
        exact hx
  · obtain ⟨x,-,hx⟩ := h
    exact hx.1

theorem erasing_processGroups (hworks : works i) {groups : List (ℕ × List ClaimedJob)}
    (hgroups : ∀ g ∈ groups, ∀ job ∈ g.2, job ∈ jobs) :
    Erasing o pg works i (Mine i jobs) (processGroups o groups) (fun _ => Mine i jobs) := by
  induction groups with
  | nil => exact contract_pure ((Mine.ofData i jobs).stable hworks) fun _ _ h => h
  | cons g groups ih =>
    refine (erasing_processGroup hworks g.1 (hgroups g List.mem_cons_self)).bind (fun _ => ?_) fun _ _ _ h => h
    exact ih fun g' hg' => hgroups g' (List.mem_cons_of_mem _ hg')

def WorkerOp.Plain : WorkerOp D → Prop
  | .file _ => False
  | .sql stmt => ∀ erasureId, stmt ≠ .finishJob erasureId
  | _ => True

omit [DecidableEq ι] in
theorem WorkerOp.Plain.purges {op : WorkerOp D} (h : op.Plain) (works : ι → Prop) (i : ι) (s : Fleet D ι) :
    s.Purges works i op := by
  cases op with
  | file op => exact h.elim
  | sql stmt =>
    cases stmt with
    | finishJob erasureId => exact absurd rfl (h erasureId)
    | _ => trivial
  | _ => trivial

/-- A worker takes away only the data of jobs it holds. -/
theorem erasing_runOnce (hworks : works i) (workerId : String) (LEASE_SECONDS POLL_BATCH_SIZE : ℕ) :
    Erasing o pg works i (Blank i) (runOnce o workerId LEASE_SECONDS POLL_BATCH_SIZE) (fun _ _ => True) := by
  have hperforms : (claimJobs workerId LEASE_SECONDS POLL_BATCH_SIZE : WorkerM D _).Performs WorkerOp.Plain :=
    performs_withConn ((performs_execute _ fun _ => by simp).bind fun _ =>
      (performs_execute _ fun _ => by simp).bind fun _ => performs_pure _)
      trivial trivial
  have hclaim : Erasing o pg works i (Blank i) (claimJobs workerId LEASE_SECONDS POLL_BATCH_SIZE)
      (fun r s => Blank i s ∧ ∀ jobs, r = .ok jobs → Holds i jobs s) :=
    (orderly_claimJobs workerId LEASE_SECONDS POLL_BATCH_SIZE).weaken hperforms (fun _ h => h.1) (fun _ _ h => h.rest)
      fun op s hop _ => hop.purges works i s
  refine hclaim.bind (fun jobs => ?_) fun _ _ _ _ => trivial
  have hstable : Stable (Fleet.RelyData works i) fun s : Fleet D ι => Blank i s ∧ ∀ jobs',
    (Except.ok jobs : Py _) = .ok jobs' → Holds i jobs' s :=
    fun s t h hr => stable_and Blank.stable (stable_ok (fun _ => Holds.stable) _) s t h hr.rest
  split
  · exact contract_pure hstable fun _ _ _ => trivial
  · have hgroups : ∀ g ∈ shardGroups jobs, ∀ job ∈ g.2, job ∈ jobs := fun g hg job hjob =>
      (shardGroups_perm jobs).mem_iff.mp (List.mem_flatten.mpr ⟨g.2,List.mem_map_of_mem hg,hjob⟩)
    have hend : ∀ {op : WorkerOp D} (r : Py Unit), op = .commit ∨ op = .rollback →
        Erasing o pg works i (fun _ => True) (.call op fun _ => Program.lift r) (fun _ _ => True) := by
      intro op r hop
      refine contract_call (R := fun _ _ => True) (fun _ _ _ _ => trivial) (fun s _ _ => ?_)
        (fun _ _ _ _ _ _ _ => trivial)
        fun _ => contract_lift (fun _ _ _ _ => trivial) fun _ _ _ => trivial
      rcases hop with rfl | rfl <;> trivial
    have hprocess : Erasing o pg works i (Mine i jobs) (withConn (processClaimed o jobs)) (fun _ _ => True) := by
      refine (erasing_processGroups hworks hgroups).attempt.bind (fun outcome => ?_) fun _ _ _ _ => trivial
      cases outcome with
      | ok a => exact (hend (.ok a) (Or.inl rfl)).mono (fun _ _ _ => trivial) fun _ _ _ h => h
      | error e => exact (hend (.error e) (Or.inr rfl)).mono (fun _ _ _ => trivial) fun _ _ _ h => h
    refine (hprocess.mono (fun s _ h => (h.2 jobs rfl).2) fun _ _ _ h => h).bind (fun _ => ?_) fun _ _ _ h => h
    exact contract_pure (fun _ _ _ _ => trivial) fun _ _ _ => trivial

theorem erasing_workerLoop (hworks : works i) (workerId : String) (LEASE_SECONDS POLL_BATCH_SIZE cycles : ℕ) :
    Erasing o pg works i (Blank i) (workerLoop o workerId LEASE_SECONDS POLL_BATCH_SIZE cycles) (fun _ _ => True) := by
  have hblank : Stable (Fleet.RelyData works i) (Blank (D := D) i) := fun s t h hr => Blank.stable s t h hr.rest
  induction cycles with
  | zero => exact contract_pure hblank fun _ _ _ => trivial
  | succ cycles ih =>
    have hcycle : Erasing o pg works i (Blank i) (runOnce o workerId LEASE_SECONDS POLL_BATCH_SIZE)
      (fun _ => Blank i) := by
      intro s hI hs
      have horderly : (runOnce o workerId LEASE_SECONDS POLL_BATCH_SIZE).Obeys (Fleet.exec o pg i) (Fleet.InOrder o)
        (Fleet.RelyData works i)
          (fun op s => s.Allowed o i op) (fun _ => Blank i) s :=
        (orderly_runOnce workerId LEASE_SECONDS POLL_BATCH_SIZE s hI.1 hs).weaken (performs_trivial _) (fun _ h => h.1)
          (fun _ _ h => h.rest)
          fun _ _ _ h => h
      have hboth := horderly.and (erasing_runOnce hworks workerId LEASE_SECONDS POLL_BATCH_SIZE s hI hs)
      exact (hboth.weaken (performs_trivial _) (fun _ h => h) (fun _ _ h => h) fun _ _ _ h => h.2).mono
        fun _ _ _ h => h.1
    exact hcycle.bind (fun _ => ih) fun _ _ _ _ => trivial

def Role.Works : Role → Prop
  | .worker .. => True
  | _ => False

/-- Whatever its role, a process that does not work leaves the data alone. -/
theorem Role.erasing (LEASE_SECONDS POLL_BATCH_SIZE : ℕ) (role : Role) (hworks : role.Works → works i) :
    Erasing o pg works i (Blank i) (role.program o LEASE_SECONDS POLL_BATCH_SIZE) (fun _ _ => True) := by
  have hserves : ∀ {p : WorkerM D Unit}, p.Performs WorkerOp.Serves →
    Erasing o pg works i (Blank i) p (fun _ _ => True) := by
    intro p hp
    have htrue : Erasing o pg works i (fun _ => True) p (fun _ _ => True) :=
      contract_of_performs hp (fun _ _ _ _ => trivial) (fun op s hop _ _ => hop.purges works i s)
        fun _ _ _ _ _ _ _ _ => trivial
    exact htrue.mono (fun _ _ _ => trivial) fun _ _ _ h => h
  cases role with
  | worker workerId cycles => exact erasing_workerLoop (hworks trivial) workerId LEASE_SECONDS POLL_BATCH_SIZE cycles
  | loader => exact hserves (performs_loadRoutingScript o)
  | gateway requests => exact hserves (performs_serveLoop o requests)

end Programs

section Runs
variable {works : ι → Prop} {s t : Fleet D ι}

/-- A job that is done, or about to be, has left nothing of its subject; who holds a job knows its subject. -/
structure Lasting (s : Fleet D ι) : Prop where
  committed : ∀ id job, s.server.committed.jobs.get? id = some job → job.status = .done →
    Gone job.subjectRef s.world.disk
  written : ∀ i id job, .job id job ∈ s.server.writesOf i → job.status = .done → Gone job.subjectRef s.world.disk
  held : ∀ i id job, s.held i id = some job → ∃ row, s.server.committed.jobs.get? id = some row ∧
    row.subjectRef = job.subjectRef

namespace Lasting

/-- The data shrink, what is committed was committed or about to be, and jobs stay the jobs they were. -/
theorem keeps (h : Lasting s) (hd : Shrinks s.world.disk t.world.disk)
    (hk : s.server.committed.Keeps t.server.committed)
    (hc : ∀ id job, t.server.committed.jobs.get? id = some job → job.status = .done →
      s.server.committed.jobs.get? id = some job ∨ ∃ i, .job id job ∈ s.server.writesOf i)
    (hw : ∀ j, t.server.writesOf j = s.server.writesOf j ∨ t.server.writesOf j = [])
    (hheld : ∀ j id job, t.held j id = some job → s.held j id = some job ∨
      t.server.committed.jobs.get? id = some job) : Lasting t := by
  refine ⟨fun id job hjob hdone => ?_,fun i id job hin hdone => ?_,fun i id job hjob => ?_⟩
  · rcases hc id job hjob hdone with hold | ⟨i,hin⟩
    · exact (h.committed id job hold hdone).shrinks hd
    · exact (h.written i id job hin hdone).shrinks hd
  · rcases hw i with heq | heq
    · rw [heq] at hin
      exact (h.written i id job hin hdone).shrinks hd
    · rw [heq] at hin
      cases hin
  · rcases hheld i id job hjob with hold | hnew
    · obtain ⟨row,hrow,hsubject⟩ := h.held i id job hold
      obtain ⟨row',hrow',hcont⟩ := hk.jobs id row hrow
      exact ⟨row',hrow',hcont.subjectRef.trans hsubject⟩
    · exact ⟨job,hnew,rfl⟩

/-- Only the end of a job leaves it as done. -/
theorem wrote (h : Lasting s) (hl : Locks s.server) {i : ι} {stmt : Sql} {answer : stmt.Answer} {ws : List Write}
    (hmay : s.Purges works i (.sql stmt))
    (heffect : stmt.effect pg s.server.statements (s.server.session i).now (s.server.locked i) (s.server.view i) =
      .does answer ws) :
    Lasting (s.setServer (s.server.wrote i ws) s.held) := by
  refine ⟨h.committed,fun j id job hin hdone => ?_,h.held⟩
  have hwrites : (s.setServer (s.server.wrote i ws) s.held).server.writesOf j =
    if j = i then s.server.writesOf i ++ ws else s.server.writesOf j :=
    s.server.writesOf_wrote i j ws
  rw [hwrites] at hin
  split at hin
  · rcases List.mem_append.mp hin with hold | hnew
    · exact h.written i id job hold hdone
    · obtain ⟨-,-,-,hfinish⟩ := Sql.wrote heffect _ hnew
      obtain rfl := hfinish hdone
      obtain ⟨mine,hmine,hgone⟩ := hmay
      obtain ⟨-,old,hold,hcont⟩ := Sql.extends heffect _ hnew
      obtain ⟨row,hrow,hsubject⟩ := h.held i id mine hmine
      obtain ⟨row',hrow',hcont'⟩ := (hl.keeps i).jobs id row hrow
      cases hrow'.symm.trans hold
      have hsame : job.subjectRef = mine.subjectRef := (hcont.subjectRef.trans hcont'.subjectRef).trans hsubject
      exact (show Gone job.subjectRef s.world.disk from hsame ▸ hgone)
  · exact h.written j id job hin hdone

theorem exec (h : Lasting s) (hl : Locks s.server) {i : ι} {op : WorkerOp D} {r : op.Resp} (hmay : s.Purges works i op)
    (he : Fleet.exec o pg i op s = .ok (r,t)) : Lasting t := by
  obtain ⟨hd,-,-⟩ := Fleet.exec_purges hmay he
  have hmoves : s.Moves pg (fun _ _ _ => True) t := Fleet.moves_of_exec trivial he
  obtain ⟨-,hk⟩ := hmoves.locks hl
  cases op with
  | sql stmt =>
    rcases Fleet.exec_sql he with ⟨answer,ws,rfl,rfl,heffect⟩ | ⟨-,rfl⟩
    · exact h.wrote hl hmay heffect
    · exact h.keeps hd hk (fun _ _ hjob _ => Or.inl hjob) (Server.kept_or_dropped (s.server.writesOf_abort i))
        fun _ _ _ hjob => Or.inl hjob
  | commit =>
    obtain rfl := Fleet.exec_commit he
    refine h.keeps hd hk (fun id job hjob _ => ?_) (Server.kept_or_dropped (s.server.writesOf_commit i))
      fun j id job hjob => ?_
    · have hin : (Write.job id job).In (s.server.commit i).committed := hjob
      rcases s.server.committed_commit i with hc | hc
      · rw [hc] at hin
        exact Or.inl hin
      · rw [hc] at hin
        exact (Write.in_or_mem hin).imp_right fun hin => ⟨i,hin⟩
    · rcases Fleet.held_commit hjob with hjob | ⟨rfl,hclaim⟩
      · exact Or.inl hjob
      · exact Or.inr (Server.committed_claims hclaim)
  | rollback =>
    obtain rfl := Fleet.exec_rollback he
    exact h.keeps hd hk (fun _ _ hjob _ => Or.inl hjob) (Server.kept_or_dropped (s.server.writesOf_rollback i))
      fun _ _ _ hjob => Or.inl (Fleet.held_rollback hjob)
  | _ =>
    obtain ⟨hserver,hheld⟩ := Fleet.exec_noSql (by trivial) he
    refine h.keeps hd hk (fun _ _ hjob _ => Or.inl (hserver ▸ hjob)) (fun j => Or.inl (by rw [hserver]))
      fun j id job hjob => Or.inl (hheld ▸ hjob)

theorem meanwhile (h : Lasting s) (hl : Locks s.server) (he : s.Meanwhile t) : Lasting t := by
  have hmoves : s.Moves Postgres.inOrder (fun _ _ _ => True) t := .meanwhile he
  obtain ⟨-,hk⟩ := hmoves.locks hl
  have hown := Fleet.own_meanwhile he
  have hw : ∀ j, t.server.writesOf j = s.server.writesOf j := fun j => (Prod.ext_iff.mp (Prod.ext_iff.mp (hown j)).2).1
  have hheld : ∀ j, t.held j = s.held j := fun j => (Prod.ext_iff.mp (Prod.ext_iff.mp (hown j)).2).2
  refine h.keeps ?_ hk (fun id job hjob hdone => Or.inl ?_) (fun j => Or.inl (hw j)) fun j id job hjob =>
    Or.inl (hheld j ▸ hjob)
  · rw [Fleet.disk_meanwhile he]
    exact .refl _
  · cases he with
    | tick clock => exact hjob
    | request erasureId new hfresh hqueued =>
      have hget : (s.server.committed.jobs.insert erasureId new).get? id = some job := hjob
      rw [Dict.get?_insert] at hget
      split at hget
      · rw [← Option.some.inj hget, hqueued] at hdone
        cases hdone
      · exact hget

end Lasting

variable {LEASE_SECONDS POLL_BATCH_SIZE : ℕ} {roles : ι → Role}

/-- In a run with one worker every process does to the data only what it may. -/
theorem deployed_purges (hone : ∀ i j, (roles i).Works → (roles j).Works → i = j) {w : World D ι} (hw : AtRest o w)
    (hp : Partitioned w.disk) {q : Pool ι (WorkerOp D) WorkerOp.Resp PyErr Unit (Fleet D ι)}
    (h : (fleet o pg).Reaches (deployed o LEASE_SECONDS POLL_BATCH_SIZE roles,Fleet.start w) q) :
    ((fleet o pg).within fun i op s => s.Purges (fun i => (roles i).Works) i op).Reaches
      (deployed o LEASE_SECONDS POLL_BATCH_SIZE roles,Fleet.start w) q ∧ Fleet.InOrder o q.2 := by
  have hI : Fleet.InOrder o (Fleet.start w) := ⟨hw.consistent,hp⟩
  have hobedient : ∀ i, (fleet o pg).Obedient (Fleet.InOrder o) (Fleet.RelyData fun i => (roles i).Works)
      (fun i op s => s.Allowed o i op ∧ s.Purges (fun i => (roles i).Works) i op) (fun _ _ _ => True)
      (deployed o LEASE_SECONDS POLL_BATCH_SIZE roles,Fleet.start w) i := by
    intro i
    have horderly : Orderly o pg i (Blank i) ((roles i).program o LEASE_SECONDS POLL_BATCH_SIZE) (fun _ _ => True) :=
      (roles i).orderly LEASE_SECONDS POLL_BATCH_SIZE
    have herasing : Erasing o pg (fun i => (roles i).Works) i (Blank i)
      ((roles i).program o LEASE_SECONDS POLL_BATCH_SIZE) (fun _ _ => True) :=
      (roles i).erasing LEASE_SECONDS POLL_BATCH_SIZE fun h => h
    have hallowed : ((roles i).program o LEASE_SECONDS POLL_BATCH_SIZE).Obeys (Fleet.exec o pg i) (Fleet.InOrder o)
        (Fleet.RelyData (fun i => (roles i).Works) i) (fun op s => s.Allowed o i op)
          (fun _ _ => True) (Fleet.start w) :=
      (horderly (Fleet.start w) hI.1 (hw.quiescent.writesOf i)).weaken (performs_trivial _) (fun _ h => h.1)
        (fun _ _ h => h.rest)
        fun _ _ _ h => h
    exact Or.inr ((hallowed.and (herasing (Fleet.start w) hI (hw.quiescent.writesOf i))).mono fun _ _ _ _ => trivial)
  obtain ⟨hreaches,hinorder,-⟩ := h.obeys (Fleet.respects_data hone o pg) hI hobedient
  exact ⟨hreaches.within_mono fun _ _ _ h => h.2,hinorder⟩

/-- No row and no entry comes back, and nothing is left of the subject of a job that is done. -/
theorem erased_stays (hone : ∀ i j, (roles i).Works → (roles j).Works → i = j) {w : World D ι} (hw : AtRest o w)
    (hp : Partitioned w.disk)
    (hdone : ∀ id job, w.server.committed.jobs.get? id = some job → job.status = .done → Gone job.subjectRef w.disk)
    {q : Pool ι (WorkerOp D) WorkerOp.Resp PyErr Unit (Fleet D ι)}
    (h : (fleet o pg).Reaches (deployed o LEASE_SECONDS POLL_BATCH_SIZE roles,Fleet.start w) q) :
    Shrinks w.disk q.2.world.disk ∧ Partitioned q.2.world.disk ∧
      ∀ id job, q.2.server.committed.jobs.get? id = some job → job.status = .done →
        Gone job.subjectRef q.2.world.disk := by
  obtain ⟨hreaches,hinorder⟩ := deployed_purges hone hw hp h
  have hstart : Lasting (Fleet.start w) := by
    refine ⟨hdone,fun i id job hin => ?_,fun i id job hjob => ?_⟩
    · rw [hw.quiescent.writesOf] at hin
      cases hin
    · cases hjob
  have hall : Shrinks w.disk q.2.world.disk ∧ Lasting q.2 ∧ Locks q.2.server := by
    clear hinorder h
    induction hreaches with
    | refl => exact ⟨.refl _,hstart,hw.quiescent.locks⟩
    | tail _ hstep ih =>
      obtain ⟨hshrinks,hlasting,hlocks⟩ := ih
      have hlocks' := ((Fleet.moves_of_step hstep).locks hlocks).1
      cases hstep with
      | op hpool he =>
        obtain ⟨hmay,he⟩ := Machine.exec_within.mp he
        exact ⟨hshrinks.trans (Fleet.exec_purges hmay he).1,hlasting.exec hlocks hmay he,hlocks'⟩
      | @crash pool s i e =>
        have he : Fleet.exec o pg i .rollback s = .ok ((),s.rollback i) := rfl
        have hmay : s.Purges (fun i => (roles i).Works) i .rollback := trivial
        exact ⟨hshrinks,hlasting.exec hlocks hmay he,hlocks'⟩
      | env he =>
        refine ⟨?_,hlasting.meanwhile hlocks he,hlocks'⟩
        rw [Fleet.disk_meanwhile he]
        exact hshrinks
  exact ⟨hall.1,hinorder.2,hall.2.1.committed⟩

end Runs

section Sample

theorem beginningWorld_partitioned : Partitioned beginningWorld.disk := by
  intro routing hrouting shard records hrecords row hrow
  have hfile : beginningWorld.disk.shards shard = if shard = 0 then some sampleRecords else none := rfl
  have hrouted : beginningWorld.disk.routing = some sampleRouting := rfl
  cases hrouting.symm.trans hrouted
  rw [hfile] at hrecords
  split at hrecords
  · next hshard =>
    have hall : ∀ row ∈ sampleRecords, ∃ e ∈ sampleRouting.entries, e.1 = row.subjectRef ∧ e.2.shard = 0 := by decide
    rw [← Option.some.inj hrecords] at hrow
    obtain ⟨e,he,hkey,hzero⟩ := hall row hrow
    exact ⟨e.2,hkey ▸ Dict.get?_eq_some.mpr he,hzero.trans hshard.symm⟩
  · cases hrecords

theorem erased_stays_sample :
    ∃ (q : Pool Bool (WorkerOp beginning) WorkerOp.Resp PyErr Unit (Fleet beginning Bool)) (job : Job),
    q.2.server.committed.jobs.get? "a" = some job ∧ job.status = .done ∧ Gone job.subjectRef q.2.world.disk := by
  obtain ⟨pool,hreaches⟩ := beginningRun_reaches
  obtain ⟨job,hjob,hst⟩ := Option.map_eq_some_iff.mp beginningRun_records.2.2.2
  have hone : ∀ i j, (sampleRoles i).Works → (sampleRoles j).Works → i = j := by
    have hfalse : ∀ i, (sampleRoles i).Works → i = false := by
      intro i hi
      cases i with
      | false => rfl
      | true => exact hi.elim
    exact fun i j hi hj => (hfalse i hi).trans (hfalse j hj).symm
  have hqueued : ∀ e ∈ beginningWorld.server.committed.jobs.entries, e.2.status ≠ .done := by decide
  obtain ⟨-,-,hgone⟩ := erased_stays hone beginningWorld_atRest beginningWorld_partitioned
    (fun id job hjob hdone => absurd hdone (hqueued _ (Dict.get?_eq_some.mp hjob))) hreaches
  exact ⟨_,job,hjob,hst,hgone "a" job hjob hst⟩

end Sample

end UnlearnShield.Worker
