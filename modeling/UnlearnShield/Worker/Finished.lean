import UnlearnShield.Worker.Ledger

/-! # Finished jobs

The updates of a worker that ends a job are keyed by the job alone, so a worker whose lease
was taken over ends a job that another one has finished: a job stays done as long as a reap
takes over no lease whose holder is still at work.
-/
namespace UnlearnShield.Worker
open Db Engine Deployment Program Relation
variable {D : Deployment} {ι : Type} [DecidableEq ι] {o : Outside D} {pg : Postgres}
  {LEASE_SECONDS POLL_BATCH_SIZE : ℕ} {roles : ι → Role}

/-- In a run in which no lease is taken over from a holder that is still at work, every job that has a manifest
is done, and what is done with a manifest stays so. -/
theorem finished_stays {w : World D ι} (hw : AtRest o w)
    (hr : ∀ id ∈ w.server.committed.manifests, ∃ job, w.server.committed.jobs.get? id = some job ∧ job.status = .done)
    {p q : Pool ι (WorkerOp D) WorkerOp.Resp PyErr Unit (Fleet D ι)}
    (hp : ((fleet o pg).within Fleet.Timely).Reaches (deployed o LEASE_SECONDS POLL_BATCH_SIZE roles,Fleet.start w) p)
    (hq : ((fleet o pg).within Fleet.Timely).Reaches p q) :
    (∀ id ∈ q.2.server.committed.manifests, ∃ job,
      q.2.server.committed.jobs.get? id = some job ∧ job.status = .done) ∧
    ∀ id ∈ p.2.server.committed.manifests, ∃ job, p.2.server.committed.jobs.get? id = some job ∧ job.status = .done ∧
      ∃ job', q.2.server.committed.jobs.get? id = some job' ∧ job'.status = .done := by
  obtain ⟨hleases,hlocks⟩ := leases_run hw hr hp
  obtain ⟨hleases',-⟩ := leases_run hw hr (hp.trans hq)
  obtain ⟨-,hkeeps⟩ := Fleet.Moves.run_locks (Fleet.moves_of_reaches hq) hlocks
  refine ⟨hleases'.recorded,fun id hid => ?_⟩
  obtain ⟨job,hjob,hdone⟩ := hleases.recorded id hid
  obtain ⟨row,hrow⟩ := Dict.exists_get?_of_mem hid
  have hkept : q.2.server.committed.manifests.get? id = some row := hkeeps.rows (.manifest id row) rfl hrow
  exact ⟨job,hjob,hdone,hleases'.recorded id (Dict.mem_of_get? hkept)⟩

section Sample

def twoWorkers : Bool → Role
  | false => .worker "w1" 1
  | true => .worker "w2" 1

def twoStart : Pool Bool (WorkerOp beginning) WorkerOp.Resp PyErr Unit (Fleet beginning Bool) :=
  (deployed beginningOutside 300 8 twoWorkers,Fleet.start beginningWorld)

def firstFinished : Py Unit × Fleet beginning Bool :=
  (twoStart.1 false).run (Fleet.exec beginningOutside Postgres.inOrder false) twoStart.2

def secondFinished : Py Unit × Fleet beginning Bool :=
  (twoStart.1 true).run (Fleet.exec beginningOutside Postgres.inOrder true) firstFinished.2

/-- One worker after the other, and no lease that runs out. -/
theorem finished_stays_sample : ∃ p q : Pool Bool (WorkerOp beginning) WorkerOp.Resp PyErr Unit (Fleet beginning Bool),
    "a" ∈ p.2.server.committed.manifests ∧ ((fleet beginningOutside Postgres.inOrder).within Fleet.Timely).Reaches p q ∧
    q.1 true = .pure () ∧ ∃ job, q.2.server.committed.jobs.get? "a" = some job ∧ job.status = .done := by
  have hfirst : firstFinished.1.isOk = true ∧ "a" ∈ firstFinished.2.server.committed.manifests := by decide +kernel
  have hsecond : secondFinished.1.isOk = true := by decide +kernel
  have hmay : (twoStart.1 false).Along (Fleet.exec beginningOutside Postgres.inOrder false) (Fleet.Unexpired false)
      twoStart.2 := by decide +kernel
  have hmay' : (twoStart.1 true).Along (Fleet.exec beginningOutside Postgres.inOrder true) (Fleet.Unexpired true)
      firstFinished.2 := by decide +kernel
  let after : Bool → WorkerM beginning Unit := Function.update twoStart.1 false (.pure ())
  have hp : ((fleet beginningOutside Postgres.inOrder).within Fleet.Timely).Reaches twoStart (after,firstFinished.2) :=
    Machine.reaches_of_along (returned_of_isOk hfirst.1) (hmay.mono fun _ _ hop => hop.timely)
  have hq : ((fleet beginningOutside Postgres.inOrder).within Fleet.Timely).Reaches (after,firstFinished.2)
      (Function.update after true (.pure ()),secondFinished.2) :=
    Machine.reaches_of_along (returned_of_isOk hsecond) (hmay'.mono fun _ _ hop => hop.timely)
  obtain ⟨-,hstays⟩ := finished_stays beginningWorld_atRest (fun id hid => by cases hid) hp hq
  obtain ⟨-,-,-,hdone⟩ := hstays "a" hfirst.2
  exact ⟨_,_,hfirst.2,hq,Function.update_self true (.pure ()) after,hdone⟩

/-- The first worker has claimed the job. -/
def claimedFirst : Pool Bool (WorkerOp beginning) WorkerOp.Resp PyErr Unit (Fleet beginning Bool) :=
  ((fleet beginningOutside Postgres.inOrder).next false)^[3] twoStart

/-- Its lease has run out, and the second worker has taken the job over. -/
def takenOver : Pool Bool (WorkerOp beginning) WorkerOp.Resp PyErr Unit (Fleet beginning Bool) :=
  ((fleet beginningOutside Postgres.inOrder).next true)^[3]
    (claimedFirst.1,claimedFirst.2.setServer {claimedFirst.2.server with clock := 1000} claimedFirst.2.held)

/-- The first worker finishes the job all the same. -/
def finishedLate : Py Unit × Fleet beginning Bool :=
  (takenOver.1 false).run (Fleet.exec beginningOutside Postgres.inOrder false) takenOver.2

/-- The second one no longer finds its subject. -/
def failedLast : Py Unit × Fleet beginning Bool :=
  (takenOver.1 true).run (Fleet.exec beginningOutside Postgres.inOrder true) finishedLate.2

theorem takenOver_reaches : (fleet beginningOutside Postgres.inOrder).Reaches twoStart takenOver := by
  have hclaimed := Machine.reaches_iterate (M := fleet beginningOutside Postgres.inOrder) false 3 twoStart
  exact (hclaimed.tail (.env (.tick 1000))).trans (Machine.reaches_iterate true 3 _)

theorem not_finished_stays : ¬∀ p q : Pool Bool (WorkerOp beginning) WorkerOp.Resp PyErr Unit (Fleet beginning Bool),
    (fleet beginningOutside Postgres.inOrder).Reaches twoStart p → (fleet beginningOutside Postgres.inOrder).Reaches p q →
    ∀ id ∈ p.2.server.committed.manifests, (p.2.server.committed.jobs.get? id).map Job.status = some .done →
      (q.2.server.committed.jobs.get? id).map Job.status = some .done := by
  intro hall
  have hfinished : finishedLate.1.isOk = true ∧ "a" ∈ finishedLate.2.server.committed.manifests ∧
      (finishedLate.2.server.committed.jobs.get? "a").map Job.status = some .done := by decide +kernel
  have hfailed : failedLast.1.isOk = true ∧
      (failedLast.2.server.committed.jobs.get? "a").map Job.status = some .failed := by decide +kernel
  have hp := takenOver_reaches.trans (Machine.reaches_of_run (returned_of_isOk hfinished.1))
  have hq : (fleet beginningOutside Postgres.inOrder).Reaches
      (Function.update takenOver.1 false (.pure ()),finishedLate.2)
      (Function.update (Function.update takenOver.1 false (.pure ())) true (.pure ()),failedLast.2) :=
    Machine.reaches_of_run (returned_of_isOk hfailed.1)
  have hdone := hall _ _ hp hq "a" hfinished.2.1 hfinished.2.2
  rw [hfailed.2] at hdone
  cases hdone

end Sample

end UnlearnShield.Worker
