import UnlearnShield.Library.Watched
import UnlearnShield.Worker.Ledger

/-! # Workers that are watched

What the programs of a fleet heed, given that their promotions, loads and predictions do: the
claim of a batch, the loop of a worker and the end of a transaction add operations that are
always allowed.
-/
namespace UnlearnShield.Worker
open Db Engine Deployment Program
variable {D : Deployment} {o : Outside D} {α β G : Type} {note : Note (WorkerOp D) WorkerOp.Resp G}
  {may : WorkerOp D → G → Prop}

/-- Whatever is noted, the program performs only what it may. -/
abbrev Minds (note : Note (WorkerOp D) WorkerOp.Resp G) (may : WorkerOp D → G → Prop) (p : WorkerM D α) : Prop :=
  ∀ g, p.Heeds note may (fun _ _ => True) g

theorem minds_of_performs {A : WorkerOp D → Prop} {p : WorkerM D α} (hp : p.Performs A)
    (hmay : ∀ op g, A op → may op g) : Minds note may p :=
  fun _ => heeds_of_performs hp (fun op g hop _ => hmay op g hop) (fun _ _ _ _ _ => trivial) trivial

theorem minds_pure (a : α) : Minds note may (.pure a : WorkerM D α) := fun _ => trivial

theorem Minds.bind {p : WorkerM D α} {f : α → WorkerM D β} (h : Minds note may p) (hf : ∀ a, Minds note may (f a)) :
    Minds note may (p >>= f) :=
  fun g => (h g).bind fun a g _ => hf a g

theorem Minds.attempt {p : WorkerM D α} (h : Minds note may p) : Minds note may p.attempt :=
  fun g => (h g).attempt.mono fun _ _ _ => trivial

section Roles
variable (hcommit : ∀ g, may .commit g) (hrollback : ∀ g, may .rollback g)
include hcommit hrollback

theorem heeds_withConn {body : WorkerM D α} {g : G} (h : body.Heeds note may (fun _ _ => True) g) :
    (withConn body).Heeds note may (fun _ _ => True) g := by
  refine h.attempt.bind fun outcome g _ => ?_
  cases outcome with
  | ok a => exact ⟨hcommit g,fun _ => trivial⟩
  | error e => exact ⟨hrollback g,fun _ => trivial⟩

theorem minds_withConn {body : WorkerM D α} (h : Minds note may body) : Minds note may (withConn body) :=
  fun g => heeds_withConn hcommit hrollback (h g)

variable (hreap : ∀ g, may (.sql .reapExpired) g)
  (hclaim : ∀ workerId leaseSeconds limit g, may (.sql (.claimBatch workerId leaseSeconds limit)) g)
  (hgroup : ∀ shard group, Minds note may (processGroup o shard group))
include hreap hclaim hgroup

theorem minds_runOnce (workerId : String) (LEASE_SECONDS POLL_BATCH_SIZE : ℕ) :
    Minds note may (runOnce o workerId LEASE_SECONDS POLL_BATCH_SIZE) := by
  have hjobs : Minds note may (claimJobs workerId LEASE_SECONDS POLL_BATCH_SIZE) := by
    refine minds_withConn hcommit hrollback ?_
    intro g
    refine ⟨hreap g,fun _ => heeds_lift_bind fun _ _ => ⟨hclaim _ _ _ _,fun _ => heeds_lift_bind fun _ _ => ?_⟩⟩
    trivial
  have hgroups : ∀ groups, Minds note may (processGroups o groups) := by
    intro groups
    induction groups with
    | nil => exact minds_pure ()
    | cons g groups ih => exact (hgroup g.1 g.2).bind fun _ => ih
  refine hjobs.bind fun jobs => ?_
  split
  · exact minds_pure 0
  · exact (minds_withConn hcommit hrollback (hgroups _)).bind fun _ => minds_pure _

theorem Role.minds (hload : Minds note may (loadRoutingScript o)) (hserve : Minds note may (Gateway.servedEnsemble o))
    (LEASE_SECONDS POLL_BATCH_SIZE : ℕ) (role : Role) :
    Minds note may (role.program o LEASE_SECONDS POLL_BATCH_SIZE) := by
  cases role with
  | worker workerId cycles =>
    rw [Role.program]
    induction cycles with
    | zero => exact minds_pure ()
    | succ cycles ih =>
      have hcycle : Minds note may (runOnce o workerId LEASE_SECONDS POLL_BATCH_SIZE) :=
        minds_runOnce hcommit hrollback hreap hclaim hgroup workerId LEASE_SECONDS POLL_BATCH_SIZE
      exact hcycle.bind fun _ => ih
  | loader => exact hload
  | gateway requests =>
    rw [Role.program]
    induction requests with
    | zero => exact minds_pure ()
    | succ requests ih => exact hserve.attempt.bind fun _ => ih

end Roles

end UnlearnShield.Worker
