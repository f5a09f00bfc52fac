import UnlearnShield.Engine.Active

/-! # The shard files as a partition

When the rows of a subject are all in the file of the shard its routing entry names, a
call that returns takes the rows and the entries of its subjects out of all files.
-/
namespace UnlearnShield.Engine
open Deployment
variable {D : Deployment}

def Routed {V : Type} (routing : Routing) (shards : ℕ → Option (Records V)) : Prop :=
  ∀ shard records, shards shard = some records → ∀ row ∈ records, ∃ e, routing.get? row.subjectRef = some e ∧
    e.shard = shard

def retainAll {V : Type} (shards : ℕ → Option (Records V)) (refs : List Ref) : ℕ → Option (Records V) :=
  fun shard => (shards shard).map fun records => retain records refs

theorem retainAll_append {V : Type} (shards : ℕ → Option (Records V)) (refs refs' : List Ref) :
    retainAll shards (refs ++ refs') = retainAll (retainAll shards refs) refs' := by
  funext shard
  unfold retainAll
  cases shards shard with
  | none => rfl
  | some records => exact congrArg some (retain_append records refs refs')

theorem Routed.retainAll {V : Type} {routing : Routing} {shards : ℕ → Option (Records V)} (h : Routed routing shards)
    (refs : List Ref) : Routed (routing.without refs) (retainAll shards refs) := by
  intro shard records hs row hrow
  obtain ⟨file,hfile,rfl⟩ := Option.map_eq_some_iff.mp hs
  obtain ⟨hin,hout⟩ := mem_retain.mp hrow
  obtain ⟨e,he,hes⟩ := h shard file hfile row hin
  exact ⟨e,by rw [Dict.get?_without, if_neg hout, he],hes⟩

theorem without_append (routing : Routing) (refs refs' : List Ref) :
    (routing.without refs).without refs' = routing.without (refs ++ refs') := by
  ext1
  rw [Dict.entries_without, Dict.entries_without, List.filter_filter, Dict.entries_without]
  apply List.filter_congr
  intro e _
  simp [Bool.and_comm]

/-- A call that returns erases its subjects from the routing table, and from every file whose rows
are all routed to its shard. -/
theorem Call.erases_at {c : Call} {s t : Process D} {result : Result D} {routing : Routing}
    (h : c.program.run fileExec s = (.ok result,t)) (hr : s.1.routing = some routing) :
    t.1.routing = some (routing.without c.refs) ∧ ∀ shard, (∀ records, s.1.shards shard = some records →
      ∀ row ∈ records, ∃ e, routing.get? row.subjectRef = some e ∧ e.shard = shard) →
      t.1.shards shard = retainAll s.1.shards c.refs shard := by
  obtain ⟨x,hx,hp⟩ := Call.returned h
  cases hr.symm.trans hx.routing
  have hentry := (locate_eq_ok.mp hx.batch).1
  refine ⟨by rw [hx.final],fun shard hrouted => ?_⟩
  have hshards : t.1.shards = Function.update s.1.shards x.batch.shard (some (retain x.records c.refs)) := by
    rw [hx.final]
    exact hp.shards
  rw [hshards]
  unfold retainAll
  by_cases hs : shard = x.batch.shard
  · subst hs
    rw [Function.update_self, hx.records]
    rfl
  · rw [Function.update_of_ne hs]
    cases hfile : s.1.shards shard with
    | none => rfl
    | some records =>
      refine congrArg some (retain_eq_self fun row hrow hin => ?_).symm
      obtain ⟨e,he,hes⟩ := hrouted records hfile row hrow
      obtain ⟨e',he',hes',-⟩ := hentry _ hin
      cases he.symm.trans he'
      exact hs (hes.symm.trans hes')

/-- A call that returns erases its subjects from every file and from the routing table. -/
theorem Call.erases {c : Call} {s t : Process D} {result : Result D} {routing : Routing}
    (h : c.program.run fileExec s = (.ok result,t)) (hr : s.1.routing = some routing)
    (hrouted : Routed routing s.1.shards) :
    t.1.shards = retainAll s.1.shards c.refs ∧ t.1.routing = some (routing.without c.refs) ∧
      c.refs ≠ [] ∧ ∀ ref ∈ c.refs, ref ∈ routing := by
  obtain ⟨hrouting,hshards⟩ := Call.erases_at h hr
  obtain ⟨x,hx,-⟩ := Call.returned h
  cases hr.symm.trans hx.routing
  refine ⟨funext fun shard => hshards shard (hrouted shard),hrouting,hx.nonempty,fun ref href => ?_⟩
  obtain ⟨e,he,-⟩ := (locate_eq_ok.mp hx.batch).1 ref href
  exact Dict.mem_of_get? he

end UnlearnShield.Engine
