import UnlearnShield.Worker.Failures
import UnlearnShield.Worker.Returns
import UnlearnShield.Engine.Locality

/-! # Jobs that share a batch

The jobs of a shard go through one call of the engine, which returns when their subjects
are distinct and all on disk, and otherwise fails them all. The groups of other shards
do not matter.
-/
namespace UnlearnShield.Worker
open Db Engine Deployment Program
variable {D : Deployment} {o : Outside D} {pg : Postgres} {w w' : Lone D}

def Listed (s : Process D) (ref : Ref) : Prop := ∃ routing e records, s.1.routing = some routing ∧
    routing.get? ref = some e ∧
  s.1.shards e.shard = some records ∧ ref ∈ subjectRefs records

/-- The job is done with a manifest for its subject. -/
def Erased (db : Database) (job : ClaimedJob) : Prop := ∃ row, DoneWith db job.erasureId row ∧
  (PyVal.dict row.manifestJson).subscript "subject_ref" = .ok (.str job.subjectRef.val.hex)

inductive Reached (o : Outside D) (pg : Postgres) : List (ℕ × List ClaimedJob) → Lone D → List ClaimedJob →
    ℕ → Lone D → Prop
  | here {shard : ℕ} {group : List ClaimedJob} {groups : List (ℕ × List ClaimedJob)} {w : Lone D} :
      Reached o pg ((shard,group) :: groups) w group shard w
  | later {shard shard' : ℕ} {group group' : List ClaimedJob} {groups : List (ℕ × List ClaimedJob)} {w w' u : Lone D} :
      (processGroup o shard group).run (lone o pg) w = (.ok (),w') → Reached o pg groups w' group' shard' u →
      Reached o pg ((shard,group) :: groups) w group' shard' u

/-- What a group needs from outside: training yields models, the promotion of its rebuild returns, and no
two lists of keys have one fingerprint. -/
structure Unhindered (o : Outside D) (pg : Postgres) (group : List ClaimedJob) (shard : ℕ) (w : Lone D) : Prop where
  fits : ∀ batch records, Located (group.map ClaimedJob.subjectRef) (w.files ()) batch records →
    (∃ row ∈ records, row.subjectRef ∈ group.map ClaimedJob.subjectRef) →
    o.engine.Fits (group.map ClaimedJob.subjectRef) (w.files ()) batch records
  cache : ∀ batch records, Located (group.map ClaimedJob.subjectRef) (w.files ()) batch records →
    ¬CacheCollision (w.files ()) batch.shard
  promotes : ∀ result u, (rebuildBatchByRef o (group.map ClaimedJob.subjectRef)).run (lone o pg) w = (.ok result,u) →
    ∃ v, (promote o shard result.resultWeights).run (lone o pg) u = (.ok (),v)

section Routing
variable {s t : Process D} {refs : List Ref} {shard : ℕ}

/-- Subjects whose entries name one shard can be purged when they are distinct and listed. -/
theorem exists_purges_iff
    (hshard : ∀ routing, s.1.routing = some routing → ∀ ref ∈ refs, ∀ e, routing.get? ref = some e →
      e.shard = shard) :
    (∃ batch records, Rebuild.Purges refs s batch records) ↔ refs ≠ [] ∧ refs.Nodup ∧ ∀ ref ∈ refs, Listed s ref := by
  constructor
  · rintro ⟨batch,records,h⟩
    obtain ⟨routing,hr,hb⟩ := h.located
    refine ⟨h.nonempty,h.nodup,fun ref href => ?_⟩
    obtain ⟨e,he,hs,-⟩ := (locate_eq_ok.mp hb).1 ref href
    exact ⟨routing,e,records,hr,he,hs ▸ h.shardFile,h.present ref href⟩
  · rintro ⟨hne,hn,hlisted⟩
    obtain ⟨ref₀,href₀⟩ := List.exists_mem_of_ne_nil _ hne
    obtain ⟨routing,e₀,records,hr,he₀,hs₀,-⟩ := hlisted ref₀ href₀
    have hentry : ∀ ref ∈ refs, ∃ e, routing.get? ref = some e ∧ e.shard = shard ∧ ref ∈ subjectRefs records := by
      intro ref href
      obtain ⟨routing',e,records',hr',he,hs,hmem⟩ := hlisted ref href
      cases hr.symm.trans hr'
      have hsame := hshard routing hr ref href e he
      rw [hsame, ← hshard routing hr ref₀ href₀ e₀ he₀, hs₀] at hs
      exact ⟨e,he,hsame,Option.some.inj hs ▸ hmem⟩
    let slice : Ref → ℕ := fun ref => ((routing.get? ref).map RoutingEntry.minSliceIdx).getD 0
    obtain ⟨least,hleast,hmin⟩ := Finset.exists_min_image refs.toFinset slice ⟨ref₀,List.mem_toFinset.mpr href₀⟩
    rw [List.mem_toFinset] at hleast
    have hslice : ∀ ref ∈ refs, ∀ e, routing.get? ref = some e → slice least ≤ e.minSliceIdx := by
      intro ref href e he
      have hle := hmin ref (List.mem_toFinset.mpr href)
      have heq : slice ref = e.minSliceIdx := by simp [slice, he]
      exact heq ▸ hle
    have hlocate : locate routing refs = .ok ⟨shard,slice least⟩ := by
      refine locate_eq_ok.mpr ⟨fun ref href => ?_,least,hleast,?_⟩
      · obtain ⟨e,he,hs,-⟩ := hentry ref href
        exact ⟨e,he,hs,hslice ref href e he⟩
      · obtain ⟨e,he,-⟩ := hentry least hleast
        exact ⟨e,he,by simp [slice, he]⟩
    refine ⟨⟨shard,slice least⟩,records,⟨hne,⟨routing,hr,hlocate⟩,?_⟩,hn,fun ref href => ?_⟩
    · rw [← hshard routing hr ref₀ href₀ e₀ he₀]
      exact hs₀
    · obtain ⟨-,-,-,hmem⟩ := hentry ref href
      exact hmem

theorem listed_congr {routing routing' : Routing} {ref : Ref} (hr : s.1.routing = some routing)
    (hr' : t.1.routing = some routing') (hget : routing'.get? ref = routing.get? ref)
    (hshards : ∀ e, routing.get? ref = some e → t.1.shards e.shard = s.1.shards e.shard) :
    Listed t ref ↔ Listed s ref := by
  constructor
  · rintro ⟨r,e,records,h,he,hs,hmem⟩
    cases hr'.symm.trans h
    rw [hget] at he
    exact ⟨routing,e,records,hr,he,hshards e he ▸ hs,hmem⟩
  · rintro ⟨r,e,records,h,he,hs,hmem⟩
    cases hr.symm.trans h
    exact ⟨routing',e,records,hr',hget.trans he,(hshards e he).trans hs,hmem⟩

def Together (s : Process D) (refs : List Ref) : Prop := refs.Nodup ∧ ∀ ref ∈ refs, Listed s ref

variable {c : Call} {r : Except PyErr (Result D)}

/-- A call adds nothing to the routing table. -/
theorem get?_of_call (h : c.program.run fileExec s = (r,t)) {routing' : Routing}
    (hr' : t.1.routing = some routing') {ref : Ref} {e : RoutingEntry}
    (he : routing'.get? ref = some e) : ∃ routing, s.1.routing = some routing ∧
      routing.get? ref = some e := by
  rcases Call.elsewhere h with rfl | ⟨batch,records,routing,-,hr,-,ht | ht⟩
  · exact ⟨routing',hr',he⟩
  · obtain rfl := Option.some.inj (ht.symm.trans hr')
    exact ⟨_,hr,he⟩
  · obtain rfl := Option.some.inj (ht.symm.trans hr')
    rw [Dict.get?_without] at he
    split at he
    · cases he
    · exact ⟨routing,hr,he⟩

/-- Whether a subject of another shard is listed does not depend on the call. -/
theorem listed_call (h : c.program.run fileExec s = (r,t))
    (hshard : ∀ routing, s.1.routing = some routing → ∀ ref ∈ c.refs, ∀ e, routing.get? ref = some e → e.shard = shard)
    {ref : Ref} (hother : ∀ routing, s.1.routing = some routing → ∀ e, routing.get? ref = some e → e.shard ≠ shard) :
    Listed t ref ↔ Listed s ref := by
  rcases Call.elsewhere h with rfl | ⟨batch,records,routing,hl,hr,hshards,ht⟩
  · exact Iff.rfl
  · obtain ⟨routing₀,hr₀,hb⟩ := hl.located
    cases hr.symm.trans hr₀
    obtain ⟨first,hfirst⟩ := List.exists_mem_of_ne_nil _ hl.nonempty
    obtain ⟨e₀,he₀,hs₀,-⟩ := (locate_eq_ok.mp hb).1 first hfirst
    have hbatch : batch.shard = shard := hs₀.symm.trans (hshard routing hr first hfirst e₀ he₀)
    have hkept : ∀ e, routing.get? ref = some e → t.1.shards e.shard = s.1.shards e.shard := fun e he =>
      hshards _ (hbatch ▸ hother routing hr e he)
    rcases ht with ht | ht
    · exact listed_congr hr ht rfl hkept
    · refine listed_congr hr ht ?_ hkept
      rw [Dict.get?_without]
      split
      · next hin =>
        -- a subject of the call has no entry of another shard
        cases he : routing.get? ref with
        | none => rfl
        | some e => exact absurd (hshard routing hr ref hin e he) (hother routing hr e he)
      · rfl

end Routing

/-- Recording a group fails only with its transaction. -/
theorem aborted_of_recordJobs {manifests : Dict Ref Manifest.Pairs} {group : List ClaimedJob} {e : PyErr}
    (hm : ∀ job ∈ group, ∃ row, manifestOf manifests job.subjectRef = .ok row)
    (h : (recordJobs manifests group).run (lone o pg) w = (.error e,w')) : w'.aborted = true := by
  induction group generalizing w with
  | nil => exact absurd h run_pure_ne_error
  | cons job group ih =>
    obtain ⟨⟨row,hrow⟩,hm⟩ := List.forall_mem_cons.mp hm
    rw [recordJobs, run_bind_of_ok (run_lift_eq_ok.mpr ⟨hrow,rfl⟩)] at h
    rcases run_execute o pg w (.insertManifest job.erasureId row) with ⟨_,ws,-,-,-,h₁⟩ | ⟨e',-,h₁⟩
    · rw [run_bind_of_ok h₁] at h
      rcases run_execute o pg (w.wrote ws) (.finishJob job.erasureId) with ⟨_,ws',-,-,-,h₂⟩ | ⟨e',-,h₂⟩
      · rw [run_bind_of_ok h₂] at h
        exact ih hm h
      · rw [run_bind, h₂] at h
        rw [← (Prod.mk.inj h).2]
        exact aborted_aborts _
    · rw [run_bind, h₁] at h
      rw [← (Prod.mk.inj h).2]
      exact aborted_aborts w

/-- The files after a group are those its call of the engine leaves. -/
theorem Processed.files {shard : ℕ} {group : List ClaimedJob} (h : Processed o pg shard group w w') :
    w'.files () =
      ((Call.mk o.engine (group.map ClaimedJob.subjectRef) true (o.clock w.server.statements)).program.run fileExec
      (w.files ())).2 := by
  have hre : ∀ {r u}, (rebuildBatchByRef o (group.map ClaimedJob.subjectRef)).run (lone o pg) w = (r,u) → u.files () =
      ((Call.mk o.engine (group.map ClaimedJob.subjectRef) true (o.clock w.server.statements)).program.run fileExec
        (w.files ())).2 := by
    intro r u h
    rw [run_rebuildBatchByRef] at h
    rw [← (Prod.mk.inj h).2, World.files_setFiles]
  have hfail : ∀ {message : String} {ids : List Uuid} {u v : Lone D},
    (execute (.failJobs message ids)).run (lone o pg) u = (.ok (),v) →
      v.files () = u.files () := by
    intro message ids u v h
    have hno : (execute (.failJobs message ids) : WorkerM D Unit).Performs WorkerOp.NoFile := performs_execute _ trivial
    have hf := Performs.files hno o pg u
    rw [h] at hf
    exact hf
  have hbook : ∀ {result r u v}, (bookkeep o shard group result).run (lone o pg) u = (r,v) →
    v.files () = u.files () := by
    intro result r u v h
    have hno : (bookkeep o shard group result).Performs WorkerOp.NoFile :=
      ((performs_promote ..).mono fun _ h => h.noFile).bind fun _ =>
        performs_recordJobs_of (fun _ _ => trivial) (fun _ => trivial) _ _
    have hf := Performs.files hno o pg u
    rw [h] at hf
    exact hf
  cases h with
  | refused h₁ h₂ => rw [hfail h₂, hre h₁]
  | unrecorded h₁ h₂ h₃ => rw [hfail h₃, hbook h₂, hre h₁]
  | @recorded result u v h₁ h₂ h₃ =>
    have hno : (spotChecks o shard result group).Performs WorkerOp.NoFile :=
      performs_spotChecks (fun _ _ => trivial) shard result group
    have hf := Performs.files hno o pg v
    rw [h₃] at hf
    rw [hf, hbook h₂, hre h₁]

/-- A group of processing jobs whose statements succeed is erased when its subjects can be purged
together, and fails otherwise. -/
theorem run_processGroup_erased {shard : ℕ} {group : List ClaimedJob} (hn : (group.map ClaimedJob.erasureId).Nodup)
    (hclaimed : ∀ job ∈ group, Claimed w.view job) (hkey : D.signingKey.isSome) (hun : Unhindered o pg group shard w)
    (ha : ((processGroup o shard group).run (lone o pg) w).2.aborted = false) :
    ∃ w', (processGroup o shard group).run (lone o pg) w = (.ok (),w') ∧ w'.aborted = false ∧
      Processed o pg shard group w w' ∧
      ∀ job ∈ group, (Erased w'.view job ∧
        ∃ batch records, Rebuild.Purges (group.map ClaimedJob.subjectRef) (w.files ()) batch records) ∨
      ((∃ j, w'.view.jobs.get? job.erasureId = some j ∧ j.status = .failed) ∧
        ¬∃ batch records, Rebuild.Purges (group.map ClaimedJob.subjectRef) (w.files ()) batch records) := by
  let c : Call := ⟨o.engine,group.map ClaimedJob.subjectRef,true,o.clock w.server.statements⟩
  have hreturns : (∃ result t, c.program.run fileExec (w.files ()) = (.ok result,t)) ↔ _ :=
    Call.returns_iff_purges hun.fits hun.cache fun _ => hkey
  rcases run_processGroup o pg shard group w with ⟨w',h,hp⟩ | ⟨e,w',h,ha'⟩
  · rw [h] at ha
    refine ⟨w',h,ha,hp,fun job hjob => ?_⟩
    have hid : job.erasureId ∈ group.map ClaimedJob.erasureId := List.mem_map_of_mem hjob
    cases hp with
    | @refused exc u hre hfail =>
      right
      have hview : u.view = w.view := congrArg (fun s : Server Unit => s.view ()) (server_rebuildBatchByRef hre)
      obtain ⟨j,hj,-⟩ := hclaimed job hjob
      obtain ⟨jobs,hv,hget⟩ := run_failJobs hfail
      refine ⟨⟨j.failedWith (truncated exc.message),?_,rfl⟩,?_⟩
      · rw [hv, hget, if_pos hid, hview, hj]
        rfl
      · rw [← hreturns]
        rintro ⟨result,t,hrun⟩
        rw [run_rebuildBatchByRef_of hrun] at hre
        cases (Prod.mk.inj hre).1
    | @unrecorded result exc u v hre hbk hfail =>
      -- the promotion returns and the manifests are there, so the transaction was aborted
      obtain ⟨x,hpromote⟩ := hun.promotes result u hre
      rw [bookkeep, run_bind_of_ok hpromote] at hbk
      have hrun := hre
      rw [run_rebuildBatchByRef] at hrun
      have hrows : ∀ job ∈ group, ∃ row, manifestOf result.manifests job.subjectRef = .ok row := by
        intro job hjob
        obtain ⟨row,hrow,-⟩ :=
          exists_manifestOf (c := c) rfl (Prod.ext (Prod.mk.inj hrun).1 rfl) job.subjectRef (List.mem_map_of_mem hjob)
        exact ⟨row,hrow⟩
      have hav := aborted_of_recordJobs hrows hbk
      rw [(run_execute_ok hfail).1] at hav
      cases hav
    | @recorded result u v hre hbk hspot =>
      left
      have hrun := hre
      rw [run_rebuildBatchByRef] at hrun
      have hcall : c.program.run fileExec (w.files ()) = (.ok result,(c.program.run fileExec (w.files ())).2) :=
        Prod.ext (Prod.mk.inj hrun).1 rfl
      obtain ⟨_,u',hpromote,hrecord⟩ := run_bind_eq_ok.mp hbk
      obtain ⟨-,hdone⟩ := run_recordJobs (run_promote hpromote).1 hn hrecord
      obtain ⟨row,hrow,hd⟩ := hdone job hjob
      obtain ⟨row',hrow',hsubject⟩ := exists_manifestOf rfl hcall job.subjectRef (List.mem_map_of_mem hjob)
      cases hrow.symm.trans hrow'
      have hchecks : (spotChecks o shard result group).Performs (WorkerOp.Touches []) :=
        performs_spotChecks (fun _ _ => trivial) shard result group
      have hfollows := Performs.follows hchecks o pg v (by rw [hspot]; exact ha)
      rw [hspot] at hfollows
      exact ⟨⟨row,hd.sameBut hfollows.2.1 List.not_mem_nil,hsubject⟩,hreturns.mp ⟨result,_,hcall⟩⟩
  · rw [h, ha'] at ha
    cases ha

def Failed (db : Database) (job : ClaimedJob) : Prop := ∃ j, db.jobs.get? job.erasureId = some j ∧ j.status = .failed

/-- The job is done if its subjects can be purged together, and failed otherwise. -/
def Ends (db : Database) (s : Process D) (group : List ClaimedJob) (job : ClaimedJob) : Prop :=
  (Erased db job ∧ Together s (group.map ClaimedJob.subjectRef)) ∨
    (Failed db job ∧ ¬Together s (group.map ClaimedJob.subjectRef))

theorem Ends.sameBut {db db' : Database} {ids : List Uuid} {s : Process D} {group : List ClaimedJob} {job : ClaimedJob}
    (h : Ends db s group job) (hs : db.SameBut ids db') (hid : job.erasureId ∉ ids) : Ends db' s group job := by
  rcases h with ⟨⟨row,h,hsubject⟩,htogether⟩ | ⟨⟨j,hj,hstatus⟩,htogether⟩
  · exact Or.inl ⟨⟨row,h.sameBut hs hid,hsubject⟩,htogether⟩
  · exact Or.inr ⟨⟨j,(hs.jobs _ hid).trans hj,hstatus⟩,htogether⟩

theorem Claimed.sameBut {db db' : Database} {ids : List Uuid} {job : ClaimedJob} (h : Claimed db job)
    (hs : db.SameBut ids db') (hid : job.erasureId ∉ ids) : Claimed db' job := by
  obtain ⟨j,hj,h⟩ := h
  exact ⟨j,(hs.jobs _ hid).trans hj,h⟩

def Routed (s : Process D) (groups : List (ℕ × List ClaimedJob)) : Prop := ∀ routing, s.1.routing = some routing →
  ∀ g ∈ groups, ∀ job ∈ g.2, ∀ e, routing.get? job.subjectRef = some e → e.shard = g.1

/-- Every group ends as if it were processed first. -/
theorem run_processGroups_ends {groups : List (ℕ × List ClaimedJob)} (hkey : D.signingKey.isSome)
    (hn : ((groups.flatMap Prod.snd).map ClaimedJob.erasureId).Nodup) (hkeys : (groups.map Prod.fst).Nodup)
    (hne : ∀ g ∈ groups, g.2 ≠ []) (hclaimed : ∀ job ∈ groups.flatMap Prod.snd, Claimed w.view job)
    (hrouted : Routed (w.files ()) groups)
    (hun : ∀ group shard u, Reached o pg groups w group shard u → Unhindered o pg group shard u)
    (hw : w.aborted = false) (ha : ((processGroups o groups).run (lone o pg) w).2.aborted = false) :
    ∃ w', (processGroups o groups).run (lone o pg) w = (.ok (),w') ∧ w'.aborted = false ∧
      ∀ g ∈ groups, ∀ job ∈ g.2, Ends w'.view (w.files ()) g.2 job := by
  induction groups generalizing w with
  | nil => exact ⟨w,rfl,hw,by simp⟩
  | cons g groups ih =>
    obtain ⟨shard,group⟩ := g
    rw [List.flatMap_cons, List.map_append, List.nodup_append] at hn
    obtain ⟨hng,hnr,hdisj⟩ := hn
    rw [List.map_cons, List.nodup_cons] at hkeys
    obtain ⟨hnegroup,hne⟩ := List.forall_mem_cons.mp hne
    rw [List.flatMap_cons] at hclaimed
    have hids : ∀ job ∈ group, job.erasureId ∈ group.map ClaimedJob.erasureId :=
      fun job hjob => List.mem_map_of_mem hjob
    have hrest :
      (processGroups o groups).Performs (WorkerOp.Touches ((groups.flatMap Prod.snd).map ClaimedJob.erasureId)) :=
      performs_processGroups fun g hg job hjob => List.mem_map_of_mem (List.mem_flatMap.mpr ⟨g,hg,hjob⟩)
    have hgroup : ((processGroup o shard group).run (lone o pg) w).2.aborted = false := by
      rw [processGroups, run_bind] at ha
      rcases hr : (processGroup o shard group).run (lone o pg) w with ⟨e | ⟨⟩,w'⟩
      · rw [hr] at ha
        exact ha
      · rw [hr] at ha
        exact (Performs.follows hrest o pg w' ha).1
    have hshard : ∀ routing, (w.files ()).1.routing = some routing → ∀ ref ∈ group.map ClaimedJob.subjectRef, ∀ e,
        routing.get? ref = some e → e.shard = shard := by
      intro routing hr ref href e he
      obtain ⟨job,hjob,rfl⟩ := List.mem_map.mp href
      exact hrouted routing hr _ List.mem_cons_self job hjob e he
    obtain ⟨w',hrun,ha',hp,hends⟩ :=
      run_processGroup_erased hng (fun job hjob => hclaimed job (List.mem_append_left _ hjob)) hkey
      (hun _ _ _ .here) hgroup
    have hfollows := Performs.follows (performs_processGroup hids shard) o pg w hgroup
    rw [hrun] at hfollows
    have hcall : (Call.mk o.engine (group.map ClaimedJob.subjectRef) true (o.clock w.server.statements)).program.run
      fileExec (w.files ()) =
        (_,w'.files ()) := Prod.ext rfl hp.files.symm
    -- the other groups' entries and shard files are as they were
    have hlisted : ∀ g ∈ groups, ∀ ref ∈ g.2.map ClaimedJob.subjectRef, Listed (w'.files ()) ref ↔
      Listed (w.files ()) ref := by
      intro g hg ref href
      refine listed_call hcall hshard fun routing hr e he => ?_
      obtain ⟨job,hjob,rfl⟩ := List.mem_map.mp href
      rw [hrouted routing hr g (List.mem_cons_of_mem _ hg) job hjob e he]
      exact fun heq => hkeys.1 (List.mem_map.mpr ⟨g,hg,heq⟩)
    have hrouted' : Routed (w'.files ()) groups := by
      intro routing' hr' g hg job hjob e he
      obtain ⟨routing,hr,he'⟩ := get?_of_call hcall hr' he
      exact hrouted routing hr g (List.mem_cons_of_mem _ hg) job hjob e he'
    have hothers : ∀ job ∈ groups.flatMap Prod.snd, Claimed w'.view job := by
      intro job hjob
      refine (hclaimed job (List.mem_append_right _ hjob)).sameBut hfollows.2.1 fun hin => ?_
      exact hdisj _ hin _ (List.mem_map_of_mem hjob) rfl
    rw [processGroups, run_bind_of_ok hrun] at ha ⊢
    obtain ⟨t,hrun',hat,hends'⟩ := ih hnr hkeys.2 hne hothers hrouted'
      (fun group shard u hu => hun group shard u (.later hrun hu)) ha' ha
    have hlater := (Performs.follows hrest o pg w' ha).2.1
    rw [hrun'] at hlater
    refine ⟨t,hrun',hat,List.forall_mem_cons.mpr ⟨fun job hjob => ?_,fun g hg job hjob => ?_⟩⟩
    · have htogether : _ ↔ Together (w.files ()) (group.map ClaimedJob.subjectRef) :=
        (exists_purges_iff hshard).trans (and_iff_right (by simpa using hnegroup))
      have hend : Ends w'.view (w.files ()) group job := by
        rw [Ends, ← htogether]
        exact hends job hjob
      exact hend.sameBut hlater fun hin => hdisj _ (hids job hjob) _ hin rfl
    · have htogether : Together (w'.files ()) (g.2.map ClaimedJob.subjectRef) ↔
        Together (w.files ()) (g.2.map ClaimedJob.subjectRef) :=
        and_congr_right fun _ => forall₂_congr (hlisted g hg)
      have hend := hends' g hg job hjob
      rw [Ends, htogether] at hend
      exact hend

theorem filter_flatMap {α κ : Type} [DecidableEq κ] {key : α → κ} {groups : List (κ × List α)}
    (hn : (groups.map Prod.fst).Nodup) (hkey : ∀ g ∈ groups, ∀ a ∈ g.2, key a = g.1) : ∀ g ∈ groups,
      (groups.flatMap Prod.snd).filter (fun a => key a = g.1) = g.2 := by
  induction groups with
  | nil => simp
  | cons g groups ih =>
    rw [List.map_cons, List.nodup_cons] at hn
    obtain ⟨hg,hrest⟩ := List.forall_mem_cons.mp hkey
    have hother : ∀ g' ∈ groups, g'.1 ≠ g.1 := fun g' hg' heq => hn.1 (List.mem_map.mpr ⟨g',hg',heq⟩)
    have hkeep : ∀ {k} {xs : List α}, (∀ a ∈ xs, key a = k) → xs.filter (fun a => key a = k) = xs := fun h =>
      List.filter_eq_self.mpr fun a ha => decide_eq_true (h a ha)
    have hdrop : ∀ {k k'} {xs : List α}, (∀ a ∈ xs, key a = k') → k' ≠ k → xs.filter (fun a => key a = k) = [] :=
      fun h hne =>
      List.filter_eq_nil_iff.mpr fun a ha => by simpa [h a ha] using hne
    simp only [List.flatMap_cons, List.filter_append]
    refine List.forall_mem_cons.mpr ⟨?_,fun g' hg' => ?_⟩
    · rw [hkeep hg, List.filter_eq_nil_iff.mpr, List.append_nil]
      intro a ha
      obtain ⟨g',hg',ha'⟩ := List.mem_flatMap.mp ha
      simpa [hrest g' hg' a ha'] using hother g' hg'
    · rw [hdrop hg (hother g' hg').symm, List.nil_append]
      exact ih hn.2 hrest g' hg'

/-- A group is the jobs of its shard, in some order. -/
theorem group_perm {jobs : List ClaimedJob} {g : ℕ × List ClaimedJob} (hg : g ∈ shardGroups jobs) :
    g.2.Perm (jobs.filter fun job => job.shard = g.1) := by
  have hkeys : ((shardGroups jobs).map Prod.fst).Pairwise (· < ·) :=
    groupby_pairwise (List.pairwise_insertionSort (fun a b : ClaimedJob => a.shard ≤ b.shard) jobs)
  have hfilter := filter_flatMap (hkeys.imp fun h => h.ne) (fun _ hg => (groupby_key _ hg).2) g hg
  rw [← hfilter]
  exact (shardGroups_perm jobs).filter _

/-- A batch of claimed jobs, of the shards the routing table has, for which training, signing, promotion
and every statement succeed. -/
structure Undisturbed (o : Outside D) (pg : Postgres) (jobs : List ClaimedJob) (w : Lone D) : Prop where
  idle : w.Idle
  distinct : (jobs.map ClaimedJob.erasureId).Nodup
  claimed : ∀ job ∈ jobs, Claimed w.server.committed job
  routed : ∀ routing, (w.files ()).1.routing = some routing → ∀ job ∈ jobs, ∀ e, routing.get? job.subjectRef = some e →
    e.shard = job.shard
  key : D.signingKey.isSome
  groups : ∀ group shard u, Reached o pg (shardGroups jobs) w group shard u → Unhindered o pg group shard u
  statements : (processClaimed o jobs).Along (lone o pg) (Succeeds pg) w

def subjectsWith (jobs : List ClaimedJob) (job : ClaimedJob) : List Ref :=
  (jobs.filter fun j => j.shard = job.shard).map ClaimedJob.subjectRef

theorem Undisturbed.ends {jobs : List ClaimedJob} (h : Undisturbed o pg jobs w) {job : ClaimedJob} (hjob : job ∈ jobs) :
    let db := ((withConn (processClaimed o jobs)).run (lone o pg) w).2.server.committed
    (Erased db job ∧ Together (w.files ()) (subjectsWith jobs job)) ∨
      (Failed db job ∧ ¬Together (w.files ()) (subjectsWith jobs job)) := by
  have hperm := shardGroups_perm jobs
  have ha := (along_succeeds_iff (performs_processClaimed o jobs) h.idle.aborted).mp h.statements
  have hkeys : ((shardGroups jobs).map Prod.fst).Pairwise (· < ·) :=
    groupby_pairwise (List.pairwise_insertionSort (fun a b : ClaimedJob => a.shard ≤ b.shard) jobs)
  have hclaimed : ∀ job ∈ (shardGroups jobs).flatMap Prod.snd, Claimed w.view job := by
    rw [h.idle.view]
    exact fun job hjob => h.claimed job (hperm.mem_iff.mp hjob)
  have hrouted : Routed (w.files ()) (shardGroups jobs) := by
    intro routing hr g hg job hjob e he
    obtain ⟨hmem,hshard⟩ := (mem_shardGroups hg).2 job hjob
    exact (h.routed routing hr job hmem e he).trans hshard
  obtain ⟨t,hrun,hat,hends⟩ :=
    run_processGroups_ends h.key ((hperm.map _).nodup_iff.mpr h.distinct) (hkeys.imp fun h => h.ne)
    (fun g hg => (mem_shardGroups hg).1) hclaimed hrouted h.groups h.idle.aborted ha
  rw [run_withConn, processClaimed, hrun]
  dsimp only
  rw [committed_commit hat]
  obtain ⟨g,hg,hin⟩ := List.mem_flatMap.mp (hperm.mem_iff.mpr hjob)
  have hrefs : (subjectsWith jobs job).Perm (g.2.map ClaimedJob.subjectRef) := by
    rw [subjectsWith, ((mem_shardGroups hg).2 job hin).2]
    exact ((group_perm hg).map _).symm
  have htogether : Together (w.files ()) (subjectsWith jobs job) ↔
    Together (w.files ()) (g.2.map ClaimedJob.subjectRef) :=
    and_congr hrefs.nodup_iff (forall_congr' fun ref => imp_congr_left hrefs.mem_iff)
  rw [htogether]
  exact hends g hg job hin

/-- A job whose subject is on disk is erased exactly when the jobs of its shard have distinct subjects, all on disk. -/
theorem erased_iff {jobs : List ClaimedJob} (h : Undisturbed o pg jobs w) :
    ∀ job ∈ jobs, Listed (w.files ()) job.subjectRef →
      (Erased ((withConn (processClaimed o jobs)).run (lone o pg) w).2.server.committed job ↔
        (subjectsWith jobs job).Nodup ∧ ∀ ref ∈ subjectsWith jobs job, Listed (w.files ()) ref) := by
  intro job hjob _
  rcases h.ends hjob with ⟨herased,htogether⟩ | ⟨⟨j,hj,hfailed⟩,htogether⟩
  · exact iff_of_true herased htogether
  · refine iff_of_false ?_ htogether
    rintro ⟨row,⟨⟨j',hj',hdone⟩,-⟩,-⟩
    cases hj.symm.trans hj'
    cases hfailed.symm.trans hdone

section Sample

/-- One subject, asked for under two idempotency keys. -/
def repeatedJobs : List ClaimedJob := [⟨"a",sampleRef 3,0⟩,⟨"b",sampleRef 3,0⟩]

/-- Jobs for the third subject on the trained models meet nothing in their way, whatever of them is processed. -/
theorem sample_undisturbed {pending : List (Uuid × Job)} {jobs : List ClaimedJob} {w v : Lone (logging 2)}
    (hclaim : sampleClaim Postgres.inOrder pending = (.ok jobs,w)) (hfiles : w.files () = sampleBoosted)
    (hjobs : ∀ job ∈ jobs, job.subjectRef = sampleRef 3 ∧ job.shard = 0) (hgroups : shardGroups jobs = [(0,jobs)])
    (hlocated : Located (jobs.map ClaimedJob.subjectRef) sampleBoosted ⟨0,1⟩ sampleRecords)
    (hfits : sampleOutside.engine.Fits (jobs.map ClaimedJob.subjectRef) sampleBoosted ⟨0,1⟩ sampleRecords)
    (hpromotes : ∀ result u, (rebuildBatchByRef sampleOutside (jobs.map ClaimedJob.subjectRef)).run
      (lone sampleOutside Postgres.inOrder) w = (.ok result,u) →
      ∃ v, (promote sampleOutside 0 result.resultWeights).run (lone sampleOutside Postgres.inOrder) u = (.ok (),v))
    (hrun : (processGroup sampleOutside 0 jobs).run (lone sampleOutside Postgres.inOrder) w = (.ok (),v))
    (hv : v.aborted = false) :
    Undisturbed sampleOutside Postgres.inOrder jobs w ∧ Listed (w.files ()) (sampleRef 3) := by
  obtain ⟨hidle,hn,hclaimed⟩ := run_claimJobs hclaim
  refine ⟨⟨hidle,hn,hclaimed,?_,rfl,?_,?_⟩,?_⟩
  · rw [hfiles]
    intro routing hr job hjob e he
    cases hr
    obtain ⟨hsubject,hshard⟩ := hjobs job hjob
    rw [hsubject] at he
    cases he
    exact hshard.symm
  · rw [hgroups]
    intro group shard u hu
    cases hu with
    | here =>
      refine ⟨fun batch records hl _ => ?_,fun batch records _ => ?_,hpromotes⟩
      · rw [hfiles] at hl ⊢
        obtain ⟨rfl,rfl⟩ := hl.unique hlocated
        exact hfits
      · rw [hfiles]
        exact not_cacheCollision rfl
    | later _ hu => cases hu
  · refine (along_succeeds_iff (performs_processClaimed _ _) hidle.aborted).mpr ?_
    rw [processClaimed, hgroups, processGroups, run_bind_of_ok hrun]
    exact hv
  · rw [hfiles]
    exact ⟨sampleRouting,⟨"dev",0,1,1⟩,sampleRecords,rfl,rfl,rfl,by decide⟩

theorem repeated_undisturbed : ∃ w, Undisturbed sampleOutside Postgres.inOrder repeatedJobs w ∧
    Listed (w.files ()) (sampleRef 3) := by
  have hclaim : ∃ w, sampleClaim Postgres.inOrder [("a",queuedJob (sampleRef 3)),("b",queuedJob (sampleRef 3))] =
      (.ok repeatedJobs,w) ∧ w.files () = sampleBoosted := ⟨_,Prod.ext rfl rfl,rfl⟩
  obtain ⟨w,hclaim,hfiles⟩ := hclaim
  have hidle : w.Idle := (run_claimJobs hclaim).1
  have hrefused : ∀ result u, (rebuildBatchByRef sampleOutside (repeatedJobs.map ClaimedJob.subjectRef)).run
      (lone sampleOutside Postgres.inOrder) w ≠ (.ok result,u) := by
    intro result u hre
    rw [run_rebuildBatchByRef] at hre
    obtain ⟨x,hx,-⟩ := Call.returned (Prod.ext (Prod.mk.inj hre).1 rfl)
    have hdistinct : (repeatedJobs.map ClaimedJob.subjectRef).Nodup := hx.nodup
    exact absurd hdistinct (by decide)
  have hlocated : Located (repeatedJobs.map ClaimedJob.subjectRef) sampleBoosted ⟨0,1⟩ sampleRecords :=
    ⟨by decide,⟨sampleRouting,rfl,rfl⟩,rfl⟩
  have hrun : ∃ v, (processGroup sampleOutside 0 repeatedJobs).run (lone sampleOutside Postgres.inOrder) w =
      (.ok (),v) ∧ v.aborted = false := by
    rw [processGroup, run_bind_of_ok (run_attempt (answers_lone _ _) _ w)]
    rcases hre : (rebuildBatchByRef sampleOutside (repeatedJobs.map ClaimedJob.subjectRef)).run
        (lone sampleOutside Postgres.inOrder) w with ⟨exc | result,u⟩
    · have hu : u.aborted = false :=
        (congrArg (fun s : Server Unit => (s.session ()).aborted) (server_rebuildBatchByRef hre)).trans hidle.aborted
      exact ⟨_,run_execute_of (fun _ => rfl) hu (update_free _),aborted_wrote _ _⟩
    · exact absurd hre (hrefused result u)
  obtain ⟨v,hrun,hv⟩ := hrun
  exact ⟨w,sample_undisturbed hclaim hfiles (by decide) rfl hlocated
    ⟨_,_,_,rfl,rfl,Gbdt.trainShard_eq_ok.mpr ⟨by decide,rfl,rfl⟩⟩
    (fun result u hre => absurd hre (hrefused result u)) hrun hv⟩

/-- One job for the third subject is processed on the trained models. -/
theorem exists_sampleGroup {w : Lone (logging 2)} (hfiles : w.files () = sampleBoosted) (hidle : w.Idle)
    (hs : Servable w) (hclaimed : Claimed w.server.committed sampleClaimed)
    (hm : w.server.committed.manifests = Dict.empty) : ∃ result u v,
      (rebuildBatchByRef sampleOutside [sampleRef 3]).run (lone sampleOutside Postgres.inOrder) w = (.ok result,u) ∧
      (bookkeep sampleOutside 0 [sampleClaimed] result).run (lone sampleOutside Postgres.inOrder) u = (.ok (),v) ∧
      (spotChecks sampleOutside 0 result [sampleClaimed]).run (lone sampleOutside Postgres.inOrder) v = (.ok (),v) ∧
      v.aborted = false := by
  obtain ⟨result,t,hcall⟩ := Call.returns sampleBoosted_ready
  have hlive : (t.1.boosters 0).isSome := Gbdt.booster_isSome rfl hcall rfl
  have hjob : "a" ∈ w.view.jobs ∧ "a" ∉ w.view.manifests := by
    rw [hidle.view, hm]
    obtain ⟨j,hj,-⟩ := hclaimed
    exact ⟨Dict.mem_of_get? hj,by simp [Dict.mem_iff, Dict.keys, Dict.empty]⟩
  obtain ⟨u,v,hre,hbk,hspot,hv,-⟩ :=
    exists_group sampleOutside Postgres.inOrder 0 [sampleClaimed] rfl (fun _ => ⟨_,rfl⟩) (fun _ => rfl)
      (fun _ => rfl) (by rw [hfiles]; exact hcall) hlive (lt_maxDigits (by decide)) hidle.aborted hs
      (List.nodup_singleton _) (List.forall_mem_singleton.mpr hjob)
  exact ⟨result,u,v,hre,hbk,hspot,hv⟩

/-- One request for the subject. -/
theorem single_undisturbed : ∃ w, Undisturbed sampleOutside Postgres.inOrder [sampleClaimed] w ∧
    Listed (w.files ()) (sampleRef 3) := by
  have hclaim : ∃ w, sampleClaim Postgres.inOrder [("a",queuedJob (sampleRef 3))] = (.ok [sampleClaimed],w) ∧
      w.files () = sampleBoosted ∧ w.cas = Dict.empty ∧ w.server.committed.checkpoints = Dict.empty ∧
      w.server.committed.manifests = Dict.empty := ⟨_,Prod.ext rfl rfl,rfl,rfl,rfl,rfl⟩
  obtain ⟨w,hclaim,hfiles,hcas,hcheckpoints,hmanifests⟩ := hclaim
  obtain ⟨hidle,-,hclaimed⟩ := run_claimJobs hclaim
  have hservable : Servable w := by
    refine ⟨fun path artifact h => ?_,fun h row hrow => ?_⟩
    · rw [hcas] at h
      cases h
    · rw [hidle.view, hcheckpoints] at hrow
      cases hrow
  obtain ⟨result,u,v,hre,hbk,hspot,hv⟩ :=
    exists_sampleGroup hfiles hidle hservable (hclaimed _ (List.mem_singleton_self _)) hmanifests
  have hlocated : Located ([sampleClaimed].map ClaimedJob.subjectRef) sampleBoosted ⟨0,1⟩ sampleRecords :=
    ⟨by decide,⟨sampleRouting,rfl,rfl⟩,rfl⟩
  refine ⟨w,sample_undisturbed hclaim hfiles (by decide) rfl hlocated
    ⟨_,_,_,rfl,rfl,Gbdt.trainShard_eq_ok.mpr ⟨by decide,rfl,rfl⟩⟩ (fun result' u' hre' => ?_)
    (run_processGroup_of_ok hre hbk hspot) hv⟩
  cases hre.symm.trans hre'
  obtain ⟨⟨⟩,v',hpromote,-⟩ := run_bind_eq_ok.mp hbk
  exact ⟨v',hpromote⟩

/-- One subject requested twice, and requested once, which is erased. -/
theorem erased_iff_repeated :
    (∃ w, ∀ job ∈ repeatedJobs, Listed (w.files ()) job.subjectRef →
      (Erased ((withConn (processClaimed sampleOutside repeatedJobs)).run
          (lone sampleOutside Postgres.inOrder) w).2.server.committed job ↔
        (subjectsWith repeatedJobs job).Nodup ∧ ∀ ref ∈ subjectsWith repeatedJobs job, Listed (w.files ()) ref)) ∧
    ∃ w, Erased ((withConn (processClaimed sampleOutside [sampleClaimed])).run
      (lone sampleOutside Postgres.inOrder) w).2.server.committed sampleClaimed := by
  constructor
  · obtain ⟨w,h,-⟩ := repeated_undisturbed
    exact ⟨w,erased_iff h⟩
  · obtain ⟨w,h,hlisted⟩ := single_undisturbed
    refine ⟨w,(erased_iff h sampleClaimed (List.mem_singleton_self _) hlisted).mpr ⟨by decide,?_⟩⟩
    exact List.forall_mem_singleton.mpr hlisted

/-- The second request for a subject costs both jobs their erasure. -/
theorem not_erased_repeated : ¬∀ (D : Deployment) (o : Outside D) (pg : Postgres) (jobs : List ClaimedJob) (w : Lone D),
    Undisturbed o pg jobs w → ∀ job ∈ jobs, Listed (w.files ()) job.subjectRef →
      Erased ((withConn (processClaimed o jobs)).run (lone o pg) w).2.server.committed job := by
  intro hall
  obtain ⟨w,h,hlisted⟩ := repeated_undisturbed
  have hjob : ⟨"a",sampleRef 3,0⟩ ∈ repeatedJobs := List.mem_cons_self
  obtain ⟨row,⟨⟨j,hj,hdone⟩,-⟩,-⟩ := hall _ _ _ _ w h _ hjob hlisted
  rcases h.ends hjob with ⟨-,htogether⟩ | ⟨⟨j',hj',hfailed⟩,-⟩
  · exact absurd htogether.1 (by decide)
  · cases hj.symm.trans hj'
    cases hdone.symm.trans hfailed

end Sample

end UnlearnShield.Worker
