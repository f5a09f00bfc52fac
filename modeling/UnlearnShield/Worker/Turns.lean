import UnlearnShield.Worker.Served
import UnlearnShield.Worker.Watching

/-! # Promotions that overlap

A promotion reads the latest version, inserts one that carries it forward and commits later.
Several processes promote one shard each: what is served has the weights of all that have
committed, in every run in which each of them commits while the version that it has read is
still the latest one and every version on record is earlier than its own.
-/
namespace UnlearnShield.Worker
open Db Engine Deployment Program Relation
variable {D : Deployment} {ι : Type} [DecidableEq ι]

/-- What a promotion has read, recorded and inserted. -/
structure Turn where
  latest : Option (Option (String × VersionRow))
  weights : Option String
  version : Option (String × Dict String String)

def noteTurn : Note (WorkerOp D) WorkerOp.Resp Turn
  | .sql .latestVersion, .ok latest, n => {n with latest := some latest}
  | .sql (.insertCheckpoint h _), .ok _, n => {n with weights := some h}
  | .sql (.insertVersion v shardCheckpoints _), .ok _, n => {n with version := some (v,shardCheckpoints)}
  | _, _, n => n

/-- The digests are those that were read, with the weights that were recorded for the shard. -/
def Turn.Carries (n : Turn) (shard : ℕ) (shardCheckpoints : Dict String String) : Prop :=
  ∃ latest h, n.latest = some latest ∧ n.weights = some h ∧
    shardCheckpoints = (carriedForward latest).insert (toString shard) h

/-- A process inserts one version, and reads and records nothing more after it. -/
def InsertsOnce (shard : ℕ) : WorkerOp D → Turn → Prop
  | .sql .latestVersion, n => n.version = none
  | .sql (.insertCheckpoint ..), n => n.version = none
  | .sql (.insertVersion _ shardCheckpoints _), n => n.version = none ∧ n.Carries shard shardCheckpoints
  | _, _ => True

section Programs
variable {o : Outside D} {α : Type} {shard : ℕ} {n : Turn}

abbrev Takes (shard : ℕ) (R : α → Turn → Prop) (p : WorkerM D α) (n : Turn) : Prop :=
  p.Heeds noteTurn (InsertsOnce shard) R n

def WorkerOp.Unversioned : WorkerOp D → Prop
  | .sql .latestVersion | .sql (.insertCheckpoint ..) | .sql (.insertVersion ..) => False
  | _ => True

theorem noteTurn_unversioned {op : WorkerOp D} (h : op.Unversioned) (r : op.Resp) (n : Turn) :
    noteTurn op r n = n := by
  cases op with
  | sql stmt => cases stmt <;> first | exact h.elim | rfl
  | _ => rfl

theorem takes_unversioned {p : WorkerM D α} (hp : p.Performs WorkerOp.Unversioned) (n : Turn) :
    Takes shard (fun _ n' => n' = n) p n := by
  refine heeds_of_performs hp (fun op n' hop _ => ?_) (fun op r n' hop hn => ?_) rfl
  · cases op with
    | sql stmt => cases stmt <;> first | exact hop.elim | trivial
    | _ => trivial
  · rw [noteTurn_unversioned hop, hn]

theorem WorkerOp.Copies.unversioned {op : WorkerOp D} (h : op.Copies) : op.Unversioned := by
  cases op <;> first | exact h.elim | trivial

theorem takes_insertCheckpoint (h : String) (row : CheckpointRow) (hn : n.version = none) :
    Takes shard (fun _ n' => n' = {n with weights := some h}) (execute (D := D) (.insertCheckpoint h row)) n := by
  refine ⟨hn,fun r => ?_⟩
  cases r with
  | ok u => rfl
  | error e => trivial

theorem takes_latestVersion (hn : n.version = none) :
    Takes shard (fun latest n' => n' = {n with latest := some latest}) (execute (D := D) .latestVersion) n := by
  refine ⟨hn,fun r => ?_⟩
  cases r with
  | ok latest => rfl
  | error e => trivial

/-- The version that a promotion inserts carries forward the one that it reads. -/
theorem takes_promote (h : String) (hn : n.version = none) : Takes shard (fun _ _ => True) (promote o shard h) n := by
  have hcopies : (promoteArtifact o shard h).Performs WorkerOp.Unversioned :=
    (performs_promoteArtifact ..).mono fun _ h => h.unversioned
  refine (takes_unversioned hcopies n).bind fun path n' hn' => ?_
  subst hn'
  refine (takes_insertCheckpoint h _ hn).bind fun _ n' hn' => ?_
  subst hn'
  refine (takes_latestVersion (n := ⟨n'.latest,some h,n'.version⟩) hn).bind fun latest n' hn' => ?_
  subst hn'
  have hinsert : Takes shard (fun _ _ => True) (execute (D := D) (.insertVersion (versionName h)
      ((carriedForward latest).insert (toString shard) h) ((latest.map fun e => e.2.evalSetVersion).getD "v0")))
      ⟨some latest,some h,n'.version⟩ :=
    ⟨⟨hn,latest,h,rfl,rfl,rfl⟩,fun _ => heeds_lift fun _ _ => trivial⟩
  have heval : (recordEval o (versionName h) ((carriedForward latest).insert (toString shard) h)).Performs
      WorkerOp.Unversioned :=
    performs_recordEval_of (fun _ => trivial) (fun _ _ => trivial) (fun _ h => h.copies.unversioned) _ _
  exact hinsert.bind fun _ n' _ => (takes_unversioned heval n').bind fun _ _ _ => trivial

theorem takes_processGroup (group : List ClaimedJob) (hn : n.version = none) :
    Takes shard (fun _ _ => True) (processGroup o shard group) n := by
  have hfail : ∀ message n', Takes shard (fun _ _ => True)
      (execute (D := D) (.failJobs message (group.map ClaimedJob.erasureId))) n' := by
    intro message n'
    have hfailed : (execute (D := D) (.failJobs message (group.map ClaimedJob.erasureId))).Performs
      WorkerOp.Unversioned := performs_execute _ trivial
    exact (takes_unversioned hfailed n').mono fun _ _ _ => trivial
  have hrebuild : (rebuildBatchByRef o (group.map ClaimedJob.subjectRef)).Performs WorkerOp.Unversioned :=
    Performs.bind ⟨trivial,fun _ => trivial⟩ fun _ => performs_embed (fun _ => trivial) _
  refine (takes_unversioned hrebuild.attempt n).bind fun rebuilt n' hn' => ?_
  subst hn'
  cases rebuilt with
  | error e => exact hfail _ _
  | ok result =>
    have hbookkeep : Takes shard (fun _ _ => True) (bookkeep o shard group result) n' :=
      (takes_promote result.resultWeights hn).bind fun _ n' _ => (takes_unversioned
        (performs_recordJobs_of (fun _ _ => trivial) (fun _ => trivial) _ _) n').mono fun _ _ _ => trivial
    refine hbookkeep.attempt.bind fun booked n' _ => ?_
    cases booked with
    | error e => exact hfail _ _
    | ok _ =>
      exact (takes_unversioned (performs_spotChecks (fun _ _ => trivial) _ _ _) n').mono fun _ _ _ => trivial

/-- A batch on one shard is one group. -/
theorem shardGroups_of_shard {jobs : List ClaimedJob} (h : ∀ job ∈ jobs, job.shard = shard) :
    shardGroups jobs = [] ∨ ∃ group, shardGroups jobs = [(shard,group)] := by
  have hkeys : ((shardGroups jobs).map Prod.fst).Pairwise (· < ·) :=
    groupby_pairwise (List.pairwise_insertionSort (fun a b : ClaimedJob => a.shard ≤ b.shard) jobs)
  have hshard : ∀ g ∈ shardGroups jobs, g.1 = shard := by
    rintro ⟨k,group⟩ hg
    obtain ⟨hne,hgroup⟩ := mem_shardGroups hg
    obtain ⟨job,hjob⟩ := List.exists_mem_of_ne_nil _ hne
    obtain ⟨hin,hk⟩ := hgroup job hjob
    exact hk.symm.trans (h job hin)
  cases hgroups : shardGroups jobs with
  | nil => exact Or.inl rfl
  | cons g groups =>
    rw [hgroups] at hkeys hshard
    obtain ⟨k,group⟩ := g
    have hk : k = shard := hshard _ List.mem_cons_self
    cases groups with
    | nil => exact Or.inr ⟨group,by rw [hk]⟩
    | cons g' groups =>
      have hk' : g'.1 = shard := hshard _ (List.mem_cons_of_mem _ List.mem_cons_self)
      have hlt : k < g'.1 := (List.pairwise_cons.mp hkeys).1 _ List.mem_cons_self
      exact absurd hlt (by rw [hk, hk']; exact lt_irrefl _)

theorem takes_processClaimed {jobs : List ClaimedJob} (h : ∀ job ∈ jobs, job.shard = shard) (hn : n.version = none) :
    Takes shard (fun _ _ => True) (withConn (processClaimed o jobs)) n := by
  have hbody : Takes shard (fun _ _ => True) (processClaimed o jobs) n := by
    rw [processClaimed]
    rcases shardGroups_of_shard h with hnil | ⟨group,hone⟩
    · rw [hnil]
      trivial
    · rw [hone]
      exact (takes_processGroup group hn).bind fun _ _ _ => trivial
  exact heeds_withConn (fun _ => trivial) (fun _ => trivial) hbody

end Programs

section Selection
variable {db : Database} {ws : List Write}

/-- Whatever version is selected, its digests are these. -/
def Selected (db : Database) (shardCheckpoints : Dict String String) : Prop :=
  ∀ latest, db.Latest latest → carriedForward latest = shardCheckpoints

theorem latest_ne_nil {v : String} (h : v ∈ db.versions) : db.latest ≠ [] := by
  obtain ⟨row,hrow⟩ := Dict.exists_get?_of_mem h
  have hne : db.versions.entries ≠ [] := List.ne_nil_of_mem (Dict.get?_eq_some.mp hrow)
  obtain ⟨e,he⟩ : ∃ e, db.versions.entries.argmax (fun e => e.2.promotedAt) = some e :=
    Option.ne_none_iff_exists'.mp (mt List.argmax_eq_none.mp hne)
  have hlatest : e ∈ db.latest := List.mem_filter.mpr
    ⟨List.argmax_mem he,decide_eq_true fun e' he' =>
      List.le_of_mem_argmax (f := fun e : String × VersionRow => e.2.promotedAt) he' he⟩
  exact List.ne_nil_of_mem hlatest

theorem mem_versions_writes {v : String} :
    v ∈ (db.writes ws).versions ↔ (∃ w ∈ ws, w.key = .version v) ∨ v ∈ db.versions :=
  show (db.writes ws).Has (.version v) ↔ _ from Database.has_writes

theorem versions_writes (h : ∀ v row, .version v row ∉ ws) : (db.writes ws).versions = db.versions := by
  induction ws generalizing db with
  | nil => rfl
  | cons w ws ih =>
    rw [Database.writes_cons, ih fun v row hin => h v row (List.mem_cons_of_mem _ hin)]
    cases w with
    | version v row => exact absurd List.mem_cons_self (h v row)
    | _ => rfl

/-- A new version that is later than all that are there is the one that is selected. -/
theorem selected_writes {v : String} {row : VersionRow} {shardCheckpoints : Dict String String}
    (hin : .version v row ∈ ws) (hfresh : v ∉ db.versions)
    (hnew : ∀ v' row', .version v' row' ∈ ws → v' = v ∧ row'.shardCheckpoints = shardCheckpoints ∧
      ∀ e ∈ db.versions.entries, e.2.promotedAt < row'.promotedAt) : Selected (db.writes ws) shardCheckpoints := by
  have hv : v ∈ (db.writes ws).versions := mem_versions_writes.mpr (Or.inl ⟨_,hin,rfl⟩)
  intro latest hlatest
  cases latest with
  | none => exact absurd hlatest (latest_ne_nil hv)
  | some e =>
    obtain ⟨hentry,hmax⟩ := List.mem_filter.mp hlatest
    have hwritten : (Write.version e.1 e.2).In (db.writes ws) := Dict.get?_eq_some.mpr hentry
    rcases Write.in_or_mem hwritten with hold | hnew'
    · obtain ⟨row',hrow'⟩ := Dict.exists_get?_of_mem hv
      have hrow'' : (Write.version v row').In (db.writes ws) := hrow'
      rcases Write.in_or_mem hrow'' with hold' | hin'
      · exact absurd (Dict.mem_of_get? hold') hfresh
      · have hlt := (hnew v row' hin').2.2 e (Dict.get?_eq_some.mp hold)
        have hle := of_decide_eq_true hmax (v,row') (Dict.get?_eq_some.mp hrow')
        exact absurd hlt (not_lt.mpr hle)
    · exact (hnew e.1 e.2 hnew').2.1

end Selection

section Runs
variable {o : Outside D} {pg : Postgres} {i : ι} {op : WorkerOp D} {r : op.Resp} {shard : ι → ℕ}
  {before : Dict String String}

abbrev Turning (D : Deployment) (ι : Type) := Fleet D ι × (ι → Turn)

variable {s t : Turning D ι}

/-- The process has committed a promotion of these weights. -/
def Promoted (s : Turning D ι) (i : ι) (h : String) : Prop :=
  (s.2 i).weights = some h ∧ ∃ v row, (s.2 i).version = some (v,row.shardCheckpoints) ∧
    s.1.server.committed.versions.get? v = some row

/-- The version that the process has read is still one that is selected, and all that are committed are earlier
than the one that it has inserted. -/
def UpToDate (i : ι) (s : Turning D ι) : Prop :=
  ∀ v row, .version v row ∈ s.1.server.writesOf i →
    (∀ e ∈ s.1.server.committed.versions.entries, e.2.promotedAt < row.promotedAt) ∧
    ∃ latest, (s.2 i).latest = some latest ∧ s.1.server.committed.Latest latest

/-- A version gets a name that is new, and is committed while what it carries forward is up to date. -/
def InTurn (i : ι) (op : WorkerOp D) (s : Turning D ι) : Prop :=
  match op with
  | .sql (.insertVersion v _ _) => v ∉ (s.1.server.view i).versions
  | .commit => UpToDate i s
  | _ => True

/-- Each process that has promoted has its weights there, and every other shard what it had. -/
structure Combines (shard : ι → ℕ) (before shardCheckpoints : Dict String String) (s : Turning D ι) : Prop where
  promoted : ∀ i h, Promoted s i h → shardCheckpoints.get? (toString (shard i)) = some h
  rest : ∀ k, (∀ i h, Promoted s i h → k ≠ toString (shard i)) → shardCheckpoints.get? k = before.get? k

structure Turns (shard : ι → ℕ) (before : Dict String String) (s : Turning D ι) : Prop where
  carries : ∀ i v shardCheckpoints, (s.2 i).version = some (v,shardCheckpoints) →
    (s.2 i).Carries (shard i) shardCheckpoints
  pending : ∀ i v row, .version v row ∈ s.1.server.writesOf i → (s.2 i).version = some (v,row.shardCheckpoints)
  served : ∃ shardCheckpoints, Selected s.1.server.committed shardCheckpoints ∧ Combines shard before shardCheckpoints s

omit [DecidableEq ι] in
theorem Combines.congr {shardCheckpoints : Dict String String} (h : Combines shard before shardCheckpoints s)
    (hp : ∀ i h, Promoted t i h ↔ Promoted s i h) : Combines shard before shardCheckpoints t :=
  ⟨fun i w hi => h.promoted i w ((hp i w).mp hi),fun k hk => h.rest k fun i w hi => hk i w ((hp i w).mpr hi)⟩

theorem Selected.congr {db db' : Database} {shardCheckpoints : Dict String String} (h : Selected db shardCheckpoints)
    (hv : db'.versions = db.versions) : Selected db' shardCheckpoints := by
  intro latest hlatest
  refine h latest ?_
  cases latest with
  | none => rwa [Database.Latest, Database.latest, hv] at hlatest
  | some e => rwa [Database.Latest, Database.latest, hv] at hlatest

namespace Turns

/-- What writes and commits no version changes nothing. -/
theorem kept (h : Turns shard before s) (hnotes : ∀ j, t.2 j = s.2 j ∨ (s.2 j).version = none ∧ (t.2 j).version = none)
    (hc : t.1.server.committed.versions = s.1.server.committed.versions)
    (hw : ∀ j v row, .version v row ∈ t.1.server.writesOf j → .version v row ∈ s.1.server.writesOf j) :
    Turns shard before t := by
  refine ⟨fun j v shardCheckpoints hv => ?_,fun j v row hin => ?_,?_⟩
  · rcases hnotes j with heq | ⟨-,hnone⟩
    · rw [heq] at hv ⊢
      exact h.carries j v shardCheckpoints hv
    · rw [hnone] at hv
      cases hv
  · have hv := h.pending j v row (hw j v row hin)
    rcases hnotes j with heq | ⟨hnone,-⟩
    · rw [heq, hv]
    · rw [hnone] at hv
      cases hv
  · obtain ⟨shardCheckpoints,hselected,hcombines⟩ := h.served
    refine ⟨shardCheckpoints,hselected.congr hc,hcombines.congr fun j w => ?_⟩
    rcases hnotes j with heq | ⟨hnone,hnone'⟩
    · rw [Promoted, Promoted, heq, hc]
    · simp [Promoted, hnone, hnone']

/-- A version that is inserted is not committed yet. -/
theorem inserts (h : Turns shard before s) {v : String} {row : VersionRow} (hfresh : v ∉ s.1.server.committed.versions)
    (hcarries : (s.2 i).Carries (shard i) row.shardCheckpoints) (hnone : (s.2 i).version = none)
    (hnotes : t.2 = Function.update s.2 i {s.2 i with version := some (v,row.shardCheckpoints)})
    (hc : t.1.server.committed = s.1.server.committed)
    (hw : ∀ j, t.1.server.writesOf j =
      if j = i then s.1.server.writesOf i ++ [.version v row] else s.1.server.writesOf j) : Turns shard before t := by
  have hi : t.2 i = {s.2 i with version := some (v,row.shardCheckpoints)} := by rw [hnotes, Function.update_self]
  have hj : ∀ j, j ≠ i → t.2 j = s.2 j := fun j hne => by rw [hnotes, Function.update_of_ne hne]
  refine ⟨fun j v' shardCheckpoints hv => ?_,fun j v' row' hin => ?_,?_⟩
  · by_cases hne : j = i
    · subst hne
      rw [hi] at hv ⊢
      cases hv
      exact hcarries
    · rw [hj j hne] at hv ⊢
      exact h.carries j v' shardCheckpoints hv
  · rw [hw] at hin
    split at hin
    · next heq =>
      subst heq
      rcases List.mem_append.mp hin with hold | hnew
      · have hv := h.pending j v' row' hold
        rw [hnone] at hv
        cases hv
      · obtain ⟨hv,hrow⟩ := Write.version.inj (List.mem_singleton.mp hnew)
        rw [hi, hv, hrow]
    · next hne =>
      rw [hj j hne]
      exact h.pending j v' row' hin
  · obtain ⟨shardCheckpoints,hselected,hcombines⟩ := h.served
    refine ⟨shardCheckpoints,hc ▸ hselected,hcombines.congr fun j w => ?_⟩
    by_cases hne : j = i
    · subst hne
      refine iff_of_false ?_ ?_
      · rintro ⟨-,v',row',hv,hrow⟩
        rw [hi] at hv
        obtain ⟨rfl,-⟩ := Prod.mk.inj (Option.some.inj hv)
        rw [hc] at hrow
        exact hfresh (Dict.mem_of_get? hrow)
      · rintro ⟨-,v',row',hv,-⟩
        rw [hnone] at hv
        cases hv
    · rw [Promoted, Promoted, hj j hne, hc]

theorem pending_same (h : Turns shard before s) {v v' : String} {row row' : VersionRow}
    (hin : .version v row ∈ s.1.server.writesOf i) (hin' : .version v' row' ∈ s.1.server.writesOf i) :
    v' = v ∧ row'.shardCheckpoints = row.shardCheckpoints :=
  Prod.mk.inj (Option.some.inj ((h.pending i v' row' hin').symm.trans (h.pending i v row hin)))

/-- The digests with one promotion more. -/
theorem combines (h : Turns shard before s) {shardCheckpoints : Dict String String}
    (hcombines : Combines shard before shardCheckpoints s) (hl : Locks s.1.server) (hshard : Function.Injective shard)
    {v weights : String} {row : VersionRow} (hin : .version v row ∈ s.1.server.writesOf i)
    (hweights : (s.2 i).weights = some weights)
    (hcarried : row.shardCheckpoints = shardCheckpoints.insert (toString (shard i)) weights) (hnotes : t.2 = s.2)
    (hc : t.1.server.committed = s.1.server.committed.writes (s.1.server.writesOf i)) :
    Combines shard before row.shardCheckpoints t := by
  have hversion := h.pending i v row hin
  have hfresh : v ∉ s.1.server.committed.versions := hl.fresh i _ hin rfl
  -- a row of a version is one that was there or the one that is committed now
  have hrows : ∀ v' row', t.1.server.committed.versions.get? v' = some row' →
      s.1.server.committed.versions.get? v' = some row' ∨ .version v' row' ∈ s.1.server.writesOf i := by
    intro v' row' hrow
    have hrow' : (Write.version v' row').In (s.1.server.committed.writes (s.1.server.writesOf i)) := hc ▸ hrow
    exact Write.in_or_mem hrow'
  refine ⟨fun j w hj => ?_,fun k hk => ?_⟩
  · obtain ⟨hw,v',row',hv,hrow⟩ := hj
    rw [hnotes] at hw hv
    rcases hrows v' row' hrow with hold | hnew
    · have hne : j ≠ i := by
        rintro rfl
        obtain ⟨rfl,-⟩ := Prod.mk.inj (Option.some.inj (hv.symm.trans hversion))
        exact hfresh (Dict.mem_of_get? hold)
      have hkey : toString (shard j) ≠ toString (shard i) := fun heq => hne (hshard (toString_injective heq))
      rw [hcarried, Dict.get?_insert_of_ne hkey]
      exact hcombines.promoted j w ⟨hw,v',row',hv,hold⟩
    · obtain ⟨latest,weights',-,hweights',hcarried'⟩ := h.carries j v' _ hv
      cases hweights'.symm.trans hw
      rw [← (h.pending_same hin hnew).2, hcarried', Dict.get?_insert_self]
  · have hi : Promoted t i weights := by
      have hv : v ∈ t.1.server.committed.versions := by
        rw [hc]
        exact mem_versions_writes.mpr (Or.inl ⟨_,hin,rfl⟩)
      obtain ⟨row',hrow'⟩ := Dict.exists_get?_of_mem hv
      rw [Promoted, hnotes]
      rcases hrows v row' hrow' with hold | hnew
      · exact absurd (Dict.mem_of_get? hold) hfresh
      · exact ⟨hweights,v,row',by rw [(h.pending_same hin hnew).2]; exact hversion,hrow'⟩
    have hstays : ∀ j w, Promoted s j w → Promoted t j w := by
      rintro j w ⟨hw,v',row',hv,hrow⟩
      rw [Promoted, hnotes, hc]
      exact ⟨hw,v',row',hv,(hl.keeps i).rows (.version v' row') rfl hrow⟩
    rw [hcarried, Dict.get?_insert_of_ne (hk i weights hi)]
    exact hcombines.rest k fun j w hj => hk j w (hstays j w hj)

/-- What is committed in turn carries forward what was selected, and is what is selected now. -/
theorem commits (h : Turns shard before s) (hl : Locks s.1.server) (hshard : Function.Injective shard)
    (hturn : UpToDate i s) (hnotes : t.2 = s.2)
    (hc : t.1.server.committed = s.1.server.committed.writes (s.1.server.writesOf i))
    (hw : ∀ j v row, .version v row ∈ t.1.server.writesOf j → .version v row ∈ s.1.server.writesOf j) :
    Turns shard before t := by
  by_cases hany : ∃ v row, .version v row ∈ s.1.server.writesOf i
  · obtain ⟨v,row,hin⟩ := hany
    obtain ⟨latest,weights,hlatest,hweights,hcarried⟩ := h.carries i v _ (h.pending i v row hin)
    obtain ⟨shardCheckpoints,hselected,hcombines⟩ := h.served
    obtain ⟨-,latest',hlatest',hstill⟩ := hturn v row hin
    obtain rfl := Option.some.inj (hlatest.symm.trans hlatest')
    rw [hselected latest hstill] at hcarried
    refine ⟨fun j => hnotes ▸ h.carries j,fun j v' row' hin' => hnotes ▸ h.pending j v' row' (hw j v' row' hin'),
      row.shardCheckpoints,?_,h.combines hcombines hl hshard hin hweights hcarried hnotes hc⟩
    rw [hc]
    refine selected_writes hin (hl.fresh i _ hin rfl) fun v' row' hin' => ?_
    obtain ⟨hv',hrow'⟩ := h.pending_same hin hin'
    exact ⟨hv',hrow',(hturn v' row' hin').1⟩
  · have hnone : ∀ v row, .version v row ∉ s.1.server.writesOf i := fun v row hin => hany ⟨v,row,hin⟩
    exact h.kept (fun j => Or.inl (by rw [hnotes])) (by rw [hc, versions_writes hnone]) hw

/-- Nor does the end of a transaction that is dropped. -/
theorem dropped (h : Turns shard before s)
    (hnotes : ∀ j, t.2 j = s.2 j ∨ (s.2 j).version = none ∧ (t.2 j).version = none)
    (hc : t.1.server.committed.versions = s.1.server.committed.versions)
    (hw : ∀ j, t.1.server.writesOf j = if j = i then [] else s.1.server.writesOf j) : Turns shard before t := by
  refine h.kept hnotes hc fun j v row hin => ?_
  rcases Server.kept_or_dropped hw j with heq | heq
  · exact heq ▸ hin
  · exact absurd (heq ▸ hin) List.not_mem_nil

/-- An operation that notes no version leaves every process with the version it had. -/
theorem noted (hnotes : t.2 = Function.update s.2 i (noteTurn op r (s.2 i)))
    (h : noteTurn op r (s.2 i) = s.2 i ∨ (s.2 i).version = none ∧ (noteTurn op r (s.2 i)).version = none) (j : ι) :
    t.2 j = s.2 j ∨ (s.2 j).version = none ∧ (t.2 j).version = none := by
  by_cases hj : j = i
  · rw [hj, hnotes, Function.update_self]
    exact h
  · exact Or.inl (by rw [hnotes, Function.update_of_ne hj])

/-- A statement that returns. -/
theorem answered (h : Turns shard before s) {stmt : Sql} {answer : stmt.Answer} {ws : List Write}
    (hturn : InTurn i (.sql stmt) s) (honce : InsertsOnce (D := D) (shard i) (.sql stmt) (s.2 i))
    (heffect : stmt.effect pg s.1.server.statements (s.1.server.session i).now (s.1.server.locked i)
      (s.1.server.view i) = .does answer ws)
    (hnotes : t.2 = Function.update s.2 i (noteTurn (D := D) (.sql stmt) (.ok answer) (s.2 i)))
    (ht : t.1 = s.1.setServer (s.1.server.wrote i ws) s.1.held) : Turns shard before t := by
  have hw : ∀ j, t.1.server.writesOf j =
      if j = i then s.1.server.writesOf i ++ ws else s.1.server.writesOf j := by
    rw [ht]
    exact fun j => s.1.server.writesOf_wrote i j ws
  have hc : t.1.server.committed = s.1.server.committed := by
    rw [ht]
    rfl
  have hother : (∀ v shardCheckpoints eval, stmt ≠ .insertVersion v shardCheckpoints eval) →
      ∀ j v row, .version v row ∈ t.1.server.writesOf j → .version v row ∈ s.1.server.writesOf j := by
    intro hstmt j v row hin
    rw [hw] at hin
    split at hin
    · next heq =>
      rcases List.mem_append.mp hin with hold | hnew
      · exact heq ▸ hold
      · obtain ⟨shardCheckpoints,eval,hinsert,-⟩ := Sql.wrote heffect _ hnew
        exact absurd hinsert (hstmt v shardCheckpoints eval)
    · exact hin
  cases stmt with
  | insertVersion v shardCheckpoints evalSetVersion =>
    obtain ⟨hnone,hcarries⟩ := honce
    have hfresh : v ∉ s.1.server.committed.versions := fun hv => hturn (mem_versions_writes.mpr (Or.inr hv))
    have hone : ws = [.version v ⟨shardCheckpoints,evalSetVersion,(s.1.server.session i).now⟩] := by
      rw [Sql.effect, insertNew, decide_eq_false hturn] at heffect
      split at heffect
      · cases heffect
      · exact (Effect.does.inj heffect).2.symm
    subst hone
    let row : VersionRow := ⟨shardCheckpoints,evalSetVersion,(s.1.server.session i).now⟩
    have hcarries' : (s.2 i).Carries (shard i) row.shardCheckpoints := hcarries
    exact h.inserts hfresh hcarries' hnone hnotes hc hw
  | latestVersion | insertCheckpoint =>
    exact h.kept (noted hnotes (Or.inr ⟨honce,honce⟩)) (by rw [hc]) (hother fun _ _ _ heq => by cases heq)
  | _ => exact h.kept (noted hnotes (Or.inl rfl)) (by rw [hc]) (hother fun _ _ _ heq => by cases heq)

theorem performed (h : Turns shard before s) (hl : Locks s.1.server) (hshard : Function.Injective shard)
    (hturn : InTurn i op s) (honce : InsertsOnce (shard i) op (s.2 i))
    (he : ((fleet o pg).watched noteTurn).exec i op s = .ok (r,t)) : Turns shard before t := by
  obtain ⟨hexec,hnotes⟩ := Machine.exec_watched.mp he
  have hexec : Fleet.exec o pg i op s.1 = .ok (r,t.1) := hexec
  cases op with
  | sql stmt =>
    rcases Fleet.exec_sql hexec with ⟨answer,ws,rfl,ht,heffect⟩ | ⟨⟨e,rfl⟩,ht⟩
    · exact h.answered hturn honce heffect hnotes ht
    · have hw : ∀ j, t.1.server.writesOf j = if j = i then [] else s.1.server.writesOf j := by
        rw [ht]
        exact s.1.server.writesOf_abort i
      exact h.dropped (noted hnotes (Or.inl (by cases stmt <;> rfl))) (by rw [ht]; rfl) hw
  | commit =>
    have ht := Fleet.exec_commit hexec
    have hsame : t.2 = s.2 := hnotes.trans (Function.update_eq_self i s.2)
    have hw : ∀ j, t.1.server.writesOf j = if j = i then [] else s.1.server.writesOf j := by
      rw [ht]
      exact s.1.server.writesOf_commit i
    rcases s.1.server.committed_commit i with hc | hc
    · exact h.dropped (fun j => Or.inl (by rw [hsame])) (by rw [ht]; exact congrArg Database.versions hc) hw
    · refine h.commits hl hshard hturn hsame (by rw [ht]; exact hc) fun j v row hin => ?_
      rcases Server.kept_or_dropped hw j with heq | heq
      · exact heq ▸ hin
      · exact absurd (heq ▸ hin) List.not_mem_nil
  | rollback =>
    have ht := Fleet.exec_rollback hexec
    have hw : ∀ j, t.1.server.writesOf j = if j = i then [] else s.1.server.writesOf j := by
      rw [ht]
      exact s.1.server.writesOf_rollback i
    exact h.dropped (noted hnotes (Or.inl rfl)) (by rw [ht]; rfl) hw
  | _ =>
    obtain ⟨hserver,-⟩ := Fleet.exec_noSql (by trivial) hexec
    exact h.kept (noted hnotes (Or.inl rfl)) (by rw [hserver]) fun j v row hin => hserver ▸ hin

theorem step {α : Type} {p q : Pool ι (WorkerOp D) WorkerOp.Resp PyErr α (Turning D ι)} (h : Turns shard before p.2)
    (hl : Locks p.2.1.server) (hshard : Function.Injective shard)
    (hstep : (((fleet o pg).watched noteTurn).within fun i op s =>
      InTurn i op s ∧ InsertsOnce (shard i) op (s.2 i)).Step p q) :
    Turns shard before q.2 ∧ Locks q.2.1.server := by
  cases hstep with
  | @op pool s t i op next r _ he =>
    obtain ⟨⟨hturn,honce⟩,he⟩ := Machine.exec_within.mp he
    have hmoves : s.1.Moves pg (fun _ _ _ => True) t.1 := Fleet.moves_of_exec trivial (Machine.exec_watched.mp he).1
    exact ⟨h.performed hl hshard hturn honce he,(hmoves.locks hl).1⟩
  | @crash pool s i e =>
    have hmoves : s.1.Moves pg (fun _ _ _ => True) (s.1.rollback i) := .rollback i
    exact ⟨h.dropped (fun _ => Or.inl rfl) rfl (s.1.server.writesOf_rollback i),(hmoves.locks hl).1⟩
  | @env pool s t he =>
    obtain ⟨he,hnotes⟩ := he
    have hmoves : s.1.Moves pg (fun _ _ _ => True) t.1 := .meanwhile he
    have hw : ∀ j, t.1.server.writesOf j = s.1.server.writesOf j :=
      fun j => (Prod.ext_iff.mp (Prod.ext_iff.mp (Fleet.own_meanwhile he j)).2).1
    have hc : t.1.server.committed.versions = s.1.server.committed.versions := by
      have hversions : ∀ {a b : Fleet D ι}, a.Meanwhile b →
          b.server.committed.versions = a.server.committed.versions := by
        intro a b hab
        cases hab <;> rfl
      exact hversions he
    exact ⟨h.kept (fun j => Or.inl (by rw [hnotes])) hc fun j v row hin => hw j ▸ hin,(hmoves.locks hl).1⟩

theorem run {α : Type} {p q : Pool ι (WorkerOp D) WorkerOp.Resp PyErr α (Turning D ι)} (h : Turns shard before p.2)
    (hl : Locks p.2.1.server) (hshard : Function.Injective shard)
    (hrun : (((fleet o pg).watched noteTurn).within fun i op s =>
      InTurn i op s ∧ InsertsOnce (shard i) op (s.2 i)).Reaches p q) :
    Turns shard before q.2 ∧ Locks q.2.1.server := by
  induction hrun with
  | refl => exact ⟨h,hl⟩
  | tail _ hstep ih => exact ih.1.step ih.2 hshard hstep

end Turns

/-- Nobody has begun. -/
def Fleet.unturned (w : World D ι) : Turning D ι := (Fleet.start w,fun _ => ⟨none,none,none⟩)

/-- Each process processes one batch. -/
def processing (o : Outside D) (jobs : ι → List ClaimedJob) : ι → WorkerM D Unit :=
  fun i => withConn (processClaimed o (jobs i))

/-- In a run in which every promotion is committed in turn, whatever version is selected has the weights of all
that have promoted, and what there was for the other shards. -/
theorem promotions_kept {w : World D ι} (hw : Quiescent w) (hbefore : Selected w.server.committed before)
    (hshard : Function.Injective shard) {jobs : ι → List ClaimedJob} (hjobs : ∀ i, ∀ job ∈ jobs i, job.shard = shard i)
    {q : Pool ι (WorkerOp D) WorkerOp.Resp PyErr Unit (Turning D ι)}
    (h : (((fleet o pg).watched noteTurn).within InTurn).Reaches (processing o jobs,Fleet.unturned w) q)
    {latest : Option (String × VersionRow)} (hlatest : q.2.1.server.committed.Latest latest) :
    (∀ i weights, Promoted q.2 i weights → (carriedForward latest).get? (toString (shard i)) = some weights) ∧
    ∀ k, (∀ i weights, Promoted q.2 i weights → k ≠ toString (shard i)) →
      (carriedForward latest).get? k = before.get? k := by
  have hunpromoted : ∀ i weights, ¬Promoted (Fleet.unturned w) i weights := fun i weights hp => by cases hp.1
  have hstart : Turns shard before (Fleet.unturned w) := by
    refine ⟨fun i v shardCheckpoints hv => (by cases hv),fun i v row hin => ?_,before,hbefore,
      fun i weights hp => absurd hp (hunpromoted i weights),fun _ _ => rfl⟩
    have hnil : (Fleet.start w).server.writesOf i = [] := hw.writesOf i
    rw [show (Fleet.unturned w).1 = Fleet.start w from rfl, hnil] at hin
    cases hin
  have honce : (((fleet o pg).watched noteTurn).within fun i op s =>
      InTurn i op s ∧ InsertsOnce (shard i) op (s.2 i)).Reaches (processing o jobs,Fleet.unturned w) q :=
    h.heeds fun i => takes_processClaimed (hjobs i) rfl
  obtain ⟨shardCheckpoints,hselected,hcombines⟩ := (hstart.run hw.locks hshard honce).1.served
  rw [hselected latest hlatest]
  exact ⟨hcombines.promoted,hcombines.rest⟩

end Runs

section Sample

instance {κ α : Type} [DecidableEq κ] [DecidableEq α] : DecidableEq (Dict κ α) := fun d e =>
  decidable_of_iff (d.entries = e.entries) ⟨Dict.ext,congrArg Dict.entries⟩

instance : DecidableEq VersionRow := fun x y =>
  decidable_of_iff (x.shardCheckpoints = y.shardCheckpoints ∧ x.evalSetVersion = y.evalSetVersion ∧
    x.promotedAt = y.promotedAt) (by cases x; cases y; simp)

instance (db : Database) : (latest : Option (String × VersionRow)) → Decidable (db.Latest latest)
  | some e => inferInstanceAs (Decidable (e ∈ db.latest))
  | none => decidable_of_iff (db.latest.length = 0) List.length_eq_zero_iff

def Write.version? : Write → Option VersionRow
  | .version _ row => some row
  | _ => none

theorem forall_version {ws : List Write} {P : VersionRow → Prop} :
    (∀ row ∈ ws.filterMap Write.version?, P row) ↔ ∀ v row, .version v row ∈ ws → P row := by
  simp only [List.mem_filterMap]
  constructor
  · exact fun h v row hin => h row ⟨_,hin,rfl⟩
  · rintro h row ⟨w,hin,hw⟩
    cases w with
    | version v row' =>
      cases hw
      exact h v _ hin
    | _ => cases hw

instance (i : ι) (s : Turning D ι) : Decidable (UpToDate i s) :=
  decidable_of_iff (∀ row ∈ (s.1.server.writesOf i).filterMap Write.version?,
    (∀ e ∈ s.1.server.committed.versions.entries, e.2.promotedAt < row.promotedAt) ∧
    ∃ latest ∈ (s.2 i).latest, s.1.server.committed.Latest latest) forall_version

instance (i : ι) (s : Turning D ι) : (op : WorkerOp D) → Decidable (InTurn i op s)
  | .sql (.insertVersion v _ _) => inferInstanceAs (Decidable (v ∉ (s.1.server.view i).versions))
  | .commit => inferInstanceAs (Decidable (UpToDate i s))
  | .sql .reapExpired | .sql (.claimBatch ..) | .sql (.failJobs ..) | .sql (.finishJob _) | .sql (.insertManifest ..)
  | .sql (.insertCheckpoint ..) | .sql .latestVersion | .sql (.checkpointPaths _) | .sql (.insertEval ..)
  | .sql (.insertCheck ..) | .sql (.upsertSubjects _) => .isTrue trivial
  | .file _ | .rollback | .exists _ | .openCopy .. | .finishCopy .. | .readLive _ | .readCopy _ | .readPreproc _
  | .cachedEnsemble _ | .cacheEnsemble .. | .clock => .isTrue trivial

/-- The deployment of two shards whose hash of a text is how it begins. -/
def pairing : Deployment := {sharded with H := beginning.H}

def pairingOutside : Outside pairing where
  engine := .gbdt 1
  CHECKPOINT_DIR := "checkpoints"
  shouldSpotCheck := fun _ => false
  score := fun _ => .ok "0.5"
  nEval := 4000
  fileHash := fun _ => ""
  clock := fun _ => ⟨"2024-01-01","2024-01-02"⟩

def pairingBoosters : ℕ → Option (List (List ℕ))
  | 0 => some [[10],[10,20]]
  | 1 => some [[30],[30,40]]
  | _ => none

def pairingWorld : World pairing Bool :=
  ⟨⟨some pairedRouting,pairedRecords,fun _ => none,fun _ _ => none,pairingBoosters⟩,
    Dict.ofList [
      (casPath pairedOutside "0a",.booster [[10],[10,20]]), (casPath pairedOutside "0b",.booster [[30],[30,40]])],
    ⟨pairedTables,Dict.empty,1,0⟩,fun _ _ => none,fun _ => Dict.empty⟩

def pairingJobs : Bool → List ClaimedJob
  | false => [⟨"a",sampleRef 2,0⟩]
  | true => [⟨"b",sampleRef 4,1⟩]

def pairingShard : Bool → ℕ
  | false => 0
  | true => 1

abbrev pairingFleet : Machine Bool (WorkerOp pairing) WorkerOp.Resp PyErr (Turning pairing Bool) :=
  (fleet pairingOutside Postgres.inOrder).watched noteTurn

def promotedOne : Py Unit × Turning pairing Bool :=
  (processing pairingOutside pairingJobs false).run (pairingFleet.exec false) (Fleet.unturned pairingWorld)

def ticked (clock : Time) (s : Turning pairing Bool) : Turning pairing Bool :=
  (s.1.setServer {s.1.server with clock := clock} s.1.held,s.2)

def promotedBoth : Py Unit × Turning pairing Bool :=
  (processing pairingOutside pairingJobs true).run (pairingFleet.exec true) (ticked 2 promotedOne.2)

omit [DecidableEq ι] in
theorem exists_promoted {s : Turning D ι} {i : ι} (h : ∃ weights ∈ (s.2 i).weights, ∃ e ∈ (s.2 i).version,
    ∃ row ∈ s.1.server.committed.versions.get? e.1, row.shardCheckpoints = e.2) : ∃ weights, Promoted s i weights := by
  obtain ⟨weights,hweights,e,hversion,row,hrow,hmap⟩ := h
  exact ⟨weights,hweights,e.1,row,by rw [hmap]; exact hversion,hrow⟩

/-- One after the other, the second when time has passed. -/
theorem promotions_kept_sample :
    ∃ q : Pool Bool (WorkerOp pairing) WorkerOp.Resp PyErr Unit (Turning pairing Bool),
    (pairingFleet.within InTurn).Reaches (processing pairingOutside pairingJobs,Fleet.unturned pairingWorld) q ∧
    (∀ i, ∃ weights, Promoted q.2 i weights) ∧
    ∀ latest, q.2.1.server.committed.Latest latest →
      (∀ i weights, Promoted q.2 i weights →
        (carriedForward latest).get? (toString (pairingShard i)) = some weights) ∧
      ∀ k, (∀ i weights, Promoted q.2 i weights → k ≠ toString (pairingShard i)) →
        (carriedForward latest).get? k = pairedVersion.shardCheckpoints.get? k := by
  have hone : promotedOne.1.isOk = true := by decide +kernel
  have hboth : promotedBoth.1.isOk = true := by decide +kernel
  have hturn : (processing pairingOutside pairingJobs false).Along (pairingFleet.exec false) (InTurn false)
      (Fleet.unturned pairingWorld) := by decide +kernel
  have hturn' : (processing pairingOutside pairingJobs true).Along (pairingFleet.exec true) (InTurn true)
      (ticked 2 promotedOne.2) := by decide +kernel
  let after : Bool → WorkerM pairing Unit :=
    Function.update (processing pairingOutside pairingJobs) false (.pure ())
  have hfirst : (pairingFleet.within InTurn).Reaches
      (processing pairingOutside pairingJobs,Fleet.unturned pairingWorld) (after,promotedOne.2) :=
    Machine.reaches_of_along (returned_of_isOk hone) hturn
  have htick : (pairingFleet.within InTurn).Reaches (after,promotedOne.2) (after,ticked 2 promotedOne.2) :=
    .single (.env ⟨.tick 2,rfl⟩)
  have hsecond : (pairingFleet.within InTurn).Reaches (after,ticked 2 promotedOne.2)
      (Function.update after true (.pure ()),promotedBoth.2) :=
    Machine.reaches_of_along (returned_of_isOk hboth) hturn'
  have hpromoted : ∀ i, ∃ weights ∈ (promotedBoth.2.2 i).weights, ∃ e ∈ (promotedBoth.2.2 i).version,
      ∃ row ∈ promotedBoth.2.1.server.committed.versions.get? e.1, row.shardCheckpoints = e.2 := by decide +kernel
  have hbefore : Selected pairingWorld.server.committed pairedVersion.shardCheckpoints := by
    intro latest hlatest
    rw [Latest.of_latest (e := ("v0-baseline",pairedVersion)) rfl hlatest]
    rfl
  have hreaches := (hfirst.trans htick).trans hsecond
  have hrest : Quiescent pairingWorld := rfl
  exact ⟨_,hreaches,fun i => exists_promoted (hpromoted i),fun latest hlatest =>
    promotions_kept hrest hbefore (by decide) (by decide) hreaches hlatest⟩

/-- The first worker has read the latest version; then the second one promotes. -/
def readFirst : Pool Bool (WorkerOp pairing) WorkerOp.Resp PyErr Unit (Turning pairing Bool) :=
  (pairingFleet.next false)^[14] (processing pairingOutside pairingJobs,Fleet.unturned pairingWorld)

def overtaken : Py Unit × Turning pairing Bool :=
  (readFirst.1 true).run (pairingFleet.exec true) (ticked 2 readFirst.2)

/-- The first worker commits what it has read. -/
def lost : Py Unit × Turning pairing Bool := (readFirst.1 false).run (pairingFleet.exec false) overtaken.2

theorem lost_reaches : pairingFleet.Reaches (processing pairingOutside pairingJobs,Fleet.unturned pairingWorld)
    (Function.update (Function.update readFirst.1 true (.pure ())) false (.pure ()),lost.2) := by
  have hread := Machine.reaches_iterate (M := pairingFleet) false 14
    (processing pairingOutside pairingJobs,Fleet.unturned pairingWorld)
  have htick : pairingFleet.Reaches readFirst (readFirst.1,ticked 2 readFirst.2) := .single (.env ⟨.tick 2,rfl⟩)
  have hovertaken : overtaken.1.isOk = true := by decide +kernel
  have hlost : lost.1.isOk = true := by decide +kernel
  exact ((hread.trans htick).trans (Machine.reaches_of_run (returned_of_isOk hovertaken))).trans
    (Machine.reaches_of_run (returned_of_isOk hlost))

theorem not_promotions_kept :
    ¬∀ q : Pool Bool (WorkerOp pairing) WorkerOp.Resp PyErr Unit (Turning pairing Bool),
    pairingFleet.Reaches (processing pairingOutside pairingJobs,Fleet.unturned pairingWorld) q →
    (∀ i, ∃ weights, Promoted q.2 i weights) → ∀ latest, q.2.1.server.committed.Latest latest →
      ∀ i weights, Promoted q.2 i weights →
        (carriedForward latest).get? (toString (pairingShard i)) = some weights := by
  intro hall
  have hpromoted : ∀ i, ∃ weights ∈ (lost.2.2 i).weights, ∃ e ∈ (lost.2.2 i).version,
      ∃ row ∈ lost.2.1.server.committed.versions.get? e.1, row.shardCheckpoints = e.2 := by decide +kernel
  have hpromoted' : ∀ i, ∃ weights, Promoted lost.2 i weights := fun i => exists_promoted (hpromoted i)
  have hwrong : ∃ e ∈ lost.2.1.server.committed.latest, ∃ weights ∈ (lost.2.2 false).weights,
      e.2.shardCheckpoints.get? (toString (pairingShard false)) ≠ some weights := by decide +kernel
  obtain ⟨e,he,weights,hweights,hwrong⟩ := hwrong
  obtain ⟨weights',hfalse⟩ := hpromoted' false
  obtain rfl := Option.some.inj (hfalse.1.symm.trans hweights)
  exact hwrong (hall _ lost_reaches hpromoted' (some e) he false weights' hfalse)

end Sample

end UnlearnShield.Worker
