import UnlearnShield.Gateway.Erasure

/-! # One job for each key

Whatever requests arrive and however their statements interleave, a principal and a key
have at most one job, and an accepted request is told the id of the one for its own
principal and key. That job is for its own subject as long as no principal uses a key
again with another body.
-/
namespace UnlearnShield.Gateway
open Db Relation
variable {ι : Type} {subjectRef : String → Ref} {SLA_HOURS : ℕ}

def Answers (subjectRef : String → Ref) (posts : ι → Post) (x : Job) : Prop :=
  ∀ k, x.requestedBy = (posts k).principal → x.idempotencyKey = (posts k).idempotencyKey →
    x.subjectRef = subjectRef (posts k).subjectId ∧ x.reason = (posts k).reason

theorem SameRequest.trans {x y z : Job} (h : SameRequest x y) (h' : SameRequest y z) : SameRequest x z :=
  ⟨h.1.trans h'.1,h.2.1.trans h'.2.1,h.2.2.1.trans h'.2.2.1,h.2.2.2.trans h'.2.2.2⟩

theorem SameRequest.answers {posts : ι → Post} {x y : Job} (h : SameRequest x y) (hy : Answers subjectRef posts y) :
    Answers subjectRef posts x := by
  obtain ⟨h₁,h₂,h₃,h₄⟩ := h
  intro k hp hk
  rw [h₃, h₄]
  exact hy k (h₁ ▸ hp) (h₂ ▸ hk)

variable [DecidableEq ι]

/-- At most one job for each principal and key, and what is not yet committed is for new ones. -/
structure Keyed (s : Tables ι) : Prop where
  unique : ∀ a x b y, s.jobs.get? a = some x → s.jobs.get? b = some y → x.SameKey y → a = b
  fresh : ∀ i a x, s.pending.get? i = some (a,x) → s.jobs.get? a = none ∧ ∀ b y, s.jobs.get? b = some y → ¬y.SameKey x
  apart : ∀ i j a x b y, s.pending.get? i = some (a,x) → s.pending.get? j = some (b,y) → i ≠ j → a ≠ b ∧ ¬x.SameKey y

/-- No principal uses a key with two bodies, as far as these requests and the jobs there are go. -/
structure Consistent (subjectRef : String → Ref) (posts : ι → Post) (s : Tables ι) : Prop where
  requests : ∀ i j, (posts i).principal = (posts j).principal → (posts i).idempotencyKey = (posts j).idempotencyKey →
    subjectRef (posts i).subjectId = subjectRef (posts j).subjectId ∧ (posts i).reason = (posts j).reason
  jobs : ∀ a x, s.jobs.get? a = some x → Answers subjectRef posts x

structure AllAnswer (subjectRef : String → Ref) (posts : ι → Post) (s : Tables ι) : Prop where
  jobs : ∀ a x, s.jobs.get? a = some x → Answers subjectRef posts x
  pending : ∀ i a x, s.pending.get? i = some (a,x) → Answers subjectRef posts x

theorem Kept.refl (jobs : Dict Uuid Job) : Kept jobs jobs := fun _ x hx => ⟨x,hx,rfl,rfl,rfl,rfl⟩

theorem Kept.trans {j₁ j₂ j₃ : Dict Uuid Job} (h : Kept j₁ j₂) (h' : Kept j₂ j₃) : Kept j₁ j₃ := by
  intro id x hx
  obtain ⟨y,hy,hxy⟩ := h id x hx
  obtain ⟨z,hz,hyz⟩ := h' id y hy
  exact ⟨z,hz,hxy.trans hyz⟩

theorem Kept.insert {jobs : Dict Uuid Job} {id : Uuid} (h : jobs.get? id = none) (x : Job) :
    Kept jobs (jobs.insert id x) := by
  intro a y hy
  have hne : a ≠ id := fun he => by
    rw [he, h] at hy
    cases hy
  exact ⟨y,by rw [Dict.get?_insert_of_ne hne]; exact hy,rfl,rfl,rfl,rfl⟩

def Relies (i : ι) (s t : Tables ι) : Prop := t.pending.get? i = s.pending.get? i ∧ Kept s.jobs t.jobs

def Guarantees (i : ι) (s t : Tables ι) : Prop := (∀ j ≠ i, t.pending.get? j = s.pending.get? j) ∧ Kept s.jobs t.jobs

theorem relies_of_trans {i : ι} {s t : Tables ι} (h : ReflTransGen (Relies i) s t) : Relies i s t := by
  induction h with
  | refl => exact ⟨rfl,Kept.refl _⟩
  | tail _ hstep ih => exact ⟨hstep.1.trans ih.1,ih.2.trans hstep.2⟩

structure Inv (subjectRef : String → Ref) (posts : ι → Post) (consistent : Prop) (s : Tables ι) : Prop where
  keyed : Keyed s
  answer : consistent → AllAnswer subjectRef posts s

section Keep
variable {posts : ι → Post} {consistent : Prop} {s t : Tables ι}

theorem Inv.elsewhere (h : Inv subjectRef posts consistent s) (he : Elsewhere s t) :
    Inv subjectRef posts consistent t := by
  obtain ⟨hp,hst,hts⟩ := he
  have hsame : ∀ {x y x' y' : Job}, SameRequest x x' → SameRequest y y' → x.SameKey y → x'.SameKey y' := by
    rintro x y x' y' hx hy ⟨h₁,h₂⟩
    exact ⟨hx.1.symm.trans (h₁.trans hy.1),hx.2.1.symm.trans (h₂.trans hy.2.1)⟩
  refine ⟨⟨fun a x b y hx hy hk => ?_,fun i a x hx => ?_,fun i j a x b y => ?_⟩,
    fun hc => ⟨fun a x hx => ?_,fun i a x hx => ?_⟩⟩
  · obtain ⟨x',hx',hxx⟩ := hts a x hx
    obtain ⟨y',hy',hyy⟩ := hts b y hy
    exact h.keyed.unique a x' b y' hx' hy' (hsame hxx hyy hk)
  · rw [hp] at hx
    obtain ⟨hnone,hkey⟩ := h.keyed.fresh i a x hx
    refine ⟨?_,fun b y hy hk => ?_⟩
    · cases hget : t.jobs.get? a with
      | none => rfl
      | some y =>
        obtain ⟨y',hy',-⟩ := hts a y hget
        rw [hnone] at hy'
        cases hy'
    · obtain ⟨y',hy',hyy⟩ := hts b y hy
      exact hkey b y' hy' (hsame hyy ⟨rfl,rfl,rfl,rfl⟩ hk)
  · rw [hp]
    exact h.keyed.apart i j a x b y
  · obtain ⟨x',hx',hxx⟩ := hts a x hx
    exact hxx.answers ((h.answer hc).jobs a x' hx')
  · rw [hp] at hx
    exact (h.answer hc).pending i a x hx

theorem Inv.rollback (h : Inv subjectRef posts consistent s) (i : ι) :
    Inv subjectRef posts consistent {s with pending := s.pending.erase i} := by
  have hsub : ∀ j e, (s.pending.erase i).get? j = some e → s.pending.get? j = some e := by
    intro j e he
    by_cases hj : j = i
    · rw [hj, Dict.get?_erase_self] at he
      cases he
    · rwa [Dict.get?_erase_of_ne hj] at he
  refine ⟨⟨h.keyed.unique,fun j a x hx => h.keyed.fresh j a x (hsub j _ hx),fun j k a x b y hx hy =>
    h.keyed.apart j k a x b y (hsub j _ hx) (hsub k _ hy)⟩,fun hc => ⟨(h.answer hc).jobs,fun j a x hx =>
    (h.answer hc).pending j a x (hsub j _ hx)⟩⟩

/-- The view of a transaction that has inserted a row. -/
theorem view_of_some {i : ι} {a : Uuid} {x : Job} (h : s.pending.get? i = some (a,x)) :
    s.view i = s.jobs.insert a x := by
  rw [Tables.view, h]

theorem view_of_none {i : ι} (h : s.pending.get? i = none) : s.view i = s.jobs := by rw [Tables.view, h]

theorem Inv.commit (h : Inv subjectRef posts consistent s) (i : ι) :
    Inv subjectRef posts consistent {s with jobs := s.view i, pending := s.pending.erase i} ∧
      Guarantees i s {s with jobs := s.view i, pending := s.pending.erase i} := by
  have hothers : ∀ j ≠ i, (s.pending.erase i).get? j = s.pending.get? j := fun j hj => Dict.get?_erase_of_ne hj
  cases hp : s.pending.get? i with
  | none =>
    rw [view_of_none hp]
    exact ⟨h.rollback i,hothers,Kept.refl _⟩
  | some e =>
    obtain ⟨a,x⟩ := e
    obtain ⟨hnone,hkey⟩ := h.keyed.fresh i a x hp
    rw [view_of_some hp]
    have hget : ∀ b y, (s.jobs.insert a x).get? b = some y → (b = a ∧ y = x) ∨ (b ≠ a ∧ s.jobs.get? b = some y) := by
      intro b y hy
      by_cases hb : b = a
      · rw [hb, Dict.get?_insert_self] at hy
        exact Or.inl ⟨hb,(Option.some.inj hy).symm⟩
      · rw [Dict.get?_insert_of_ne hb] at hy
        exact Or.inr ⟨hb,hy⟩
    have hback := h.rollback i
    have hne : ∀ j b y, (s.pending.erase i).get? j = some (b,y) → j ≠ i := by
      intro j b y hj he
      rw [he, Dict.get?_erase_self] at hj
      cases hj
    refine ⟨⟨⟨fun b y c z hy hz hk => ?_,fun j b y hj => ?_,hback.keyed.apart⟩,fun hc => ⟨fun b y hy => ?_,
      (hback.answer hc).pending⟩⟩,hothers,Kept.insert hnone x⟩
    · rcases hget b y hy with ⟨rfl,rfl⟩ | ⟨-,hy'⟩
      · rcases hget c z hz with ⟨rfl,-⟩ | ⟨-,hz'⟩
        · rfl
        · exact absurd ⟨hk.1.symm,hk.2.symm⟩ (hkey c z hz')
      · rcases hget c z hz with ⟨rfl,rfl⟩ | ⟨-,hz'⟩
        · exact absurd hk (hkey b y hy')
        · exact h.keyed.unique b y c z hy' hz' hk
    · have hji := hne j b y hj
      have hj' := hj
      dsimp only at hj'
      rw [hothers j hji] at hj'
      obtain ⟨hab,hk⟩ := h.keyed.apart i j a x b y hp hj' hji.symm
      obtain ⟨hnone',hkey'⟩ := h.keyed.fresh j b y hj'
      refine ⟨by dsimp only; rw [Dict.get?_insert_of_ne hab.symm, hnone'],fun c z hz => ?_⟩
      rcases hget c z hz with ⟨-,rfl⟩ | ⟨-,hz⟩
      · exact hk
      · exact hkey' c z hz
    · rcases hget b y hy with ⟨-,rfl⟩ | ⟨-,hy⟩
      · exact (h.answer hc).pending i a y hp
      · exact (h.answer hc).jobs b y hy

/-- A row is inserted when neither its id nor its key is there. -/
theorem Inv.insertJob {i : ι} {id : Uuid} {job : Job} (h : Inv subjectRef posts consistent s)
    (hp : s.pending.get? i = none) (hlock : ¬s.Locked i id job)
    (hkey : ¬(s.view i).entries.any fun e => e.2.SameKey job) (hid : id ∉ s.view i)
    (hanswer : consistent → Answers subjectRef posts job) :
    Inv subjectRef posts consistent {s with pending := s.pending.insert i (id,job)} := by
  rw [view_of_none hp] at hkey hid
  have hget : ∀ j e, (s.pending.insert i (id,job)).get? j = some e → (j = i ∧ e = (id,job)) ∨
    (j ≠ i ∧ s.pending.get? j = some e) := by
    intro j e he
    by_cases hj : j = i
    · rw [hj, Dict.get?_insert_self] at he
      exact Or.inl ⟨hj,(Option.some.inj he).symm⟩
    · rw [Dict.get?_insert_of_ne hj] at he
      exact Or.inr ⟨hj,he⟩
  have hfree : ∀ j b y, j ≠ i → s.pending.get? j = some (b,y) → b ≠ id ∧ ¬y.SameKey job := by
    intro j b y hj hget
    have hmem := Dict.get?_eq_some.mp hget
    exact ⟨fun he => hlock ⟨_,hmem,hj,Or.inl he⟩,fun he => hlock ⟨_,hmem,hj,Or.inr he⟩⟩
  refine ⟨⟨h.keyed.unique,fun j a x hx => ?_,fun j k a x b y hx hy hjk => ?_⟩,
    fun hc => ⟨(h.answer hc).jobs,fun j a x hx => ?_⟩⟩
  · rcases hget j _ hx with ⟨-,he⟩ | ⟨-,hx⟩
    · cases he
      refine ⟨Dict.get?_eq_none.mpr hid,fun b y hy hk => hkey ?_⟩
      exact List.any_eq_true.mpr ⟨(b,y),Dict.get?_eq_some.mp hy,decide_eq_true hk⟩
    · exact h.keyed.fresh j a x hx
  · rcases hget j _ hx with ⟨rfl,he⟩ | ⟨hj,hx'⟩
    · cases he
      rcases hget k _ hy with ⟨rfl,-⟩ | ⟨hk,hy'⟩
      · exact absurd rfl hjk
      · obtain ⟨hb,hs⟩ := hfree k b y hk hy'
        exact ⟨hb.symm,fun hsame => hs ⟨hsame.1.symm,hsame.2.symm⟩⟩
    · rcases hget k _ hy with ⟨rfl,he⟩ | ⟨hk,hy'⟩
      · cases he
        exact hfree j a x hj hx'
      · exact h.keyed.apart j k a x b y hx' hy' hjk
  · rcases hget j _ hx with ⟨-,he⟩ | ⟨-,hx⟩
    · cases he
      exact hanswer hc
    · exact (h.answer hc).pending j a x hx

end Keep

section Handler
variable {posts : ι → Post} {consistent : Prop} {i : ι} {s t : Tables ι}

def Sees (posts : ι → Post) (i : ι) (id : Uuid) (jobs : Dict Uuid Job) : Prop :=
  ∃ job, jobs.get? id = some job ∧ job.requestedBy = (posts i).principal ∧ job.idempotencyKey = (posts i).idempotencyKey

omit [DecidableEq ι] in
theorem Sees.kept {id : Uuid} {jobs jobs' : Dict Uuid Job} (h : Sees posts i id jobs) (hk : Kept jobs jobs') :
    Sees posts i id jobs' := by
  obtain ⟨job,hget,hp,hkey⟩ := h
  obtain ⟨job',hget',hsame⟩ := hk id job hget
  exact ⟨job',hget',hsame.1.symm.trans hp,hsame.2.1.symm.trans hkey⟩

theorem Relies.view (h : Relies i s t) : Kept (s.view i) (t.view i) := by
  obtain ⟨hp,hk⟩ := h
  cases he : s.pending.get? i with
  | none =>
    rw [view_of_none he, view_of_none (hp.trans he)]
    exact hk
  | some e =>
    obtain ⟨a,x⟩ := e
    rw [view_of_some he, view_of_some (hp.trans he)]
    intro b y hy
    by_cases hb : b = a
    · subst hb
      rw [Dict.get?_insert_self] at hy
      cases hy
      exact ⟨x,Dict.get?_insert_self ..,rfl,rfl,rfl,rfl⟩
    · rw [Dict.get?_insert_of_ne hb] at hy
      rw [Dict.get?_insert_of_ne hb]
      exact hk b y hy

/-- Committing makes the job the handler sees one that stays. -/
theorem finish_sound {id : Uuid} (h : Sees posts i id (s.view i)) :
    ((Program.call .commit fun _ => .call (.selectDeadline id) fun
      | some actualDeadline => .pure ⟨id,actualDeadline⟩
      | none =>
        noRow) : HandlerM ErasureAccepted).Sound (exec i) (Inv subjectRef posts consistent) (Relies i) (Guarantees i)
      (fun accepted u => Sees posts i accepted.erasureId u.jobs) s := by
  intro t ht hIt r u he
  cases he
  obtain ⟨hIu,hg⟩ := hIt.commit i
  refine ⟨hIu,hg,fun v hv hIv d w hd => ?_⟩
  cases hd
  have hsees : Sees posts i id v.jobs := (h.kept (relies_of_trans ht).view).kept (relies_of_trans hv).2
  refine ⟨hIv,⟨fun _ _ => rfl,Kept.refl _⟩,?_⟩
  cases (v.view i).get? id with
  | none => trivial
  | some job => exact fun w hw _ => hsees.kept (relies_of_trans hw).2

theorem insertOrGet_sound {shard : ℕ} (hc : consistent → Consistent subjectRef posts s)
    (hp : s.pending.get? i = none) :
    (insertOrGet (posts i).uuid ((posts i).job subjectRef SLA_HOURS shard)).Sound (exec i)
      (Inv subjectRef posts consistent)
      (Relies i) (Guarantees i) (fun r t => Sees posts i r.1 (t.view i)) s := by
  intro t ht hIt r u he
  have hpt : t.pending.get? i = none := (relies_of_trans ht).1.trans hp
  unfold exec at he
  dsimp only at he
  split at he
  · cases he
  next hlock =>
  split at he
  · cases he
    refine ⟨hIt,⟨fun _ _ => rfl,Kept.refl _⟩,fun v hv hIv r' w he' => ?_⟩
    cases he'
    refine ⟨hIv,⟨fun _ _ => rfl,Kept.refl _⟩,?_⟩
    dsimp only
    split
    · next id hid =>
      intro w hw _
      obtain ⟨e,he,rfl⟩ := Option.map_eq_some_iff.mp hid
      have hprop := List.find?_some he
      rw [decide_eq_true_eq] at hprop
      have hsees : Sees posts i e.1 (v.view i) := ⟨e.2,Dict.get?_eq_some.mpr (List.mem_of_find?_eq_some he),hprop⟩
      exact hsees.kept (relies_of_trans hw).view
    · trivial
  next hkey =>
  split at he
  · cases he
    exact ⟨hIt,⟨fun _ _ => rfl,Kept.refl _⟩,trivial⟩
  next hid =>
  cases he
  have hanswer : consistent → Answers subjectRef posts ((posts i).job subjectRef SLA_HOURS shard) := fun h k hp hk =>
    (hc h).requests i k hp hk
  refine ⟨hIt.insertJob hpt hlock hkey hid hanswer,⟨fun j hj => Dict.get?_insert_of_ne hj _,Kept.refl _⟩,
    fun v hv _ => ?_⟩
  have hown : v.pending.get? i = some ((posts i).uuid,(posts i).job subjectRef SLA_HOURS shard) := by
    rw [(relies_of_trans hv).1, Dict.get?_insert_self]
  dsimp only
  rw [view_of_some hown]
  exact ⟨_,Dict.get?_insert_self ..,rfl,rfl⟩

theorem createErasure_sound (hc : consistent → Consistent subjectRef posts s) (hp : s.pending.get? i = none) :
    (createErasure subjectRef SLA_HOURS (posts i)).Sound (exec i) (Inv subjectRef posts consistent) (Relies i)
      (Guarantees i) (fun accepted u => Sees posts i accepted.erasureId u.jobs) s := by
  intro t ht hIt shard u he
  cases he
  refine ⟨hIt,⟨fun _ _ => rfl,Kept.refl _⟩,?_⟩
  dsimp only
  split
  · trivial
  · have hpt : t.pending.get? i = none := (relies_of_trans ht).1.trans hp
    have hct : consistent → Consistent subjectRef posts t := fun h => ⟨(hc h).requests,(hIt.answer h).jobs⟩
    exact Program.Sound.bind ((insertOrGet_sound hct hpt).mono fun r v h => finish_sound h) hIt

theorem compatible : (machine (ι := ι)).Compatible (Inv subjectRef posts consistent) Relies Guarantees where
  guar_rely := fun i j hij _ _ _ _ hg => ⟨hg.1 j (Ne.symm hij),hg.2⟩
  crash_invariant := fun i _ h => h.rollback i
  crash_rely := fun i j hij s _ => ⟨Dict.get?_erase_of_ne (Ne.symm hij),Kept.refl _⟩
  env_invariant := fun _ _ h he => h.elsewhere he
  env_rely := fun i _ _ _ he => ⟨by rw [he.1],he.2.1⟩

end Handler

/-- In every run, a principal and a key have at most one job, and an accepted request is told a job of
its own principal and key. The job is for the subject and the reason of the request when no principal
uses a key with two bodies. -/
theorem accepted_own {posts : ι → Post} {s : Tables ι} {p : Pool ι Sql Sql.Resp HttpError ErasureAccepted (Tables ι)}
    (hempty : ∀ i, s.pending.get? i = none) (hunique : ∀ a x b y, s.jobs.get? a = some x → s.jobs.get? b = some y →
      x.SameKey y → a = b)
    (h : machine.Reaches (fun i => createErasure subjectRef SLA_HOURS (posts i),s) p) :
    (∀ a x b y, p.2.jobs.get? a = some x → p.2.jobs.get? b = some y → x.SameKey y → a = b) ∧
      ∀ i accepted, p.1 i = .pure accepted → ∃ job, p.2.jobs.get? accepted.erasureId = some job ∧
        job.requestedBy = (posts i).principal ∧ (Consistent subjectRef posts s →
          job.subjectRef = subjectRef (posts i).subjectId ∧ job.reason = (posts i).reason) := by
  have hI : Inv subjectRef posts (Consistent subjectRef posts s) s := by
    refine ⟨⟨hunique,fun i a x hx => ?_,fun i j a x b y hx => ?_⟩,fun hc => ⟨hc.jobs,fun i a x hx => ?_⟩⟩
    · rw [hempty i] at hx
      cases hx
    · rw [hempty i] at hx
      cases hx
    · rw [hempty i] at hx
      cases hx
  have hs : ∀ i, (createErasure subjectRef SLA_HOURS (posts i)).Sound (exec i) _ (Relies i) (Guarantees i)
      (fun accepted u => Sees posts i accepted.erasureId u.jobs) s := fun i => createErasure_sound id (hempty i)
  obtain ⟨hI',-⟩ := h.sound compatible hI hs
  refine ⟨hI'.keyed.unique,fun i accepted ha => ?_⟩
  obtain ⟨job,hget,hp,hk⟩ := h.returned compatible hI hs ha
  exact ⟨job,hget,hp,fun hc => (hI'.answer hc).jobs _ _ hget i hp hk⟩

section Sample

def sampleSubjectRef (subjectId : String) : Ref :=
  ⟨List.replicate 32 (UInt8.ofNat subjectId.length),List.length_replicate ..⟩

def sampleTables : Tables Bool :=
  ⟨Dict.empty,Dict.ofList [(sampleSubjectRef "alice",0), (sampleSubjectRef "bob",0)],Dict.empty⟩

/-- Two requests of one principal under one key, the second for the subject given. -/
def samplePosts (subjectId : String) : Bool → Post
  | true => ⟨"tenant-a","k","alice",.fraudExcision,"u1",0⟩
  | false => ⟨"tenant-a","k",subjectId,.fraudExcision,"u2",1⟩

def samplePool (subjectId : String) : Bool → HandlerM ErasureAccepted := fun i =>
  createErasure sampleSubjectRef 720 (samplePosts subjectId i)

def sampleAccepted : ErasureAccepted := ⟨"u1",2592000⟩

def sampleInserted : Tables Bool := {sampleTables with
  jobs := Dict.ofList [("u1",(samplePosts "bob" true).job sampleSubjectRef 720 0)]}

/-- Whatever the second request asks for, it is told the job of the first. -/
theorem samplePool_reaches {subjectId : String} (h : subjectId ∈ ["alice","bob"]) :
    ∃ p, machine.Reaches (samplePool subjectId,sampleTables) p ∧ p.1 false = .pure sampleAccepted ∧
      p.2 = sampleInserted := by
  have hruns : (samplePool subjectId true).run (machine.exec true) sampleTables = (.ok sampleAccepted,sampleInserted) ∧
      (samplePool subjectId false).run (machine.exec false) sampleInserted = (.ok sampleAccepted,sampleInserted) := by
    rcases List.mem_cons.mp h with rfl | h
    · exact ⟨by rfl,by rfl⟩
    · obtain rfl := List.mem_singleton.mp h
      exact ⟨by rfl,by rfl⟩
  have hreach := Machine.reaches_of_run hruns.1
  have hother : Function.update (samplePool subjectId) true (.pure sampleAccepted) false = samplePool subjectId false :=
    Function.update_of_ne (by decide) ..
  have hsecond := hruns.2
  rw [← hother] at hsecond
  refine ⟨_,hreach.trans (Machine.reaches_of_run hsecond),?_,rfl⟩
  dsimp only
  rw [Function.update_self]

theorem accepted_own_sample : ∃ p job, machine.Reaches (samplePool "alice",sampleTables) p ∧
    p.1 false = .pure sampleAccepted ∧ p.2.jobs.get? "u1" = some job ∧ job.subjectRef = sampleSubjectRef "alice" := by
  obtain ⟨p,hp,hpure,-⟩ := samplePool_reaches (List.mem_cons_self : "alice" ∈ ["alice","bob"])
  obtain ⟨job,hget,-,hown⟩ := (accepted_own (s := sampleTables) (fun _ => rfl)
    (fun a x b y hx => nomatch (show none = some x from hx)) hp).2 false sampleAccepted hpure
  refine ⟨p,job,hp,hpure,hget,(hown ⟨fun i j _ _ => ?_,fun a x hx => nomatch (show none = some x from hx)⟩).1⟩
  cases i <;> cases j <;> exact ⟨rfl,rfl⟩

/-- The second request is accepted with the job of the first, and no job is for its own subject. -/
theorem not_accepted_own : ∃ p, machine.Reaches (samplePool "bob",sampleTables) p ∧
    p.1 false = .pure sampleAccepted ∧ ∀ a job, p.2.jobs.get? a = some job →
      job.subjectRef ≠ sampleSubjectRef "bob" := by
  obtain ⟨p,hp,hpure,hstate⟩ := samplePool_reaches (List.mem_cons_of_mem _ List.mem_cons_self : "bob" ∈ ["alice","bob"])
  refine ⟨p,hp,hpure,fun a job hget => ?_⟩
  rw [hstate] at hget
  have hmem : (a,job) ∈ sampleInserted.jobs.entries := Dict.get?_eq_some.mp hget
  obtain ⟨-,rfl⟩ := Prod.mk.inj (List.mem_singleton.mp hmem)
  decide

end Sample

end UnlearnShield.Gateway
