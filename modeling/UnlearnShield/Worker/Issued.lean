import UnlearnShield.Library.Contract
import UnlearnShield.Verify.Accepted
import UnlearnShield.Worker.Returns

/-! # What a rebuild hands out

Whatever goes on around it, a rebuild that returns hands out certificates that the
standalone verifier can reject only over their signatures and that carry the signature of
their fields, and a replay that leads to the weights it reports.
-/
namespace UnlearnShield.Worker
open Db Engine Deployment Program Json Manifest VerifierCli
variable {D : Deployment}

section Certificates
variable {H : Bytes → Digest} {legacy : PyVal → PyVal → PyVal → Py Bool} {key : KeyPair}

/-- The certificate names the subject, and the standalone verifier accepts it when its signature fits. -/
structure Vouches (H : Bytes → Digest) (ref : Ref) (certificate : Pairs) : Prop where
  names : (PyVal.dict certificate).subscript "subject_ref" = .ok (.str ref.val.hex)
  accepted : ∀ (legacy : PyVal → PyVal → PyVal → Py Bool) (key : KeyPair), ∃ findings,
    verifyCertificate H legacy key certificate =
    .ok (if signatureFits key (unsigned certificate) (signatureOf certificate) then (true,findings)
      else (false,[.signatureInvalid]))

/-- A manifest that vouches for the subject it names, however it was stored and read back. -/
def Checkable (H : Bytes → Digest) (manifest : Pairs) : Prop :=
  ∃ ref : Ref, (PyVal.dict manifest).subscript "subject_ref" = .ok (.str ref.val.hex) ∧ ∀ O : ObjectOrder,
    Vouches H ref (storedPairs O manifest)

theorem Checkable.vouches {ref : Ref} {manifest : Pairs} (h : Checkable H manifest)
    (hn : (PyVal.dict manifest).subscript "subject_ref" = .ok (.str ref.val.hex)) (O : ObjectOrder) :
    Vouches H ref (storedPairs O manifest) := by
  obtain ⟨ref',hn',hv⟩ := h
  have hhex : ref'.val.hex = ref.val.hex := PyVal.str.inj (Except.ok.inj (hn'.symm.trans hn))
  rw [Subtype.ext (Bytes.hex_injective hhex)] at hv
  exact hv O

theorem issued_nodup {subjectRef datasetRoot : String} {absenceProof : PyVal} {f : Storage.OtherFields}
    {signature : String} :
    ((Storage.fieldsOf subjectRef datasetRoot absenceProof f ++ [(PyKey.str "signature",PyVal.str signature)]).map
      Prod.fst).Nodup := by
  have hkeys : (REQUIRED_FIELDS.map PyKey.str ++ [PyKey.str "signature"]).Nodup := by decide
  rw [List.map_append, Storage.fieldsOf_keys]
  exact hkeys

theorem signatureOf_issued {subjectRef datasetRoot : String} {absenceProof : PyVal} {f : Storage.OtherFields}
    {signature : String} :
    signatureOf (Storage.fieldsOf subjectRef datasetRoot absenceProof f ++ [(.str "signature",.str signature)]) =
      .str signature := by
  have hget :
    (Dict.ofList (Storage.fieldsOf subjectRef datasetRoot absenceProof f ++ [(.str "signature",.str signature)])).get?
      (.str "signature") = some (.str signature) := by
    rw [Dict.get?_eq_some, Dict.entries_ofList issued_nodup]
    simp
  rw [signatureOf, hget]
  rfl

/-- The fields of a manifest, signed, with a proof that storage leaves valid. -/
theorem checkable_fieldsOf {t : Ref} {root : Digest} {absenceProof : PyVal} {f : Storage.OtherFields}
    {signature : String} (hs : signature ≠ "")
    (hproof : ∀ O, isSmtProof (reload O absenceProof) = true ∧
      Smt.verifyAbsence H (.str t.val.hex) (reload O absenceProof) (.str root.val.hex) = .ok true) :
    Checkable H (Storage.fieldsOf t.val.hex root.val.hex absenceProof f ++ [(.str "signature",.str signature)]) := by
  have hsubject : (.str "subject_ref",.str t.val.hex) ∈ Storage.fieldsOf t.val.hex root.val.hex absenceProof f := by
    simp [Storage.fieldsOf, Manifest.build]
  refine ⟨t,PyVal.subscript_of_mem issued_nodup (List.mem_append_left _ hsubject),fun O => ?_⟩
  obtain ⟨hsmt,hv⟩ := hproof O
  refine ⟨?_,fun legacy key => Storage.verifyCertificate_stored legacy key f hs hsmt hv⟩
  rw [Storage.subscript_stored (Storage.fieldsOf_keys ..) hsubject, reload_str]

/-- Whatever was removed from a tree, what it proves absent is proved absent after storage too. -/
theorem verifyAbsence_stored {tree : Smt.SparseMerkleTree H} {t : Ref} (ht : t ∉ tree.keys) :
    ∃ proof, tree.proveAbsence t = .ok proof ∧
    ∀ O, isSmtProof (reload O proof) = true ∧ Smt.verifyAbsence H (.str t.val.hex) (reload O proof) (.str tree.root) =
      .ok true := by
  have hrep : Smt.Represents H tree.node 0 (Smt.onPath H t 0 tree.keys) := by
    have h0 : Smt.onPath H t 0 tree.keys = tree.keys := (Smt.trie H).onPath_zero t tree.keys
    rw [h0]
    exact tree.represents
  obtain ⟨p,hw,hp⟩ := Smt.walk_eq (Nat.zero_add Smt.DEPTH) hrep
  refine ⟨_,if_neg ht,fun O => ?_⟩
  rw [hw, tree.root_eq]
  refine ⟨Storage.isSmtProof_reload O (Smt.siblingsAt_nodup ..) Smt.siblingsAt_lt,?_⟩
  exact Smt.verifyAbsence_reload O ht fun i hi => hp i (Nat.zero_le i) (by simpa using hi)

theorem checkable_manifestFor {parts : EngineParts D} {tree : Smt.SparseMerkleTree D.H} {batch : Batch}
    {cfgDigest weights : String} {clock : Clock} {ref : Ref} {m : Pairs} (ht : ref ∉ tree.keys)
    (h : manifestFor parts tree batch cfgDigest weights true clock ref = .ok m) : Checkable D.H m := by
  obtain ⟨proof,hproof,h⟩ := bind_eq_ok.mp h
  obtain ⟨signature,hsignature,hm⟩ := bind_eq_ok.mp h
  obtain rfl := Except.ok.inj hm
  obtain ⟨proof',hproof',hstored⟩ := verifyAbsence_stored ht
  cases hproof.symm.trans hproof'
  have hs : signature ≠ "" := by
    cases hk : D.signingKey with
    | none =>
      rw [hk] at hsignature
      cases hsignature
    | some k =>
      rw [hk] at hsignature
      obtain ⟨message,-,rfl⟩ := signManifest_eq_ok.mp hsignature
      exact Storage.signature_ne_empty k message
  have hroot : ∃ root : Digest, tree.root = root.val.hex := ⟨tree.node.hash,rfl⟩
  obtain ⟨root,hroot⟩ := hroot
  rw [hroot] at hstored ⊢
  exact checkable_fieldsOf (f := ⟨batch.shard,resumedFrom batch,D.settings.CODE_DIGEST,cfgDigest,weights,_,
    clock.purgedAt,clock.completedAt⟩) hs hstored

structure SignedBy (key : Option KeyPair) (manifest : Pairs) : Prop where
  printable : Printable (.dict (unsigned manifest))
  signed : ∃ signature, signatureOf manifest = .str signature ∧ signManifest key (unsigned manifest) = .ok signature

theorem signed_fieldsOf {key : Option KeyPair} {subjectRef datasetRoot : String} {absenceProof : PyVal}
    {f : Storage.OtherFields} {signature : String} (hp : Printable absenceProof)
    (hs : signManifest key (Storage.fieldsOf subjectRef datasetRoot absenceProof f) = .ok signature) :
    SignedBy key (Storage.fieldsOf subjectRef datasetRoot absenceProof f ++ [(.str "signature",.str signature)]) := by
  have hunsigned :
    unsigned (Storage.fieldsOf subjectRef datasetRoot absenceProof f ++ [(.str "signature",.str signature)]) =
      Storage.fieldsOf subjectRef datasetRoot absenceProof f := by
    rw [unsigned, Dict.entries_erase, Dict.entries_ofList issued_nodup]
    simp [Storage.fieldsOf, Manifest.build]
  refine ⟨?_,signature,?_,?_⟩
  · rw [hunsigned]
    exact Storage.printable_fieldsOf hp
  · exact signatureOf_issued
  · rw [hunsigned]
    exact hs

theorem signed_manifestFor {parts : EngineParts D} {tree : Smt.SparseMerkleTree D.H} {batch : Batch}
    {cfgDigest weights : String} {clock : Clock} {ref : Ref} {m : Pairs}
    (h : manifestFor parts tree batch cfgDigest weights true clock ref = .ok m) :
    SignedBy D.signingKey m := by
  obtain ⟨proof,hproof,h⟩ := bind_eq_ok.mp h
  obtain ⟨signature,hsignature,hm⟩ := bind_eq_ok.mp h
  obtain rfl := Except.ok.inj hm
  unfold Smt.SparseMerkleTree.proveAbsence at hproof
  split at hproof
  · cases hproof
  · cases hproof
    exact signed_fieldsOf (f := ⟨batch.shard,resumedFrom batch,D.settings.CODE_DIGEST,cfgDigest,weights,_,
      clock.purgedAt,clock.completedAt⟩)
      (Storage.printable_proofOf _) hsignature

theorem missingFields_unsigned (manifest : Pairs) : missingFields (unsigned manifest) = missingFields manifest := by
  refine List.filter_congr fun field hfield => ?_
  have hne : PyKey.str field ≠ .str "signature" := by
    rintro hsame
    rw [PyKey.str.inj hsame] at hfield
    exact absurd hfield (by decide)
  have hmem : PyKey.str field ∈ Dict.ofList (unsigned manifest) ↔ PyKey.str field ∈ Dict.ofList manifest := by
    rw [unsigned, Dict.ofList_entries, Dict.mem_erase]
    exact ⟨fun h => h.1,fun h => ⟨h,hne⟩⟩
  simp only [hmem]

/-- A manifest with the required fields and a signature behind them is these fields and that signature. -/
theorem exists_fields {manifest : Pairs} {signature : String}
    (hk : manifest.map Prod.fst = REQUIRED_FIELDS.map PyKey.str ++ [.str "signature"])
    (hs : signatureOf manifest = .str signature) : ∃ fields, fields.map Prod.fst = REQUIRED_FIELDS.map PyKey.str ∧
      manifest = fields ++ [(.str "signature",.str signature)] ∧ unsigned manifest = fields := by
  obtain ⟨fields,rest,rfl,hfields,hrest⟩ := List.map_eq_append_iff.mp hk
  obtain ⟨⟨name,v⟩,rfl,hname⟩ := List.map_eq_singleton_iff.mp hrest
  obtain rfl : name = .str "signature" := hname
  have hnodup : ((fields ++ [(PyKey.str "signature",v)]).map Prod.fst).Nodup := by
    rw [hk]
    decide
  have hv : v = .str signature := by
    have hget : (Dict.ofList (fields ++ [(PyKey.str "signature",v)])).get? (.str "signature") = some v := by
      rw [Dict.get?_eq_some, Dict.entries_ofList hnodup]
      simp
    rw [signatureOf, hget] at hs
    exact hs
  subst hv
  refine ⟨fields,hfields,rfl,?_⟩
  have hother : ∀ e ∈ fields, e.1 ≠ .str "signature" := by
    intro e he hsame
    have hin := List.mem_map_of_mem (f := Prod.fst) he
    rw [hfields, hsame] at hin
    exact absurd hin (by decide)
  rw [unsigned, Dict.entries_erase, Dict.entries_ofList hnodup, List.filter_append,
    List.filter_eq_self.mpr fun e he => decide_eq_true (hother e he)]
  simp

/-- Stored and read back, a signed manifest has its signature, and a canonical text. -/
theorem SignedBy.stored {key : Option KeyPair} {manifest : Pairs} (h : SignedBy key manifest)
    (hk : manifest.map Prod.fst = REQUIRED_FIELDS.map PyKey.str ++ [.str "signature"]) (O : ObjectOrder) :
    Loaded (.dict (storedPairs O manifest)) ∧ signatureOf (storedPairs O manifest) = signatureOf manifest ∧
      ∃ message, canonicalBytes (unsigned (storedPairs O manifest)) = .ok message := by
  obtain ⟨hprintable,signature,hsignature,-⟩ := h
  obtain ⟨fields,hfields,rfl,hunsigned⟩ := exists_fields hk hsignature
  rw [hunsigned] at hprintable
  have hloaded : Loaded (.dict (storedPairs O (fields ++ [(.str "signature",.str signature)]))) := by
    rw [← reload_eq_storedPairs]
    exact (hprintable.append (.str signature)).loaded O
  obtain ⟨text,htext⟩ := (loaded_unsigned hloaded).exists_dumps
  refine ⟨hloaded,(Storage.signatureOf_stored hfields).trans hsignature.symm,_,
    canonicalBytes_eq_ok.mpr ⟨?_,text,htext,rfl⟩⟩
  rw [missingFields_unsigned]
  exact Storage.missingFields_stored hfields

def Issued (D : Deployment) (manifest : Pairs) : Prop := Checkable D.H manifest ∧ SignedBy D.signingKey manifest

/-- Nothing is issued but to the references asked for. -/
theorem issueManifests_mem {manifest : Ref → Py Pairs} {refs : List Ref} {issued issued' : Dict Ref Pairs}
    (h : issueManifests manifest refs issued = .ok issued') {ref : Ref} {m : Pairs} (hm : issued'.get? ref = some m) :
    issued.get? ref = some m ∨ ref ∈ refs ∧ manifest ref = .ok m := by
  induction refs generalizing issued with
  | nil =>
    cases h
    exact Or.inl hm
  | cons r refs ih =>
    obtain ⟨m',hm',h⟩ := bind_eq_ok.mp h
    rcases ih h with hold | ⟨hin,hmanifest⟩
    · rw [Dict.get?_insert] at hold
      split at hold
      · next hr =>
        subst hr
        rw [← Option.some.inj hold]
        exact Or.inr ⟨List.mem_cons_self,hm'⟩
      · exact Or.inl hold
    · exact Or.inr ⟨List.mem_cons_of_mem _ hin,hmanifest⟩

/-- The last column of a row is the manifest as it was issued. -/
theorem manifestJson_of_manifestRow {m : Pairs} {row : ManifestRow} (h : manifestRow m = .ok row) :
    row.manifestJson = m := by
  obtain ⟨_,-,h⟩ := bind_eq_ok.mp h
  obtain ⟨_,-,h⟩ := bind_eq_ok.mp h
  obtain ⟨_,-,h⟩ := bind_eq_ok.mp h
  obtain ⟨_,-,h⟩ := bind_eq_ok.mp h
  obtain ⟨_,-,h⟩ := bind_eq_ok.mp h
  obtain ⟨_,-,h⟩ := bind_eq_ok.mp h
  obtain ⟨_,-,h⟩ := bind_eq_ok.mp h
  obtain ⟨_,-,h⟩ := bind_eq_ok.mp h
  obtain ⟨_,-,h⟩ := bind_eq_ok.mp h
  rw [← Except.ok.inj h]

end Certificates

section Replays

/-- Re-run, for whichever shard it is taken to be, the rebuild ends in the same weights. -/
def Repeats (replay : Replay D) (weights : String) : Prop := ∀ shard, replayDigest shard replay = .ok weights

/-- The last slice trained is the last there is. -/
theorem max?_digestsFrom {fromSlice : ℕ} (h : fromSlice < D.settings.NUM_SLICES) (after : ℕ → Training D) :
    ((digestsFrom fromSlice after).map Prod.fst).max? = some (D.settings.NUM_SLICES - 1) := by
  have hkeys : (digestsFrom fromSlice after).map Prod.fst =
    (List.range (D.settings.NUM_SLICES - fromSlice)).map (fromSlice + ·) := by
    rw [digestsFrom, List.map_map]
    rfl
  rw [hkeys, List.max?_eq_some_iff]
  constructor
  · exact List.mem_map.mpr ⟨D.settings.NUM_SLICES - 1 - fromSlice,List.mem_range.mpr (by omega),by omega⟩
  · intro n hn
    obtain ⟨j,hj,rfl⟩ := List.mem_map.mp hn
    have hlt := List.mem_range.mp hj
    omega

theorem maxDigest_digestsFrom {fromSlice : ℕ} {after : ℕ → Training D} {digest : String}
    (h : Rebuild.lastDigest D.settings.NUM_SLICES (digestsFrom fromSlice after) = .ok digest) :
    maxDigest (digestsFrom fromSlice after) = .ok digest := by
  obtain ⟨hlt,rfl⟩ := Rebuild.lastDigest_eq_ok.mp h
  rw [maxDigest, max?_digestsFrom hlt after]
  dsimp only
  rw [get?_digestsFrom.mpr ⟨hlt,rfl⟩]

/-- What training returns depends on nothing it is answered. -/
theorem yields_trainSlices (shard : ℕ) (preproc : D.mlp.Preproc) (records : Records D.V) (seed : ℤ) (n i : ℕ)
    (t : Training D) :
    (trainSlices shard preproc records seed n i t).Yields fun digests => digests = (List.range n).map fun j =>
      (i + j,stateDictDigest (D.mlp.stateDict (afterSlices preproc records seed i t (j+1)).1)) := by
  induction n generalizing i t with
  | zero => rfl
  | succ n ih =>
    intro u
    refine (ih (i+1) (trainSlice preproc records seed i t)).bind fun digests hdigests => ?_
    have htail : ∀ j, i + 1 + j = i + (j+1) := fun j => by omega
    have hafter : ∀ j, afterSlices preproc records seed (i+1) (trainSlice preproc records seed i t) j =
      afterSlices preproc records seed i t (j+1) :=
      fun j => (afterSlices_succ ..).symm
    rw [List.range_succ_eq_map, List.map_cons, List.map_map, hdigests, funext hafter]
    simp only [htail]
    rfl

theorem yields_trainShard (shard fromSlice : ℕ) (records : Records D.V) (resumeState : Option D.Weights) (seed : ℤ) :
    (trainShard shard (some records) fromSlice resumeState seed).Yields fun digests =>
      enforceDeterminism D seed = .ok () ∧
      ∃ preproc start, fitPreprocessor records = .ok preproc ∧ startTraining fromSlice resumeState seed = .ok start ∧
        digests = digestsFrom fromSlice (afterSlices preproc records seed fromSlice start) := by
  refine (yields_lift fun u h => h).bind fun _ hdeterministic => ?_
  refine (show (Pure.pure records : FileM D _).Yields fun loaded => loaded = records from rfl).bind
    fun loaded hloaded => ?_
  subst hloaded
  refine (yields_lift fun preproc h => h).bind fun preproc hpreproc =>
    (yields_lift fun start h => h).bind fun start hstart => ?_
  refine (yields_trivial _).bind fun _ _ => (yields_trainSlices ..).mono fun digests hdigests => ?_
  exact ⟨hdeterministic,preproc,start,hpreproc,hstart,hdigests⟩

theorem yields_retrain_mlp (seed : ℤ) (refs : List Ref) (batch : Batch) (records : Records D.V) :
    (Rebuild.retrain seed refs batch records).Yields fun r => Repeats r.replay r.resultWeights := by
  refine (yields_trivial _).bind fun purged _ => ?_
  obtain ⟨retained,dropped⟩ := purged
  refine (yields_trivial _).bind fun _ _ => (yields_trivial _).bind fun resumeState _ => ?_
  refine (yields_trainShard ..).bind fun digests hdigests => (yields_lift fun weights h => h).bind
    fun weights hweights => ?_
  obtain ⟨hdeterministic,preproc,start,hpreproc,hstart,rfl⟩ := hdigests
  intro shard
  obtain ⟨t,hrun⟩ : ∃ t, (trainShard shard (some retained) batch.minSlice resumeState seed).run fileExec scratchDir =
      (.ok (digestsFrom batch.minSlice (afterSlices preproc retained seed batch.minSlice start)),t) :=
    ⟨_,run_trainShard.mpr ⟨hdeterministic,preproc,start,hpreproc,hstart,rfl,rfl⟩⟩
  rw [replayDigest, hrun]
  exact maxDigest_digestsFrom hweights

theorem yields_retrain_gbdt (treesPerSlice : ℕ) (refs : List Ref) (batch : Batch) (records : Records D.V) :
    (Gbdt.retrain treesPerSlice refs batch records).Yields fun r => Repeats r.replay r.resultWeights := by
  refine (yields_trivial _).bind fun booster _ => (yields_lift fun rebuilt h => h).bind fun rebuilt hrebuilt => ?_
  obtain ⟨rebuilt,retained⟩ := rebuilt
  obtain ⟨-,rfl,kept,hkept,htrained⟩ := Gbdt.rebuildBooster_eq_ok.mp hrebuilt
  refine (yields_trivial _).bind fun _ _ => (yields_lift fun saved h => h).bind fun saved hsaved => ?_
  refine (yields_trivial _).bind fun _ _ => (yields_lift fun resumed h => h).bind fun resumed hresumed => ?_
  intro shard
  cases hkept.symm.trans hresumed
  rw [Gbdt.savedBooster_eq_ok.mp hsaved] at htrained
  rw [replayDigest, htrained]
  rfl

theorem ModelEngine.yields_retrain (engine : ModelEngine) (refs : List Ref) (batch : Batch) (records : Records D.V) :
    ((engine.parts : EngineParts D).retrain refs batch records).Yields fun r => Repeats r.replay r.resultWeights := by
  cases engine with
  | mlp seed => exact yields_retrain_mlp seed refs batch records
  | gbdt treesPerSlice => exact yields_retrain_gbdt treesPerSlice refs batch records

end Replays

structure Accountable (result : Result D) : Prop where
  certificates : ∀ ref m, result.manifests.get? ref = some m → Issued D m
  replay : Repeats result.replay result.resultWeights

theorem yields_accountable (engine : ModelEngine) (refs : List Ref) (clock : Clock) :
    (rebuildBatch (engine.parts : EngineParts D) refs true clock).Yields Accountable := by
  unfold rebuildBatch
  split
  · trivial
  · refine (yields_trivial _).bind fun routing _ => (yields_trivial _).bind fun batch _ =>
      (yields_trivial _).bind fun records _ => ?_
    refine (yields_trivial _).bind fun treeBefore _ => (ModelEngine.yields_retrain engine ..).bind
      fun retrained hrepeats => ?_
    refine (yields_lift fun tree h => h).bind fun tree htree => (yields_trivial _).bind fun _ _ =>
      (yields_trivial _).bind fun cfgDigest _ => ?_
    refine (yields_lift fun manifests h => h).bind fun manifests hissued => ?_
    refine (yields_trivial _).bind fun routing' _ => (yields_trivial _).bind fun _ _ => ⟨fun ref m hm => ?_,hrepeats⟩
    rcases issueManifests_mem hissued hm with hold | ⟨href,hmanifest⟩
    · cases hold
    · refine ⟨checkable_manifestFor (fun hin => ?_) hmanifest,signed_manifestFor hmanifest⟩
      rw [Smt.SparseMerkleTree.remove_keys htree] at hin
      exact absurd href (of_decide_eq_true (List.mem_filter.mp hin).2)

end UnlearnShield.Worker
