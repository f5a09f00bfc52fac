import UnlearnShield.Python.JsonReading
import UnlearnShield.Verify.ManifestStorage
import UnlearnShield.Verify.SmtSound

/-! # What a certificate says

A signature is over the content of a manifest: two manifests that were loaded have the
same canonical bytes exactly when they have the same members, in whatever order. A
certificate that the standalone verifier accepts reads as the manifest that was signed, or
its signature is forged, and its subject is in no data set with its root, or hashes collide.
-/
namespace UnlearnShield
open Json

namespace Storage
variable {subjectRef datasetRoot : String} {absenceProof : PyVal} {f : OtherFields}

/-- Every field but the proof is a string or a number. -/
theorem fieldsOf_values {P : PyVal → Prop} (hstr : ∀ s, P (.str s)) (hint : ∀ n, P (.int n)) (h : P absenceProof) :
    ∀ e ∈ fieldsOf subjectRef datasetRoot absenceProof f, P e.2 := by
  simp [fieldsOf, Manifest.build, hstr, hint, h]

theorem loaded_fieldsOf (h : Loaded absenceProof) :
    Loaded (.dict (fieldsOf subjectRef datasetRoot absenceProof f)) := by
  apply Loaded.dict
  · simp [fieldsOf, Manifest.build]
  · exact fieldsOf_values .str .int h

theorem printable_fieldsOf (h : Printable absenceProof) :
    Printable (.dict (fieldsOf subjectRef datasetRoot absenceProof f)) :=
  .dict (fieldsOf_values .str .int h)

theorem printable_proofOf (siblings : List (ℕ × Digest)) : Printable (Smt.proofOf siblings) := by
  have hsiblings : Printable (.dict (siblings.map fun e => (.int (e.1 : ℤ),.str e.2.val.hex))) := by
    refine .dict fun e he => ?_
    obtain ⟨e',-,rfl⟩ := List.mem_map.mp he
    exact .str _
  refine .dict fun e he => ?_
  rcases List.mem_pair.mp he with rfl | rfl
  · exact .str _
  · exact hsiblings

end Storage

namespace Manifest

section Content
variable {manifest manifest' : Pairs} {message : Bytes}

theorem canonicalBytes_eq_ok : canonicalBytes manifest = .ok message ↔
    missingFields manifest = [] ∧ ∃ text, dumps (.dict manifest) = .ok text ∧ encode text = message := by
  unfold canonicalBytes
  by_cases hmissing : missingFields manifest = []
  · rw [if_neg (not_not.mpr hmissing), bind_eq_ok]
    exact ⟨fun ⟨text,ht,he⟩ => ⟨hmissing,text,ht,Except.ok.inj he⟩,
      fun ⟨_,text,ht,he⟩ => ⟨text,ht,congrArg Except.ok he⟩⟩
  · rw [if_pos hmissing]
    exact ⟨fun h => (by cases h),fun h => absurd h.1 hmissing⟩

/-- Manifests that read back as one value have the same fields. -/
theorem missingFields_of_canonical (h : ∀ e ∈ manifest, ∃ key, e.1 = .str key)
    (h' : ∀ e ∈ manifest', ∃ key, e.1 = .str key)
    (heq : canonical (.dict manifest) = canonical (.dict manifest')) :
    missingFields manifest = missingFields manifest' := by
  obtain ⟨members,hmembers,hperm,-⟩ := canonical_dict_perm h
  obtain ⟨members',hmembers',hperm',-⟩ := canonical_dict_perm h'
  rw [hmembers, hmembers'] at heq
  obtain rfl := PyVal.dict.inj heq
  have hkeys : (Dict.ofList manifest).keys.Perm (Dict.ofList manifest').keys := by
    have hnames := (hperm.symm.trans hperm').map Prod.fst
    rw [List.map_map, List.map_map] at hnames
    exact hnames
  refine List.filter_congr fun field _ => ?_
  have hiff : PyKey.str field ∈ Dict.ofList manifest ↔ PyKey.str field ∈ Dict.ofList manifest' := hkeys.mem_iff
  simp only [hiff]

/-- The bytes that are signed are those of one content: the members of the manifest, in any order. -/
theorem canonicalBytes_eq_iff (hm : Loaded (.dict manifest)) (hm' : Loaded (.dict manifest'))
    (h : canonicalBytes manifest = .ok message) :
    canonicalBytes manifest' = .ok message ↔ canonical (.dict manifest') = canonical (.dict manifest) := by
  obtain ⟨hfields,text,htext,hmessage⟩ := canonicalBytes_eq_ok.mp h
  rw [canonicalBytes_eq_ok]
  constructor
  · rintro ⟨-,text',htext',hmessage'⟩
    obtain rfl := encode_injective (hmessage'.trans hmessage.symm)
    exact (dumps_eq_iff hm hm' htext).mp htext'
  · intro heq
    refine ⟨?_,text,(dumps_eq_iff hm hm' htext).mpr heq,hmessage⟩
    cases hm with
    | dict hkeys _ =>
      cases hm' with
      | dict hkeys' _ => rw [missingFields_of_canonical hkeys' hkeys heq, hfields]

end Content

/-- The members of a manifest in another order are one content. -/
theorem canonicalBytes_eq_iff_sample :
    ∃ message, canonicalBytes (Storage.fieldsOf "" "" (.str "") Storage.sampleFields) = .ok message ∧
    canonical (.dict (Storage.fieldsOf "" "" (.str "") Storage.sampleFields).reverse) =
      canonical (.dict (Storage.fieldsOf "" "" (.str "") Storage.sampleFields)) := by
  have hstored : dumps (reload .written (.str "")) = .ok (quote "") := by simp
  obtain ⟨⟨message,hmessage⟩,-⟩ :=
    Storage.canonicalBytes_stored "" "" Storage.sampleFields .written (dumps_str "") hstored
  have hloaded : Loaded (.dict (Storage.fieldsOf "" "" (.str "") Storage.sampleFields)) :=
    Storage.loaded_fieldsOf (.str "")
  have hreversed : Loaded (.dict (Storage.fieldsOf "" "" (.str "") Storage.sampleFields).reverse) :=
    hloaded.of_subset fun e he => List.mem_reverse.mp he
  refine ⟨message,hmessage,(canonicalBytes_eq_iff hloaded hreversed hmessage).mp ?_⟩
  rw [canonicalBytes_perm ?_ (List.reverse_perm _), hmessage]
  rw [((List.reverse_perm _).map Prod.fst).nodup_iff]
  exact Storage.fieldsOf_nodup

end Manifest

namespace VerifierCli
open Manifest

section Acceptance
variable {H : Bytes → Digest} {legacy : PyVal → PyVal → PyVal → Py Bool} {key : KeyPair} {manifest certificate : Pairs}
  {findings : List Finding} {signature : String}

theorem signatureFits_eq_true {v : PyVal} : signatureFits key manifest v = true ↔
    ∃ message bytes, canonicalBytes manifest = .ok message ∧ v.fromhex = .ok bytes ∧
      key.verify message bytes = true := by
  unfold signatureFits
  cases canonicalBytes manifest with
  | error e => simp
  | ok message =>
    cases v.fromhex with
    | error e => simp
    | ok bytes => simp

theorem signManifest_eq_ok : signManifest (some key) manifest = .ok signature ↔
    ∃ message, canonicalBytes manifest = .ok message ∧ (key.sign message).hex = signature := by
  rw [signManifest, bind_eq_ok]
  simp [pure, Except.pure]

/-- What is accepted passed the three checks. -/
theorem verifyCertificate_eq_true (h : verifyCertificate H legacy key certificate = .ok (true,findings)) :
    missingFields certificate = [] ∧ signatureFits key (unsigned certificate) (signatureOf certificate) = true ∧
      verifySigned H legacy (unsigned certificate) = .ok (true,findings) := by
  unfold verifyCertificate at h
  split at h
  · cases h
  · next hmissing =>
    split at h
    · cases h
    · split at h
      · next hfits => exact ⟨not_not.mp hmissing,hfits,h⟩
      · cases h

theorem verifySigned_eq_true (h : verifySigned H legacy manifest = .ok (true,findings)) :
    ∃ subjectRef proof datasetRoot scheme,
    (PyVal.dict manifest).subscript "subject_ref" = .ok subjectRef ∧
      (PyVal.dict manifest).subscript "absence_proof" = .ok proof ∧
      (PyVal.dict manifest).subscript "dataset_root" = .ok datasetRoot ∧
        verifyAbsence H legacy subjectRef proof datasetRoot = .ok (true,scheme) := by
  obtain ⟨subjectRef,hsubject,h⟩ := bind_eq_ok.mp h
  obtain ⟨proof,hproof,h⟩ := bind_eq_ok.mp h
  obtain ⟨datasetRoot,hroot,h⟩ := bind_eq_ok.mp h
  obtain ⟨⟨ok,scheme⟩,hverdict,h⟩ := bind_eq_ok.mp h
  refine ⟨subjectRef,proof,datasetRoot,scheme,hsubject,hproof,hroot,?_⟩
  cases ok with
  | true => exact hverdict
  | false => cases h

theorem loaded_unsigned (h : Loaded (.dict certificate)) : Loaded (.dict (unsigned certificate)) :=
  h.of_subset fun _ => mem_of_mem_unsigned

/-- The signature of one manifest verifies for the bytes of another, which are not those that were signed. -/
def Forged (key : KeyPair) (manifest manifest' : Pairs) : Prop :=
  ∃ message message', canonicalBytes manifest = .ok message ∧ canonicalBytes manifest' = .ok message' ∧
    message' ≠ message ∧
    key.verify message' (key.sign message) = true

/-- A certificate that is accepted with the signature of a manifest reads as that manifest. -/
theorem accepted_content (hm : Printable (.dict manifest)) (hs : signManifest (some key) manifest = .ok signature)
    (hl : Loaded (.dict certificate)) (hsig : signatureOf certificate = .str signature)
    (h : verifyCertificate H legacy key certificate = .ok (true,findings)) :
    Forged key manifest (unsigned certificate) ∨ canonical (.dict (unsigned certificate)) =
      canonical (.dict manifest) := by
  obtain ⟨message,hmessage,rfl⟩ := signManifest_eq_ok.mp hs
  obtain ⟨-,hfits,-⟩ := verifyCertificate_eq_true h
  rw [hsig] at hfits
  obtain ⟨message',bytes,hmessage',hbytes,hverified⟩ := signatureFits_eq_true.mp hfits
  rw [Smt.PyVal.fromhex_hex] at hbytes
  obtain rfl := Except.ok.inj hbytes
  by_cases heq : message' = message
  · subst heq
    obtain ⟨-,text,htext,hencoded⟩ := canonicalBytes_eq_ok.mp hmessage
    obtain ⟨-,text',htext',hencoded'⟩ := canonicalBytes_eq_ok.mp hmessage'
    obtain rfl := encode_injective (hencoded'.trans hencoded.symm)
    exact Or.inr (canonical_eq_of_dumps (loaded_unsigned hl).printable hm htext' htext)
  · exact Or.inl ⟨message,message',hmessage,hmessage',heq,hverified⟩

/-- The subject of a certificate that is accepted is in no data set with its root, or hashes collide. -/
theorem accepted_absent {S : List Ref} {t : Ref} {proof : PyVal}
    (h : verifyCertificate H legacy key certificate = .ok (true,findings))
    (hsubject : (PyVal.dict certificate).subscript "subject_ref" = .ok (.str t.val.hex))
    (hproof : (PyVal.dict certificate).subscript "absence_proof" = .ok proof) (hsmt : isSmtProof proof = true)
    (hroot : (PyVal.dict certificate).subscript "dataset_root" = .ok (.str (Smt.rootOf H S).val.hex)) :
    t ∉ S ∨ Smt.Collision H (Smt.hashedAlong H S (.str t.val.hex) proof) := by
  obtain ⟨-,-,hsigned⟩ := verifyCertificate_eq_true h
  obtain ⟨subjectRef,proof',datasetRoot,scheme,hsubject',hproof',hroot',hverdict⟩ := verifySigned_eq_true hsigned
  rw [subscript_unsigned (by decide)] at hsubject' hproof' hroot'
  cases hsubject'.symm.trans hsubject
  cases hproof'.symm.trans hproof
  cases hroot'.symm.trans hroot
  rw [verifyAbsence, if_pos hsmt] at hverdict
  obtain ⟨ok,hok,hpair⟩ := bind_eq_ok.mp hverdict
  cases hpair
  obtain ⟨raw,hwell⟩ := Smt.wellFormed_of_verifyAbsence hok
  rcases Smt.sound_of_verifyAbsence hwell hok with hcollision | ⟨habsent,-⟩
  · exact Or.inr hcollision
  · exact Or.inl habsent

end Acceptance

section Sample
open Storage Smt

/-- The manifest signed for `zeroRef` when `ref100` is retained: its proof shows depth 100 only. -/
def sampleManifest : Pairs :=
  fieldsOf zeroRef.val.hex (rootOf sha256 [ref100]).val.hex
    (proofOf (shownSiblings sha256 [ref100] zeroRef)) sampleFields

def sampleCertificate (signature : String) : Pairs :=
  storedPairs .written (sampleManifest ++ [(.str "signature",.str signature)])

theorem offPath_ref100 : ∀ d, d < DEPTH → offPath sha256 zeroRef d (keys [ref100]) ≠ [] → d = 100 := by decide +kernel

theorem sampleCertificate_accepted : ∃ signature findings, signManifest (some sampleKey) sampleManifest =
    .ok signature ∧
    verifyCertificate sha256 (fun _ _ _ => .ok false) sampleKey (sampleCertificate signature) =
      .ok (true,findings) := by
  have habsent : zeroRef ∉ keys [ref100] := by decide +kernel
  obtain ⟨message,hmessage⟩ :=
    exists_canonicalBytes (H := sha256) zeroRef.val.hex (rootOf sha256 [ref100]).val.hex [ref100] zeroRef sampleFields
  have hstored :=
    (canonicalBytes_shown (H := sha256) .written zeroRef.val.hex (rootOf sha256 [ref100]).val.hex [ref100] zeroRef
      sampleFields).mpr
    fun a b hab hb ha hb' => by
      have hone := offPath_ref100 a (by omega) ha.1
      have hother := offPath_ref100 b hb hb'.1
      omega
  have hproof := verifyAbsence_reload (H := sha256) (p := ShownDepth sha256 zeroRef (keys [ref100])) .written habsent
    fun _ => sideRoot_of_not_shown
  obtain ⟨certificate,findings,hsigned,haccepted⟩ : ∃ certificate findings, signed sampleKey sampleManifest =
    .ok certificate ∧
      verifyCertificate sha256 (fun _ _ _ => .ok false) sampleKey (storedPairs .written certificate) =
        .ok (true,findings) :=
    exists_accepted (isSmtProof_reload .written (siblingsAt_nodup _ zeroRef (keys [ref100]) 0 DEPTH) siblingsAt_lt)
      hproof hmessage
      (hstored.trans hmessage)
  obtain ⟨signature,hsignature,hcertificate⟩ := bind_eq_ok.mp hsigned
  cases hcertificate
  exact ⟨signature,findings,hsignature,haccepted⟩

theorem accepted_absent_sample : ∃ signature, signManifest (some sampleKey) sampleManifest = .ok signature ∧
    (zeroRef ∉ [ref100] ∨ Collision sha256 (hashedAlong sha256 [ref100] (.str zeroRef.val.hex)
      (reload .written (proofOf (shownSiblings sha256 [ref100] zeroRef))))) := by
  obtain ⟨signature,findings,hsignature,haccepted⟩ := sampleCertificate_accepted
  have hread : ∀ field v, (PyKey.str field,v) ∈ sampleManifest →
      (PyVal.dict (sampleCertificate signature)).subscript field = .ok (reload .written v) :=
    fun field v h => subscript_stored (fieldsOf_keys ..) h
  have hsubject := hread "subject_ref" (.str zeroRef.val.hex) (by simp [sampleManifest, fieldsOf, Manifest.build])
  have hproof := hread "absence_proof" (proofOf (shownSiblings sha256 [ref100] zeroRef))
    (by simp [sampleManifest, fieldsOf, Manifest.build])
  have hroot :=
    hread "dataset_root" (.str (rootOf sha256 [ref100]).val.hex) (by simp [sampleManifest, fieldsOf, Manifest.build])
  rw [reload_str] at hsubject hroot
  exact ⟨signature,hsignature,accepted_absent haccepted hsubject hproof
    (isSmtProof_reload .written (siblingsAt_nodup _ zeroRef (keys [ref100]) 0 DEPTH) siblingsAt_lt) hroot⟩

end Sample

end VerifierCli

end UnlearnShield
