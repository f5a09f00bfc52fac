import UnlearnShield.Verify.Manifest
import UnlearnShield.Verify.SmtVerify

/-! # The standalone verifier

A certificate is accepted when its signature fits the canonical text of the other
fields and its absence proof fits its dataset root. `legacy` stands for the sorted
Merkle verifier, which checks the proofs of every scheme other than `smt-256`.
-/
namespace UnlearnShield.VerifierCli
open Manifest
variable (H : Bytes → Digest) (legacy : PyVal → PyVal → PyVal → Py Bool)

inductive Finding
  | missingFields (missing : List String)
  | noSignature
  | signatureValid
  | signatureInvalid
  | absenceValid (datasetRoot : PyVal) (scheme : String)
  | absenceInvalid
  | subjectAbsent (subjectRef shard modelVersion : PyVal)
  | weightsProduced (resultWeights codeDigest : PyVal)

/-- `isinstance(proof, dict) and proof.get("scheme") == "smt-256"`. -/
def isSmtProof : PyVal → Bool
  | .dict pairs => (((Dict.ofList pairs).get? (.str "scheme")).getD .none).eqStr "smt-256"
  | _ => false

def verifyAbsence (subjectRef proof datasetRoot : PyVal) : Py (Bool × String) :=
  if isSmtProof proof then do
    let ok ← Smt.verifyAbsence H subjectRef proof datasetRoot
    pure (ok,"sparse Merkle (smt-256)")
  else do
    let ok ← legacy subjectRef proof datasetRoot
    pure (ok,"sorted Merkle (legacy)")

/-- `v[:16]`. -/
def prefix16 : PyVal → Py PyVal
  | .str s => .ok (.str (String.ofList (s.toList.take 16)))
  | .list xs => .ok (.list (xs.take 16))
  | v => raise .typeError s!"'{v.typeName}' object is not subscriptable"

/-- `not v` is false. -/
def truthy : PyVal → Bool
  | .none => false
  | .bool b => b
  | .int n => n ≠ 0
  | .float repr => repr ≠ "0.0" ∧ repr ≠ "-0.0"
  | .str s => s ≠ ""
  | .list xs => !xs.isEmpty
  | .dict pairs => !pairs.isEmpty

/-- `public_key.verify(canonical_bytes(manifest), bytes.fromhex(signature))` returns. -/
def signatureFits (key : KeyPair) (manifest : Pairs) (signature : PyVal) : Bool :=
  match canonicalBytes manifest, signature.fromhex with
  | .ok message, .ok bytes => key.verify message bytes
  | _, _ => false

/-- The checks after the signature, on the manifest without it. -/
def verifySigned (manifest : Pairs) : Py (Bool × List Finding) := do
  let subjectRef ← (PyVal.dict manifest).subscript "subject_ref"
  let proof ← (PyVal.dict manifest).subscript "absence_proof"
  let datasetRoot ← (PyVal.dict manifest).subscript "dataset_root"
  let (proofOk,scheme) ← verifyAbsence H legacy subjectRef proof datasetRoot
  if proofOk then
    let root ← prefix16 datasetRoot
    let subject ← prefix16 subjectRef
    let shard ← (PyVal.dict manifest).subscript "shard"
    let modelVersion ← (PyVal.dict manifest).subscript "model_version"
    let resultWeights ← (PyVal.dict manifest).subscript "result_weights"
    let weights ← prefix16 resultWeights
    let codeDigest ← (PyVal.dict manifest).subscript "code_digest"
    pure (true,[.signatureValid, .absenceValid root scheme, .subjectAbsent subject shard modelVersion,
      .weightsProduced weights codeDigest])
  else pure (false,[.signatureValid, .absenceInvalid])

theorem verifyAbsence_smt {proof : PyVal} (h : isSmtProof proof = true) {subjectRef datasetRoot : PyVal}
    (hv : Smt.verifyAbsence H subjectRef proof datasetRoot = .ok true) :
    verifyAbsence H legacy subjectRef proof datasetRoot = .ok (true,"sparse Merkle (smt-256)") := by
  rw [verifyAbsence, if_pos h, hv]
  rfl

/-- A manifest with textual fields is accepted once its absence proof is. -/
theorem verifySigned_of_mem {manifest : Pairs} {subjectRef datasetRoot resultWeights scheme : String}
    {proof shard modelVersion codeDigest : PyVal} (hn : (manifest.map Prod.fst).Nodup)
    (h₁ : (.str "subject_ref",.str subjectRef) ∈ manifest) (h₂ : (.str "absence_proof",proof) ∈ manifest)
    (h₃ : (.str "dataset_root",.str datasetRoot) ∈ manifest) (h₄ : (.str "shard",shard) ∈ manifest)
    (h₅ : (.str "model_version",modelVersion) ∈ manifest)
    (h₆ : (.str "result_weights",.str resultWeights) ∈ manifest) (h₇ : (.str "code_digest",codeDigest) ∈ manifest)
    (hv : verifyAbsence H legacy (.str subjectRef) proof (.str datasetRoot) = .ok (true,scheme)) :
    ∃ findings, verifySigned H legacy manifest = .ok (true,findings) := by
  unfold verifySigned
  rw [PyVal.subscript_of_mem hn h₁, PyVal.subscript_of_mem hn h₂, PyVal.subscript_of_mem hn h₃,
    PyVal.subscript_of_mem hn h₄, PyVal.subscript_of_mem hn h₅, PyVal.subscript_of_mem hn h₆,
    PyVal.subscript_of_mem hn h₇]
  simp only [ok_bind, hv, ↓reduceIte, prefix16]
  exact ⟨_,rfl⟩

/-- `manifest.pop("signature", None)`, and what it leaves. -/
def signatureOf (manifest : Pairs) : PyVal := ((Dict.ofList manifest).get? (.str "signature")).getD .none

def unsigned (manifest : Pairs) : Pairs := ((Dict.ofList manifest).erase (.str "signature")).entries

/-- `(ok, findings)`, findings most fundamental first. -/
def verifyCertificate (key : KeyPair) (manifest : Pairs) : Py (Bool × List Finding) :=
  if missingFields manifest ≠ [] then .ok (false,[.missingFields (Manifest.missingFields manifest)])
  else if truthy (signatureOf manifest) = false then .ok (false,[.noSignature])
  else if signatureFits key (unsigned manifest) (signatureOf manifest) then
    verifySigned H legacy (unsigned manifest)
  else .ok (false,[.signatureInvalid])

theorem mem_of_mem_unsigned {manifest : Pairs} {e : PyKey × PyVal} (h : e ∈ unsigned manifest) : e ∈ manifest :=
  Dict.mem_of_get?_ofList (Dict.get?_eq_some.mpr (List.mem_of_mem_filter h))

/-- Taking the signature out changes no other field. -/
theorem subscript_unsigned {manifest : Pairs} {field : String} (h : field ≠ "signature") :
    (PyVal.dict (unsigned manifest)).subscript field = (PyVal.dict manifest).subscript field := by
  have hne : PyKey.str field ≠ .str "signature" := by simpa using h
  rw [PyVal.subscript, PyVal.subscript, unsigned, Dict.ofList_entries, Dict.get?_erase_of_ne hne]

variable {H legacy}

/-- When everything else is in order, the signature decides. -/
theorem verifyCertificate_eq {key : KeyPair} {manifest : Pairs} {findings : List Finding}
    (hmiss : missingFields manifest = []) (hsigned : truthy (signatureOf manifest) = true)
    (hfound : verifySigned H legacy (unsigned manifest) = .ok (true,findings)) :
    verifyCertificate H legacy key manifest =
      .ok (if signatureFits key (unsigned manifest) (signatureOf manifest) then (true,findings)
      else (false,[.signatureInvalid])) := by
  rw [verifyCertificate, if_neg (not_not.mpr hmiss), hsigned, if_neg (by decide)]
  split
  · exact hfound
  · rfl

end UnlearnShield.VerifierCli
