import UnlearnShield.Python.JsonText
import UnlearnShield.Crypto.Sha256

/-! # Manifests and their signatures

A manifest is a dictionary of eleven required fields. What is signed is its
canonical JSON text, and the verifier recomputes that text from the dictionary it
was handed.
-/
namespace UnlearnShield.Manifest

def REQUIRED_FIELDS : List String := [
  "subject_ref", "shard", "resumed_from", "dataset_root", "absence_proof",
  "code_digest", "config_digest", "result_weights", "model_version",
  "purged_at", "completed_at"]

abbrev Pairs := List (PyKey × PyVal)

def missingFields (manifest : Pairs) : List String :=
  REQUIRED_FIELDS.filter fun f => PyKey.str f ∉ Dict.ofList manifest

def listRepr (fields : List String) : String :=
  "[" ++ ", ".intercalate (fields.map fun f => "'" ++ f ++ "'") ++ "]"

/-- `text.encode()`. -/
def encode (text : Json.Text) : Bytes := (String.ofList text).toByteArray.data.toList

theorem encode_injective : Function.Injective encode := by
  intro a b h
  have hdata : (String.ofList a).toByteArray.data = (String.ofList b).toByteArray.data := Array.ext' h
  exact String.ofList_injective (String.toByteArray_inj.mp (ByteArray.ext hdata))

def canonicalBytes (manifest : Pairs) : Py Bytes :=
  if missingFields manifest ≠ [] then
    raise .valueError ("manifest missing required fields: " ++ listRepr (missingFields manifest))
  else do
    let text ← Json.dumps (.dict manifest)
    pure (encode text)

def build (subjectRef : String) (shard : ℤ) (resumedFrom datasetRoot : String) (absenceProof : PyVal)
    (codeDigest configDigest resultWeights modelVersion purgedAt completedAt : String) : Pairs := [
  (.str "subject_ref",.str subjectRef),
  (.str "shard",.int shard),
  (.str "resumed_from",.str resumedFrom),
  (.str "dataset_root",.str datasetRoot),
  (.str "absence_proof",absenceProof),
  (.str "code_digest",.str codeDigest),
  (.str "config_digest",.str configDigest),
  (.str "result_weights",.str resultWeights),
  (.str "model_version",.str modelVersion),
  (.str "purged_at",.str purgedAt),
  (.str "completed_at",.str completedAt)]

/-- An Ed25519 key pair; `verify` is whether `VerifyKey.verify` returns. -/
structure KeyPair where
  sign : Bytes → Bytes
  verify : Bytes → Bytes → Bool
  length_sign : ∀ message, (sign message).length = 64
  verify_sign : ∀ message, verify message (sign message) = true

/-- `sign_manifest`; the key comes from the environment. -/
def signManifest (key : Option KeyPair) (manifest : Pairs) : Py String :=
  match key with
  | none => raise .runtimeError
    "UNLEARNSHIELD_SIGNING_KEY unset. Generate a dev key with:\n  python -m verify.sign --generate"
  | some k => do
    let message ← canonicalBytes manifest
    pure (k.sign message).hex

theorem missingFields_eq_nil {manifest : Pairs} :
    missingFields manifest = [] ↔ ∀ f ∈ REQUIRED_FIELDS, PyKey.str f ∈ Dict.ofList manifest := by
  simp [missingFields, List.filter_eq_nil_iff]

theorem mem_ofList {manifest : Pairs} (hn : (manifest.map Prod.fst).Nodup) {k : PyKey} :
    k ∈ Dict.ofList manifest ↔ k ∈ manifest.map Prod.fst := by
  rw [Dict.mem_iff, Dict.keys, Dict.entries_ofList hn]

theorem missingFields_perm {manifest manifest' : Pairs} (hn : (manifest.map Prod.fst).Nodup)
    (h : manifest.Perm manifest') : missingFields manifest = missingFields manifest' := by
  have hn' := (h.map Prod.fst).nodup_iff.mp hn
  apply List.filter_congr
  intro f _
  have hm : PyKey.str f ∈ Dict.ofList manifest ↔ PyKey.str f ∈ Dict.ofList manifest' := by
    rw [mem_ofList hn, mem_ofList hn']
    exact (h.map Prod.fst).mem_iff
  simp only [hm]

theorem canonicalBytes_of_dumps {manifest : Pairs} {text : Json.Text} (hm : missingFields manifest = [])
    (hd : Json.dumps (.dict manifest) = .ok text) : canonicalBytes manifest = .ok (encode text) := by
  rw [canonicalBytes, if_neg (not_not.mpr hm), hd]
  rfl

/-- The canonical bytes do not depend on the order of the fields. -/
theorem canonicalBytes_perm {manifest manifest' : Pairs} (hn : (manifest.map Prod.fst).Nodup)
    (h : manifest.Perm manifest') : canonicalBytes manifest = canonicalBytes manifest' := by
  rw [canonicalBytes, canonicalBytes, missingFields_perm hn h, Json.dumps_perm hn h]

end UnlearnShield.Manifest
