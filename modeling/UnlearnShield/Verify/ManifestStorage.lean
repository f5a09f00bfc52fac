import UnlearnShield.Verify.VerifierCli
import UnlearnShield.Verify.SmtComplete

/-! # Signatures after storage

The siblings of an absence proof are keyed by integers when the manifest is signed
and by strings once it was stored. The signed text lists them by value, the text
the verifier recomputes lists them by code point, and the two agree exactly when
the shown depths have the same order both ways.
-/
namespace UnlearnShield.Storage
open Smt Json Manifest VerifierCli
variable (H : Bytes → Digest) (legacy : PyVal → PyVal → PyVal → Py Bool)

structure OtherFields where
  shard : ℤ
  resumedFrom : String
  codeDigest : String
  configDigest : String
  resultWeights : String
  modelVersion : String
  purgedAt : String
  completedAt : String

def fieldsOf (subjectRef datasetRoot : String) (absenceProof : PyVal) (f : OtherFields) : Pairs :=
  Manifest.build subjectRef f.shard f.resumedFrom datasetRoot absenceProof f.codeDigest f.configDigest f.resultWeights
    f.modelVersion f.purgedAt f.completedAt

def manifestFor (S : List Ref) (t : Ref) (f : OtherFields) : Py Pairs := do
  let tree ← SparseMerkleTree.ofRefs (H := H) S
  let proof ← tree.proveAbsence t
  pure (fieldsOf t.val.hex tree.root proof f)

/-- `m["signature"] = sign_manifest(m)`. -/
def signed (key : KeyPair) (m : Pairs) : Py Pairs := do
  let signature ← signManifest (some key) m
  pure (m ++ [(.str "signature",.str signature)])

/-- The stored manifest has the text that was signed, and the stored certificate is accepted. -/
def Survives (key : KeyPair) (O : ObjectOrder) (m : Pairs) : Prop :=
  canonicalBytes (storedPairs O m) = canonicalBytes m ∧
  ∃ certificate findings, signed key m = .ok certificate ∧
    verifyCertificate H legacy key (storedPairs O certificate) = .ok (true,findings)

section Siblings

def siblingText (e : ℕ × Digest) : Text := quote (toString e.1) ++ ':' :: quote e.2.val.hex

def textLe (a b : ℕ × Digest) : Prop := toString a.1 ≤ toString b.1

instance : DecidableRel textLe := fun a b => inferInstanceAs (Decidable (toString a.1 ≤ toString b.1))

theorem escapeChar_of_plain {c : Char} (h : 48 ≤ c.toNat ∧ c.toNat ≤ 57 ∨ 97 ≤ c.toNat ∧ c.toNat ≤ 102) :
    escapeChar c = [c] := by
  have hrange : ' ' ≤ c ∧ c ≤ '~' := by
    rw [Char.le_def, Char.le_def, UInt32.le_iff_toNat_le, UInt32.le_iff_toNat_le]
    change 32 ≤ c.toNat ∧ c.toNat ≤ 126
    omega
  have hne : ∀ d : Char, d.toNat < 48 ∨ d.toNat = 92 → c ≠ d := by
    rintro d hd rfl
    omega
  unfold escapeChar
  rw [if_neg (hne '"' (by decide)), if_neg (hne '\\' (by decide)), if_neg (hne '\n' (by decide)),
    if_neg (hne '\r' (by decide)), if_neg (hne '\t' (by decide)), if_neg (hne '\x08' (by decide)),
    if_neg (hne '\x0c' (by decide)), if_pos hrange]

theorem quote_of_plain {cs : List Char}
    (h : ∀ c ∈ cs, 48 ≤ c.toNat ∧ c.toNat ≤ 57 ∨ 97 ≤ c.toNat ∧ c.toNat ≤ 102) :
    quote (String.ofList cs) = '"' :: cs ++ ['"'] := by
  have hf : cs.flatMap escapeChar = cs := by
    rw [List.flatMap_congr fun c hc => escapeChar_of_plain (h c hc)]
    exact List.flatMap_singleton' cs
  rw [quote, String.toList_ofList, hf]

theorem digitChar_plain {n : ℕ} (h : n < 16) : 48 ≤ (Nat.digitChar n).toNat ∧ (Nat.digitChar n).toNat ≤ 57 ∨
    97 ≤ (Nat.digitChar n).toNat ∧ (Nat.digitChar n).toNat ≤ 102 := by
  interval_cases n <;> decide

theorem quote_toString (n : ℕ) : quote (toString n) = '"' :: Nat.toDigits 10 n ++ ['"'] := by
  rw [Nat.toString_eq_ofList_toDigits]
  apply quote_of_plain
  intro c hc
  exact Or.inl (PyInt.isDigit_range (Nat.isDigit_of_mem_toDigits (by decide) le_rfl hc))

theorem quote_hex (b : Bytes) : quote b.hex = '"' :: b.hexChars ++ ['"'] := by
  apply quote_of_plain
  intro c hc
  obtain ⟨x,-,hx⟩ := List.mem_flatMap.mp hc
  have hlt := x.toNat_lt
  rcases List.mem_pair.mp hx with rfl | rfl
  · exact digitChar_plain (by omega)
  · exact digitChar_plain (by omega)

/-- A closing quote ends what stands before it. -/
theorem append_quote_inj {ds ds' x x' : Text} (h : '"' ∉ ds) (h' : '"' ∉ ds')
    (he : ds ++ '"' :: x = ds' ++ '"' :: x') : ds = ds' ∧ x = x' := by
  induction ds generalizing ds' with
  | nil =>
    cases ds' with
    | nil => exact ⟨rfl,(List.cons.inj he).2⟩
    | cons d ds' => exact absurd ((List.cons.inj he).1 ▸ List.mem_cons_self) h'
  | cons c ds ih =>
    cases ds' with
    | nil => exact absurd ((List.cons.inj he).1 ▸ List.mem_cons_self) h
    | cons d ds' =>
      obtain ⟨rfl,hrest⟩ := List.cons.inj he
      obtain ⟨rfl,rfl⟩ := ih (fun hm => h (List.mem_cons_of_mem c hm)) (fun hm => h' (List.mem_cons_of_mem c hm)) hrest
      exact ⟨rfl,rfl⟩

/-- An entry can be read off the front of a text. -/
theorem siblingText_append_inj {e e' : ℕ × Digest} {x x' : Text} (h : siblingText e ++ x = siblingText e' ++ x') :
    e = e' ∧ x = x' := by
  have hquote : ∀ n, '"' ∉ Nat.toDigits 10 n := by
    intro n hm
    have hr := PyInt.isDigit_range (Nat.isDigit_of_mem_toDigits (by decide) le_rfl hm)
    exact absurd hr.1 (by decide)
  simp only [siblingText, quote_toString, quote_hex, List.cons_append, List.append_assoc, List.cons.injEq,
    List.nil_append, true_and] at h
  obtain ⟨hd,hrest⟩ := append_quote_inj (hquote _) (hquote _) h
  simp only [List.cons.injEq, true_and] at hrest
  have hlen : e.2.val.hexChars.length = e'.2.val.hexChars.length := by
    rw [Bytes.length_hexChars, Bytes.length_hexChars, e.2.2, e'.2.2]
  obtain ⟨hx,hx'⟩ := List.append_inj hrest hlen
  have hdepth : e.1 = e'.1 := by
    apply toString_injective
    rw [Nat.toString_eq_ofList_toDigits, Nat.toString_eq_ofList_toDigits, hd]
  have hdigest : e.2.val = e'.2.val := Bytes.hex_injective (congrArg String.ofList hx)
  exact ⟨Prod.ext hdepth (Subtype.ext hdigest),(List.cons.inj hx').2⟩

/-- The entries, in their order, can be read off the text of a siblings object. -/
theorem commaJoin_siblingText_inj {l l' : List (ℕ × Digest)} (hlen : l.length = l'.length)
    (h : commaJoin (l.map siblingText) = commaJoin (l'.map siblingText)) : l = l' := by
  have htail : ∀ l l' : List (ℕ × Digest), l.length = l'.length →
      (l.map siblingText).flatMap (fun u => ',' :: u) = (l'.map siblingText).flatMap (fun u => ',' :: u) → l = l' := by
    intro l
    induction l with
    | nil => exact fun l' hl _ => (List.length_eq_zero_iff.mp hl.symm).symm
    | cons e l ih =>
      intro l' hl ht
      cases l' with
      | nil => cases hl
      | cons e' l' =>
        simp only [List.map_cons, List.flatMap_cons, List.cons_append, List.cons.injEq, true_and] at ht
        obtain ⟨rfl,hrest⟩ := siblingText_append_inj ht
        rw [ih l' (by simpa using hl) hrest]
  cases l with
  | nil => exact (List.length_eq_zero_iff.mp hlen.symm).symm
  | cons e l =>
    cases l' with
    | nil => cases hlen
    | cons e' l' =>
      simp only [List.map_cons, commaJoin_cons] at h
      obtain ⟨rfl,hrest⟩ := siblingText_append_inj h
      rw [htail l l' (by simpa using hlen) hrest]

variable {siblings : List (ℕ × Digest)}

theorem dumps_siblings (hs : siblings.Pairwise fun a b => a.1 < b.1) :
    dumps (.dict (siblingPairs siblings)) = .ok ('{' :: commaJoin (siblings.map siblingText) ++ ['}']) := by
  have hn : (siblings.map Prod.fst).Nodup := (List.pairwise_map.mpr hs).imp fun h => h.ne
  let items : List (PyKey × Text) := siblings.map fun e => (.int (e.1 : ℤ),quote e.2.val.hex)
  have hsorted : items.Pairwise itemLe := List.pairwise_map.mpr (hs.imp fun h => Int.ofNat_le.mpr h.le)
  have hkind : OneKind items := Or.inl (List.forall_mem_map.mpr fun _ _ => rfl)
  have hdumps : dumps (.dict (siblingPairs siblings)) = objectText (items.map fun e => (e.1,.ok e.2)) := by
    rw [dumps_dict (siblingPairs_nodup hn).1, siblingPairs, List.map_map, List.map_map]
    congr 1
  rw [hdumps, objectText_ok hkind, hsorted.insertionSort_eq, List.map_map]
  rfl

theorem dumps_storedSiblings (O : ObjectOrder) (hn : (siblings.map Prod.fst).Nodup) :
    dumps (.dict (storedPairs O (siblingPairs siblings))) =
      .ok ('{' :: commaJoin ((siblings.insertionSort textLe).map siblingText) ++ ['}']) := by
  obtain ⟨hp,hs⟩ := storedPairs_siblings O hn
  let items : List (PyKey × Text) := siblings.map fun e => (.str (toString e.1),quote e.2.val.hex)
  have hkind : OneKind items := Or.inr (List.forall_mem_map.mpr fun _ _ => rfl)
  have hdumps : dumps (.dict (storedPairs O (siblingPairs siblings))) =
      objectText (items.map fun e => (e.1,.ok e.2)) := by
    rw [dumps_perm hs hp, dumps_dict ((hp.map Prod.fst).nodup_iff.mp hs), storedSiblingPairs, List.map_map,
      List.map_map]
    congr 1
  have hmap : (siblings.insertionSort textLe).map (fun e => (PyKey.str (toString e.1),quote e.2.val.hex)) =
      items.insertionSort itemLe :=
    List.map_insertionSort textLe itemLe _ siblings fun _ _ _ _ => Iff.rfl
  rw [hdumps, objectText_ok hkind, ← hmap, List.map_map]
  rfl

/-- The stored siblings have the signed text exactly when both orders agree. -/
theorem dumps_storedSiblings_eq (O : ObjectOrder) (hs : siblings.Pairwise fun a b => a.1 < b.1) :
    dumps (.dict (storedPairs O (siblingPairs siblings))) = dumps (.dict (siblingPairs siblings)) ↔
      siblings.Pairwise textLe := by
  have hn : (siblings.map Prod.fst).Nodup := (List.pairwise_map.mpr hs).imp fun h => h.ne
  have htotal : Std.Total textLe := ⟨fun a b => le_total (toString a.1) (toString b.1)⟩
  have htrans : IsTrans (ℕ × Digest) textLe := ⟨fun _ _ _ hab hbc => le_trans (α := String) hab hbc⟩
  rw [dumps_siblings hs, dumps_storedSiblings O hn]
  simp only [Except.ok.injEq, List.cons_append, List.cons.injEq, true_and, List.append_left_inj]
  constructor
  · intro h
    have hl := commaJoin_siblingText_inj (List.length_insertionSort _ _) h
    rw [← hl]
    exact List.pairwise_insertionSort textLe siblings
  · intro h
    rw [h.insertionSort_eq]

theorem dumps_reload_proofOf (O : ObjectOrder) (hs : siblings.Pairwise fun a b => a.1 < b.1) :
    (∃ t, dumps (proofOf siblings) = .ok t) ∧ (∃ t, dumps (reload O (proofOf siblings)) = .ok t) ∧
    (dumps (reload O (proofOf siblings)) = dumps (proofOf siblings) ↔ siblings.Pairwise textLe) := by
  have hn : (siblings.map Prod.fst).Nodup := (List.pairwise_map.mpr hs).imp fun h => h.ne
  have hmem : (.str "siblings",.dict (siblingPairs siblings)) ∈ proofPairs siblings :=
    List.mem_cons_of_mem _ List.mem_cons_self
  have hstr : ∀ e ∈ proofPairs siblings, .str (keyText e.1) = e.1 := by
    simp [proofPairs, keyText]
  have hv := dumps_siblings hs
  have hv' := dumps_storedSiblings O hn
  rw [← reload_eq_storedPairs] at hv'
  have ho : ∀ e ∈ proofPairs siblings, e.1 ≠ .str "siblings" → reload O e.2 = e.2 ∧ ∃ u, dumps e.2 = .ok u := by
    intro e he hne
    rcases List.mem_pair.mp he with rfl | rfl
    · exact ⟨reload_str O _,_,dumps_str _⟩
    · exact absurd rfl hne
  obtain ⟨h₁,h₂,hiff⟩ := dumps_reload_member O (proofPairs_nodup siblings).1 hstr hmem hv hv' ho
  refine ⟨h₁,h₂,?_⟩
  rw [proofOf_eq, hiff, ← dumps_storedSiblings_eq O hs, hv, ← reload_eq_storedPairs, hv', Except.ok.injEq]

end Siblings

section Fields
variable {subjectRef datasetRoot : String} {absenceProof : PyVal} {f : OtherFields}

theorem fieldsOf_keys (subjectRef datasetRoot : String) (absenceProof : PyVal) (f : OtherFields) :
    (fieldsOf subjectRef datasetRoot absenceProof f).map Prod.fst = REQUIRED_FIELDS.map PyKey.str := rfl

theorem required_nodup : (REQUIRED_FIELDS.map PyKey.str).Nodup := by decide

theorem fieldsOf_nodup : ((fieldsOf subjectRef datasetRoot absenceProof f).map Prod.fst).Nodup := by
  rw [fieldsOf_keys]
  exact required_nodup

theorem fieldsOf_keyText : ∀ e ∈ fieldsOf subjectRef datasetRoot absenceProof f, .str (keyText e.1) = e.1 := by
  intro e he
  have hm : e.1 ∈ REQUIRED_FIELDS.map PyKey.str := by
    rw [← fieldsOf_keys subjectRef datasetRoot absenceProof f]
    exact List.mem_map_of_mem he
  obtain ⟨s,-,hs⟩ := List.mem_map.mp hm
  rw [← hs]
  rfl

/-- Every field but the proof is a number or a string. -/
theorem fieldsOf_scalar (O : ObjectOrder) : ∀ e ∈ fieldsOf subjectRef datasetRoot absenceProof f,
    e.1 ≠ .str "absence_proof" → reload O e.2 = e.2 ∧ ∃ u, dumps e.2 = .ok u := by
  intro e he hne
  simp only [fieldsOf, Manifest.build, List.mem_cons, List.not_mem_nil, or_false] at he
  rcases he with rfl | rfl | rfl | rfl | rfl | rfl | rfl | rfl | rfl | rfl | rfl
  all_goals first
    | exact absurd rfl hne
    | exact ⟨reload_str O _,_,dumps_str _⟩
    | exact ⟨reload_int O _,_,dumps_int _⟩

theorem missingFields_fieldsOf : missingFields (fieldsOf subjectRef datasetRoot absenceProof f) = [] := by
  rw [missingFields_eq_nil]
  intro s hs
  rw [mem_ofList fieldsOf_nodup, fieldsOf_keys]
  exact List.mem_map_of_mem hs

/-- Storage preserves the signed bytes exactly when it preserves the text of the proof. -/
theorem canonicalBytes_stored (subjectRef datasetRoot : String) (f : OtherFields) (O : ObjectOrder) {text text' : Text}
    (hv : dumps absenceProof = .ok text) (hv' : dumps (reload O absenceProof) = .ok text') :
    (∃ message, canonicalBytes (fieldsOf subjectRef datasetRoot absenceProof f) = .ok message) ∧
    (canonicalBytes (storedPairs O (fieldsOf subjectRef datasetRoot absenceProof f)) =
      canonicalBytes (fieldsOf subjectRef datasetRoot absenceProof f) ↔ text' = text) := by
  have hmem : (.str "absence_proof",absenceProof) ∈ fieldsOf subjectRef datasetRoot absenceProof f := by
    simp [fieldsOf, Manifest.build]
  obtain ⟨⟨u,hu⟩,⟨u',hu'⟩,hiff⟩ := dumps_reload_member O fieldsOf_nodup fieldsOf_keyText hmem hv hv' (fieldsOf_scalar O)
  rw [reload_eq_storedPairs] at hu' hiff
  have hmiss : missingFields (fieldsOf subjectRef datasetRoot absenceProof f) = [] := missingFields_fieldsOf
  obtain ⟨hp,hn⟩ := storedPairs_perm_of_str O (fieldsOf_nodup (f := f)) fieldsOf_keyText
  have hmiss' : missingFields (storedPairs O (fieldsOf subjectRef datasetRoot absenceProof f)) = [] := by
    rw [missingFields_eq_nil]
    intro s hs
    rw [mem_ofList hn, (hp.map Prod.fst).mem_iff, List.map_map]
    exact missingFields_eq_nil.mp hmiss s hs |> (mem_ofList fieldsOf_nodup).mp
  have hc := canonicalBytes_of_dumps hmiss hu
  have hc' := canonicalBytes_of_dumps hmiss' hu'
  refine ⟨⟨_,hc⟩,?_⟩
  rw [hc, hc', ← hiff, hu, hu', Except.ok.injEq, Except.ok.injEq, encode_injective.eq_iff]

end Fields

section Certificate
variable {H legacy} {t : Ref} {root : Digest} {absenceProof : PyVal} {f : OtherFields} {key : KeyPair}
  {O : ObjectOrder}

/-- A stored certificate, without its signature, has the members of the stored manifest. -/
theorem storedCertificate (m : Pairs) (hk : m.map Prod.fst = REQUIRED_FIELDS.map PyKey.str) (signature : String) :
    let stored := storedPairs O (m ++ [(.str "signature",.str signature)])
    (stored.map Prod.fst).Nodup ∧ (.str "signature",.str signature) ∈ stored ∧
      ((Dict.ofList stored).erase (.str "signature")).entries.Perm (m.map fun e => (e.1,reload O e.2)) := by
  have hkeys : (m ++ [(PyKey.str "signature",PyVal.str signature)]).map Prod.fst =
      (REQUIRED_FIELDS ++ ["signature"]).map PyKey.str := by
    rw [List.map_append, List.map_append, hk]
    rfl
  have hnodup : ((m ++ [(PyKey.str "signature",PyVal.str signature)]).map Prod.fst).Nodup := by
    rw [hkeys]
    decide
  have hstr : ∀ e ∈ m ++ [(PyKey.str "signature",PyVal.str signature)], .str (keyText e.1) = e.1 := by
    intro e he
    have hm := List.mem_map_of_mem (f := Prod.fst) he
    rw [hkeys] at hm
    obtain ⟨s,-,hs⟩ := List.mem_map.mp hm
    rw [← hs]
    rfl
  have hne : ∀ e ∈ m, e.1 ≠ .str "signature" := by
    intro e he hs
    have hm := List.mem_map_of_mem (f := Prod.fst) he
    rw [hk, hs] at hm
    exact absurd hm (by decide)
  obtain ⟨hp,hn⟩ := storedPairs_perm_of_str O hnodup hstr
  refine ⟨hn,?_,?_⟩
  · apply hp.mem_iff.mpr
    rw [List.map_append]
    exact List.mem_append_right _ (by simp)
  · rw [Dict.entries_erase, Dict.entries_ofList hn]
    refine (hp.filter _).trans ?_
    rw [List.map_append, List.filter_append]
    have hm : (m.map fun e => (e.1,reload O e.2)).filter (fun e => e.1 ≠ .str "signature") =
        m.map fun e => (e.1,reload O e.2) := by
      rw [List.filter_eq_self]
      exact List.forall_mem_map.mpr fun e he => decide_eq_true (hne e he)
    rw [hm]
    simp

section Stored
variable {m : Pairs} {signature : String}

theorem mem_unsigned_stored (hk : m.map Prod.fst = REQUIRED_FIELDS.map PyKey.str) {k : PyKey} {v : PyVal}
    (h : (k,v) ∈ m) :
    (k,reload O v) ∈ unsigned (storedPairs O (m ++ [(.str "signature",.str signature)])) := by
  obtain ⟨-,-,hperm⟩ := storedCertificate (O := O) m hk signature
  exact hperm.mem_iff.mpr (List.mem_map_of_mem (f := fun e => (e.1,reload O e.2)) h)

theorem missingFields_stored (hk : m.map Prod.fst = REQUIRED_FIELDS.map PyKey.str) :
    missingFields (storedPairs O (m ++ [(.str "signature",.str signature)])) = [] := by
  obtain ⟨hn,-,-⟩ := storedCertificate (O := O) m hk signature
  rw [missingFields_eq_nil]
  intro field hfield
  obtain ⟨e,he,hkey⟩ : ∃ e ∈ m, e.1 = PyKey.str field := by
    apply List.mem_map.mp
    rw [hk]
    exact List.mem_map_of_mem hfield
  have hin : (e.1,reload O e.2) ∈ storedPairs O (m ++ [(.str "signature",.str signature)]) :=
    mem_of_mem_unsigned (mem_unsigned_stored hk he)
  rw [mem_ofList hn, ← hkey]
  exact List.mem_map.mpr ⟨_,hin,rfl⟩

theorem signatureOf_stored (hk : m.map Prod.fst = REQUIRED_FIELDS.map PyKey.str) :
    signatureOf (storedPairs O (m ++ [(.str "signature",.str signature)])) = .str signature := by
  obtain ⟨hn,hsig,-⟩ := storedCertificate (O := O) m hk signature
  have hget : (Dict.ofList (storedPairs O (m ++ [(.str "signature",.str signature)]))).get? (.str "signature") =
    some (.str signature) := by
    rw [Dict.get?_eq_some, Dict.entries_ofList hn]
    exact hsig
  rw [signatureOf, hget]
  rfl

theorem subscript_stored (hk : m.map Prod.fst = REQUIRED_FIELDS.map PyKey.str) {field : String} {v : PyVal}
    (h : (.str field,v) ∈ m) :
    (PyVal.dict (storedPairs O (m ++ [(.str "signature",.str signature)]))).subscript field = .ok (reload O v) := by
  have hne : field ≠ "signature" := by
    rintro rfl
    have hfield : PyKey.str "signature" ∈ m.map Prod.fst := List.mem_map_of_mem h
    rw [hk] at hfield
    exact absurd hfield (by decide)
  rw [← subscript_unsigned hne]
  exact PyVal.subscript_of_mem (Dict.nodup _) (mem_unsigned_stored hk h)

end Stored

/-- A stored certificate with a valid proof is decided by its signature. -/
theorem verifyCertificate_stored (legacy : PyVal → PyVal → PyVal → Py Bool) (key : KeyPair) (f : OtherFields)
    {signature : String} (hne : signature ≠ "") (hsmt : isSmtProof (reload O absenceProof) = true)
    (hproof : Smt.verifyAbsence H (.str t.val.hex) (reload O absenceProof) (.str root.val.hex) = .ok true) :
    ∃ findings, verifyCertificate H legacy key
      (storedPairs O (fieldsOf t.val.hex root.val.hex absenceProof f ++ [(.str "signature",.str signature)])) =
      .ok (if signatureFits key (unsigned
      (storedPairs O (fieldsOf t.val.hex root.val.hex absenceProof f ++ [(.str "signature",.str signature)])))
        (signatureOf
        (storedPairs O (fieldsOf t.val.hex root.val.hex absenceProof f ++ [(.str "signature",.str signature)])))
      then (true,findings) else (false,[.signatureInvalid])) := by
  have hkeys := fieldsOf_keys t.val.hex root.val.hex absenceProof f
  have htruthy :
    truthy (signatureOf (storedPairs O (fieldsOf t.val.hex root.val.hex absenceProof f ++
      [(.str "signature",.str signature)]))) = true := by
    rw [signatureOf_stored hkeys]
    exact decide_eq_true hne
  have hmem : ∀ k v, (k,v) ∈ fieldsOf t.val.hex root.val.hex absenceProof f →
      (k,reload O v) ∈ unsigned
        (storedPairs O (fieldsOf t.val.hex root.val.hex absenceProof f ++ [(.str "signature",.str signature)])) :=
    fun k v h => mem_unsigned_stored hkeys h
  have hfield : ∀ k s, (k,PyVal.str s) ∈ fieldsOf t.val.hex root.val.hex absenceProof f →
      (k,PyVal.str s) ∈ unsigned
        (storedPairs O (fieldsOf t.val.hex root.val.hex absenceProof f ++ [(.str "signature",.str signature)])) := by
    intro k s h
    simpa using hmem k (.str s) h
  obtain ⟨findings,hfound⟩ := verifySigned_of_mem H legacy (Dict.nodup _)
    (hfield (.str "subject_ref") t.val.hex (by simp [fieldsOf, Manifest.build]))
    (hmem (.str "absence_proof") absenceProof (by simp [fieldsOf, Manifest.build]))
    (hfield (.str "dataset_root") root.val.hex (by simp [fieldsOf, Manifest.build]))
    (hmem (.str "shard") (.int f.shard) (by simp [fieldsOf, Manifest.build]))
    (hmem (.str "model_version") (.str f.modelVersion) (by simp [fieldsOf, Manifest.build]))
    (hfield (.str "result_weights") f.resultWeights (by simp [fieldsOf, Manifest.build]))
    (hmem (.str "code_digest") (.str f.codeDigest) (by simp [fieldsOf, Manifest.build]))
    (verifyAbsence_smt H legacy hsmt hproof)
  exact ⟨findings,verifyCertificate_eq (missingFields_stored hkeys) htruthy hfound⟩

/-- A signature fits what is stored when its bytes are those that were signed. -/
theorem signatureFits_stored {subjectRef datasetRoot : String} {message : Bytes} {signature : String}
    (hs : canonicalBytes (storedPairs O (fieldsOf subjectRef datasetRoot absenceProof f)) = .ok message) :
    signatureFits key
      (unsigned (storedPairs O (fieldsOf subjectRef datasetRoot absenceProof f ++ [(.str "signature",.str signature)])))
      (.str (key.sign message).hex) = true := by
  obtain ⟨-,-,hperm⟩ := storedCertificate (O := O) _ (fieldsOf_keys subjectRef datasetRoot absenceProof f) signature
  obtain ⟨hstored,-⟩ := storedPairs_perm_of_str O (fieldsOf_nodup (f := f)) fieldsOf_keyText
  have hbytes : canonicalBytes
    (unsigned (storedPairs O (fieldsOf subjectRef datasetRoot absenceProof f ++ [(.str "signature",.str signature)]))) =
      .ok message := by
    rw [← hs]
    exact canonicalBytes_perm (Dict.nodup _) (hperm.trans hstored.symm)
  rw [signatureFits, hbytes, Smt.PyVal.fromhex_hex]
  exact key.verify_sign message

theorem signature_ne_empty (key : KeyPair) (message : Bytes) : (key.sign message).hex ≠ "" := by
  have hlen := Bytes.length_hexChars (key.sign message)
  rw [key.length_sign] at hlen
  intro he
  have hnil : (key.sign message).hexChars = [] := String.ofList_injective he
  rw [hnil] at hlen
  cases hlen

/-- A stored certificate whose signed bytes survived is accepted. -/
theorem exists_accepted (hsmt : isSmtProof (reload O absenceProof) = true)
    (hproof : Smt.verifyAbsence H (.str t.val.hex) (reload O absenceProof) (.str root.val.hex) = .ok true)
    {message : Bytes} (hc : canonicalBytes (fieldsOf t.val.hex root.val.hex absenceProof f) = .ok message)
    (hs : canonicalBytes (storedPairs O (fieldsOf t.val.hex root.val.hex absenceProof f)) = .ok message) :
    ∃ certificate findings, signed key (fieldsOf t.val.hex root.val.hex absenceProof f) = .ok certificate ∧
      verifyCertificate H legacy key (storedPairs O certificate) = .ok (true,findings) := by
  have hsigned : signed key (fieldsOf t.val.hex root.val.hex absenceProof f) =
      .ok (fieldsOf t.val.hex root.val.hex absenceProof f ++ [(.str "signature",.str (key.sign message).hex)]) := by
    rw [signed, signManifest, hc]
    rfl
  obtain ⟨findings,haccepted⟩ := verifyCertificate_stored legacy key f (signature_ne_empty key message) hsmt hproof
  rw [signatureOf_stored (fieldsOf_keys ..), signatureFits_stored hs, if_pos rfl] at haccepted
  exact ⟨_,findings,hsigned,haccepted⟩

end Certificate

section Survival
variable {H} {t : Ref} {ks : List Ref}

/-- A proof lists its depths in textual order when any two shown depths agree on it. -/
theorem siblingsAt_pairwise_textLe (p : ℕ → Prop) [DecidablePred p] :
    (siblingsAt H p t ks 0 DEPTH).Pairwise textLe ↔
      ∀ a b, a < b → b < DEPTH → p a → p b → toString a < toString b := by
  have hlt := siblingsAt_pairwise (H := H) p t ks 0 DEPTH
  constructor
  · intro h a b hab hb hpa hpb
    let Q : ℕ × Digest → ℕ × Digest → Prop := fun u v => (u.1 < v.1 → textLe u v) ∧ (v.1 < u.1 → textLe v u)
    have hQ : (siblingsAt H p t ks 0 DEPTH).Pairwise Q :=
      (hlt.and h).imp fun {u v} huv => ⟨fun _ => huv.2,fun hvu => absurd huv.1 (by omega)⟩
    have hma : (a,sideRoot H t ks a) ∈ siblingsAt H p t ks 0 DEPTH :=
      mem_siblingsAt.mpr ⟨⟨Nat.zero_le a,by omega⟩,hpa,rfl⟩
    have hmb : (b,sideRoot H t ks b) ∈ siblingsAt H p t ks 0 DEPTH :=
      mem_siblingsAt.mpr ⟨⟨Nat.zero_le b,by omega⟩,hpb,rfl⟩
    have hsymm : Std.Symm Q := ⟨fun u v huv => ⟨huv.2,huv.1⟩⟩
    have hrefl : ∀ u ∈ siblingsAt H p t ks 0 DEPTH, Q u u :=
      fun u _ => ⟨fun h => absurd h (lt_irrefl _),fun h => absurd h (lt_irrefl _)⟩
    have hle : toString a ≤ toString b := (hQ.forall_of_forall hrefl hma hmb).1 hab
    exact lt_of_le_of_ne hle fun he => hab.ne (toString_injective he)
  · intro h
    refine hlt.imp_of_mem ?_
    rintro ⟨a,x⟩ ⟨b,y⟩ ha hb hab
    obtain ⟨-,hpa,-⟩ := mem_siblingsAt.mp ha
    obtain ⟨⟨-,hbd⟩,hpb,-⟩ := mem_siblingsAt.mp hb
    exact (h a b hab (by omega) hpa hpb).le

theorem isSmtProof_reload (O : ObjectOrder) {siblings : List (ℕ × Digest)} (hn : (siblings.map Prod.fst).Nodup)
    (hl : ∀ a ∈ siblings, a.1 < DEPTH) : isSmtProof (reload O (proofOf siblings)) = true := by
  have hw := (wellFormed_reload O hn hl).scheme
  rw [proofOf_eq, reload_eq_storedPairs] at hw ⊢
  rw [PyVal.get, Except.ok.injEq] at hw
  rw [isSmtProof, hw]
  rfl

variable (H) in
/-- The siblings that a fresh tree over `S` shows for `t`. -/
def shownSiblings (S : List Ref) (t : Ref) : List (ℕ × Digest) :=
  siblingsAt H (ShownDepth H t (keys S)) t (keys S) 0 DEPTH

theorem manifestFor_eq {S : List Ref} {t : Ref} (ht : t ∉ S) (f : OtherFields) : manifestFor H S t f =
    .ok (fieldsOf t.val.hex (rootOf H S).val.hex (proofOf (shownSiblings H S t)) f) := by
  obtain ⟨tree,htree,hkeys⟩ := SparseMerkleTree.exists_ofRefs (H := H) S
  have ht' : t ∉ tree.keys := fun h => ht (mem_keys.mp (hkeys ▸ h))
  have hon : onPath H t 0 (keys S) = keys S := (trie H).onPath_zero t _
  have hbuild := SparseMerkleTree.ofRefs_node htree
  rw [← hon] at hbuild
  have hprove : tree.proveAbsence t = .ok (proofOf (walk H t tree.node 0)) := if_neg ht'
  have hroot := tree.root_eq
  rw [walk_build (Nat.zero_add DEPTH) hbuild] at hprove
  rw [hkeys] at hroot
  rw [manifestFor, htree, ok_bind, hprove, hroot]
  rfl

/-- Storage keeps the signed bytes exactly when the shown depths have one order. -/
theorem canonicalBytes_shown (O : ObjectOrder) (subjectRef datasetRoot : String) (S : List Ref) (t : Ref)
    (f : OtherFields) :
    canonicalBytes (storedPairs O (fieldsOf subjectRef datasetRoot (proofOf (shownSiblings H S t)) f)) =
      canonicalBytes (fieldsOf subjectRef datasetRoot (proofOf (shownSiblings H S t)) f) ↔
    ∀ a b, a < b → b < DEPTH → ShownDepth H t (keys S) a → ShownDepth H t (keys S) b → toString a < toString b := by
  have hsorted := siblingsAt_pairwise (H := H) (ShownDepth H t (keys S)) t (keys S) 0 DEPTH
  obtain ⟨⟨text,htext⟩,⟨text',htext'⟩,hiff⟩ := dumps_reload_proofOf O hsorted
  obtain ⟨-,hcanon⟩ := canonicalBytes_stored subjectRef datasetRoot f O htext htext'
  rw [htext, htext', Except.ok.injEq] at hiff
  rw [← siblingsAt_pairwise_textLe (H := H), ← hiff]
  exact hcanon

theorem exists_canonicalBytes (subjectRef datasetRoot : String) (S : List Ref) (t : Ref) (f : OtherFields) :
    ∃ message, canonicalBytes (fieldsOf subjectRef datasetRoot (proofOf (shownSiblings H S t)) f) = .ok message := by
  have hsorted := siblingsAt_pairwise (H := H) (ShownDepth H t (keys S)) t (keys S) 0 DEPTH
  obtain ⟨⟨text,htext⟩,⟨text',htext'⟩,-⟩ := dumps_reload_proofOf .written hsorted
  exact (canonicalBytes_stored subjectRef datasetRoot f .written htext htext').1

theorem sideRoot_of_not_shown {i : ℕ} (h : ¬ShownDepth H t ks i) : sideRoot H t ks i = defaults H (i+1) := by
  by_cases ho : offPath H t i ks = []
  · exact sideRoot_of_offPath_nil ho
  · by_contra hne
    exact h ⟨ho,Or.inl hne⟩

variable (H) in
/-- The manifest signed for `t` survives storage exactly when no two depths its proof shows
are ordered one way as numbers and the other way as text. -/
theorem survives_iff (S : List Ref) (t : Ref) (ht : t ∉ S) (f : OtherFields) (key : KeyPair) (O : ObjectOrder) :
    ∃ m, manifestFor H S t f = .ok m ∧ (Survives H legacy key O m ↔
      ∀ a b, a < b → b < DEPTH → ShownDepth H t (keys S) a → ShownDepth H t (keys S) b → toString a < toString b) := by
  refine ⟨_,manifestFor_eq ht f,?_⟩
  rw [← canonicalBytes_shown O t.val.hex (rootOf H S).val.hex S t f]
  obtain ⟨message,hc⟩ := exists_canonicalBytes (H := H) t.val.hex (rootOf H S).val.hex S t f
  have hn : ((shownSiblings H S t).map Prod.fst).Nodup := siblingsAt_nodup _ t (keys S) 0 DEPTH
  have hproof : Smt.verifyAbsence H (.str t.val.hex) (reload O (proofOf (shownSiblings H S t)))
      (.str (rootOf H S).val.hex) = .ok true :=
    verifyAbsence_reload O (fun h => ht (mem_keys.mp h)) fun _ => sideRoot_of_not_shown
  constructor
  · exact fun h => h.1
  · exact fun h => ⟨h,exists_accepted (isSmtProof_reload O hn siblingsAt_lt) hproof hc (h.trans hc)⟩

end Survival

section FailingInput

def nodeNat (left right : ℕ) : ℕ := Sha256.digestNat 65 ((256 ^ 32 + left) * 256 ^ 32 + right) % 256 ^ 32

/-- Hash `x` upward as the left child of `n` all-empty siblings, starting at the sibling `d`,
and compare the result with the default of that height. -/
def isDefaultAfter : ℕ → ℕ → ℕ → Bool
  | 0, x, d => x == d
  | n + 1, x, d => Sha256.withNat (nodeNat x d) fun x' => Sha256.withNat (nodeNat d d) fun d' => isDefaultAfter n x' d'

theorem toNat_inj {x y : Digest} : x.val.toNat = y.val.toNat ↔ x = y :=
  ⟨fun h => Subtype.ext (Bytes.eq_of_toNat_eq (x.2.trans y.2.symm) h),fun h => h ▸ rfl⟩

theorem toNat_node (l r : Digest) : (node sha256 l r).val.toNat = nodeNat l.val.toNat r.val.toNat := by
  have hlen : (nodeInput l r).length = 65 := by simp [nodeInput, l.2, r.2]
  have hnat : (nodeInput l r).toNat = (256 ^ 32 + l.val.toNat) * 256 ^ 32 + r.val.toNat := by
    change Bytes.toNat ([0x01] ++ (l.val ++ r.val)) = _
    rw [← List.append_assoc, Bytes.toNat_append, Bytes.toNat_append, l.2, r.2]
    rfl
  rw [node, toNat_sha256, hlen, hnat, nodeNat]

theorem defaults_eq {d : ℕ} (h : d < DEPTH) : defaults H d = node H (defaults H (d+1)) (defaults H (d+1)) := by
  rw [defaults, defaults, show DEPTH - d = DEPTH - (d+1) + 1 by omega]
  rfl

theorem singletonRoot_eq_node {k : Ref} {d : ℕ} (h : d < DEPTH) (hk : bit k d = false) :
    singletonRoot H k d = node H (singletonRoot H k (d+1)) (defaults H (d+1)) := by
  rw [singletonRoot, show DEPTH - d = DEPTH - (d+1) + 1 by omega, List.range'_succ, List.foldr_cons, if_pos hk]
  rfl

/-- The comparison in numbers is that of the two roots, for a key without further one bits. -/
theorem isDefaultAfter_eq {k : Ref} {n d : ℕ} (hd : d + n ≤ DEPTH)
    (hk : ∀ i, d ≤ i → i < DEPTH → bit k i = false) :
    isDefaultAfter n (singletonRoot sha256 k (d+n)).val.toNat (defaults sha256 (d+n)).val.toNat =
      decide (singletonRoot sha256 k d = defaults sha256 d) := by
  induction n with
  | zero =>
    rw [Bool.eq_iff_iff]
    simp only [isDefaultAfter, Nat.add_zero, beq_iff_eq, decide_eq_true_eq]
    exact toNat_inj
  | succ n ih =>
    have hs := singletonRoot_eq_node (H := sha256) (d := d + n) (by omega) (hk _ (by omega) (by omega))
    have hdef := defaults_eq (H := sha256) (d := d + n) (by omega)
    rw [← ih (by omega), hs, hdef, toNat_node, toNat_node, isDefaultAfter, Sha256.withNat_eq, Sha256.withNat_eq]
    rfl

def oneBit (byte : Fin 32) (value : UInt8) : Ref := ⟨(List.replicate 32 0).set byte value,by simp⟩

def zeroRef : Ref := ⟨List.replicate 32 0,rfl⟩

/-- Leaves the path of `zeroRef` at depth 98. -/
def ref98 : Ref := oneBit 12 0x20

def ref99 : Ref := oneBit 12 0x10

def ref100 : Ref := oneBit 12 0x08

def sampleKey : KeyPair where
  sign := fun _ => List.replicate 64 0
  verify := fun _ signature => signature == List.replicate 64 0
  length_sign := fun _ => rfl
  verify_sign := fun _ => by decide

def sampleFields : OtherFields := ⟨0,"slice1","git:0","sha256:0","00","shard0-00","2024-01-01","2024-01-01"⟩

/-- The root of a lone key is no default where the comparison in numbers finds none. -/
theorem singletonRoot_ne {k : Ref} {n d : ℕ} (hd : d + n = DEPTH) (hk : ∀ i, d ≤ i → i < DEPTH → bit k i = false)
    (h : isDefaultAfter n (leaf sha256 k).val.toNat (emptyLeaf sha256).val.toNat = false) :
    singletonRoot sha256 k d ≠ defaults sha256 d := by
  have heq := isDefaultAfter_eq hd.le hk
  have hleaf : singletonRoot sha256 k (d + n) = leaf sha256 k := by
    rw [hd]
    rfl
  have hempty : defaults sha256 (d + n) = emptyLeaf sha256 := by
    rw [hd]
    rfl
  rw [hleaf, hempty, h] at heq
  exact of_decide_eq_false heq.symm

theorem isDefaultAfter_ref98 :
    isDefaultAfter 157 (leaf sha256 ref98).val.toNat (emptyLeaf sha256).val.toNat = false := by
  decide +kernel

theorem isDefaultAfter_ref99 :
    isDefaultAfter 156 (leaf sha256 ref99).val.toNat (emptyLeaf sha256).val.toNat = false := by
  decide +kernel

theorem shownDepth_of_root {t k : Ref} {ks : List Ref} {i : ℕ} (hi : i < DEPTH) (hoff : offPath sha256 t i ks = [k])
    (hroot : singletonRoot sha256 k (i+1) ≠ defaults sha256 (i+1)) : ShownDepth sha256 t ks i := by
  have hside : sideRoot sha256 t ks i = singletonRoot sha256 k (i+1) := by
    rw [singletonRoot_eq sha256 k hi, ← hoff]
    rfl
  refine ⟨by rw [hoff]; exact List.cons_ne_nil _ _,Or.inl ?_⟩
  rw [hside]
  exact hroot

theorem shownDepth_of_last {t k : Ref} {ks : List Ref} {i : ℕ} (hoff : offPath sha256 t i ks = [k])
    (hon : onPath sha256 t i ks = [k]) : ShownDepth sha256 t ks i :=
  ⟨by rw [hoff]; exact List.cons_ne_nil _ _,Or.inr (by rw [hon]; rfl)⟩

theorem shownDepth_99 : ShownDepth sha256 zeroRef (keys [ref99, ref100]) 99 :=
  shownDepth_of_root (by decide) (show _ = [ref99] by decide +kernel)
    (singletonRoot_ne (by decide) (by decide +kernel) isDefaultAfter_ref99)

theorem shownDepth_100 : ShownDepth sha256 zeroRef (keys [ref99, ref100]) 100 :=
  shownDepth_of_last (show _ = [ref100] by decide +kernel) (by decide +kernel)

/-- A proof that shows depths 99 and 100 does not survive: `"100"` sorts before `"99"`. -/
theorem not_survives_ref99_ref100 : ∃ m, manifestFor sha256 [ref99, ref100] zeroRef sampleFields = .ok m ∧
    ¬Survives sha256 (fun _ _ _ => .ok false) sampleKey .written m := by
  refine ⟨_,manifestFor_eq (by decide +kernel) sampleFields,fun h => ?_⟩
  have horder := (canonicalBytes_shown .written _ _ _ _ _).mp h.1 99 100 (by decide) (by decide) shownDepth_99
    shownDepth_100
  exact absurd horder (by decide)

/-- A proof that shows depths 98 and 99 survives: they have one order as numbers and as text. -/
theorem survives_iff_ref98_ref99 : ∃ m, manifestFor sha256 [ref98, ref99] zeroRef sampleFields = .ok m ∧
    ShownDepth sha256 zeroRef (keys [ref98, ref99]) 98 ∧ ShownDepth sha256 zeroRef (keys [ref98, ref99]) 99 ∧
    Survives sha256 (fun _ _ _ => .ok false) sampleKey .written m := by
  obtain ⟨m,hm,hiff⟩ := survives_iff sha256 (fun _ _ _ => .ok false) [ref98, ref99] zeroRef (by decide +kernel)
    sampleFields sampleKey .written
  have hshown : ∀ i, i < DEPTH → offPath sha256 zeroRef i (keys [ref98, ref99]) ≠ [] → i = 98 ∨ i = 99 := by
    decide +kernel
  refine ⟨m,hm,?_,?_,hiff.mpr fun a b hab hb ha₀ hb₀ => ?_⟩
  · exact shownDepth_of_root (by decide) (show _ = [ref98] by decide +kernel)
      (singletonRoot_ne (by decide) (by decide +kernel) isDefaultAfter_ref98)
  · exact shownDepth_of_last (show _ = [ref99] by decide +kernel) (by decide +kernel)
  · rcases hshown a (hab.trans hb) ha₀.1 with rfl | rfl
    · rcases hshown b hb hb₀.1 with rfl | rfl
      · exact absurd hab (lt_irrefl _)
      · decide
    · rcases hshown b hb hb₀.1 with rfl | rfl
      · exact absurd hab (by decide)
      · exact absurd hab (lt_irrefl _)

end FailingInput

end UnlearnShield.Storage
