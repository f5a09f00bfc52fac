import UnlearnShield.Verify.SmtProof

/-! # Checking an absence proof

`verify_absence` reads an untrusted JSON value, fills in defaults and hashes upward
from an empty leaf. It accepts exactly when every effective sibling is the root of
the subtree beside the path of the target and the target is absent, unless two
different strings hashed on the way have one hash.
-/
namespace UnlearnShield.Smt
open BitTrie
variable (H : Bytes → Digest)

/-- The loop over `raw.items()`; `none` is an early `return False`. -/
def readSiblings : List (PyKey × PyVal) → Dict ℕ Digest → Py (Option (Dict ℕ Digest))
  | [], siblings => .ok (some siblings)
  | (depth,value) :: rest, siblings => do
    let d ← depth.toInt
    if 0 ≤ d ∧ d < DEPTH then
      let sibling ← value.fromhex
      if h : sibling.length = 32 then readSiblings rest (siblings.insert d.toNat ⟨sibling,h⟩)
      else pure none
    else pure none

theorem length_of_bits {target : Bytes} (h : target.length * 8 = DEPTH) : target.length = 32 := by
  unfold DEPTH at h
  omega

/-- The body of the `try` block. -/
def readProof (targetRef proof : PyVal) : Py (Option (Ref × Dict ℕ Digest)) := do
  let target ← targetRef.fromhex
  if h : target.length * 8 = DEPTH then
    let scheme ← proof.get "scheme"
    if scheme.eqStr "smt-256" then
      match ← proof.subscript "siblings" with
      | .dict raw =>
        let siblings ← readSiblings (PyVal.items raw) Dict.empty
        pure (siblings.map fun s => (⟨target,length_of_bits h⟩,s))
      | _ => pure none
    else pure none
  else pure none

def climbFrom (target : Ref) (siblings : ℕ → Digest) (depth : ℕ) : Digest :=
  (List.range' depth (DEPTH - depth)).foldr (fun d x =>
    if bit target d = false then node H x (siblings d) else node H (siblings d) x) (emptyLeaf H)

/-- `siblings.get(depth, DEFAULTS[depth + 1])`. -/
def orDefault (siblings : ℕ → Option Digest) (depth : ℕ) : Digest :=
  (siblings depth).getD (defaults H (depth+1))

def verifyAbsence (targetRef proof rootHex : PyVal) : Py Bool :=
  match readProof targetRef proof with
  | .error e =>
    if e.kind ∈ [.valueError, .typeError, .keyError, .attributeError] then .ok false else .error e
  | .ok none => .ok false
  | .ok (some (target,siblings)) =>
    .ok (rootHex.eqStr (climbFrom H target (orDefault H siblings.get?) 0).val.hex)

variable {H}

def Denotes (e : PyKey × PyVal) (d : ℕ) (s : Digest) : Prop :=
  e.1.toInt = .ok (d : ℤ) ∧ d < DEPTH ∧ e.2.fromhex = .ok s.val

def siblingFor (d : ℕ) (e : PyKey × PyVal) : Option Digest :=
  match e.1.toInt, e.2.fromhex with
  | .ok n, .ok b => if h : n = (d : ℤ) ∧ b.length = 32 then some ⟨b,h.2⟩ else none
  | _, _ => none

def supplied (items : List (PyKey × PyVal)) (d : ℕ) : Option Digest :=
  (items.filterMap (siblingFor d)).getLast?

theorem Denotes.siblingFor {e : PyKey × PyVal} {d : ℕ} {s : Digest} (h : Denotes e d s) (i : ℕ) :
    siblingFor i e = if d = i then some s else none := by
  obtain ⟨hd,-,hs⟩ := h
  unfold Smt.siblingFor
  rw [hd, hs]
  by_cases he : d = i
  · subst he
    simp [s.2]
  · simp [he]

theorem readSiblings_of_denotes {items : List (PyKey × PyVal)} (siblings : Dict ℕ Digest)
    (h : ∀ e ∈ items, ∃ d s, Denotes e d s) : ∃ siblings', readSiblings items siblings = .ok (some siblings') ∧
      ∀ d, siblings'.get? d = (supplied items d).or (siblings.get? d) := by
  induction items generalizing siblings with
  | nil => exact ⟨siblings,rfl,fun d => rfl⟩
  | cons e items ih =>
    obtain ⟨n,s,hn⟩ := h e List.mem_cons_self
    obtain ⟨siblings',he,hg⟩ := ih (siblings.insert n s) fun e he => h e (List.mem_cons_of_mem _ he)
    refine ⟨siblings',?_,fun d => ?_⟩
    · have hlt : (n : ℤ) < (DEPTH : ℤ) := by exact_mod_cast hn.2.1
      obtain ⟨key,value⟩ := e
      rw [readSiblings, show key.toInt = .ok (n : ℤ) from hn.1]
      simp only [ok_bind, Int.natCast_nonneg, hlt, and_self, ↓reduceIte,
        show value.fromhex = .ok s.val from hn.2.2, s.2, ↓reduceDIte, Int.toNat_natCast, Subtype.coe_eta]
      exact he
    · rw [hg, supplied, supplied, List.filterMap_cons, hn.siblingFor d]
      by_cases hd : n = d
      · subst hd
        rw [if_pos rfl, Dict.get?_insert_self]
        cases hl : (items.filterMap (Smt.siblingFor n)).getLast? <;> simp [List.getLast?_cons, hl]
      · rw [if_neg hd, Dict.get?_insert_of_ne (Ne.symm hd)]

theorem denotes_of_readSiblings {items : List (PyKey × PyVal)} {siblings siblings' : Dict ℕ Digest}
    (h : readSiblings items siblings = .ok (some siblings')) : ∀ e ∈ items, ∃ d s, Denotes e d s := by
  induction items generalizing siblings with
  | nil => simp
  | cons e items ih =>
    obtain ⟨key,value⟩ := e
    rw [readSiblings] at h
    obtain ⟨n,hk,h⟩ := bind_eq_ok.mp h
    split at h
    · next hn =>
      obtain ⟨b,hv,h⟩ := bind_eq_ok.mp h
      split at h
      · next hb =>
        intro e he
        rcases List.mem_cons.mp he with rfl | he
        · refine ⟨n.toNat,⟨b,hb⟩,?_,by omega,hv⟩
          rw [Int.toNat_of_nonneg hn.1]
          exact hk
        · exact ih h e he
      · cases h
    · cases h

/-- A value that `verify_absence` reads through: the scheme, and a siblings object in
which every key is a depth and every value 32 bytes of hexadecimal. -/
structure WellFormedProof (proof : PyVal) (raw : List (PyKey × PyVal)) : Prop where
  scheme : proof.get "scheme" = .ok (.str "smt-256")
  siblings : proof.subscript "siblings" = .ok (.dict raw)
  denotes : ∀ e ∈ PyVal.items raw, ∃ d s, Denotes e d s

theorem PyVal.fromhex_hex (b : Bytes) : (PyVal.str b.hex).fromhex = .ok b := by
  simp [UnlearnShield.PyVal.fromhex]

theorem readProof_of_wellFormed {proof : PyVal} {raw : List (PyKey × PyVal)} (h : WellFormedProof proof raw)
    (t : Ref) : ∃ siblings, readProof (.str t.val.hex) proof = .ok (some (t,siblings)) ∧
      siblings.get? = supplied (PyVal.items raw) := by
  obtain ⟨siblings,hr,hg⟩ := readSiblings_of_denotes Dict.empty h.denotes
  refine ⟨siblings,?_,?_⟩
  · have ht : t.val.length * 8 = DEPTH := by rw [t.2]; rfl
    unfold readProof
    rw [PyVal.fromhex_hex, ok_bind, dif_pos ht, h.scheme, ok_bind, PyVal.eqStr_str, if_pos (by rfl),
      h.siblings, ok_bind]
    dsimp only
    rw [hr]
    rfl
  · funext d
    rw [hg]
    cases supplied (PyVal.items raw) d <;> rfl

theorem wellFormed_of_readProof {targetRef proof : PyVal} {r : Ref × Dict ℕ Digest}
    (h : readProof targetRef proof = .ok (some r)) : ∃ raw, WellFormedProof proof raw := by
  unfold readProof at h
  obtain ⟨target,ht,h⟩ := bind_eq_ok.mp h
  split at h
  · obtain ⟨scheme,hs,h⟩ := bind_eq_ok.mp h
    split at h
    · next heq =>
      obtain ⟨v,hb,h⟩ := bind_eq_ok.mp h
      split at h
      · next raw =>
        obtain ⟨o,hr,h⟩ := bind_eq_ok.mp h
        cases o with
        | none => cases h
        | some siblings => exact ⟨raw,by rw [hs, PyVal.eqStr_eq_true.mp heq],hb,denotes_of_readSiblings hr⟩
      · cases h
    · cases h
  · cases h

variable (H)

/-- The sibling that is used at depth `d`: the last one supplied for it, or the default. -/
def effective (raw : List (PyKey × PyVal)) : ℕ → Digest := orDefault H (supplied (PyVal.items raw))

variable {H}

theorem climbFrom_eq (t : Ref) (sib : ℕ → Digest) (d : ℕ) :
    climbFrom H t sib d = (trie H).climb t sib (emptyLeaf H) (DEPTH - d) d := by
  unfold climbFrom climb
  congr 1
  funext i x
  cases h : bit t i <;> simp [join, h]

theorem verifyAbsence_of_wellFormed {proof : PyVal} {raw : List (PyKey × PyVal)} (h : WellFormedProof proof raw)
    (t : Ref) (root : Digest) : verifyAbsence H (.str t.val.hex) proof (.str root.val.hex) =
      .ok (root = climbFrom H t (effective H raw) 0) := by
  obtain ⟨siblings,hr,hg⟩ := readProof_of_wellFormed h t
  unfold verifyAbsence
  rw [hr]
  dsimp only
  rw [hg, PyVal.eqStr_str]
  congr 1
  rw [Bool.eq_iff_iff]
  simp only [beq_iff_eq, Bytes.hex_inj, decide_eq_true_eq, Subtype.ext_iff]
  rfl

theorem wellFormed_of_verifyAbsence {targetRef proof rootHex : PyVal}
    (h : verifyAbsence H targetRef proof rootHex = .ok true) : ∃ raw, WellFormedProof proof raw := by
  unfold verifyAbsence at h
  cases hr : readProof targetRef proof with
  | error e =>
    rw [hr] at h
    dsimp only at h
    split at h <;> cases h
  | ok o =>
    cases o with
    | none => rw [hr] at h; cases h
    | some r => exact wellFormed_of_readProof hr

/-- The root seen from the path of any reference. -/
theorem rootOf_eq_climb (t : Ref) (refs : List Ref) : rootOf H refs =
    (trie H).climb t (sideRoot H t (keys refs)) ((trie H).leafAt t (keys refs)) DEPTH 0 :=
  (trie H).root_eq_climb_zero t (keys refs)

/-- A well-formed proof with the right sibling at every depth is accepted for any absent target. -/
theorem verifyAbsence_of_siblings {proof : PyVal} {raw : List (PyKey × PyVal)} (h : WellFormedProof proof raw)
    {t : Ref} {ks : List Ref} (ht : t ∉ ks) (hs : ∀ d < DEPTH, effective H raw d = sideRoot H t ks d) :
    verifyAbsence H (.str t.val.hex) proof (.str ((trie H).root DEPTH 0 ks).val.hex) = .ok true := by
  rw [verifyAbsence_of_wellFormed h, climbFrom_eq]
  have hleaf : (trie H).leafAt t ks = emptyLeaf H := if_neg ht
  have hroot := (trie H).root_eq_climb_zero t ks
  rw [hleaf] at hroot
  rw [trie_depth] at hroot
  rw [hroot, decide_eq_true]
  exact (trie H).climb_congr _ fun i _ hi => (hs i (by omega)).symm

end UnlearnShield.Smt
