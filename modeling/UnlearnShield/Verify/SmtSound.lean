import UnlearnShield.Verify.SmtVerify

/-! # Soundness of absence proofs

The strings hashed by the defaults, by a root computation and by a verification are
listed beside the functions that hash them. Two different ones of them with one
hash are the only way to have a false proof accepted.
-/
namespace UnlearnShield.Smt
open BitTrie
variable (H : Bytes → Digest)

/-- Input of the node above `x`, whose sibling stands on the other side. -/
def pairInput (b : Bool) (x sibling : Digest) : Bytes :=
  if b = false then nodeInput x sibling else nodeInput sibling x

def hashedByDefaults : List Bytes :=
  emptyLeafInput :: (List.range DEPTH).map fun n => nodeInput (defaultAbove H n) (defaultAbove H n)

def hashedBySingleton (key : Ref) (depth : ℕ) : List Bytes :=
  leafInput key :: (List.range' depth (DEPTH - depth)).map fun d =>
    pairInput (bit key d) (singletonRoot H key (d+1)) (defaults H (d+1))

def hashedBySubtree (keys : List Ref) (depth : ℕ) : List Bytes :=
  match keys with
  | [] => []
  | [k] => hashedBySingleton H k depth
  | k :: k' :: rest =>
    if depth < DEPTH then
      match subtreeRoot H (zeros (k :: k' :: rest) depth) (depth+1),
        subtreeRoot H (ones (k :: k' :: rest) depth) (depth+1) with
      | .ok left, .ok right => nodeInput left right ::
        (hashedBySubtree (zeros (k :: k' :: rest) depth) (depth+1) ++
          hashedBySubtree (ones (k :: k' :: rest) depth) (depth+1))
      | _, _ => []
    else []
termination_by DEPTH - depth

def hashedByVerify (targetRef proof : PyVal) : List Bytes :=
  match readProof targetRef proof with
  | .ok (some (target,siblings)) => (List.range DEPTH).map fun d =>
    pairInput (bit target d) (climbFrom H target (orDefault H siblings.get?) (d+1)) (orDefault H siblings.get? d)
  | _ => []

def Collision (inputs : List Bytes) : Prop := ∃ a ∈ inputs, ∃ b ∈ inputs, a ≠ b ∧ H a = H b

variable {H}

theorem pairInput_inj {b : Bool} {x s x' s' : Digest} : pairInput b x s = pairInput b x' s' ↔ x = x' ∧ s = s' := by
  cases b
  · exact nodeInput_inj
  · exact nodeInput_inj.trans and_comm

theorem hash_pairInput (b : Bool) (x s : Digest) : H (pairInput b x s) = (trie H).join b x s := by
  cases b <;> rfl

theorem onPath_sharePath (t : Ref) (d : ℕ) (ks : List Ref) : SharePath (onPath H t d ks) d := by
  intro j hj k hk i hi
  have hj' := ((trie H).mem_onPath.mp hj).2 i hi
  have hk' := ((trie H).mem_onPath.mp hk).2 i hi
  exact hj'.trans hk'.symm

theorem onPath_nodup {ks : List Ref} (h : ks.Nodup) (t : Ref) (d : ℕ) : (onPath H t d ks).Nodup := h.filter _
theorem offPath_nodup {ks : List Ref} (h : ks.Nodup) (t : Ref) (d : ℕ) : (offPath H t d ks).Nodup :=
  (onPath_nodup (H := H) h t d).filter _

/-- `_subtree_root` of the keys that leave the path of `t` at depth `d`. -/
theorem subtreeRoot_offPath {ks : List Ref} (h : ks.Nodup) (t : Ref) {d : ℕ} (hd : d < DEPTH) :
    subtreeRoot H (offPath H t d ks) (d+1) = .ok (sideRoot H t ks d) := by
  refine subtreeRoot_eq H (offPath_nodup h t d) ?_ hd
  intro j hj k hk i hi
  obtain ⟨-,hj₁,hj₂⟩ := (trie H).mem_offPath.mp hj
  obtain ⟨-,hk₁,hk₂⟩ := (trie H).mem_offPath.mp hk
  rcases Nat.lt_succ_iff_lt_or_eq.mp hi with hlt | rfl
  · exact (hj₁ i hlt).trans (hk₁ i hlt).symm
  · simp only [trie_bit] at hj₂ hk₂
    cases hb : bit t i <;> simp_all

/-- Root of the keys that still share the path of `t` at depth `d`. -/
def pathRoot (H : Bytes → Digest) (t : Ref) (ks : List Ref) (d : ℕ) : Digest :=
  (trie H).root (DEPTH - d) d (onPath H t d ks)

def pathInput (H : Bytes → Digest) (t : Ref) (ks : List Ref) (d : ℕ) : Bytes :=
  pairInput (bit t d) (pathRoot H t ks (d+1)) (sideRoot H t ks d)

theorem pathRoot_of_nil {t : Ref} {ks : List Ref} {d : ℕ} (h : onPath H t d ks = []) :
    pathRoot H t ks d = defaults H d := by
  rw [pathRoot, h, root_nil, emptyRoot_eq]
  rfl

theorem pathInput_of_nil {t : Ref} {ks : List Ref} {d : ℕ} (hd : d < DEPTH) (h : onPath H t d ks = []) :
    pathInput H t ks d ∈ hashedByDefaults H := by
  rw [pathInput, pathRoot_of_nil (onPath_nil_of_le h (Nat.le_succ d)),
    sideRoot_of_offPath_nil (offPath_nil_of_onPath_nil h)]
  refine List.mem_cons_of_mem _ (List.mem_map.mpr ⟨DEPTH - (d+1),?_,?_⟩)
  · rw [List.mem_range]
    omega
  · cases bit t d <;> rfl

theorem pathInput_of_singleton {t k : Ref} {ks : List Ref} {d i : ℕ} (hdi : d ≤ i) (hi : i < DEPTH)
    (h : onPath H t i ks = [k]) : pathInput H t ks i ∈ hashedBySingleton H k d := by
  refine List.mem_cons_of_mem _ (List.mem_map.mpr ⟨i,?_,?_⟩)
  · rw [List.mem_range'_1]
    omega
  have hon : onPath H t (i+1) ks = [k].filter fun k => bit k i == bit t i := by
    rw [← h]
    exact (trie H).onPath_succ t i ks
  have hoff : offPath H t i ks = [k].filter fun k => bit k i != bit t i := by
    rw [← h]
    rfl
  by_cases hb : bit k i = bit t i
  · have hon' : onPath H t (i+1) ks = [k] := by rw [hon]; simp [hb]
    have hoff' : offPath H t i ks = [] := by rw [hoff]; simp [hb]
    rw [pathInput, pathRoot, hon', sideRoot_of_offPath_nil hoff', hb, singletonRoot_eq H k (by omega)]
  · have hon' : onPath H t (i+1) ks = [] := by rw [hon]; simpa using hb
    have hoff' : offPath H t i ks = [k] := by rw [hoff]; simpa using hb
    have hside : sideRoot H t ks i = singletonRoot H k (i+1) := by
      rw [singletonRoot_eq H k (by omega)]
      change (trie H).root _ _ (offPath H t i ks) = _
      rw [hoff']
      rfl
    rw [pathInput, pathRoot_of_nil hon', hside]
    cases hk : bit k i <;> cases ht : bit t i <;> first | rfl | exact absurd (hk.trans ht.symm) hb

/-- Every node on the path of `t` is hashed by the root computation or is a default. -/
theorem pathInput_mem {t : Ref} {ks : List Ref} (hn : ks.Nodup) {d i : ℕ} (hdi : d ≤ i) (hi : i < DEPTH) :
    pathInput H t ks i ∈ hashedBySubtree H (onPath H t d ks) d ++ hashedByDefaults H := by
  have hn' := onPath_nodup (H := H) hn t d
  have hs := onPath_sharePath (H := H) t d ks
  generalize hk : onPath H t d ks = keys at hn' hs
  induction keys, d using hashedBySubtree.induct (H := H) with
  | case1 d =>
    exact List.mem_append_right _ (pathInput_of_nil hi (onPath_nil_of_le hk hdi))
  | case2 d k =>
    rw [hashedBySubtree]
    have hp : onPath H t i ks = [k].filter fun k => decide (∀ j < i, bit k j = bit t j) := by
      rw [onPath, ← (trie H).onPath_onPath t hdi ks, show (trie H).onPath t d ks = [k] from hk]
      rfl
    by_cases hm : ∀ j < i, bit k j = bit t j
    · exact List.mem_append_left _ (pathInput_of_singleton hdi hi (by rw [hp]; simpa using hm))
    · exact List.mem_append_right _ (pathInput_of_nil hi (by rw [hp]; simpa using hm))
  | case3 d k k' rest hlt left right hr hl ihl ihr =>
    rw [hashedBySubtree, if_pos hlt, hl, hr]
    dsimp only
    rw [subtreeRoot_eq H (zeros_nodup hn' _) hs.zeros hlt, Except.ok.injEq] at hl
    rw [subtreeRoot_eq H (ones_nodup hn' _) hs.ones hlt, Except.ok.injEq] at hr
    rcases Nat.eq_or_lt_of_le hdi with rfl | hdi'
    · apply List.mem_append_left
      have hin : pathInput H t ks d = nodeInput left right := by
        rw [pathInput, pathRoot, ← hl, ← hr, ← hk]
        cases hb : bit t d with
        | false =>
          rw [(zeros_onPath ks hb).1, (zeros_onPath ks hb).2]
          rfl
        | true =>
          rw [(ones_onPath ks hb).1, (ones_onPath ks hb).2]
          rfl
      rw [hin]
      exact List.mem_cons_self
    · have hside : pathInput H t ks i ∈ hashedBySubtree H (zeros (k :: k' :: rest) d) (d+1) ++ hashedByDefaults H ∨
          pathInput H t ks i ∈ hashedBySubtree H (ones (k :: k' :: rest) d) (d+1) ++ hashedByDefaults H := by
        cases hb : bit t d with
        | false => exact Or.inl (ihl hdi' (by rw [← hk, (zeros_onPath ks hb).1]) (zeros_nodup hn' _) hs.zeros)
        | true => exact Or.inr (ihr hdi' (by rw [← hk, (ones_onPath ks hb).1]) (ones_nodup hn' _) hs.ones)
      simp only [List.mem_append, List.mem_cons] at hside ⊢
      tauto
  | case4 d k k' rest hlt herr =>
    exact absurd (subtreeRoot_eq H (ones_nodup hn' _) hs.ones hlt)
      (herr _ _ (subtreeRoot_eq H (zeros_nodup hn' _) hs.zeros hlt))
  | case5 d k k' rest hlt => exact absurd (hs.lt_depth hn') hlt

/-- Every key is hashed as a leaf. -/
theorem leafInput_mem {k : Ref} {keys : List Ref} {d : ℕ} (hn : keys.Nodup) (hs : SharePath keys d)
    (hk : k ∈ keys) : leafInput k ∈ hashedBySubtree H keys d := by
  induction keys, d using hashedBySubtree.induct (H := H) with
  | case1 d => cases hk
  | case2 d k' =>
    rw [hashedBySubtree, List.mem_singleton.mp hk]
    exact List.mem_cons_self
  | case3 d k₁ k₂ rest hlt left right hr hl ihl ihr =>
    rw [hashedBySubtree, if_pos hlt, hl, hr]
    apply List.mem_cons_of_mem
    rw [List.mem_append]
    cases hb : bit k d with
    | false => exact Or.inl (ihl (zeros_nodup hn _) hs.zeros (List.mem_filter.mpr ⟨hk,by simp [hb]⟩))
    | true => exact Or.inr (ihr (ones_nodup hn _) hs.ones (List.mem_filter.mpr ⟨hk,hb⟩))
  | case4 d k₁ k₂ rest hlt herr =>
    exact absurd (subtreeRoot_eq H (ones_nodup hn _) hs.ones hlt)
      (herr _ _ (subtreeRoot_eq H (zeros_nodup hn _) hs.zeros hlt))
  | case5 d k₁ k₂ rest hlt => exact absurd (hs.lt_depth hn) hlt

variable (H) in
def hashedAlong (S : List Ref) (targetRef proof : PyVal) : List Bytes :=
  hashedByVerify H targetRef proof ++ (hashedBySubtree H (keys S) 0 ++ hashedByDefaults H)

theorem verifyInput_mem {proof : PyVal} {raw : List (PyKey × PyVal)} (h : WellFormedProof proof raw) (t : Ref)
    {i : ℕ} (hi : i < DEPTH) : pairInput (bit t i) (climbFrom H t (effective H raw) (i+1)) (effective H raw i) ∈
      hashedByVerify H (.str t.val.hex) proof := by
  obtain ⟨siblings,hr,hg⟩ := readProof_of_wellFormed h t
  unfold hashedByVerify
  rw [hr]
  dsimp only
  rw [hg]
  exact List.mem_map.mpr ⟨i,List.mem_range.mpr hi,rfl⟩

theorem pathRoot_eq_climb (t : Ref) (ks : List Ref) {d : ℕ} (hd : d ≤ DEPTH) :
    pathRoot H t ks d = (trie H).climb t (sideRoot H t ks) ((trie H).leafAt t ks) (DEPTH - d) d :=
  (trie H).root_eq_climb t ks (Nat.add_sub_cancel' hd)

/-- An accepted proof tells the truth at every depth and about the target, or hashes collide. -/
theorem sound_of_verifyAbsence {S : List Ref} {t : Ref} {proof : PyVal} {raw : List (PyKey × PyVal)}
    (hw : WellFormedProof proof raw)
    (h : verifyAbsence H (.str t.val.hex) proof (.str (rootOf H S).val.hex) = .ok true) :
    Collision H (hashedAlong H S (.str t.val.hex) proof) ∨
      (t ∉ S ∧ ∀ d < DEPTH, effective H raw d = sideRoot H t (keys S) d) := by
  rw [verifyAbsence_of_wellFormed hw, Except.ok.injEq, decide_eq_true_eq, rootOf_eq_climb t, climbFrom_eq] at h
  rcases (trie H).climb_eq_climb h.symm with ⟨i,-,hi,hne,heq⟩ | ⟨hx,hs⟩
  · left
    rw [Nat.zero_add, Nat.sub_zero] at hi hne heq
    rw [← climbFrom_eq, ← pathRoot_eq_climb t _ hi] at hne
    refine ⟨_,List.mem_append_left _ (verifyInput_mem hw t hi),pathInput H t (keys S) i,
      List.mem_append_right _ ?_,fun he => hne ?_,?_⟩
    · rw [show keys S = onPath H t 0 (keys S) from ((trie H).onPath_zero t _).symm]
      have hm := pathInput_mem (H := H) (t := t) (keys_nodup S) (Nat.zero_le i) hi
      rwa [show onPath H t 0 (keys S) = keys S from (trie H).onPath_zero t _] at hm ⊢
    · obtain ⟨h₁,h₂⟩ := pairInput_inj.mp he
      exact Prod.ext h₁ h₂
    · rw [pathInput, hash_pairInput (H := H), hash_pairInput (H := H), climbFrom_eq, pathRoot_eq_climb t _ hi]
      rw [show DEPTH - i = DEPTH - (i+1) + 1 by omega, climb_succ, climb_succ] at heq
      exact heq
  · by_cases ht : t ∈ S
    · left
      rw [leafAt, if_pos (mem_keys.mpr ht)] at hx
      refine ⟨emptyLeafInput,?_,leafInput t,?_,fun he => leafInput_ne_emptyLeafInput t he.symm,hx⟩
      · simp [hashedAlong, hashedByDefaults]
      · refine List.mem_append_right _ (List.mem_append_left _ ?_)
        exact leafInput_mem (keys_nodup S) (SharePath.zero _) (mem_keys.mpr ht)
    · exact Or.inr ⟨ht,fun d hd => hs d (Nat.zero_le d) (by simpa using hd)⟩

/-- `verify_absence` accepts exactly the true proofs against the root of `S`. -/
theorem verifyAbsence_buildRoot (S : List Ref) (t : Ref) (proof : PyVal) : ∃ root, buildRoot H S = .ok root ∧
    (Collision H (hashedAlong H S (.str t.val.hex) proof) ∨
      (verifyAbsence H (.str t.val.hex) proof (.str root) = .ok true ↔
        ∃ raw, WellFormedProof proof raw ∧ t ∉ S ∧
          ∀ d < DEPTH, subtreeRoot H (offPath H t d (keys S)) (d+1) = .ok (effective H raw d))) := by
  refine ⟨_,buildRoot_eq H S,?_⟩
  by_cases hc : Collision H (hashedAlong H S (.str t.val.hex) proof)
  · exact Or.inl hc
  · right
    constructor
    · intro h
      obtain ⟨raw,hw⟩ := wellFormed_of_verifyAbsence h
      obtain ⟨ht,hs⟩ := (sound_of_verifyAbsence hw h).resolve_left hc
      exact ⟨raw,hw,ht,fun d hd => by rw [subtreeRoot_offPath (keys_nodup S) t hd, hs d hd]⟩
    · rintro ⟨raw,hw,ht,hs⟩
      apply verifyAbsence_of_siblings hw (fun hm => ht (mem_keys.mp hm))
      intro d hd
      have hd' := hs d hd
      rw [subtreeRoot_offPath (keys_nodup S) t hd, Except.ok.injEq] at hd'
      exact hd'.symm

end UnlearnShield.Smt
