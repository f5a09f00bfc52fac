import UnlearnShield.Verify.Merkle
import UnlearnShield.Verify.SmtSound
import UnlearnShield.Library.Segments

/-! # Soundness of sorted-Merkle absence proofs

Before each step the audit-path loop stands on a segment of some level: `fn` is its index
and `sn` the index of the last one. The root of two segments is the hash of their roots,
so a path that reaches the root of the tree has the root of its segment in hand all the
way down to the leaf.
-/
namespace UnlearnShield.Merkle
open Smt (Collision)
variable (H : Bytes → Digest)

section Hashed

def hashedByMth : List Bytes → List Bytes
  | [] => [[]]
  | [data] => [leafInput data]
  | x :: y :: rest =>
    let k := split (rest.length + 2)
    nodeInput (mth H ((x :: y :: rest).take k)).val (mth H ((x :: y :: rest).drop k)).val ::
      (hashedByMth ((x :: y :: rest).take k) ++ hashedByMth ((x :: y :: rest).drop k))
termination_by leaves => leaves.length
decreasing_by
  · have := split_bounds (Nat.le_add_left 2 rest.length)
    simp only [List.length_take, List.length_cons]
    omega
  · have := split_bounds (Nat.le_add_left 2 rest.length)
    simp only [List.length_drop, List.length_cons]
    omega

def hashedByClimb : List Bytes → ℕ → ℕ → Digest → List Bytes
  | [], _, _, _ => []
  | sibling :: path, fn, sn, node =>
    if sn = 0 then []
    else if fn % 2 = 1 ∨ fn = sn then
      let (fn',sn') := shiftEven fn sn
      nodeInput sibling node.val :: hashedByClimb path (fn' / 2) (sn' / 2) (nodeHash H sibling node.val)
    else nodeInput node.val sibling :: hashedByClimb path (fn / 2) (sn / 2) (nodeHash H node.val sibling)

def hashedByAuditPath (leaf : Bytes) (index treeSize : ℤ) (path : List Bytes) : List Bytes :=
  leafInput leaf :: (hashedByClimb H path index.toNat (treeSize - 1).toNat (leafHash H leaf) ++
    match reconstructRoot H leaf index treeSize path with
    | some node => [commitInput treeSize.toNat node.val]
    | none => [])

def hashedByCheck (size : ℤ) (entry : PyVal) : List Bytes :=
  match readEntry entry with
  | .ok (leaf,path,index) =>
    match intOf index with
    | some i => hashedByAuditPath H leaf i size path
    | none => []
  | .error _ => []

/-- The strings hashed while a proof is checked, those of `EMPTY_ROOT` included. -/
def hashedByVerify (targetRef proof : PyVal) : List Bytes :=
  [] :: commitInput 0 (H []).val ::
    match readProof targetRef proof with
    | .ok (_,size,pred,succ) => hashedByCheck H ((intOf size).getD 0) pred ++ hashedByCheck H ((intOf size).getD 0) succ
    | .error _ => []

def hashedByBuild (leaves : List Bytes) : List Bytes :=
  commitInput leaves.length (mth H leaves).val :: hashedByMth H leaves

def hashedAlong (leaves : List Bytes) (targetRef proof : PyVal) : List Bytes :=
  hashedByVerify H targetRef proof ++ hashedByBuild H leaves

end Hashed

variable {H}

theorem collision_mono {as bs : List Bytes} (h : as ⊆ bs) (hc : Collision H as) : Collision H bs := by
  obtain ⟨a,ha,b,hb,hne,he⟩ := hc
  exact ⟨a,h ha,b,h hb,hne,he⟩

theorem eq_or_collision {a b : Bytes} {inputs : List Bytes} (ha : a ∈ inputs) (hb : b ∈ inputs) (h : H a = H b) :
    a = b ∨ Collision H inputs := by
  by_cases he : a = b
  · exact Or.inl he
  · exact Or.inr ⟨a,ha,b,hb,he,h⟩

section Inputs

theorem length_toBytesBig (length n : ℕ) : (toBytesBig length n).length = length := by
  induction length generalizing n with
  | zero => rfl
  | succ length ih => rw [toBytesBig, List.length_append, ih, List.length_singleton]

theorem toBytesBig_inj {length m n : ℕ} (hm : m < 256 ^ length) (hn : n < 256 ^ length)
    (h : toBytesBig length m = toBytesBig length n) : m = n := by
  induction length generalizing m n with
  | zero =>
    rw [pow_zero] at hm hn
    omega
  | succ length ih =>
    obtain ⟨hhigh,hlow⟩ := List.append_inj h ((length_toBytesBig ..).trans (length_toBytesBig ..).symm)
    have hdiv := ih (by rw [pow_succ] at hm; omega) (by rw [pow_succ] at hn; omega) hhigh
    have hmod : m % 256 = n % 256 := by
      have := congrArg UInt8.toNat (List.cons.inj hlow).1
      simpa using this
    omega

theorem commitInput_inj {m n : ℕ} {a b : Bytes} (hm : m < 2 ^ 64) (hn : n < 2 ^ 64)
    (h : commitInput m a = commitInput n b) :
    m = n ∧ a = b := by
  obtain ⟨hsize,hroot⟩ := List.append_inj (List.cons.inj h).2 ((length_toBytesBig ..).trans (length_toBytesBig ..).symm)
  have hpow : (256 : ℕ) ^ 8 = 2 ^ 64 := by norm_num
  exact ⟨toBytesBig_inj (by rwa [hpow]) (by rwa [hpow]) hsize,hroot⟩

/-- Whatever the length of the sibling, the child on the right of it is the last 32 bytes. -/
theorem nodeInput_right {a b : Bytes} {x y : Digest} (h : nodeInput a x.val = nodeInput b y.val) : x = y :=
  Subtype.ext (List.append_inj' (List.cons.inj h).2 (x.2.trans y.2.symm)).2

theorem nodeInput_left {a b : Bytes} {x y : Digest} (h : nodeInput x.val a = nodeInput y.val b) : x = y :=
  Subtype.ext (List.append_inj (List.cons.inj h).2 (x.2.trans y.2.symm)).1

end Inputs

section Tree
variable {leaves : List Bytes} {l j : ℕ}

theorem mth_of_length {xs : List Bytes} (h₁ : 2 ^ l < xs.length) (h₂ : xs.length ≤ 2 ^ (l+1)) :
    mth H xs = nodeHash H (mth H (xs.take (2 ^ l))).val (mth H (xs.drop (2 ^ l))).val ∧
      hashedByMth H xs = nodeInput (mth H (xs.take (2 ^ l))).val (mth H (xs.drop (2 ^ l))).val ::
        (hashedByMth H (xs.take (2 ^ l)) ++ hashedByMth H (xs.drop (2 ^ l))) := by
  have hpos : 0 < 2 ^ l := Nat.two_pow_pos l
  match xs with
  | [] => exact absurd h₁ (Nat.not_lt_zero _)
  | [data] =>
    rw [List.length_singleton] at h₁
    omega
  | x :: y :: rest =>
    have hk : split (rest.length + 2) = 2 ^ l := split_eq h₁ h₂
    rw [mth, hashedByMth]
    simp only [hk]
    exact ⟨trivial,trivial⟩

/-- The root of a segment with something on its right half is the hash of the roots of its halves. -/
theorem mth_segment (h : (2 * j + 1) * 2 ^ l < leaves.length) :
    mth H (segment leaves (l+1) j) =
        nodeHash H (mth H (segment leaves l (2 * j))).val (mth H (segment leaves l (2 * j + 1))).val ∧
      hashedByMth H (segment leaves (l+1) j) =
        nodeInput (mth H (segment leaves l (2 * j))).val (mth H (segment leaves l (2 * j + 1))).val ::
          (hashedByMth H (segment leaves l (2 * j)) ++ hashedByMth H (segment leaves l (2 * j + 1))) := by
  have hstart : (2 * j + 1) * 2 ^ l = j * 2 ^ (l+1) + 2 ^ l := by ring
  have hpow : 2 ^ (l+1) = 2 ^ l + 2 ^ l := by ring
  have hpos : 0 < 2 ^ l := Nat.two_pow_pos l
  rw [← take_segment_succ, ← drop_segment_succ]
  apply mth_of_length
  · rw [length_segment]
    omega
  · rw [length_segment]
    exact min_le_left _ _

/-- What the root of a segment hashes is hashed by the root of the tree. -/
theorem hashedByMth_segment (h : j * 2 ^ l < leaves.length) :
    hashedByMth H (segment leaves l j) ⊆ hashedByMth H leaves := by
  have htop : leaves.length < 2 ^ leaves.length := Nat.lt_two_pow_self
  -- by the number of levels above `l`, none of them above `2 ^ leaves.length`
  suffices hlevels : ∀ n l j, leaves.length ≤ l + n → j * 2 ^ l < leaves.length →
      hashedByMth H (segment leaves l j) ⊆ hashedByMth H leaves from hlevels leaves.length l j (Nat.le_add_left ..) h
  intro n
  induction n with
  | zero =>
    intro l j hl hj
    have hle : 2 ^ leaves.length ≤ 2 ^ l := Nat.pow_le_pow_right (by decide) hl
    have hzero : j = 0 := by
      by_contra hne
      have := Nat.mul_le_mul_right (2 ^ l) (Nat.one_le_iff_ne_zero.mpr hne)
      omega
    rw [hzero, segment_top (by omega)]
    exact List.Subset.refl _
  | succ n ih =>
    intro l j hl hj
    obtain ⟨i,hi⟩ : ∃ i, j = 2 * i ∨ j = 2 * i + 1 := ⟨j / 2,by omega⟩
    have hstart : 2 * i * 2 ^ l = i * 2 ^ (l+1) := by ring
    have hodd : (2 * i + 1) * 2 ^ l = i * 2 ^ (l+1) + 2 ^ l := by ring
    have hparent : hashedByMth H (segment leaves (l+1) i) ⊆ hashedByMth H leaves := by
      refine ih (l+1) i (by omega) ?_
      rcases hi with rfl | rfl
      · rw [← hstart]
        exact hj
      · rw [hodd] at hj
        exact lt_of_le_of_lt (Nat.le_add_right ..) hj
    refine List.Subset.trans ?_ hparent
    by_cases hright : (2 * i + 1) * 2 ^ l < leaves.length
    · rw [(mth_segment hright).2]
      rcases hi with rfl | rfl
      · exact fun x hx => List.mem_cons_of_mem _ (List.mem_append_left _ hx)
      · exact fun x hx => List.mem_cons_of_mem _ (List.mem_append_right _ hx)
    · rcases hi with rfl | rfl
      · rw [segment_succ_of_short (Nat.le_of_not_lt hright)]
        exact List.Subset.refl _
      · exact absurd hj hright

theorem mth_singleton (data : Bytes) : mth H [data] = leafHash H data := by rw [mth]

theorem hashedByMth_singleton (data : Bytes) : hashedByMth H [data] = [leafInput data] := by rw [hashedByMth]

end Tree

section Climb
variable {leaves : List Bytes}

/-- The inner loop goes up to the level on which the node has a sibling on its left. -/
theorem shiftEven_spec {fn sn : ℕ} (h : fn % 2 = 1 ∨ fn = sn ∧ sn ≠ 0) :
    ∃ k i, shiftEven fn sn = (2 * i + 1,sn / 2 ^ k) ∧ fn = (2 * i + 1) * 2 ^ k ∧ (k ≠ 0 → fn = sn) := by
  induction fn, sn using shiftEven.induct with
  | case1 fn sn hc ih =>
    obtain ⟨rfl,hsn⟩ := h.resolve_left fun hodd => by omega
    obtain ⟨k,i,he,hfn,-⟩ := ih (by omega)
    refine ⟨k + 1,i,?_,?_,fun _ => rfl⟩
    · rw [shiftEven, if_pos hc, he, Nat.div_div_eq_div_mul, pow_succ']
    · rw [pow_succ']
      have hdouble : (2 * i + 1) * (2 * 2 ^ k) = 2 * ((2 * i + 1) * 2 ^ k) := by ring
      omega
  | case2 fn sn hc =>
    obtain ⟨i,hi⟩ : ∃ i, fn = 2 * i + 1 := ⟨fn / 2,by omega⟩
    refine ⟨0,i,?_,by omega,fun hk => absurd rfl hk⟩
    rw [shiftEven, if_neg hc, pow_zero, Nat.div_one, hi]

/-- A path that reaches the root of the tree had the root of its segment in hand. -/
theorem climb_sound {path : List Bytes} {fn sn l : ℕ} {node : Digest} (hne : leaves ≠ []) (hle : fn ≤ sn)
    (hsn : sn = (leaves.length - 1) / 2 ^ l) (h : climb H path fn sn node = some (mth H leaves)) :
    node = mth H (segment leaves l fn) ∨ Collision H (hashedByClimb H path fn sn node ++ hashedByMth H leaves) := by
  have hlen : 0 < leaves.length := List.length_pos_iff.mpr hne
  induction path generalizing fn sn l node with
  | nil =>
    rw [climb] at h
    split at h
    · next hz =>
      have hlt : (leaves.length - 1) / 2 ^ l = 0 := by omega
      have htop : leaves.length - 1 < 2 ^ l := (Nat.div_eq_zero_iff_lt (Nat.two_pow_pos l)).mp hlt
      have hfn : fn = 0 := by omega
      left
      rw [hfn, segment_top (by omega)]
      exact Option.some.inj h
    · cases h
  | cons sibling path ih =>
    have hbound : sn * 2 ^ l ≤ leaves.length - 1 := by
      rw [hsn]
      exact Nat.div_mul_le_self _ _
    rw [climb] at h
    rw [hashedByClimb]
    split at h
    · cases h
    next hz =>
    rw [if_neg hz]
    split at h
    · next hc =>
      rw [if_pos hc]
      obtain ⟨k,i,hshift,hfn,hlast⟩ := shiftEven_spec (hc.imp_right fun he => ⟨he,hz⟩)
      rw [hshift] at h ⊢
      dsimp only at h ⊢
      have hhalf : (2 * i + 1) / 2 = i := by omega
      have hparent : sn / 2 ^ k / 2 = (leaves.length - 1) / 2 ^ (l + k + 1) := by
        rw [hsn, Nat.div_div_eq_div_mul, Nat.div_div_eq_div_mul, pow_succ, pow_add, Nat.mul_assoc]
      have hstart : (2 * i + 1) * 2 ^ (l+k) ≤ sn * 2 ^ l := by
        have heq : (2 * i + 1) * 2 ^ (l+k) = fn * 2 ^ l := by
          rw [hfn]
          ring
        rw [heq]
        exact Nat.mul_le_mul_right _ hle
      have hile : i ≤ sn / 2 ^ k / 2 := by
        rw [hparent, Nat.le_div_iff_mul_le (Nat.two_pow_pos _)]
        have hgrow : (2 * i + 1) * 2 ^ (l+k) = i * 2 ^ (l + k + 1) + 2 ^ (l+k) := by ring
        rw [hgrow] at hstart
        exact (Nat.le_add_right ..).trans (hstart.trans hbound)
      -- the segment of `fn` is that of its odd ancestor
      have hseg : segment leaves l fn = segment leaves (l+k) (2 * i + 1) := by
        by_cases hk : k = 0
        · rw [hfn, hk, pow_zero, Nat.mul_one]
          rfl
        · rw [hfn]
          apply segment_last
          rw [← hfn, hlast hk, hsn]
          exact Nat.lt_mul_of_div_lt (Nat.lt_succ_self _) (Nat.two_pow_pos l)
      rw [hhalf] at h ⊢
      rcases ih hile hparent h with hnode | hcol
      · have hlt : (2 * i + 1) * 2 ^ (l + k) < leaves.length := by omega
        have hseg' := mth_segment (H := H) hlt
        rw [hseg'.1] at hnode
        have hmem : nodeInput (mth H (segment leaves (l+k) (2 * i))).val
          (mth H (segment leaves (l+k) (2 * i + 1))).val ∈
            hashedByMth H leaves := by
          refine hashedByMth_segment (H := H) (l := l + k + 1) (j := i) ?_ (hseg'.2 ▸ List.mem_cons_self)
          have hgrow : (2 * i + 1) * 2 ^ (l+k) = i * 2 ^ (l + k + 1) + 2 ^ (l+k) := by ring
          have hpos : 0 < 2 ^ (l+k) := Nat.two_pow_pos _
          omega
        rcases eq_or_collision (a := nodeInput sibling node.val) (List.mem_append_left _ List.mem_cons_self)
          (List.mem_append_right _ hmem) hnode with he | hcol
        · left
          rw [hseg]
          exact nodeInput_right he
        · exact Or.inr hcol
      · exact Or.inr (collision_mono (fun x hx => List.mem_cons_of_mem _ hx) hcol)
    · next hc =>
      rw [if_neg hc]
      rw [not_or] at hc
      obtain ⟨i,hfn⟩ : ∃ i, fn = 2 * i := ⟨fn / 2,by omega⟩
      have hhalf : fn / 2 = i := by omega
      have hparent : sn / 2 = (leaves.length - 1) / 2 ^ (l+1) := by
        rw [hsn, Nat.div_div_eq_div_mul, pow_succ]
      have hright : (2 * i + 1) * 2 ^ l < leaves.length := by
        have hstart : (2 * i + 1) * 2 ^ l ≤ sn * 2 ^ l := Nat.mul_le_mul_right _ (by omega)
        omega
      rw [hhalf] at h ⊢
      rcases ih (by omega) hparent h with hnode | hcol
      · have hseg' := mth_segment (H := H) hright
        rw [hseg'.1] at hnode
        have hmem : nodeInput (mth H (segment leaves l (2 * i))).val (mth H (segment leaves l (2 * i + 1))).val ∈
            hashedByMth H leaves := by
          refine hashedByMth_segment (H := H) (l := l + 1) (j := i) ?_ (hseg'.2 ▸ List.mem_cons_self)
          have hgrow : (2 * i + 1) * 2 ^ l = i * 2 ^ (l+1) + 2 ^ l := by ring
          rw [hgrow] at hright
          exact lt_of_le_of_lt (Nat.le_add_right ..) hright
        rcases eq_or_collision (a := nodeInput node.val sibling) (List.mem_append_left _ List.mem_cons_self)
          (List.mem_append_right _ hmem) hnode with he | hcol
        · left
          rw [hfn]
          exact nodeInput_left he
        · exact Or.inr hcol
      · exact Or.inr (collision_mono (fun x hx => List.mem_cons_of_mem _ hx) hcol)

/-- A path for `index` that reaches the root of the tree starts from the leaf at `index`. -/
theorem reconstructRoot_sound {leaf : Bytes} {index : ℤ} {path : List Bytes}
    (h : reconstructRoot H leaf index leaves.length path = some (mth H leaves)) :
    0 ≤ index ∧ (leaves[index.toNat]? = some leaf ∨
      Collision H (hashedByAuditPath H leaf index leaves.length path ++ hashedByMth H leaves)) := by
  have hrec := h
  unfold reconstructRoot at h
  split at h
  · cases h
  next hrange =>
  have hlt : index.toNat < leaves.length := by omega
  have hne : leaves ≠ [] := List.ne_nil_of_length_pos (by omega)
  have hsn : ((leaves.length : ℤ) - 1).toNat = (leaves.length - 1) / 2 ^ 0 := by
    rw [pow_zero, Nat.div_one]
    omega
  have hleaf : segment leaves 0 index.toNat = [leaves[index.toNat]] := segment_zero hlt
  refine ⟨by omega,?_⟩
  have hclimbed : hashedByClimb H path index.toNat ((leaves.length : ℤ) - 1).toNat (leafHash H leaf) ++
    hashedByMth H leaves ⊆
      hashedByAuditPath H leaf index leaves.length path ++ hashedByMth H leaves := by
    refine List.append_subset.mpr ⟨fun x hx => ?_,List.subset_append_right _ _⟩
    exact List.mem_append_left _ (List.mem_cons_of_mem _ (List.mem_append_left _ hx))
  rcases climb_sound hne (by omega) hsn h with hnode | hcol
  · rw [hleaf, mth_singleton] at hnode
    have hmem : leafInput leaves[index.toNat] ∈ hashedByMth H leaves := by
      refine hashedByMth_segment (H := H) (l := 0) (j := index.toNat) (by omega) ?_
      rw [hleaf, hashedByMth_singleton]
      exact List.mem_singleton_self _
    rcases eq_or_collision (a := leafInput leaf) (List.mem_append_left _ List.mem_cons_self)
      (List.mem_append_right _ hmem) hnode with he | hcol
    · left
      rw [List.getElem?_eq_getElem hlt, (List.cons.inj he).2]
    · exact Or.inr hcol
  · exact Or.inr (collision_mono hclimbed hcol)

end Climb

section Sorted

instance : Std.Total fun a b : Bytes => a ≤ b := ⟨fun a b => List.le_total a b⟩
instance : IsTrans Bytes fun a b => a ≤ b := ⟨fun _ _ _ => List.le_trans⟩

/-- In a sorted list, entries are ordered as their indices. -/
theorem le_of_getElem? {leaves : List Bytes} (hs : leaves.Pairwise (· ≤ ·)) {i j : ℕ} {a b : Bytes} (hij : i ≤ j)
    (hi : leaves[i]? = some a) (hj : leaves[j]? = some b) : a ≤ b := by
  obtain ⟨hilt,rfl⟩ := List.getElem?_eq_some_iff.mp hi
  obtain ⟨hjlt,rfl⟩ := List.getElem?_eq_some_iff.mp hj
  rcases Nat.eq_or_lt_of_le hij with rfl | hlt
  · exact List.le_refl _
  · exact List.pairwise_iff_getElem.mp hs i j hilt hjlt hlt

variable {leaves : List Bytes} {target lo hi : Bytes} {n : ℕ}

theorem notMem_of_lt_first (hs : leaves.Pairwise (· ≤ ·)) (hhi : leaves[0]? = some hi) (h : target < hi) :
    target ∉ leaves := by
  intro hin
  obtain ⟨j,hj⟩ := List.mem_iff_getElem?.mp hin
  exact List.not_lt.mpr (le_of_getElem? hs (Nat.zero_le j) hhi hj) h

theorem notMem_of_last_lt (hs : leaves.Pairwise (· ≤ ·)) (hlo : leaves[leaves.length - 1]? = some lo)
    (h : lo < target) :
    target ∉ leaves := by
  intro hin
  obtain ⟨j,hj⟩ := List.mem_iff_getElem?.mp hin
  obtain ⟨hlt,-⟩ := List.getElem?_eq_some_iff.mp hj
  exact List.not_lt.mpr (le_of_getElem? hs (by omega) hj hlo) h

/-- Nothing lies between two adjacent leaves. -/
theorem notMem_of_between (hs : leaves.Pairwise (· ≤ ·)) (hlo : leaves[n]? = some lo) (hhi : leaves[n + 1]? = some hi)
    (h₁ : lo < target) (h₂ : target < hi) : target ∉ leaves := by
  intro hin
  obtain ⟨j,hj⟩ := List.mem_iff_getElem?.mp hin
  rcases Nat.lt_or_ge n j with hlt | hge
  · exact List.not_lt.mpr (le_of_getElem? hs hlt hhi hj) h₂
  · exact List.not_lt.mpr (le_of_getElem? hs hge hj hlo) h₁

end Sorted

section Proof
variable {leaves : List Bytes} {F : FloatOps}

variable (H) in
/-- `build_root` of the leaves. -/
def rootOf (leaves : List Bytes) : String := (H (commitInput leaves.length (mth H leaves).val)).val.hex

theorem commit_eq_ok {size : ℤ} {root : Bytes} {text : String} :
    commit H size root = .ok text ↔ 0 ≤ size ∧ size < 2 ^ 64 ∧ text = (H (commitInput size.toNat root)).val.hex := by
  unfold commit
  split
  · next hneg => exact ⟨fun h => (by cases h),fun h => absurd hneg (by omega)⟩
  · next hnonneg =>
    split
    · next hlt =>
      rw [Except.ok.injEq]
      exact ⟨fun h => ⟨by omega,hlt,h.symm⟩,fun h => h.2.2.symm⟩
    · next hge => exact ⟨fun h => (by cases h),fun h => absurd h.2.1 hge⟩

theorem buildRoot_eq_ok {refs : List String} (h : sortedLeaves refs = .ok leaves) (hn : leaves.length < 2 ^ 64) :
    buildRoot H refs = .ok (rootOf H leaves) := by
  unfold buildRoot
  rw [h, ok_bind]
  exact commit_eq_ok.mpr ⟨by omega,by exact_mod_cast hn,rfl⟩

/-- The commitment fixes the size, so an accepted path is one of the tree. -/
theorem verifyAuditPath_sound {leaf : Bytes} {index size : ℤ} {path : List Bytes} (hn : leaves.length < 2 ^ 64)
    (h : verifyAuditPath H leaf index size path (rootOf H leaves) = .ok true) :
    (size = leaves.length ∧ 0 ≤ index ∧ leaves[index.toNat]? = some leaf) ∨
      Collision H (hashedByAuditPath H leaf index size path ++ hashedByBuild H leaves) := by
  unfold verifyAuditPath at h
  split at h
  · cases h
  next node hnode =>
  obtain ⟨root,hroot,hcmp⟩ := bind_eq_ok.mp h
  obtain ⟨hnonneg,hlt,rfl⟩ := commit_eq_ok.mp hroot
  have hhash : H (commitInput size.toNat node.val) = H (commitInput leaves.length (mth H leaves).val) :=
    Subtype.ext (Bytes.hex_injective (eq_of_beq (Except.ok.inj hcmp)))
  have hmem : commitInput size.toNat node.val ∈ hashedByAuditPath H leaf index size path := by
    refine List.mem_cons_of_mem _ (List.mem_append_right _ ?_)
    rw [hnode]
    exact List.mem_singleton_self _
  rcases eq_or_collision (List.mem_append_left _ hmem) (List.mem_append_right _ List.mem_cons_self) hhash with he | hcol
  · obtain ⟨hsize,hmth⟩ := commitInput_inj (by omega) hn he
    obtain rfl : size = leaves.length := by omega
    rw [Subtype.ext hmth] at hnode
    obtain ⟨hindex,hleaf⟩ := reconstructRoot_sound hnode
    refine hleaf.imp (fun hleaf => ⟨rfl,hindex,hleaf⟩) (collision_mono ?_)
    exact List.append_subset.mpr ⟨List.subset_append_left _ _,
      fun x hx => List.mem_append_right _ (List.mem_cons_of_mem _ hx)⟩
  · exact Or.inr hcol

/-- An entry that passes its check is the leaf of the tree at its index. -/
theorem check_sound {size : ℤ} {entry : PyVal} {leaf : Bytes} (hn : leaves.length < 2 ^ 64)
    (h : check H size (rootOf H leaves) entry = .ok (some leaf)) :
    (∃ v i, entry.subscript "index" = .ok v ∧ intOf v = some i ∧ size = leaves.length ∧ 0 ≤ i ∧
      leaves[i.toNat]? = some leaf) ∨ Collision H (hashedByCheck H size entry ++ hashedByBuild H leaves) := by
  unfold check at h
  split at h
  · split at h <;> cases h
  next leaf' path index hread =>
  split at h
  · cases h
  next i hindex =>
  obtain ⟨verified,hv,h⟩ := bind_eq_ok.mp h
  cases verified with
  | false => cases h
  | true =>
    cases h
    have hhashed : hashedByCheck H size entry = hashedByAuditPath H leaf i size path := by
      unfold hashedByCheck
      rw [hread]
      dsimp only
      rw [hindex]
    rw [hhashed]
    refine (verifyAuditPath_sound hn hv).imp (fun hok => ⟨index,i,?_,hindex,hok⟩) id
    obtain ⟨_,-,hread⟩ := bind_eq_ok.mp hread
    obtain ⟨_,-,hread⟩ := bind_eq_ok.mp hread
    obtain ⟨_,-,hread⟩ := bind_eq_ok.mp hread
    obtain ⟨_,-,hread⟩ := bind_eq_ok.mp hread
    obtain ⟨_,-,hread⟩ := bind_eq_ok.mp hread
    obtain ⟨v,hsub,hread⟩ := bind_eq_ok.mp hread
    cases hread
    exact hsub

theorem get_of_subscript {v x : PyVal} {key : String} (default : PyVal) (h : v.subscript key = .ok x) :
    v.get key = .ok x ∧ getD v key default = .ok x := by
  unfold PyVal.subscript at h
  unfold PyVal.get getD
  split at h
  · next pairs =>
    split at h
    · next y hy =>
      cases h
      dsimp only
      rw [hy]
      exact ⟨rfl,rfl⟩
    · cases h
  · cases h
  · cases h
  · cases h

theorem eqInt_of_intOf {v : PyVal} {m n : ℤ} (hv : intOf v = some m) (h : eqInt F v n = true) : m = n := by
  unfold eqInt at h
  rw [hv] at h
  exact of_decide_eq_true h

theorem eqSucc_of_intOf {v w : PyVal} {m n : ℤ} (hv : intOf v = some m) (hw : intOf w = some n)
    (h : eqSucc F v w = .ok true) : m = n + 1 := by
  unfold eqSucc at h
  rw [hw] at h
  exact eqInt_of_intOf hv (Except.ok.inj h)

/-- The neighbours of an accepted proof leave no room for the target among the leaves. -/
theorem verifyNeighbours_sound {target : Bytes} {size : ℤ} {pred succ : PyVal} (hs : leaves.Pairwise (· ≤ ·))
    (hn : leaves.length < 2 ^ 64) (h : verifyNeighbours H F target size pred succ (rootOf H leaves) = .ok true) :
    target ∉ leaves ∨
      Collision H (hashedByCheck H size pred ++ hashedByCheck H size succ ++ hashedByBuild H leaves) := by
  have hpred : hashedByCheck H size pred ++ hashedByBuild H leaves ⊆
      hashedByCheck H size pred ++ hashedByCheck H size succ ++ hashedByBuild H leaves :=
    List.append_subset.mpr ⟨fun x hx => List.mem_append_left _ (List.mem_append_left _ hx),List.subset_append_right _ _⟩
  have hsucc : hashedByCheck H size succ ++ hashedByBuild H leaves ⊆
      hashedByCheck H size pred ++ hashedByCheck H size succ ++ hashedByBuild H leaves :=
    List.append_subset.mpr ⟨fun x hx => List.mem_append_left _ (List.mem_append_right _ hx),
      List.subset_append_right _ _⟩
  unfold verifyNeighbours at h
  split at h
  · split at h
    · cases h
    obtain ⟨index,hindex,h⟩ := bind_eq_ok.mp h
    split at h
    · next heq =>
      obtain ⟨leaf,hleaf,h⟩ := bind_eq_ok.mp h
      cases leaf with
      | none => cases h
      | some leaf =>
        have hlt : target < leaf := of_decide_eq_true (Except.ok.inj h)
        rcases check_sound hn hleaf with ⟨v,i,hv,hi,-,-,hget⟩ | hcol
        · left
          cases hindex.symm.trans (get_of_subscript .none hv).1
          have hzero : i = 0 := eqInt_of_intOf hi heq
          rw [hzero] at hget
          exact notMem_of_lt_first hs hget hlt
        · exact Or.inr (collision_mono hsucc hcol)
    · cases h
  · split at h
    · obtain ⟨index,hindex,h⟩ := bind_eq_ok.mp h
      split at h
      · next heq =>
        obtain ⟨leaf,hleaf,h⟩ := bind_eq_ok.mp h
        cases leaf with
        | none => cases h
        | some leaf =>
          have hlt : leaf < target := of_decide_eq_true (Except.ok.inj h)
          rcases check_sound hn hleaf with ⟨v,i,hv,hi,hsize,-,hget⟩ | hcol
          · left
            cases hindex.symm.trans (get_of_subscript .none hv).1
            have hlast : i = size - 1 := eqInt_of_intOf hi heq
            have hnat : i.toNat = leaves.length - 1 := by omega
            rw [hnat] at hget
            exact notMem_of_last_lt hs hget hlt
          · exact Or.inr (collision_mono hpred hcol)
      · cases h
    · obtain ⟨after,hafter,h⟩ := bind_eq_ok.mp h
      obtain ⟨before,hbefore,h⟩ := bind_eq_ok.mp h
      obtain ⟨adjacent,hadj,h⟩ := bind_eq_ok.mp h
      cases adjacent with
      | false => cases h
      | true =>
        obtain ⟨lo,hlo,h⟩ := bind_eq_ok.mp h
        obtain ⟨hi,hhi,h⟩ := bind_eq_ok.mp h
        cases lo with
        | none => cases h
        | some lo =>
          cases hi with
          | none => cases h
          | some hi =>
            obtain ⟨h₁,h₂⟩ : lo < target ∧ target < hi := of_decide_eq_true (Except.ok.inj h)
            rcases check_sound hn hlo with ⟨v,i,hv,hi',-,hnonneg,hget⟩ | hcol
            · rcases check_sound hn hhi with ⟨w,j,hw,hj,-,-,hget'⟩ | hcol
              · left
                cases hbefore.symm.trans (get_of_subscript (.int (-99)) hv).2
                cases hafter.symm.trans (get_of_subscript .none hw).1
                have hnext : j = i + 1 := eqSucc_of_intOf hj hi' hadj
                have hnat : j.toNat = i.toNat + 1 := by omega
                rw [hnat] at hget'
                exact notMem_of_between hs hget hget' h₁ h₂
              · exact Or.inr (collision_mono hsucc hcol)
            · exact Or.inr (collision_mono hpred hcol)

theorem sortedLeaves_eq_ok {refs : List String} (h : sortedLeaves refs = .ok leaves) :
    leaves.Pairwise (· ≤ ·) ∧ ∀ data, data ∈ leaves ↔ ∃ r ∈ refs, Bytes.fromhex r = some data := by
  obtain ⟨parsed,hp,h⟩ := bind_eq_ok.mp h
  cases h
  refine ⟨List.pairwise_insertionSort _ _,fun data => ?_⟩
  rw [List.mem_insertionSort, List.mem_dedup]
  have hmap := mapM_eq_ok.mp hp
  have hmem : data ∈ parsed ↔ (Except.ok data : Py Bytes) ∈ refs.map fun r => (PyVal.str r).fromhex := by
    rw [hmap, List.mem_map]
    exact ⟨fun h => ⟨data,h,rfl⟩,fun ⟨_,h,he⟩ => Except.ok.inj he ▸ h⟩
  rw [hmem, List.mem_map]
  refine exists_congr fun r => and_congr_right fun _ => ?_
  cases hr : Bytes.fromhex r <;> simp [PyVal.fromhex, hr, raise]

/-- A proof that `verify_absence` accepts against the root of a set of references is about a target
that is not in the set, unless hashes collide. -/
theorem verifyAbsence_sound (F : FloatOps) (refs : List String) (targetRef proof : PyVal)
    (h : sortedLeaves refs = .ok leaves) (hn : leaves.length < 2 ^ 64) : ∃ root, buildRoot H refs = .ok root ∧
      (verifyAbsence H F targetRef proof (.str root) = .ok true →
        (∃ target, targetRef.fromhex = .ok target ∧ ∀ r ∈ refs, Bytes.fromhex r ≠ some target) ∨
          Collision H (hashedAlong H leaves targetRef proof)) := by
  refine ⟨_,buildRoot_eq_ok h hn,fun hv => ?_⟩
  obtain ⟨hsorted,hmem⟩ := sortedLeaves_eq_ok h
  unfold verifyAbsence at hv
  split at hv
  · split at hv <;> cases hv
  next target size pred succ hread =>
  have htarget : targetRef.fromhex = .ok target := by
    obtain ⟨t,ht,hread⟩ := bind_eq_ok.mp hread
    obtain ⟨_,-,hread⟩ := bind_eq_ok.mp hread
    obtain ⟨_,-,hread⟩ := bind_eq_ok.mp hread
    obtain ⟨_,-,hread⟩ := bind_eq_ok.mp hread
    cases hread
    exact ht
  have habsent : target ∉ leaves → ∃ target, targetRef.fromhex = .ok target ∧ ∀ r ∈ refs,
    Bytes.fromhex r ≠ some target :=
    fun hout => ⟨target,htarget,fun r hr he => hout ((hmem target).mpr ⟨r,hr,he⟩)⟩
  split at hv
  · next root n hroot hsize =>
    cases hroot
    split at hv
    · cases hv
    split at hv
    · next hzero =>
      -- the root is the one of no leaves
      simp only [Except.ok.injEq, Bool.and_eq_true, beq_iff_eq] at hv
      have hhash : H (commitInput leaves.length (mth H leaves).val) = H (commitInput 0 (H []).val) :=
        Subtype.ext (Bytes.hex_injective hv.2)
      have hempty : commitInput 0 (H []).val ∈ hashedByVerify H targetRef proof :=
        List.mem_cons_of_mem _ List.mem_cons_self
      rcases eq_or_collision (List.mem_append_right _ List.mem_cons_self)
        (List.mem_append_left _ hempty) hhash with he | hcol
      · left
        obtain ⟨hlen,-⟩ := commitInput_inj hn (by norm_num) he
        refine habsent fun hin => ?_
        rw [List.length_eq_zero_iff.mp hlen] at hin
        exact List.not_mem_nil hin
      · exact Or.inr hcol
    · refine (verifyNeighbours_sound hsorted hn hv).imp habsent (collision_mono ?_)
      have hhashed : hashedByVerify H targetRef proof = [] :: commitInput 0 (H []).val ::
          (hashedByCheck H n pred ++ hashedByCheck H n succ) := by
        unfold hashedByVerify
        rw [hread]
        dsimp only
        rw [hsize, Option.getD_some]
      rw [hashedAlong, hhashed]
      refine List.append_subset.mpr ⟨fun x hx => ?_,List.subset_append_right _ _⟩
      exact List.mem_append_left _ (List.mem_cons_of_mem _ (List.mem_cons_of_mem _ hx))
  · cases hv

/-- A proof that shrinks the tree, so that its last leaf falls outside it. -/
def sizeLie : PyVal := .dict [(.str "tree_size",.int 1),
  (.str "predecessor",.dict [(.str "leaf",.str "00"), (.str "index",.int 0), (.str "path",.list [])]),
    (.str "successor",.none)]

theorem verifyAbsence_sound_sample : ∃ root, buildRoot sha256 ["00","02"] = .ok root ∧
    (verifyAbsence sha256 ⟨fun _ _ => false,id⟩ (.str "02") sizeLie (.str root) = .ok true →
      Collision sha256 (hashedAlong sha256 [[0],[2]] (.str "02") sizeLie)) := by
  obtain ⟨root,hroot,hsound⟩ := verifyAbsence_sound (H := sha256) ⟨fun _ _ => false,id⟩ ["00","02"] (.str "02") sizeLie
    (show sortedLeaves ["00","02"] = .ok [[0],[2]] from rfl) (by decide)
  refine ⟨root,hroot,fun hv => (hsound hv).resolve_left ?_⟩
  rintro ⟨target,ht,hout⟩
  have htarget : target = [2] := (Except.ok.inj ht).symm
  exact hout "02" (by decide) (htarget ▸ rfl)

end Proof

end UnlearnShield.Merkle
