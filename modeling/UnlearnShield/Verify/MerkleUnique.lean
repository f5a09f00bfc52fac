import UnlearnShield.Verify.MerklePath
import UnlearnShield.Verify.MerkleSound

/-! # An audit path is unique

Read from the root downward, the last sibling of a path and the node below it are fixed by
the root, since the node is a digest on a known side of the sibling. So are the siblings
under them, by the same argument in the half of the tree the leaf is in.
-/
namespace UnlearnShield.Merkle
open Smt (Collision)

section Hashed
variable (H : Bytes → Digest)

def joinInput (b : Bool) (sibling : Bytes) (node : Digest) : Bytes :=
  if b then nodeInput sibling node.val else nodeInput node.val sibling

def hashedByAscend : List Bool → List Bytes → Digest → List Bytes
  | b :: sides, sibling :: path, node => joinInput b sibling node :: hashedByAscend sides path (join H b sibling node)
  | _, _, _ => []

def hashedByReconstruct (leaf : Bytes) (index : ℕ) (leaves path : List Bytes) : List Bytes :=
  leafInput leaf :: hashedByClimb H path index (leaves.length - 1) (leafHash H leaf) ++ hashedByMth H leaves

end Hashed

variable {H : Bytes → Digest}

theorem join_eq (b : Bool) (sibling : Bytes) (node : Digest) :
    join H b sibling node = H (joinInput b sibling node) := by
  cases b <;> rfl

/-- A digest fills its side of the string, so the string fixes both. -/
theorem joinInput_inj {b : Bool} {s t : Bytes} {x y : Digest} (h : joinInput b s x = joinInput b t y) :
    x = y ∧ s = t := by
  cases b with
  | false =>
    have hxy : x = y := nodeInput_left h
    subst hxy
    exact ⟨rfl,List.append_cancel_left (List.cons.inj h).2⟩
  | true =>
    have hxy : x = y := nodeInput_right h
    subst hxy
    exact ⟨rfl,List.append_cancel_right (List.cons.inj h).2⟩

theorem hashedByClimb_eq_ascend (path : List Bytes) (fn sn : ℕ) (node : Digest) :
    hashedByClimb H path fn sn node = hashedByAscend H (turns fn sn) path node := by
  induction path generalizing fn sn node with
  | nil =>
    rw [hashedByClimb]
    cases turns fn sn <;> rfl
  | cons sibling path ih =>
    rw [hashedByClimb, turns]
    by_cases hz : sn = 0
    · simp [hz, hashedByAscend]
    · by_cases hc : fn % 2 = 1 ∨ fn = sn
      · simp [hz, hc, hashedByAscend, joinInput, join, ih]
      · simp [hz, hc, hashedByAscend, joinInput, join, ih]

theorem hashedByAscend_concat {b : Bool} {sibling : Bytes} {sides : List Bool} {path : List Bytes} {node top : Digest}
    (h : ascend H sides path node = some top) :
    hashedByAscend H (sides ++ [b]) (path ++ [sibling]) node =
      hashedByAscend H sides path node ++ [joinInput b sibling top] := by
  induction sides generalizing path node with
  | nil =>
    cases path with
    | nil =>
      cases h
      rfl
    | cons y path => cases h
  | cons c sides ih =>
    cases path with
    | nil => cases h
    | cons y path =>
      have hstep := ih h
      simp [hashedByAscend, hstep]

/-- A way up that reaches a node took its last step from the child on that side. -/
theorem ascend_concat_eq_some {b : Bool} {sides : List Bool} {path : List Bytes} {node top : Digest}
    (h : ascend H (sides ++ [b]) path node = some top) : ∃ below sibling mid, path = below ++ [sibling] ∧
      ascend H sides below node = some mid ∧ H (joinInput b sibling mid) = top := by
  have hlen : path.length = sides.length + 1 := by
    have := ascend_isSome.mp (Option.isSome_iff_exists.mpr ⟨top,h⟩)
    simpa using this
  obtain ⟨below,sibling,rfl⟩ : ∃ below sibling, path = below ++ [sibling] :=
    ⟨path.dropLast,path.getLast (by rintro rfl; simp at hlen),(List.dropLast_append_getLast _).symm⟩
  rw [ascend_concat] at h
  obtain ⟨mid,hmid,htop⟩ := Option.map_eq_some_iff.mp h
  exact ⟨below,sibling,mid,rfl,hmid,(join_eq ..).symm.trans htop⟩

/-- A step up to a known node is over the known child and the known sibling, and what is said of the
way up to the child is said of the whole of it. -/
theorem ascend_step {b : Bool} {sides : List Bool} {path : List Bytes} {node child sibling : Digest} {a : Bytes}
    {half inputs : List Bytes} {P : List Bytes → Prop}
    (h : ascend H (sides ++ [b]) path node = some (H (joinInput b sibling.val child)))
    (hin : joinInput b sibling.val child ∈ inputs) (hhalf : half ⊆ inputs)
    (hbelow : ∀ below, ascend H sides below node = some child →
      P below ∨ Collision H (a :: hashedByAscend H sides below node ++ half)) :
    (∃ below, path = below ++ [sibling.val] ∧ P below) ∨
      Collision H (a :: hashedByAscend H (sides ++ [b]) path node ++ inputs) := by
  obtain ⟨below,s,mid,rfl,hmid,htop⟩ := ascend_concat_eq_some h
  rw [hashedByAscend_concat hmid]
  have hmem : joinInput b s mid ∈ a :: (hashedByAscend H sides below node ++ [joinInput b s mid]) := by simp
  rcases eq_or_collision (List.mem_append_left _ hmem) (List.mem_append_right _ hin) htop with he | hcol
  · obtain ⟨rfl,rfl⟩ := joinInput_inj he
    rcases hbelow below hmid with hp | hcol
    · exact Or.inl ⟨below,rfl,hp⟩
    · refine Or.inr (collision_mono (List.append_subset.mpr ⟨?_,?_⟩) hcol)
      · intro x hx
        simp only [List.mem_cons] at hx
        simp only [List.cons_append, List.mem_cons, List.mem_append]
        tauto
      · exact fun x hx => List.mem_append_right _ (hhalf hx)
  · exact Or.inr hcol

theorem hashedByMth_split {leaves : List Bytes} (h : 2 ≤ leaves.length) :
    hashedByMth H leaves = nodeInput (mth H (leaves.take (split leaves.length))).val
        (mth H (leaves.drop (split leaves.length))).val ::
      (hashedByMth H (leaves.take (split leaves.length)) ++ hashedByMth H (leaves.drop (split leaves.length))) := by
  match leaves with
  | [] => exact absurd h (Nat.not_succ_le_zero 1)
  | [data] => exact absurd h (Nat.lt_irrefl 1)
  | x :: y :: rest =>
    rw [hashedByMth]
    rfl

theorem length_auditPath_eq {leaves : List Bytes} {i : ℕ} (hi : i < leaves.length) :
    (auditPath H i leaves).length = (turns i (leaves.length - 1)).length := by
  have hsome : (ascend H (turns i (leaves.length - 1)) ((auditPath H i leaves).map Subtype.val)
    (leafHash H leaves[i])).isSome := by
    rw [ascend_auditPath (List.getElem?_eq_getElem hi)]
    rfl
  simpa using ascend_isSome.mp hsome

/-- A way up along the sides of `i` that reaches the root starts at the leaf and takes its siblings. -/
theorem ascend_unique {leaves : List Bytes} {i : ℕ} {leaf : Bytes} (path : List Bytes) (hi : i < leaves.length)
    (h : ascend H (turns i (leaves.length - 1)) path (leafHash H leaf) = some (mth H leaves)) :
    (leaves[i]? = some leaf ∧ path = (auditPath H i leaves).map Subtype.val) ∨
    Collision H (leafInput leaf :: hashedByAscend H (turns i (leaves.length - 1)) path (leafHash H leaf) ++
      hashedByMth H leaves) := by
  revert path
  induction i, leaves using auditPath.induct with
  | case1 i leaves hone =>
    intro path h
    rcases leaves with - | ⟨data,- | ⟨y,rest⟩⟩
    · exact absurd hi (Nat.not_lt_zero _)
    · obtain rfl : i = 0 := by simpa using hi
      have hturns : turns 0 ([data].length - 1) = [] := by simp [turns]
      rw [hturns] at h ⊢
      cases path with
      | cons sibling path => cases h
      | nil =>
        have hhash : leafHash H leaf = leafHash H data := by
          rw [← mth_singleton (H := H) data]
          exact Option.some.inj h
        have hmine : leafInput leaf ∈ leafInput leaf :: hashedByAscend H [] [] (leafHash H leaf) ++
          hashedByMth H [data] :=
          List.mem_cons_self
        rcases eq_or_collision hmine (by simp [hashedByMth_singleton]) hhash with he | hcol
        · left
          rw [auditPath, if_pos hone, (List.cons.inj he).2]
          exact ⟨rfl,rfl⟩
        · exact Or.inr hcol
    · simp only [List.length_cons] at hone
      omega
  | case2 i leaves hone k hlt ih =>
    intro path h
    have hb := split_bounds (n := leaves.length) (by omega)
    have hlen : (leaves.take k).length = k := by
      rw [List.length_take]
      omega
    rw [hlen] at ih
    simp only [k] at hlt ih
    have hturns : turns i (leaves.length - 1) = turns i (split leaves.length - 1) ++ [false] := by
      rw [turns_split (by omega) hi, if_pos hlt]
    have hnode := hashedByMth_split (H := H) (by omega : 2 ≤ leaves.length)
    rw [hturns] at h ⊢
    rw [mth_split (by omega)] at h
    refine (ascend_step (b := false) h (hnode ▸ List.mem_cons_self) ?_ (ih hlt)).imp_left ?_
    · rw [hnode]
      exact fun x hx => List.mem_cons_of_mem _ (List.mem_append_left _ hx)
    · rintro ⟨below,rfl,hleaf,rfl⟩
      rw [List.getElem?_take_of_lt hlt] at hleaf
      rw [auditPath.eq_1 H i leaves, if_neg hone]
      simp only [if_pos hlt, List.map_append, List.map_singleton]
      exact ⟨hleaf,trivial⟩
  | case3 i leaves hone k hge ih =>
    intro path h
    have hb := split_bounds (n := leaves.length) (by omega)
    have hlen : (leaves.drop k).length = leaves.length - k := List.length_drop ..
    rw [hlen] at ih
    simp only [k] at hge ih
    have hturns : turns i (leaves.length - 1) =
        turns (i - split leaves.length) (leaves.length - split leaves.length - 1) ++ [true] := by
      rw [turns_split (by omega) hi, if_neg hge]
    have hnode := hashedByMth_split (H := H) (by omega : 2 ≤ leaves.length)
    rw [hturns] at h ⊢
    rw [mth_split (by omega)] at h
    refine (ascend_step (b := true) h (hnode ▸ List.mem_cons_self) ?_ (ih (by omega))).imp_left ?_
    · rw [hnode]
      exact fun x hx => List.mem_cons_of_mem _ (List.mem_append_right _ hx)
    · rintro ⟨below,rfl,hleaf,rfl⟩
      have hindex : split leaves.length + (i - split leaves.length) = i := by omega
      rw [List.getElem?_drop, hindex] at hleaf
      rw [auditPath.eq_1 H i leaves, if_neg hone]
      simp only [if_neg hge, List.map_append, List.map_singleton]
      exact ⟨hleaf,trivial⟩

/-- `reconstruct_root` gives the root exactly for the leaf at the index with its audit path, unless
hashes collide, and gives nothing for a path of another length. -/
theorem reconstructRoot_eq_mth_iff (H : Bytes → Digest) (leaves : List Bytes) (index : ℕ) (leaf : Bytes)
    (path : List Bytes) (hi : index < leaves.length) :
    ((reconstructRoot H leaf index leaves.length path = some (mth H leaves) ↔
        leaves[index]? = some leaf ∧ path = (auditPath H index leaves).map Subtype.val) ∨
      Collision H (hashedByReconstruct H leaf index leaves path)) ∧
    (path.length ≠ (auditPath H index leaves).length → reconstructRoot H leaf index leaves.length path = none) := by
  have hlast : ((leaves.length : ℤ) - 1).toNat = leaves.length - 1 := by omega
  have hclimb : reconstructRoot H leaf index leaves.length path =
      ascend H (turns index (leaves.length - 1)) path (leafHash H leaf) := by
    rw [reconstructRoot, if_neg (by omega), climb_eq_ascend, hlast]
    rfl
  constructor
  · by_cases hcol : Collision H (hashedByReconstruct H leaf index leaves path)
    · exact Or.inr hcol
    · refine Or.inl ⟨fun h => ?_,?_⟩
      · rw [hclimb] at h
        refine (ascend_unique path hi h).resolve_right ?_
        rwa [← hashedByClimb_eq_ascend]
      · rintro ⟨hleaf,rfl⟩
        exact reconstructRoot_auditPath hleaf
  · intro hlen
    rw [hclimb, ← Option.not_isSome_iff_eq_none, ascend_isSome, ← length_auditPath_eq (H := H) hi]
    exact hlen

/-- The path of the leaf at index 1 is not accepted for another leaf, nor doubled. -/
theorem reconstructRoot_eq_mth_iff_sample :
    (reconstructRoot sha256 [1] 1 2 [(leafHash sha256 [0]).val] ≠ some (mth sha256 [[0],[2]]) ∨
      Collision sha256 (hashedByReconstruct sha256 [1] 1 [[0],[2]] [(leafHash sha256 [0]).val])) ∧
    reconstructRoot sha256 [2] 1 2 [(leafHash sha256 [0]).val,(leafHash sha256 [0]).val] = none := by
  constructor
  · refine (reconstructRoot_eq_mth_iff sha256 [[0],[2]] 1 [1] [(leafHash sha256 [0]).val] (by decide)).1.imp_left ?_
    intro hiff h
    exact absurd (hiff.mp h).1 (by decide)
  · refine (reconstructRoot_eq_mth_iff sha256 [[0],[2]] 1 [2] [(leafHash sha256 [0]).val,(leafHash sha256 [0]).val]
      (by decide)).2 ?_
    rw [length_auditPath_eq (by decide)]
    simp [turns, shiftEven]

end UnlearnShield.Merkle
