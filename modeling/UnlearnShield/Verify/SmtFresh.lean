import UnlearnShield.Verify.SmtSound
import UnlearnShield.Verify.SmtComplete

/-! # A tree after removals, and a fresh one

Removals leave internal nodes over one key or none, shapes that `_build` never
makes. Such a tree still answers as the tree built afresh over the survivors does;
the walks of the two can only part where the root of an occupied subtree equals
the root of an empty one, which takes a collision.
-/
namespace UnlearnShield.Smt
open BitTrie Json
variable {H : Bytes → Digest}

variable (H) in
def hashedByRoot (S : List Ref) : List Bytes := hashedBySubtree H (keys S) 0 ++ hashedByDefaults H

theorem pathInput_nil_mem {t : Ref} {i : ℕ} (hi : i < DEPTH) : pathInput H t [] i ∈ hashedByDefaults H :=
  pathInput_of_nil hi rfl

/-- An occupied subtree with the root of an empty one is a collision. -/
theorem collision_of_pathRoot {t : Ref} {S : List Ref} {d : ℕ} (hd : d ≤ DEPTH) (ht : t ∈ S)
    (h : pathRoot H t (keys S) d = defaults H d) : Collision H (hashedByRoot H S) := by
  have hnil : pathRoot H t [] d = defaults H d := pathRoot_of_nil rfl
  have hclimb := h.trans hnil.symm
  rw [pathRoot_eq_climb t _ hd, pathRoot_eq_climb t _ hd] at hclimb
  rcases (trie H).climb_eq_climb hclimb with ⟨i,hdi,hi,hne,heq⟩ | ⟨hx,-⟩
  · rw [show d + (DEPTH - d) = DEPTH by omega] at hi hne heq
    rw [← pathRoot_eq_climb t _ hi, ← pathRoot_eq_climb t _ hi] at hne
    rw [← pathRoot_eq_climb t _ hi.le, ← pathRoot_eq_climb t _ hi.le] at heq
    have hm := pathInput_mem (H := H) (t := t) (keys_nodup S) (Nat.zero_le i) hi
    rw [show onPath H t 0 (keys S) = keys S from (trie H).onPath_zero t _] at hm
    refine ⟨pathInput H t (keys S) i,hm,pathInput H t [] i,
      List.mem_append_right _ (pathInput_nil_mem hi),fun he => hne ?_,?_⟩
    · obtain ⟨hx,hs⟩ := pairInput_inj.mp he
      exact Prod.ext hx hs
    · rw [pathInput, pathInput, hash_pairInput (H := H), hash_pairInput (H := H)]
      rw [pathRoot_eq_climb t _ hi.le, pathRoot_eq_climb t _ hi.le,
        show DEPTH - i = DEPTH - (i+1) + 1 by omega, climb_succ, climb_succ] at heq
      rw [pathRoot_eq_climb t _ hi, pathRoot_eq_climb t _ hi]
      exact heq
  · rw [leafAt, leafAt, if_pos (mem_keys.mpr ht), if_neg List.not_mem_nil] at hx
    refine ⟨leafInput t,List.mem_append_left _ (leafInput_mem (keys_nodup S) (SharePath.zero _) (mem_keys.mpr ht)),
      emptyLeafInput,List.mem_append_right _ List.mem_cons_self,leafInput_ne_emptyLeafInput t,hx⟩

/-- The root of the keys that leave a path is not the default, or hashes collide. -/
theorem collision_of_sideRoot {t : Ref} {S : List Ref} {i : ℕ} (hi : i < DEPTH) (ho : offPath H t i (keys S) ≠ [])
    (h : sideRoot H t (keys S) i = defaults H (i+1)) : Collision H (hashedByRoot H S) := by
  obtain ⟨k,hk⟩ := List.exists_mem_of_ne_nil _ ho
  have hkS : k ∈ S := mem_keys.mp ((trie H).mem_offPath.mp hk).1
  apply collision_of_pathRoot (t := k) hi hkS
  rw [pathRoot, onPath, (trie H).onPath_of_mem_offPath hk]
  exact h

/-- Without a collision every tree over `S` shows the roots of exactly the occupied
subtrees beside the path. -/
theorem walk_eq_occupied {t : Ref} {ks : List Ref} {m : Node} {n d : ℕ} (hd : d + n = DEPTH)
    (hr : Represents H m d (onPath H t d ks))
    (hc : ∀ i < DEPTH, offPath H t i ks ≠ [] → sideRoot H t ks i ≠ defaults H (i+1)) :
    walk H t m d = siblingsAt H (fun i => offPath H t i ks ≠ []) t ks d n := by
  induction m generalizing n d with
  | internal hash left right ihl ihr =>
    have hlt := hr.1
    obtain ⟨same,hs,hside,hw⟩ := walk_internal hr
    obtain ⟨n,rfl⟩ : ∃ n', n = n' + 1 := ⟨n - 1,by omega⟩
    have ih : walk H t same (d+1) = siblingsAt H (fun i => offPath H t i ks ≠ []) t ks (d+1) n := by
      rcases hside with ⟨rfl,-⟩ | ⟨rfl,-⟩
      · exact ihl (by omega) hs
      · exact ihr (by omega) hs
    rw [hw, ih, siblingsAt_succ]
    congr 1
    by_cases ho : offPath H t d ks = []
    · simp [ho, sideRoot_of_offPath_nil ho]
    · simp [ho, hc d hlt ho]
  | singleton hash key =>
    obtain ⟨-,hk⟩ := hr
    exact walk_singleton hd hk
  | empty hash =>
    obtain ⟨-,hk⟩ := hr
    rw [siblingsAt_of_forall_not fun i hi _ h =>
      h (offPath_nil_of_onPath_nil (onPath_nil_of_le hk hi))]
    rfl

theorem represents_onPath_zero (tree : SparseMerkleTree H) (t : Ref) :
    Represents H tree.node 0 (onPath H t 0 tree.keys) := by
  rw [show onPath H t 0 tree.keys = tree.keys from (trie H).onPath_zero t tree.keys]
  exact tree.represents

theorem walk_tree {S : List Ref} (hc : ¬Collision H (hashedByRoot H S)) {tree : SparseMerkleTree H}
    (hk : tree.keys = keys S) (t : Ref) :
    walk H t tree.node 0 = siblingsAt H (fun i => offPath H t i (keys S) ≠ []) t (keys S) 0 DEPTH := by
  have hr := represents_onPath_zero tree t
  rw [hk] at hr
  exact walk_eq_occupied (Nat.zero_add DEPTH) hr fun i hi ho he => hc (collision_of_sideRoot hi ho he)

/-- Two trees over one set prove the same absences, however each came about. -/
theorem proveAbsence_congr {S : List Ref} (hc : ¬Collision H (hashedByRoot H S)) {tree fresh : SparseMerkleTree H}
    (hk : tree.keys = keys S) (hf : fresh.keys = keys S) (t : Ref) :
    tree.proveAbsence t = fresh.proveAbsence t := by
  unfold SparseMerkleTree.proveAbsence
  rw [walk_tree hc hk, walk_tree hc hf, hk, hf]

theorem remove_absent {tree : SparseMerkleTree H} {refs : List Ref} {ref : Ref}
    (h : refs.find? (· ∉ tree.keys) = some ref) :
    tree.remove refs = raise .valueError s!"{ref.short}... is not present; cannot remove" := by
  unfold SparseMerkleTree.remove
  rw [h]

namespace SparseMerkleTree

/-- `tree.remove(R1).remove(R2)...`. -/
def removeAll : SparseMerkleTree H → List (List Ref) → Py (SparseMerkleTree H)
  | tree, [] => .ok tree
  | tree, refs :: batches => do
    let tree' ← tree.remove refs
    removeAll tree' batches

end SparseMerkleTree

def survivors (S : List Ref) : List (List Ref) → List Ref
  | [] => S
  | refs :: batches => survivors (S.filter (· ∉ refs)) batches

def PresentInTurn (S : List Ref) : List (List Ref) → Prop
  | [] => True
  | refs :: batches => (∀ r ∈ refs, r ∈ S) ∧ PresentInTurn (S.filter (· ∉ refs)) batches

theorem exists_removeAll {S : List Ref} {tree : SparseMerkleTree H} {batches : List (List Ref)}
    (hk : tree.keys = keys S) (h : PresentInTurn S batches) :
    ∃ tree', tree.removeAll batches = .ok tree' ∧ tree'.keys = keys (survivors S batches) := by
  induction batches generalizing S tree with
  | nil => exact ⟨tree,rfl,hk⟩
  | cons refs batches ih =>
    obtain ⟨hrefs,hrest⟩ := h
    have hpresent : ∀ r ∈ refs, r ∈ tree.keys := by
      intro r hr
      rw [hk, mem_keys]
      exact hrefs r hr
    obtain ⟨tree₁,h₁,hk₁⟩ := SparseMerkleTree.exists_remove hpresent
    have hk₁' : tree₁.keys = keys (S.filter (· ∉ refs)) := by rw [hk₁, hk, keys_filter]
    obtain ⟨tree',h',hk'⟩ := ih hk₁' hrest
    exact ⟨tree',by rw [SparseMerkleTree.removeAll, h₁]; exact h',hk'⟩

/-- The root of a tree is what `build_root` computes over its keys. -/
theorem buildRoot_of_keys {S : List Ref} {tree : SparseMerkleTree H} (hk : tree.keys = keys S) :
    buildRoot H S = .ok tree.root := by
  rw [buildRoot_eq, tree.root_eq, hk]
  rfl

/-- A chain of removals gives a tree that answers as the fresh tree of the survivors does.
An absent reference is refused by the check at the head of `remove`, and when every
reference is present no removal fails. -/
theorem removeAll_eq_fresh (S : List Ref) (batches : List (List Ref)) (h : PresentInTurn S batches) :
    ∃ start tree fresh : SparseMerkleTree H, SparseMerkleTree.ofRefs S = .ok start ∧
      start.removeAll batches = .ok tree ∧ SparseMerkleTree.ofRefs (survivors S batches) = .ok fresh ∧
      tree.root = fresh.root ∧ tree.fingerprint = fresh.fingerprint ∧
      buildRoot H (survivors S batches) = .ok tree.root ∧
      (∀ refs, (∀ r ∈ refs, r ∈ survivors S batches) →
        (∃ tree', tree.remove refs = .ok tree') ∧ ∃ fresh', fresh.remove refs = .ok fresh') ∧
      (∀ refs, (∃ r ∈ refs, r ∉ survivors S batches) → ∃ ref ∈ refs, ref ∉ survivors S batches ∧
        tree.remove refs = raise .valueError s!"{ref.short}... is not present; cannot remove" ∧
        fresh.remove refs = raise .valueError s!"{ref.short}... is not present; cannot remove") ∧
      (Collision H (hashedByRoot H (survivors S batches)) ∨
        ∀ t, tree.proveAbsence t = fresh.proveAbsence t) := by
  obtain ⟨start,hstart,hk⟩ := SparseMerkleTree.exists_ofRefs (H := H) S
  obtain ⟨tree,htree,hkt⟩ := exists_removeAll hk h
  obtain ⟨fresh,hfresh,hkf⟩ := SparseMerkleTree.exists_ofRefs (H := H) (survivors S batches)
  refine ⟨start,tree,fresh,hstart,htree,hfresh,?_,?_,buildRoot_of_keys hkt,?_,?_,?_⟩
  · rw [tree.root_eq, fresh.root_eq, hkt, hkf]
  · rw [SparseMerkleTree.fingerprint, SparseMerkleTree.fingerprint, hkt, hkf]
  · intro refs hrefs
    constructor
    · obtain ⟨tree',he,-⟩ := SparseMerkleTree.exists_remove (by simpa [hkt] using hrefs : ∀ r ∈ refs, r ∈ tree.keys)
      exact ⟨tree',he⟩
    · obtain ⟨fresh',he,-⟩ := SparseMerkleTree.exists_remove (by simpa [hkf] using hrefs : ∀ r ∈ refs, r ∈ fresh.keys)
      exact ⟨fresh',he⟩
  · rintro refs ⟨r,hr,habsent⟩
    cases hf : refs.find? (· ∉ keys (survivors S batches)) with
    | none =>
      have hall := List.find?_eq_none.mp hf r hr
      simp [habsent] at hall
    | some ref =>
      have hp := List.find?_some hf
      have hp' : ref ∉ survivors S batches := by simpa using hp
      exact ⟨ref,List.mem_of_find?_eq_some hf,hp',remove_absent (hkt.symm ▸ hf),remove_absent (hkf.symm ▸ hf)⟩
  · by_cases hc : Collision H (hashedByRoot H (survivors S batches))
    · exact Or.inl hc
    · exact Or.inr (proveAbsence_congr hc hkt hkf)

def repeated (b : UInt8) : Ref := ⟨List.replicate 32 b,rfl⟩

/-- Two removals out of three references, the first one naming its reference twice. -/
theorem removeAll_eq_fresh_sample : ∃ start tree fresh : SparseMerkleTree sha256,
    SparseMerkleTree.ofRefs [repeated 0, repeated 1, repeated 255] = .ok start ∧
      start.removeAll [[repeated 1, repeated 1], [repeated 0]] = .ok tree ∧
      SparseMerkleTree.ofRefs [repeated 255] = .ok fresh ∧ tree.root = fresh.root := by
  have hpresent : PresentInTurn [repeated 0, repeated 1, repeated 255] [[repeated 1, repeated 1], [repeated 0]] :=
    ⟨by decide,by decide,trivial⟩
  have hleft : survivors [repeated 0, repeated 1, repeated 255] [[repeated 1, repeated 1], [repeated 0]] =
      [repeated 255] := by decide
  obtain ⟨start,tree,fresh,hstart,htree,hfresh,hroot,-⟩ := removeAll_eq_fresh (H := sha256) _ _ hpresent
  rw [hleft] at hfresh
  exact ⟨start,tree,fresh,hstart,htree,hfresh,hroot⟩

def Node.height : Node → ℕ
  | internal _ left right => max left.height right.height + 1
  | singleton .. => 0
  | empty _ => 0

/-- No node of a tree lies deeper than the bits of a reference reach. -/
theorem Represents.height_le {m : Node} {d : ℕ} {ks : List Ref} (h : Represents H m d ks) (hd : d ≤ DEPTH) :
    d + m.height ≤ DEPTH := by
  induction m generalizing d ks with
  | internal hash left right ihl ihr =>
    obtain ⟨hlt,-,hl,hr⟩ := h
    have hleft := ihl hl hlt
    have hright := ihr hr hlt
    unfold Node.height
    omega
  | singleton hash key => exact hd
  | empty hash => exact hd

theorem offPath_keys_ne_nil {S : List Ref} {t : Ref} {d : ℕ} : offPath H t d (keys S) ≠ [] ↔
    ∃ k ∈ S, (∀ i < d, bit k i = bit t i) ∧ bit k d ≠ bit t d := by
  constructor
  · intro hne
    obtain ⟨k,hk⟩ := List.exists_mem_of_ne_nil _ hne
    obtain ⟨hm,hshare,hleave⟩ := (trie H).mem_offPath.mp hk
    exact ⟨k,mem_keys.mp hm,hshare,hleave⟩
  · rintro ⟨k,hk,hshare,hleave⟩
    exact List.ne_nil_of_mem ((trie H).mem_offPath.mpr ⟨mem_keys.mpr hk,hshare,hleave⟩)

/-- Every absent reference has a proof that is accepted, stored or not, and that shows one
root for each depth at which some key leaves its path and nothing else. -/
theorem proveAbsence_accepted (S : List Ref) (t : Ref) : ∃ tree : SparseMerkleTree H,
    SparseMerkleTree.ofRefs S = .ok tree ∧ tree.node.height ≤ DEPTH ∧ buildRoot H S = .ok tree.root ∧
    (t ∈ S → tree.proveAbsence t = raise .valueError s!"{t.short}... is present; cannot prove absence") ∧
    (t ∉ S → ∃ siblings, tree.proveAbsence t = .ok (proofOf siblings) ∧
      verifyAbsence H (.str t.val.hex) (proofOf siblings) (.str tree.root) = .ok true ∧
      (∀ O, verifyAbsence H (.str t.val.hex) (reload O (proofOf siblings)) (.str tree.root) = .ok true) ∧
      (Collision H (hashedByRoot H S) ∨ ((siblings.map Prod.fst).Nodup ∧
        ∀ d x, (d,x) ∈ siblings ↔ d < DEPTH ∧ (∃ k ∈ S, (∀ i < d, bit k i = bit t i) ∧ bit k d ≠ bit t d) ∧
          subtreeRoot H (offPath H t d (keys S)) (d+1) = .ok x))) := by
  obtain ⟨tree,htree,hk⟩ := SparseMerkleTree.exists_ofRefs (H := H) S
  have hheight := tree.represents.height_le (Nat.zero_le _)
  refine ⟨tree,htree,by omega,buildRoot_of_keys hk,fun ht => ?_,fun ht => ?_⟩
  · unfold SparseMerkleTree.proveAbsence
    rw [if_pos (by rw [hk]; exact mem_keys.mpr ht)]
  · have hne : t ∉ tree.keys := by rw [hk]; exact fun hm => ht (mem_keys.mp hm)
    obtain ⟨p,hw,hp⟩ := walk_eq (Nat.zero_add DEPTH) (represents_onPath_zero tree t)
    have hdef : ∀ i, ¬p i → sideRoot H t tree.keys i = defaults H (i+1) :=
      fun i hi => hp i (Nat.zero_le i) (by simpa using hi)
    refine ⟨walk H t tree.node 0,if_neg hne,?_,fun O => ?_,?_⟩
    · rw [hw, tree.root_eq]
      exact verifyAbsence_proofOf hne hdef
    · rw [hw, tree.root_eq]
      exact verifyAbsence_reload O hne hdef
    · by_cases hc : Collision H (hashedByRoot H S)
      · exact Or.inl hc
      · right
        rw [walk_tree hc hk]
        refine ⟨siblingsAt_nodup _ t _ 0 DEPTH,fun d x => ?_⟩
        rw [mem_siblingsAt, offPath_keys_ne_nil, Nat.zero_add]
        constructor
        · rintro ⟨⟨-,hd⟩,hleave,rfl⟩
          exact ⟨hd,hleave,subtreeRoot_offPath (keys_nodup S) t hd⟩
        · rintro ⟨hd,hleave,hroot⟩
          rw [subtreeRoot_offPath (keys_nodup S) t hd, Except.ok.injEq] at hroot
          exact ⟨⟨Nat.zero_le d,hd⟩,hleave,hroot.symm⟩

end UnlearnShield.Smt
