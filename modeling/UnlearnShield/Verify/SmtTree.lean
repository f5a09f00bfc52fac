import UnlearnShield.Verify.Smt

/-! # The materialised tree

`SparseMerkleTree` keeps the hashed tree so that removing references touches only
their paths. A removal does not collapse what it leaves, so a tree is not always
the one `_build` makes; what every tree keeps is that it represents its key list,
which is part of its type.
-/
namespace UnlearnShield.Smt
open BitTrie

/-- A materialised node: `(h, left, right, None)`, `(h, None, None, key)` or
`(DEFAULTS[depth], None, None, None)`. -/
inductive Node
  | internal (hash : Digest) (left right : Node)
  | singleton (hash : Digest) (key : Ref)
  | empty (hash : Digest)

def Node.hash : Node → Digest
  | internal hash _ _ => hash
  | singleton hash _ => hash
  | empty hash => hash

variable (H : Bytes → Digest)

def build (keys : List Ref) (depth : ℕ) : Py Node :=
  match keys with
  | [] => .ok (.empty (defaults H depth))
  | [k] => .ok (.singleton (singletonRoot H k depth) k)
  | k :: k' :: rest =>
    if depth < DEPTH then do
      let left ← build (zeros (k :: k' :: rest) depth) (depth+1)
      let right ← build (ones (k :: k' :: rest) depth) (depth+1)
      pure (.internal (node H left.hash right.hash) left right)
    else raise .indexError "index out of range"
termination_by DEPTH - depth

def removeKey : Node → Ref → ℕ → Py Node
  | .internal _ left right, target, depth =>
    if bit target depth = false then do
      let newLeft ← removeKey left target (depth+1)
      pure (.internal (node H newLeft.hash right.hash) newLeft right)
    else do
      let newRight ← removeKey right target (depth+1)
      pure (.internal (node H left.hash newRight.hash) left newRight)
  | .singleton _ key, target, depth =>
    if key = target then .ok (.empty (defaults H depth))
    else raise .valueError
      s!"{target.short}... not present at depth {depth} -- caller should have checked _present first"
  | .empty _, target, depth =>
    raise .valueError s!"{target.short}... not present at depth {depth} -- caller should have checked _present first"

/-- The subtree at `depth` holds exactly `keys`, and its hashes are those of its children. -/
def Represents : Node → ℕ → List Ref → Prop
  | .internal hash left right, depth, keys =>
    depth < DEPTH ∧ hash = node H left.hash right.hash ∧
    Represents left (depth+1) (zeros keys depth) ∧ Represents right (depth+1) (ones keys depth)
  | .singleton hash key, depth, keys => hash = singletonRoot H key depth ∧ keys = [key]
  | .empty hash, depth, keys => hash = defaults H depth ∧ keys = []

variable {H}

theorem Represents.hash_eq {n : Node} {depth : ℕ} {keys : List Ref} (h : Represents H n depth keys)
    (hd : depth ≤ DEPTH) : n.hash = (trie H).root (DEPTH - depth) depth keys := by
  induction n generalizing depth keys with
  | internal hash left right ihl ihr =>
    obtain ⟨hlt,rfl,hl,hr⟩ := h
    rw [show DEPTH - depth = DEPTH - (depth+1) + 1 by omega, Node.hash, ihl hl hlt, ihr hr hlt]
    rfl
  | singleton hash key =>
    obtain ⟨rfl,rfl⟩ := h
    exact singletonRoot_eq H key hd
  | empty hash =>
    obtain ⟨rfl,rfl⟩ := h
    rw [root_nil, emptyRoot_eq]
    rfl

theorem build_represents {keys : List Ref} {depth : ℕ} {n : Node} (h : build H keys depth = .ok n) :
    Represents H n depth keys := by
  induction keys, depth using build.induct generalizing n with
  | case1 depth =>
    rw [build] at h
    cases h
    exact ⟨rfl,rfl⟩
  | case2 depth k =>
    rw [build] at h
    cases h
    exact ⟨rfl,rfl⟩
  | case3 depth k k' rest hlt ihl ihr =>
    rw [build, if_pos hlt] at h
    obtain ⟨left,hl,h⟩ := bind_eq_ok.mp h
    obtain ⟨right,hr,h⟩ := bind_eq_ok.mp h
    cases h
    exact ⟨hlt,rfl,ihl hl,ihr hr⟩
  | case4 depth k k' rest hlt =>
    rw [build, if_neg hlt] at h
    cases h

theorem exists_build {keys : List Ref} {depth : ℕ} (hn : keys.Nodup) (hs : SharePath keys depth) :
    ∃ n, build H keys depth = .ok n := by
  induction keys, depth using build.induct with
  | case1 depth => exact ⟨_,by rw [build]⟩
  | case2 depth k => exact ⟨_,by rw [build]⟩
  | case3 depth k k' rest hlt ihl ihr =>
    obtain ⟨left,hl⟩ := ihl (zeros_nodup hn _) hs.zeros
    obtain ⟨right,hr⟩ := ihr (ones_nodup hn _) hs.ones
    exact ⟨_,by rw [build, if_pos hlt, hl, hr]; rfl⟩
  | case4 depth k k' rest hlt => exact absurd (hs.lt_depth hn) hlt

theorem zeros_filter (keys : List Ref) (p : Ref → Bool) (depth : ℕ) :
    zeros (keys.filter p) depth = (zeros keys depth).filter p := List.filter_comm ..

theorem ones_filter (keys : List Ref) (p : Ref → Bool) (depth : ℕ) :
    ones (keys.filter p) depth = (ones keys depth).filter p := List.filter_comm ..

/-- Removing a key keeps every hash right. -/
theorem removeKey_represents {n n' : Node} {target : Ref} {depth : ℕ} {keys : List Ref}
    (hr : Represents H n depth keys) (h : removeKey H n target depth = .ok n') :
    Represents H n' depth (keys.filter (· ≠ target)) := by
  induction n generalizing n' depth keys with
  | internal hash left right ihl ihr =>
    obtain ⟨hlt,rfl,hl,hr⟩ := hr
    unfold removeKey at h
    split at h
    · next hb =>
      obtain ⟨newLeft,he,h⟩ := bind_eq_ok.mp h
      cases h
      refine ⟨hlt,rfl,?_,?_⟩
      · rw [zeros_filter]
        exact ihl hl he
      · rw [ones_filter, List.filter_eq_self.mpr]
        · exact hr
        · rintro k hk
          rw [ones, List.mem_filter] at hk
          exact decide_eq_true fun hkt => by rw [hkt, hb] at hk; exact absurd hk.2 (by decide)
    · next hb =>
      obtain ⟨newRight,he,h⟩ := bind_eq_ok.mp h
      cases h
      refine ⟨hlt,rfl,?_,?_⟩
      · rw [zeros_filter, List.filter_eq_self.mpr]
        · exact hl
        · rintro k hk
          rw [zeros, List.mem_filter] at hk
          exact decide_eq_true fun hkt => by simp_all
      · rw [ones_filter]
        exact ihr hr he
  | singleton hash key =>
    obtain ⟨rfl,rfl⟩ := hr
    unfold removeKey at h
    split at h
    · next hk =>
      cases h
      exact ⟨rfl,by simp [hk]⟩
    · cases h
  | empty hash => cases h

theorem exists_removeKey {n : Node} {target : Ref} {depth : ℕ} {keys : List Ref}
    (hr : Represents H n depth keys) (hm : target ∈ keys) : ∃ n', removeKey H n target depth = .ok n' := by
  induction n generalizing depth keys with
  | internal hash left right ihl ihr =>
    obtain ⟨hlt,rfl,hl,hr⟩ := hr
    unfold removeKey
    split
    · next hb =>
      obtain ⟨newLeft,he⟩ := ihl hl (by simp [zeros, hm, hb])
      exact ⟨_,by rw [he]; rfl⟩
    · next hb =>
      obtain ⟨newRight,he⟩ := ihr hr (by simpa [ones, hm] using hb)
      exact ⟨_,by rw [he]; rfl⟩
  | singleton hash key =>
    obtain ⟨rfl,rfl⟩ := hr
    exact ⟨_,by rw [removeKey, if_pos (List.mem_singleton.mp hm).symm]⟩
  | empty hash =>
    obtain ⟨-,rfl⟩ := hr
    cases hm

variable (H)

/-- The removal loop, with the targets already removed. -/
def removeLoop : Node → List Ref → List Ref → Py (Node × List Ref)
  | root, removed, [] => .ok (root,removed)
  | root, removed, target :: targets =>
    if target ∈ removed then removeLoop root removed targets
    else do
      let root' ← removeKey H root target 0
      removeLoop root' (target :: removed) targets

variable {H}

theorem removeKey_filter {root root' : Node} {keys removed : List Ref} {target : Ref}
    (hr : Represents H root 0 (keys.filter (· ∉ removed))) (h : removeKey H root target 0 = .ok root') :
    Represents H root' 0 (keys.filter (· ∉ target :: removed)) := by
  have hk := removeKey_represents hr h
  rw [List.filter_filter] at hk
  convert hk using 2
  funext k
  simp [not_or]

theorem removeLoop_represents {root root' : Node} {keys removed removed' targets : List Ref}
    (hr : Represents H root 0 (keys.filter (· ∉ removed)))
    (h : removeLoop H root removed targets = .ok (root',removed')) :
    Represents H root' 0 (keys.filter (· ∉ removed')) := by
  induction targets generalizing root removed with
  | nil =>
    cases h
    exact hr
  | cons target targets ih =>
    unfold removeLoop at h
    split at h
    · exact ih hr h
    · obtain ⟨root₁,he,h⟩ := bind_eq_ok.mp h
      exact ih (removeKey_filter hr he) h

theorem exists_removeLoop {root : Node} {keys removed targets : List Ref}
    (hr : Represents H root 0 (keys.filter (· ∉ removed))) (ht : ∀ t ∈ targets, t ∈ keys) :
    ∃ root' removed', removeLoop H root removed targets = .ok (root',removed') ∧
      ∀ k, k ∈ removed' ↔ k ∈ removed ∨ k ∈ targets := by
  induction targets generalizing root removed with
  | nil => exact ⟨root,removed,rfl,by simp⟩
  | cons target targets ih =>
    have ht' : ∀ t ∈ targets, t ∈ keys := fun t h => ht t (List.mem_cons_of_mem _ h)
    unfold removeLoop
    split
    · next hm =>
      obtain ⟨root',removed',he,hmem⟩ := ih hr ht'
      refine ⟨root',removed',he,fun k => ?_⟩
      rw [hmem, List.mem_cons]
      constructor
      · rintro (h | h)
        · exact Or.inl h
        · exact Or.inr (Or.inr h)
      · rintro (h | rfl | h)
        · exact Or.inl h
        · exact Or.inl hm
        · exact Or.inr h
    · next hm =>
      have hmem : target ∈ keys.filter (· ∉ removed) := by simp [hm, ht target List.mem_cons_self]
      obtain ⟨root₁,he₁⟩ := exists_removeKey hr hmem
      obtain ⟨root',removed',he,hmem⟩ := ih (removeKey_filter hr he₁) ht'
      refine ⟨root',removed',by rw [he₁]; exact he,fun k => ?_⟩
      rw [hmem, List.mem_cons, List.mem_cons]
      tauto

variable (H)

structure SparseMerkleTree where
  keys : List Ref
  node : Node
  represents : Represents H node 0 keys

namespace SparseMerkleTree
variable {H}

def ofKeys (keys : List Ref) : Py (SparseMerkleTree H) :=
  match h : build H keys 0 with
  | .ok n => .ok ⟨keys,n,build_represents h⟩
  | .error e => .error e

/-- `SparseMerkleTree(subject_refs)`. -/
def ofRefs (subjectRefs : List Ref) : Py (SparseMerkleTree H) := ofKeys (Smt.keys subjectRefs)

def root (tree : SparseMerkleTree H) : String := tree.node.hash.val.hex

def fingerprint (tree : SparseMerkleTree H) : Digest := H (joinKeys tree.keys)

def remove (tree : SparseMerkleTree H) (refs : List Ref) : Py (SparseMerkleTree H) :=
  match refs.find? (· ∉ tree.keys) with
  | some ref => raise .valueError s!"{ref.short}... is not present; cannot remove"
  | none =>
    match h : removeLoop H tree.node [] refs with
    | .ok (n,removed) =>
      .ok ⟨tree.keys.filter (· ∉ removed),n,removeLoop_represents (by simpa using tree.represents) h⟩
    | .error e => .error e

theorem exists_ofRefs (refs : List Ref) : ∃ tree : SparseMerkleTree H, ofRefs refs = .ok tree ∧
    tree.keys = Smt.keys refs := by
  obtain ⟨n,hn⟩ := exists_build (H := H) (keys_nodup refs) (SharePath.zero _)
  unfold ofRefs ofKeys
  split
  · exact ⟨_,rfl,rfl⟩
  · next he => rw [hn] at he; cases he

theorem ofRefs_keys {refs : List Ref} {tree : SparseMerkleTree H} (h : ofRefs refs = .ok tree) :
    tree.keys = Smt.keys refs := by
  obtain ⟨tree',h',hk⟩ := exists_ofRefs (H := H) refs
  rw [h] at h'
  cases h'
  exact hk

theorem ofRefs_node {refs : List Ref} {tree : SparseMerkleTree H} (h : ofRefs refs = .ok tree) :
    build H (Smt.keys refs) 0 = .ok tree.node := by
  unfold ofRefs ofKeys at h
  split at h
  · next hn =>
    cases h
    exact hn
  · cases h

/-- The root of a tree is that of its keys, however the tree came about. -/
theorem root_eq (tree : SparseMerkleTree H) : tree.root = ((trie H).root DEPTH 0 tree.keys).val.hex := by
  rw [root, tree.represents.hash_eq (Nat.zero_le _)]
  rfl

theorem exists_remove {tree : SparseMerkleTree H} {refs : List Ref} (h : ∀ r ∈ refs, r ∈ tree.keys) :
    ∃ tree', tree.remove refs = .ok tree' ∧ tree'.keys = tree.keys.filter (· ∉ refs) := by
  have hf : refs.find? (· ∉ tree.keys) = none := by
    rw [List.find?_eq_none]
    simpa using h
  have hr : Represents H tree.node 0 (tree.keys.filter (· ∉ ([] : List Ref))) := by
    simpa using tree.represents
  obtain ⟨n,removed,he,hm⟩ := exists_removeLoop hr h
  unfold remove
  rw [hf]
  dsimp only
  split
  · next n' removed' he' =>
    rw [he] at he'
    cases he'
    refine ⟨_,rfl,?_⟩
    apply List.filter_congr
    intro k _
    simp [hm]
  · next he' => rw [he] at he'; cases he'

theorem mem_keys_of_remove {tree tree' : SparseMerkleTree H} {refs : List Ref}
    (h : tree.remove refs = .ok tree') : ∀ r ∈ refs, r ∈ tree.keys := by
  unfold remove at h
  cases hf : refs.find? (· ∉ tree.keys) with
  | some ref => rw [hf] at h; cases h
  | none => simpa using List.find?_eq_none.mp hf

/-- A removal that succeeds drops exactly the given references. -/
theorem remove_keys {tree tree' : SparseMerkleTree H} {refs : List Ref} (h : tree.remove refs = .ok tree') :
    tree'.keys = tree.keys.filter (· ∉ refs) := by
  obtain ⟨tree₁,h₁,hk⟩ := exists_remove (mem_keys_of_remove h)
  rw [h] at h₁
  cases h₁
  exact hk

end SparseMerkleTree

abbrev TreeCache := ℕ → Option (SparseMerkleTree H)

variable {H}

/-- The cached tree if it still matches the shard, a fresh build otherwise. -/
def treeForShard (cache : TreeCache H) (shard : ℕ) (currentSubjectRefs : List Ref) : Py (SparseMerkleTree H) :=
  match cache shard with
  | some cached =>
    if cached.fingerprint = fingerprintOf H currentSubjectRefs then .ok cached
    else SparseMerkleTree.ofRefs currentSubjectRefs
  | none => SparseMerkleTree.ofRefs currentSubjectRefs

def cacheTree (cache : TreeCache H) (shard : ℕ) (tree : SparseMerkleTree H) : TreeCache H :=
  Function.update cache shard (some tree)

/-- The tree depends on the cached tree of the shard and the set of references. -/
theorem treeForShard_congr {cache cache' : TreeCache H} {shard : ℕ} {refs refs' : List Ref}
    (hc : cache shard = cache' shard) (hk : keys refs = keys refs') :
    treeForShard cache shard refs = treeForShard cache' shard refs' := by
  unfold treeForShard fingerprintOf SparseMerkleTree.ofRefs
  rw [hc, hk]

/-- `treeForShard` never fails, and a cached tree it returns has the current keys
unless two key lists have one fingerprint. -/
theorem exists_treeForShard (cache : TreeCache H) (shard : ℕ) (refs : List Ref) :
    ∃ tree, treeForShard cache shard refs = .ok tree ∧
      (tree.keys = keys refs ∨ H (joinKeys tree.keys) = H (joinKeys (keys refs))) := by
  unfold treeForShard
  obtain ⟨fresh,hf,hk⟩ := SparseMerkleTree.exists_ofRefs (H := H) refs
  cases hc : cache shard with
  | none => exact ⟨fresh,hf,Or.inl hk⟩
  | some cached =>
    dsimp only
    split
    · next he => exact ⟨cached,rfl,Or.inr he⟩
    · exact ⟨fresh,hf,Or.inl hk⟩

end UnlearnShield.Smt
