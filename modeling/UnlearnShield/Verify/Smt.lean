import UnlearnShield.Library.BitTrie
import UnlearnShield.Crypto.Sha256
import UnlearnShield.Python.Value

/-! # The sparse Merkle tree: hashing

Bit `d` of a subject reference chooses the child at depth `d`, so every reference
has one position among `2^256`. The functions here hash a set of references to its
root, with a shortcut for an empty and for a one-element subtree. `H` stands for
`sha256(...).digest()`; nothing depends on which hash it is.
-/
namespace UnlearnShield.Smt
open BitTrie

def DEPTH : ℕ := 256

/-- Number of a bytes literal `b"..."`. -/
def ascii (s : String) : Bytes := s.toList.map fun c => UInt8.ofNat c.toNat

def leafInput (key : Ref) : Bytes := 0x00 :: key.val
def nodeInput (left right : Digest) : Bytes := 0x01 :: (left.val ++ right.val)
def emptyLeafInput : Bytes := 0x02 :: ascii "unlearnshield-empty"

theorem nodeInput_inj {l r l' r' : Digest} : nodeInput l r = nodeInput l' r' ↔ l = l' ∧ r = r' := by
  constructor
  · intro h
    obtain ⟨hl,hr⟩ := List.append_inj (List.cons.inj h).2 (l.2.trans l'.2.symm)
    exact ⟨Subtype.ext hl,Subtype.ext hr⟩
  · rintro ⟨rfl,rfl⟩
    rfl

theorem leafInput_ne_emptyLeafInput (key : Ref) : leafInput key ≠ emptyLeafInput := by
  intro h
  exact absurd (List.cons.inj h).1 (by decide)

def bit (key : Ref) (depth : ℕ) : Bool := (key.val.getD (depth / 8) 0).toNat.testBit (7 - depth % 8)

/-- A reference is its 256 bits. -/
theorem eq_of_bit_eq {j k : Ref} (h : ∀ i < DEPTH, bit j i = bit k i) : j = k := by
  apply Subtype.ext
  apply List.ext_getElem (j.2.trans k.2.symm)
  intro n hj hk
  apply UInt8.toNat_inj.mp
  apply Nat.eq_of_testBit_eq
  intro i
  by_cases hi : i < 8
  · have hn : n < 32 := j.2 ▸ hj
    have hb := h (8 * n + (7 - i)) (by unfold DEPTH; omega)
    have hdiv : (8 * n + (7 - i)) / 8 = n := by omega
    have hmod : 7 - (8 * n + (7 - i)) % 8 = i := by omega
    simp only [bit, hdiv, hmod] at hb
    rwa [List.getD_eq_getElem _ _ hj, List.getD_eq_getElem _ _ hk] at hb
  · have hlt : ∀ x : UInt8, x.toNat.testBit i = false := fun x =>
      Nat.testBit_lt_two_pow (lt_of_lt_of_le x.toNat_lt (Nat.pow_le_pow_right (by decide) (by omega : 8 ≤ i)))
    rw [hlt, hlt]

variable (H : Bytes → Digest)

def leaf (key : Ref) : Digest := H (leafInput key)
def node (left right : Digest) : Digest := H (nodeInput left right)
def emptyLeaf : Digest := H emptyLeafInput

/-- `_default_hashes`, counted from the leaves. -/
def defaultAbove : ℕ → Digest
  | 0 => emptyLeaf H
  | n + 1 =>
    let below := defaultAbove n
    node H below below

/-- `DEFAULTS[depth]`, the root of a wholly empty subtree at that depth. -/
def defaults (depth : ℕ) : Digest := defaultAbove H (DEPTH - depth)

def singletonRoot (key : Ref) (depth : ℕ) : Digest :=
  (List.range' depth (DEPTH - depth)).foldr (fun d x =>
    if bit key d = false then node H x (defaults H (d+1)) else node H (defaults H (d+1)) x) (leaf H key)

def zeros (keys : List Ref) (depth : ℕ) : List Ref := keys.filter fun k => !bit k depth
def ones (keys : List Ref) (depth : ℕ) : List Ref := keys.filter fun k => bit k depth

/-- Two keys that reach depth 256 together are equal bytes; `_bit` then reads past them. -/
def subtreeRoot (keys : List Ref) (depth : ℕ) : Py Digest :=
  match keys with
  | [] => .ok (defaults H depth)
  | [k] => .ok (singletonRoot H k depth)
  | k :: k' :: rest =>
    if depth < DEPTH then do
      let left ← subtreeRoot (zeros (k :: k' :: rest) depth) (depth+1)
      let right ← subtreeRoot (ones (k :: k' :: rest) depth) (depth+1)
      pure (node H left right)
    else raise .indexError "index out of range"
termination_by DEPTH - depth

def refLe (a b : Ref) : Prop := a.val ≤ b.val

instance : DecidableRel refLe := fun a b => inferInstanceAs (Decidable (a.val ≤ b.val))
instance : Std.Total refLe := ⟨fun a b => List.le_total a.val b.val⟩
instance : IsTrans Ref refLe := ⟨fun _ _ _ => List.le_trans⟩

/-- `sorted({bytes.fromhex(r) for r in subject_refs})`. -/
def keys (subjectRefs : List Ref) : List Ref := subjectRefs.dedup.insertionSort refLe

@[simp] theorem mem_keys {k : Ref} {refs : List Ref} : k ∈ keys refs ↔ k ∈ refs := by
  simp [keys]

theorem keys_nodup (refs : List Ref) : (keys refs).Nodup :=
  (List.perm_insertionSort refLe _).nodup_iff.mpr (List.nodup_dedup refs)

theorem keys_sorted (refs : List Ref) : (keys refs).Pairwise refLe :=
  List.pairwise_insertionSort refLe _

/-- A sorted list without repetitions is determined by its members. -/
theorem eq_of_sorted {ks ls : List Ref} (hk : ks.Pairwise refLe) (hl : ls.Pairwise refLe) (nk : ks.Nodup)
    (nl : ls.Nodup) (h : ∀ k, k ∈ ks ↔ k ∈ ls) : ks = ls :=
  ((List.perm_ext_iff_of_nodup nk nl).mpr h).eq_of_pairwise
    (fun _ _ _ _ hab hba => Subtype.ext (List.le_antisymm hab hba)) hk hl

theorem keys_congr {refs refs' : List Ref} (h : ∀ k, k ∈ refs ↔ k ∈ refs') : keys refs = keys refs' :=
  eq_of_sorted (keys_sorted _) (keys_sorted _) (keys_nodup _) (keys_nodup _) (by simpa using h)

/-- Dropping references commutes with sorting them. -/
theorem keys_filter (refs : List Ref) (p : Ref → Bool) : keys (refs.filter p) = (keys refs).filter p :=
  eq_of_sorted (keys_sorted _) ((keys_sorted refs).filter p) (keys_nodup _) ((keys_nodup refs).filter p)
    (by simp)

/-- `b"".join(keys)`. -/
def joinKeys (keys : List Ref) : Bytes := keys.flatMap Subtype.val

/-- Keys of equal length can be read off their concatenation. -/
theorem joinKeys_injective : Function.Injective joinKeys := by
  intro ks
  induction ks with
  | nil =>
    intro ls h
    cases ls with
    | nil => rfl
    | cons l ls =>
      have hl := congrArg List.length h
      simp [joinKeys, l.2] at hl
      omega
  | cons k ks ih =>
    intro ls h
    cases ls with
    | nil =>
      have hl := congrArg List.length h
      simp [joinKeys, k.2] at hl
    | cons l ls =>
      simp only [joinKeys, List.flatMap_cons] at h
      obtain ⟨hk,hr⟩ := List.append_inj h (k.2.trans l.2.symm)
      rw [Subtype.ext hk, ih hr]

def fingerprintOf (subjectRefs : List Ref) : Digest := H (joinKeys (keys subjectRefs))

def buildRoot (subjectRefs : List Ref) : Py String := do
  let root ← subtreeRoot H (keys subjectRefs) 0
  pure root.val.hex

/-- The commitment scheme behind the tree. -/
def trie : BitTrie Ref Digest where
  depth := DEPTH
  bit := bit
  leaf := leaf H
  emptyLeaf := emptyLeaf H
  node := node H
  separated := fun _ _ => eq_of_bit_eq

@[simp] theorem trie_depth : (trie H).depth = DEPTH := rfl
@[simp] theorem trie_bit : (trie H).bit = bit := rfl
@[simp] theorem trie_leaf : (trie H).leaf = leaf H := rfl
@[simp] theorem trie_emptyLeaf : (trie H).emptyLeaf = emptyLeaf H := rfl
@[simp] theorem trie_node : (trie H).node = node H := rfl

theorem emptyRoot_eq (n : ℕ) : (trie H).emptyRoot n = defaultAbove H n := by
  induction n with
  | zero => rfl
  | succ n ih => simp only [BitTrie.emptyRoot, ih, defaultAbove, trie_node]

theorem singletonRoot_eq_climb (k : Ref) (d : ℕ) :
    singletonRoot H k d = (trie H).climb k (fun i => defaults H (i+1)) (leaf H k) (DEPTH - d) d := by
  unfold singletonRoot climb
  congr 1
  funext i x
  cases h : bit k i <;> simp [join, h]

/-- The one-key shortcut agrees with the full recursion. -/
theorem singletonRoot_eq (k : Ref) {d : ℕ} (h : d ≤ DEPTH) :
    singletonRoot H k d = (trie H).root (DEPTH - d) d [k] := by
  rw [(trie H).root_singleton k (show d + (DEPTH - d) = (trie H).depth by simp; omega), singletonRoot_eq_climb]
  exact (trie H).climb_congr _ fun i _ _ => (emptyRoot_eq H _).symm

def SharePath (keys : List Ref) (depth : ℕ) : Prop := ∀ j ∈ keys, ∀ k ∈ keys, ∀ i < depth, bit j i = bit k i

theorem SharePath.zero (keys : List Ref) : SharePath keys 0 := fun _ _ _ _ i hi => absurd hi (by omega)

theorem SharePath.filter {keys : List Ref} {depth : ℕ} (h : SharePath keys depth) (b : Bool) :
    SharePath (keys.filter fun k => bit k depth == b) (depth+1) := by
  intro j hj k hk i hi
  rw [List.mem_filter, beq_iff_eq] at hj hk
  rcases Nat.lt_succ_iff_lt_or_eq.mp hi with hlt | rfl
  · exact h j hj.1 k hk.1 i hlt
  · exact hj.2.trans hk.2.symm

theorem SharePath.zeros {keys : List Ref} {depth : ℕ} (h : SharePath keys depth) :
    SharePath (zeros keys depth) (depth+1) := by
  have hf := h.filter false
  simp only [beq_false] at hf
  exact hf

theorem SharePath.ones {keys : List Ref} {depth : ℕ} (h : SharePath keys depth) :
    SharePath (ones keys depth) (depth+1) := by
  have hf := h.filter true
  simp only [beq_true] at hf
  exact hf

theorem zeros_nodup {keys : List Ref} (h : keys.Nodup) (depth : ℕ) : (zeros keys depth).Nodup := h.filter _
theorem ones_nodup {keys : List Ref} (h : keys.Nodup) (depth : ℕ) : (ones keys depth).Nodup := h.filter _

/-- Distinct keys separate before the leaves. -/
theorem SharePath.lt_depth {k k' : Ref} {rest : List Ref} {depth : ℕ} (h : SharePath (k :: k' :: rest) depth)
    (hn : (k :: k' :: rest).Nodup) : depth < DEPTH := by
  by_contra hd
  have he : k = k' := eq_of_bit_eq fun i hi => h k (by simp) k' (by simp) i (by omega)
  subst he
  simp at hn

/-- On distinct keys the recursion never reads past a key, and computes the commitment. -/
theorem subtreeRoot_eq {keys : List Ref} {depth : ℕ} (hn : keys.Nodup) (hs : SharePath keys depth)
    (hd : depth ≤ DEPTH) : subtreeRoot H keys depth = .ok ((trie H).root (DEPTH - depth) depth keys) := by
  induction keys, depth using subtreeRoot.induct with
  | case1 depth => rw [subtreeRoot, root_nil, emptyRoot_eq, defaults]
  | case2 depth k => rw [subtreeRoot, singletonRoot_eq H k hd]
  | case3 depth k k' rest hlt ihl ihr =>
    rw [subtreeRoot, if_pos hlt, ihl (zeros_nodup hn _) hs.zeros hlt, ihr (ones_nodup hn _) hs.ones hlt]
    rw [show DEPTH - depth = DEPTH - (depth+1) + 1 by omega]
    rfl
  | case4 depth k k' rest hlt => exact absurd (hs.lt_depth hn) hlt

def rootOf (refs : List Ref) : Digest := (trie H).root DEPTH 0 (keys refs)

/-- `build_root` never fails. -/
theorem buildRoot_eq (refs : List Ref) : buildRoot H refs = .ok (rootOf H refs).val.hex := by
  rw [buildRoot, subtreeRoot_eq H (keys_nodup refs) (SharePath.zero _) (Nat.zero_le _)]
  rfl

end UnlearnShield.Smt
