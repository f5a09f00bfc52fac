import Mathlib

/-! # Commitments to sets of bit strings

A key names one leaf of a complete binary tree: its bit at depth `d` chooses the
child there. The root of a set of keys hashes occupied leaves, a constant for the
empty ones, and pairs of children. A climb recomputes a root from one leaf and a
sibling for every depth, and the only way for two climbs along one path to meet
from different siblings is a collision of the pair hash.
-/
namespace UnlearnShield

structure BitTrie (K D : Type) where
  /-- Depth of the leaves. -/
  depth : ℕ
  bit : K → ℕ → Bool
  leaf : K → D
  emptyLeaf : D
  node : D → D → D
  /-- A key is its bits. -/
  separated : ∀ j k, (∀ i < depth, bit j i = bit k i) → j = k

namespace BitTrie
variable {K D : Type} (T : BitTrie K D)

/-- Combine a child with its sibling; `b` says that the child is the right one. -/
def join (b : Bool) (x sibling : D) : D := if b then T.node sibling x else T.node x sibling

def emptyRoot : ℕ → D
  | 0 => T.emptyLeaf
  | n + 1 => T.node (emptyRoot n) (emptyRoot n)

/-- Root, at depth `d`, of the subtree of height `n` that holds `ks`. -/
def root : ℕ → ℕ → List K → D
  | 0, _, [] => T.emptyLeaf
  | 0, _, k :: _ => T.leaf k
  | n + 1, d, ks => T.node (root n (d+1) (ks.filter fun k => !T.bit k d))
      (root n (d+1) (ks.filter fun k => T.bit k d))

/-- Recompute the value at depth `d` from the value `x` at depth `d+n`, following
the path of `t` with the sibling `sib i` below depth `i`. -/
def climb (t : K) (sib : ℕ → D) (x : D) (n d : ℕ) : D :=
  (List.range' d n).foldr (fun i y => T.join (T.bit t i) y (sib i)) x

@[simp] theorem climb_zero (t : K) (sib : ℕ → D) (x : D) (d : ℕ) : T.climb t sib x 0 d = x := rfl

theorem climb_succ (t : K) (sib : ℕ → D) (x : D) (n d : ℕ) :
    T.climb t sib x (n+1) d = T.join (T.bit t d) (T.climb t sib x n (d+1)) (sib d) := by
  simp [climb, List.range'_succ]

theorem climb_congr {t : K} {sib sib' : ℕ → D} (x : D) {n d : ℕ}
    (h : ∀ i, d ≤ i → i < d + n → sib i = sib' i) : T.climb t sib x n d = T.climb t sib' x n d := by
  induction n generalizing d with
  | zero => rfl
  | succ n ih =>
    rw [climb_succ, climb_succ, h d le_rfl (by omega), ih fun i hi hn => h i (by omega) (by omega)]

/-- The node inputs at depth `i` of two climbs differ although their hashes agree. -/
def ClimbCollision (t : K) (sib sib' : ℕ → D) (x x' : D) (n d i : ℕ) : Prop :=
  d ≤ i ∧ i < d + n ∧
  (T.climb t sib x (d+n-(i+1)) (i+1), sib i) ≠ (T.climb t sib' x' (d+n-(i+1)) (i+1), sib' i) ∧
  T.climb t sib x (d+n-i) i = T.climb t sib' x' (d+n-i) i

/-- Two climbs along one path with one top agree everywhere, or the pair hash collides. -/
theorem climb_eq_climb {t : K} {sib sib' : ℕ → D} {x x' : D} {n d : ℕ}
    (h : T.climb t sib x n d = T.climb t sib' x' n d) :
    (∃ i, T.ClimbCollision t sib sib' x x' n d i) ∨
    (x = x' ∧ ∀ i, d ≤ i → i < d + n → sib i = sib' i) := by
  induction n generalizing d with
  | zero => exact Or.inr ⟨h,fun i hi hn => by omega⟩
  | succ n ih =>
    by_cases hp : (T.climb t sib x n (d+1), sib d) = (T.climb t sib' x' n (d+1), sib' d)
    · obtain ⟨hc,hs⟩ := Prod.mk.inj hp
      rcases ih hc with ⟨i,hi,hn,hne,heq⟩ | ⟨hx,hrest⟩
      · left
        refine ⟨i,by omega,by omega,?_,?_⟩
        · rwa [show d + (n+1) - (i+1) = d + 1 + n - (i+1) by omega]
        · rwa [show d + (n+1) - i = d + 1 + n - i by omega]
      · right
        refine ⟨hx,fun i hi hn => ?_⟩
        rcases Nat.eq_or_lt_of_le hi with rfl | hlt
        · exact hs
        · exact hrest i hlt (by omega)
    · left
      refine ⟨d,le_rfl,by omega,?_,?_⟩
      · rwa [show d + (n+1) - (d+1) = n by omega]
      · rwa [show d + (n+1) - d = n+1 by omega]

theorem root_nil (n d : ℕ) : T.root n d [] = T.emptyRoot n := by
  induction n generalizing d with
  | zero => rfl
  | succ n ih => simp [root, emptyRoot, ih]

/-- Keys that share the first `d` bits of `t`. -/
def onPath (t : K) (d : ℕ) (ks : List K) : List K := ks.filter fun k => ∀ i < d, T.bit k i = T.bit t i

/-- Keys that leave the path of `t` at depth `d` exactly. -/
def offPath (t : K) (d : ℕ) (ks : List K) : List K := (T.onPath t d ks).filter fun k => T.bit k d != T.bit t d

theorem mem_onPath {t k : K} {d : ℕ} {ks : List K} :
    k ∈ T.onPath t d ks ↔ k ∈ ks ∧ ∀ i < d, T.bit k i = T.bit t i := by
  simp [onPath]

theorem mem_offPath {t k : K} {d : ℕ} {ks : List K} :
    k ∈ T.offPath t d ks ↔ k ∈ ks ∧ (∀ i < d, T.bit k i = T.bit t i) ∧ T.bit k d ≠ T.bit t d := by
  simp [offPath, mem_onPath, and_assoc]

@[simp] theorem onPath_zero (t : K) (ks : List K) : T.onPath t 0 ks = ks := by
  simp [onPath]

theorem onPath_succ (t : K) (d : ℕ) (ks : List K) :
    T.onPath t (d+1) ks = (T.onPath t d ks).filter fun k => T.bit k d == T.bit t d := by
  unfold onPath
  rw [List.filter_filter]
  apply List.filter_congr
  intro k _
  rw [Bool.eq_iff_iff]
  simp only [Nat.forall_lt_succ_right, decide_eq_true_eq, Bool.and_eq_true, beq_iff_eq]
  exact and_comm

/-- Further down a path the keys are those of every earlier depth. -/
theorem onPath_onPath (t : K) {d i : ℕ} (h : d ≤ i) (ks : List K) :
    T.onPath t i (T.onPath t d ks) = T.onPath t i ks := by
  unfold onPath
  rw [List.filter_filter]
  apply List.filter_congr
  intro k _
  rw [← Bool.decide_and]
  exact decide_eq_decide.mpr ⟨fun hk => hk.1,fun hk => ⟨hk,fun j hj => hk j (by omega)⟩⟩

/-- The keys that leave the path of `t` at depth `d` are those on the path of any one of them. -/
theorem onPath_of_mem_offPath {t k : K} {d : ℕ} {ks : List K} (hk : k ∈ T.offPath t d ks) :
    T.onPath k (d+1) ks = T.offPath t d ks := by
  obtain ⟨-,hshare,hleave⟩ := T.mem_offPath.mp hk
  have hon : T.onPath k d ks = T.onPath t d ks := by
    apply List.filter_congr
    intro j _
    exact decide_eq_decide.mpr (forall₂_congr fun i hi => by rw [hshare i hi])
  rw [onPath_succ, hon]
  apply List.filter_congr
  intro j _
  cases hj : T.bit j d <;> cases hb : T.bit k d <;> cases ht : T.bit t d <;> simp_all

/-- At the leaves only `t` itself is left on its path. -/
theorem mem_onPath_depth {t k : K} {ks : List K} : k ∈ T.onPath t T.depth ks ↔ k = t ∧ t ∈ ks := by
  rw [mem_onPath]
  constructor
  · rintro ⟨hk,h⟩
    have he := T.separated k t h
    exact ⟨he,he ▸ hk⟩
  · rintro ⟨rfl,hk⟩
    exact ⟨hk,fun _ _ => rfl⟩

/-- One level of the root, seen from the path of `t`. -/
theorem root_succ (t : K) (n d : ℕ) (ks : List K) :
    T.root (n+1) d ks = T.join (T.bit t d) (T.root n (d+1) (ks.filter fun k => T.bit k d == T.bit t d))
      (T.root n (d+1) (ks.filter fun k => T.bit k d != T.bit t d)) := by
  cases h : T.bit t d <;> simp [root, join]

def leafAt [DecidableEq K] (t : K) (ks : List K) : D := if t ∈ ks then T.leaf t else T.emptyLeaf

theorem root_onPath_depth [DecidableEq K] (t : K) (ks : List K) :
    T.root 0 T.depth (T.onPath t T.depth ks) = T.leafAt t ks := by
  unfold leafAt
  cases h : T.onPath t T.depth ks with
  | nil =>
    rw [if_neg fun hm => by simpa [h] using T.mem_onPath_depth.mpr ⟨rfl,hm⟩]
    rfl
  | cons k rest =>
    obtain ⟨rfl,hm⟩ := T.mem_onPath_depth.mp (h ▸ List.mem_cons_self)
    rw [if_pos hm]
    rfl

def sideRoot (t : K) (ks : List K) (d : ℕ) : D := T.root (T.depth - (d+1)) (d+1) (T.offPath t d ks)

/-- Seen along any path, the root is a climb over the roots beside that path. -/
theorem root_eq_climb [DecidableEq K] (t : K) (ks : List K) {n d : ℕ} (h : d + n = T.depth) :
    T.root n d (T.onPath t d ks) = T.climb t (T.sideRoot t ks) (T.leafAt t ks) n d := by
  induction n generalizing d with
  | zero =>
    obtain rfl : d = T.depth := by omega
    exact T.root_onPath_depth t ks
  | succ n ih =>
    rw [T.root_succ t, climb_succ, ← ih (by omega), onPath_succ]
    rw [sideRoot, show T.depth - (d+1) = n by omega]
    rfl

theorem root_eq_climb_zero [DecidableEq K] (t : K) (ks : List K) :
    T.root T.depth 0 ks = T.climb t (T.sideRoot t ks) (T.leafAt t ks) T.depth 0 := by
  rw [← T.root_eq_climb t ks (Nat.zero_add _), onPath_zero]

/-- A lone key is hashed upward against empty siblings. -/
theorem root_singleton (k : K) {n d : ℕ} (h : d + n = T.depth) :
    T.root n d [k] = T.climb k (fun i => T.emptyRoot (T.depth - (i+1))) (T.leaf k) n d := by
  induction n generalizing d with
  | zero => rfl
  | succ n ih =>
    rw [T.root_succ k, climb_succ]
    simp only [beq_self_eq_true, bne_self_eq_false, List.filter_cons_of_pos, List.filter_nil,
      Bool.false_eq_true, not_false_eq_true, List.filter_cons_of_neg]
    rw [root_nil, ih (by omega), show T.depth - (d+1) = n by omega]

end BitTrie

end UnlearnShield
