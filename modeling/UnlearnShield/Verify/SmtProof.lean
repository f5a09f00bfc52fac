import UnlearnShield.Verify.SmtTree
import UnlearnShield.Python.Value

/-! # Absence proofs

Walking down the tree along an absent reference collects the roots beside its
path. Roots equal to the all-empty default are left out, except in a collapsed
one-key subtree, where the single root beside the path is always shown.
-/
namespace UnlearnShield.Smt
open BitTrie
variable (H : Bytes → Digest)

/-- The sibling at `depth`, when it carries information. -/
def shownSibling (depth : ℕ) (other : Node) : List (ℕ × Digest) :=
  if other.hash ≠ defaults H (depth+1) then [(depth,other.hash)] else []

def walk (target : Ref) : Node → ℕ → List (ℕ × Digest)
  | .internal _ left right, depth =>
    if depth < DEPTH then
      if bit target depth = false then shownSibling H depth right ++ walk target left (depth+1)
      else shownSibling H depth left ++ walk target right (depth+1)
    else []
  | .singleton _ key, depth =>
    match (List.range' depth (DEPTH - depth)).find? fun d => bit target d != bit key d with
    | some d => [(d,singletonRoot H key (d+1))]
    | none => []
  | .empty _, _ => []

def proofOf (siblings : List (ℕ × Digest)) : PyVal := .dict [
  (.str "scheme",.str "smt-256"),
  (.str "siblings",.dict (siblings.map fun e => (.int (e.1 : ℤ),.str e.2.val.hex)))]

variable {H}

def SparseMerkleTree.proveAbsence (tree : SparseMerkleTree H) (target : Ref) : Py PyVal :=
  if target ∈ tree.keys then raise .valueError s!"{target.short}... is present; cannot prove absence"
  else .ok (proofOf (walk H target tree.node 0))

variable (H)

def sideRoot (t : Ref) (ks : List Ref) (i : ℕ) : Digest := (trie H).sideRoot t ks i

def onPath (t : Ref) (d : ℕ) (ks : List Ref) : List Ref := (trie H).onPath t d ks

def offPath (t : Ref) (d : ℕ) (ks : List Ref) : List Ref := (trie H).offPath t d ks

def siblingsAt (p : ℕ → Prop) [DecidablePred p] (t : Ref) (ks : List Ref) (d n : ℕ) : List (ℕ × Digest) :=
  (List.range' d n).filterMap fun i => if p i then some (i,sideRoot H t ks i) else none

variable {H}

theorem mem_siblingsAt {p : ℕ → Prop} [DecidablePred p] {t : Ref} {ks : List Ref} {d n i : ℕ} {x : Digest} :
    (i,x) ∈ siblingsAt H p t ks d n ↔ (d ≤ i ∧ i < d + n) ∧ p i ∧ x = sideRoot H t ks i := by
  simp only [siblingsAt, List.mem_filterMap, List.mem_range'_1]
  constructor
  · rintro ⟨j,hj,h⟩
    by_cases hp : p j
    · rw [if_pos hp] at h
      cases h
      exact ⟨hj,hp,rfl⟩
    · simp [hp] at h
  · rintro ⟨hi,hp,rfl⟩
    exact ⟨i,hi,if_pos hp⟩

/-- Depths are collected in increasing order. -/
theorem siblingsAt_pairwise (p : ℕ → Prop) [DecidablePred p] (t : Ref) (ks : List Ref) (d n : ℕ) :
    (siblingsAt H p t ks d n).Pairwise fun a b => a.1 < b.1 := by
  rw [siblingsAt, List.pairwise_filterMap]
  refine List.Pairwise.imp ?_ List.pairwise_lt_range'
  intro i j hij a ha b hb
  by_cases hi : p i
  · by_cases hj : p j
    · rw [if_pos hi] at ha
      rw [if_pos hj] at hb
      cases ha
      cases hb
      exact hij
    · rw [if_neg hj] at hb
      cases hb
  · rw [if_neg hi] at ha
    cases ha

theorem siblingsAt_succ (p : ℕ → Prop) [DecidablePred p] (t : Ref) (ks : List Ref) (d n : ℕ) :
    siblingsAt H p t ks d (n+1) =
      (if p d then [(d,sideRoot H t ks d)] else []) ++ siblingsAt H p t ks (d+1) n := by
  unfold siblingsAt
  rw [List.range'_succ, List.filterMap_cons]
  by_cases hp : p d <;> simp [hp]

theorem siblingsAt_congr {p q : ℕ → Prop} [DecidablePred p] [DecidablePred q] {t : Ref} {ks : List Ref}
    {d n : ℕ} (h : ∀ i, d ≤ i → i < d + n → (p i ↔ q i)) :
    siblingsAt H p t ks d n = siblingsAt H q t ks d n := by
  apply List.filterMap_congr
  intro i hi
  rw [List.mem_range'_1] at hi
  by_cases hp : p i
  · rw [if_pos hp, if_pos ((h i hi.1 hi.2).mp hp)]
  · rw [if_neg hp, if_neg (fun hq => hp ((h i hi.1 hi.2).mpr hq))]

theorem siblingsAt_of_forall_not {p : ℕ → Prop} [DecidablePred p] {t : Ref} {ks : List Ref} {d n : ℕ}
    (h : ∀ i, d ≤ i → i < d + n → ¬p i) : siblingsAt H p t ks d n = [] := by
  rw [List.eq_nil_iff_forall_not_mem]
  rintro ⟨i,x⟩ hm
  obtain ⟨hi,hp,-⟩ := mem_siblingsAt.mp hm
  exact h i hi.1 hi.2 hp

theorem sideRoot_of_offPath_nil {t : Ref} {ks : List Ref} {i : ℕ} (h : offPath H t i ks = []) :
    sideRoot H t ks i = defaults H (i+1) := by
  rw [sideRoot, BitTrie.sideRoot, show (trie H).offPath t i ks = [] from h, root_nil, emptyRoot_eq]
  rfl

/-- The children of the node at depth `d` of the path of `t`. -/
theorem zeros_onPath {t : Ref} {d : ℕ} (ks : List Ref) (h : bit t d = false) :
    zeros (onPath H t d ks) d = onPath H t (d+1) ks ∧ ones (onPath H t d ks) d = offPath H t d ks := by
  constructor
  · rw [onPath, onPath, onPath_succ]
    apply List.filter_congr
    intro k _
    simp [h]
  · apply List.filter_congr
    intro k _
    simp [h]

theorem ones_onPath {t : Ref} {d : ℕ} (ks : List Ref) (h : bit t d = true) :
    ones (onPath H t d ks) d = onPath H t (d+1) ks ∧ zeros (onPath H t d ks) d = offPath H t d ks := by
  constructor
  · rw [onPath, onPath, onPath_succ]
    apply List.filter_congr
    intro k _
    simp [h]
  · apply List.filter_congr
    intro k _
    simp [h]

theorem onPath_nil_of_le {t : Ref} {d i : ℕ} {ks : List Ref} (h : onPath H t d ks = []) (hi : d ≤ i) :
    onPath H t i ks = [] := by
  have hp := (trie H).onPath_onPath t hi ks
  rw [show (trie H).onPath t d ks = [] from h] at hp
  exact hp.symm

theorem offPath_nil_of_onPath_nil {t : Ref} {i : ℕ} {ks : List Ref} (h : onPath H t i ks = []) :
    offPath H t i ks = [] := by
  rw [offPath, BitTrie.offPath, show (trie H).onPath t i ks = [] from h]
  rfl

/-- In a collapsed subtree the walk shows the one place where the key leaves the path. -/
theorem walk_singleton {t k : Ref} {ks : List Ref} {n d : ℕ} {hash : Digest} (hd : d + n = DEPTH)
    (hk : onPath H t d ks = [k]) :
    walk H t (.singleton hash k) d = siblingsAt H (fun i => offPath H t i ks ≠ []) t ks d n := by
  unfold walk
  rw [show DEPTH - d = n by omega]
  induction n generalizing d with
  | zero => rfl
  | succ n ih =>
    have hon : onPath H t (d+1) ks = [k].filter fun k => bit k d == bit t d := by
      rw [← hk]
      exact (trie H).onPath_succ t d ks
    have hoff : offPath H t d ks = [k].filter fun k => bit k d != bit t d := by
      rw [← hk]
      rfl
    rw [siblingsAt_succ, List.range'_succ, List.find?_cons]
    by_cases hb : bit k d = bit t d
    · rw [show (bit t d != bit k d) = false by simp [hb]]
      rw [ih (by omega) (by rw [hon]; simp [hb])]
      simp [hoff, hb]
    · rw [show (bit t d != bit k d) = true by simpa using fun h => hb h.symm]
      have hoff' : offPath H t d ks = [k] := by rw [hoff]; simpa using hb
      have hnil : onPath H t (d+1) ks = [] := by rw [hon]; simpa using hb
      have hside : sideRoot H t ks d = singletonRoot H k (d+1) := by
        rw [singletonRoot_eq H k (by omega)]
        change (trie H).root _ _ (offPath H t d ks) = _
        rw [hoff']
        rfl
      rw [siblingsAt_of_forall_not fun i hi _ h =>
        h (offPath_nil_of_onPath_nil (onPath_nil_of_le hnil hi))]
      simp [hoff', hside]

/-- At an internal node the walk shows the child beside the path unless it is the default. -/
theorem walk_internal {t : Ref} {ks : List Ref} {d : ℕ} {hash : Digest} {left right : Node}
    (h : Represents H (.internal hash left right) d (onPath H t d ks)) :
    ∃ same, Represents H same (d+1) (onPath H t (d+1) ks) ∧
      (same = left ∧ bit t d = false ∨ same = right ∧ bit t d = true) ∧
      walk H t (.internal hash left right) d =
        (if sideRoot H t ks d ≠ defaults H (d+1) then [(d,sideRoot H t ks d)] else []) ++ walk H t same (d+1) := by
  obtain ⟨hlt,rfl,hl,hr⟩ := h
  have hside : ∀ other, Represents H other (d+1) (offPath H t d ks) → other.hash = sideRoot H t ks d :=
    fun other ho => ho.hash_eq hlt
  rw [walk, if_pos hlt]
  cases hb : bit t d with
  | false =>
    obtain ⟨hz,ho⟩ := zeros_onPath (H := H) ks hb
    refine ⟨left,hz ▸ hl,Or.inl ⟨rfl,rfl⟩,?_⟩
    rw [if_pos rfl, shownSibling, hside right (ho ▸ hr)]
  | true =>
    obtain ⟨ho,hz⟩ := ones_onPath (H := H) ks hb
    refine ⟨right,ho ▸ hr,Or.inr ⟨rfl,rfl⟩,?_⟩
    rw [if_neg (by decide), shownSibling, hside left (hz ▸ hl)]

/-- Whatever the tree went through, the walk collects side roots, and leaves out
only those that equal the default. -/
theorem walk_eq {t : Ref} {ks : List Ref} {m : Node} {n d : ℕ} (hd : d + n = DEPTH)
    (h : Represents H m d (onPath H t d ks)) :
    ∃ p : ℕ → Bool, walk H t m d = siblingsAt H (fun i => p i) t ks d n ∧
      ∀ i, d ≤ i → p i = false → sideRoot H t ks i = defaults H (i+1) := by
  induction m generalizing n d with
  | internal hash left right ihl ihr =>
    have hlt := h.1
    obtain ⟨same,hs,hside,hw⟩ := walk_internal h
    obtain ⟨n,rfl⟩ : ∃ n', n = n' + 1 := ⟨n - 1,by omega⟩
    have ih : ∃ p : ℕ → Bool, walk H t same (d+1) = siblingsAt H (fun i => p i) t ks (d+1) n ∧
        ∀ i, d + 1 ≤ i → p i = false → sideRoot H t ks i = defaults H (i+1) := by
      rcases hside with ⟨rfl,-⟩ | ⟨rfl,-⟩
      · exact ihl (by omega) hs
      · exact ihr (by omega) hs
    obtain ⟨p,hp,hdef⟩ := ih
    refine ⟨fun i => if i = d then decide (sideRoot H t ks d ≠ defaults H (d+1)) else p i,?_,?_⟩
    · rw [hw, hp, siblingsAt_succ]
      congr 1
      · simp
      · apply siblingsAt_congr
        intro i hi _
        simp [show i ≠ d by omega]
    · intro i hi hpi
      dsimp only at hpi
      split at hpi
      · next he =>
        subst he
        simpa using hpi
      · exact hdef i (by omega) hpi
  | singleton hash key =>
    obtain ⟨-,hk⟩ := h
    refine ⟨fun i => decide (offPath H t i ks ≠ []),?_,?_⟩
    · rw [walk_singleton hd hk]
      exact siblingsAt_congr fun i _ _ => by simp
    · intro i _ hpi
      exact sideRoot_of_offPath_nil (by simpa using hpi)
  | empty hash =>
    obtain ⟨-,hk⟩ := h
    refine ⟨fun _ => false,?_,fun i hi _ => ?_⟩
    · rw [siblingsAt_of_forall_not fun i _ _ h => by simp at h]
      rfl
    · exact sideRoot_of_offPath_nil (offPath_nil_of_onPath_nil (onPath_nil_of_le hk hi))

variable (H)

/-- The depths at which a freshly built tree over `ks` shows a sibling: some key leaves
the path there, and the subtree it leaves for is not the default or was collapsed. -/
def ShownDepth (t : Ref) (ks : List Ref) (i : ℕ) : Prop :=
  offPath H t i ks ≠ [] ∧ (sideRoot H t ks i ≠ defaults H (i+1) ∨ (onPath H t i ks).length = 1)

instance (t : Ref) (ks : List Ref) (i : ℕ) : Decidable (ShownDepth H t ks i) := by
  unfold ShownDepth
  infer_instance

variable {H}

theorem walk_build {t : Ref} {ks : List Ref} {m : Node} {n d : ℕ} (hd : d + n = DEPTH)
    (h : build H (onPath H t d ks) d = .ok m) : walk H t m d = siblingsAt H (ShownDepth H t ks) t ks d n := by
  generalize hk : onPath H t d ks = keys at h
  induction keys, d using build.induct generalizing m n with
  | case1 d =>
    rw [build] at h
    cases h
    rw [siblingsAt_of_forall_not fun i hi _ h =>
      h.1 (offPath_nil_of_onPath_nil (onPath_nil_of_le hk hi))]
    rfl
  | case2 d k =>
    rw [build] at h
    cases h
    rw [walk_singleton hd hk]
    apply siblingsAt_congr
    intro i hi _
    refine ⟨fun ho => ⟨ho,Or.inr ?_⟩,fun hs => hs.1⟩
    have hle : (onPath H t i ks).length ≤ 1 := by
      rw [onPath, ← (trie H).onPath_onPath t hi ks, show (trie H).onPath t d ks = [k] from hk]
      exact List.length_filter_le ..
    have hne : (onPath H t i ks).length ≠ 0 := fun h0 =>
      ho (offPath_nil_of_onPath_nil (List.length_eq_zero_iff.mp h0))
    omega
  | case3 d k k' rest hlt ihl ihr =>
    have hrep : Represents H m d (onPath H t d ks) := hk ▸ build_represents h
    rw [build, if_pos hlt] at h
    obtain ⟨left,hl,h⟩ := bind_eq_ok.mp h
    obtain ⟨right,hr,h⟩ := bind_eq_ok.mp h
    cases h
    obtain ⟨n,rfl⟩ : ∃ n', n = n' + 1 := ⟨n - 1,by omega⟩
    obtain ⟨same,-,hside,hw⟩ := walk_internal hrep
    rw [hw, siblingsAt_succ]
    congr 1
    · by_cases hs : sideRoot H t ks d = defaults H (d+1)
      · simp [ShownDepth, hs, hk]
      · have ho : offPath H t d ks ≠ [] := fun ho => hs (sideRoot_of_offPath_nil ho)
        simp [ShownDepth, hs, ho]
    · rcases hside with ⟨rfl,hb⟩ | ⟨rfl,hb⟩
      · exact ihl (by omega) (by rw [← hk, (zeros_onPath ks hb).1]) hl
      · exact ihr (by omega) (by rw [← hk, (ones_onPath ks hb).1]) hr
  | case4 d k k' rest hlt =>
    rw [build, if_neg hlt] at h
    cases h

end UnlearnShield.Smt
