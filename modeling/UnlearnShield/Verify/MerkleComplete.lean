import UnlearnShield.Verify.MerklePath
import UnlearnShield.Verify.MerkleSound

/-! # Completeness of sorted-Merkle absence proofs

The search returns the number of leaves below the target. The leaves on both sides of
that index are the neighbours of the target, and their audit paths lead to the root.
-/
namespace UnlearnShield.Merkle
variable (H : Bytes → Digest)

/-- `while lo < hi`. -/
def bisect (leaves : List Bytes) (target : Bytes) (lo hi : ℕ) : ℕ :=
  if lo < hi then
    let mid := (lo + hi) / 2
    if leaves.getD mid [] < target then bisect leaves target (mid+1) hi else bisect leaves target lo mid
  else lo
termination_by hi - lo
decreasing_by
  · omega
  · omega

def entryPairs (leaves : List Bytes) (i : ℕ) : List (PyKey × PyVal) := [
  (.str "leaf",.str (leaves.getD i []).hex), (.str "index",.int i),
  (.str "path",.list ((auditPath H i leaves).map fun h => .str h.val.hex))]

def entry (leaves : List Bytes) (i : ℕ) : PyVal := .dict (entryPairs H leaves i)

def proofPairs (leaves : List Bytes) (lo : ℕ) : List (PyKey × PyVal) := [
  (.str "tree_size",.int leaves.length),
  (.str "predecessor",if 0 < lo then entry H leaves (lo-1) else .none),
  (.str "successor",if lo < leaves.length then entry H leaves lo else .none)]

def proveAbsence (targetRef : String) (subjectRefs : List String) : Py PyVal := do
  let leaves ← sortedLeaves subjectRefs
  let target ← (PyVal.str targetRef).fromhex
  let lo := bisect leaves target 0 leaves.length
  let short := String.ofList (targetRef.toList.take 12)
  if lo < leaves.length ∧ leaves.getD lo [] = target then
    raise .valueError s!"{short}... is present at index {lo}; cannot prove absence"
  else pure (.dict (proofPairs H leaves lo))

variable {H}

section Search
variable {leaves : List Bytes} {target : Bytes}

structure Separates (leaves : List Bytes) (target : Bytes) (n : ℕ) : Prop where
  le : n ≤ leaves.length
  below : ∀ i leaf, i < n → leaves[i]? = some leaf → leaf < target
  above : ∀ i leaf, n ≤ i → leaves[i]? = some leaf → target ≤ leaf

/-- The interval keeps the boundary between the leaves below the target and the others. -/
theorem bisect_separates (hs : leaves.Pairwise (· ≤ ·)) {lo hi : ℕ} (hle : lo ≤ hi) (hhi : hi ≤ leaves.length)
    (hbelow : ∀ i leaf, i < lo → leaves[i]? = some leaf → leaf < target)
    (habove : ∀ i leaf, hi ≤ i → leaves[i]? = some leaf → target ≤ leaf) :
    Separates leaves target (bisect leaves target lo hi) := by
  induction lo, hi using bisect.induct leaves target with
  | case1 lo hi hlt mid hmid ih =>
    rw [bisect, if_pos hlt]
    simp only [mid] at hmid ih
    rw [if_pos hmid]
    refine ih (by omega) hhi (fun i leaf hmid' hget => ?_) habove
    have hin : (lo + hi) / 2 < leaves.length := by omega
    have hget' : leaves[(lo + hi) / 2]? = some (leaves.getD ((lo + hi) / 2) []) := by
      rw [List.getD_eq_getElem _ _ hin, List.getElem?_eq_getElem hin]
    exact List.lt_of_le_of_lt (le_of_getElem? hs (by omega) hget hget') hmid
  | case2 lo hi hlt mid hmid ih =>
    rw [bisect, if_pos hlt]
    simp only [mid] at hmid ih
    rw [if_neg hmid]
    refine ih (by omega) (by omega) hbelow (fun i leaf hmid' hget => ?_)
    have hin : (lo + hi) / 2 < leaves.length := by omega
    have hget' : leaves[(lo + hi) / 2]? = some (leaves.getD ((lo + hi) / 2) []) := by
      rw [List.getD_eq_getElem _ _ hin, List.getElem?_eq_getElem hin]
    exact List.le_trans (List.not_lt.mp hmid) (le_of_getElem? hs hmid' hget' hget)
  | case3 lo hi hge =>
    obtain rfl : lo = hi := by omega
    rw [bisect, if_neg hge]
    exact ⟨hhi,hbelow,habove⟩

theorem bisect_spec (hs : leaves.Pairwise (· ≤ ·)) :
    Separates leaves target (bisect leaves target 0 leaves.length) := by
  refine bisect_separates hs (Nat.zero_le _) le_rfl (fun i _ hi _ => absurd hi (Nat.not_lt_zero i))
    fun i leaf hi hget => ?_
  rw [List.getElem?_eq_none hi] at hget
  cases hget

variable {n : ℕ}

/-- The target is a leaf exactly when it is the one at the boundary. -/
theorem Separates.mem_iff (h : Separates leaves target n) (hs : leaves.Pairwise (· ≤ ·)) :
    target ∈ leaves ↔ leaves[n]? = some target := by
  constructor
  · intro hin
    obtain ⟨i,hi⟩ := List.mem_iff_getElem?.mp hin
    have hge : n ≤ i := by
      by_contra hlt
      exact List.lt_irrefl target (h.below i target (by omega) hi)
    obtain ⟨hlt,-⟩ := List.getElem?_eq_some_iff.mp hi
    have hget := List.getElem?_eq_getElem (lt_of_le_of_lt hge hlt)
    rw [hget, List.le_antisymm (le_of_getElem? hs hge hget hi) (h.above n _ le_rfl hget)]
  · exact fun hget => List.mem_of_getElem? hget

end Search

section Check
variable {leaves : List Bytes} {F : FloatOps} {i : ℕ} {leaf : Bytes}

theorem getD_of_getElem? (h : leaves[i]? = some leaf) : leaves.getD i [] = leaf := by
  rw [List.getD_eq_getElem?_getD, h, Option.getD_some]

theorem entryPairs_nodup (leaves : List Bytes) (i : ℕ) : ((entryPairs H leaves i).map Prod.fst).Nodup := by
  change [PyKey.str "leaf", PyKey.str "index", PyKey.str "path"].Nodup
  decide

theorem entry_index (leaves : List Bytes) (i : ℕ) : (entry H leaves i).subscript "index" = .ok (.int i) :=
  PyVal.subscript_of_mem (entryPairs_nodup leaves i) (List.mem_cons_of_mem _ List.mem_cons_self)

theorem readEntry_entry (h : leaves[i]? = some leaf) :
    readEntry (entry H leaves i) = .ok (leaf,(auditPath H i leaves).map Subtype.val,.int i) := by
  have hleaf : (entry H leaves i).subscript "leaf" = .ok (.str (leaves.getD i []).hex) :=
    PyVal.subscript_of_mem (entryPairs_nodup leaves i) List.mem_cons_self
  have hpath : (entry H leaves i).subscript "path" = .ok (.list ((auditPath H i leaves).map fun h => .str h.val.hex)) :=
    PyVal.subscript_of_mem (entryPairs_nodup leaves i)
      (List.mem_cons_of_mem _ (List.mem_cons_of_mem _ List.mem_cons_self))
  have hmap : ((auditPath H i leaves).map fun h => PyVal.str h.val.hex).mapM PyVal.fromhex =
      .ok ((auditPath H i leaves).map Subtype.val) := by
    rw [mapM_eq_ok, List.map_map, List.map_map]
    exact List.map_congr_left fun h _ => Smt.PyVal.fromhex_hex h.val
  rw [readEntry, hleaf, ok_bind, Smt.PyVal.fromhex_hex, ok_bind, hpath, ok_bind, iter, ok_bind, hmap,
    ok_bind, entry_index,
    ok_bind, getD_of_getElem? h]
  rfl

/-- The entry of a leaf passes its check. -/
theorem check_entry (hn : leaves.length < 2 ^ 64) (h : leaves[i]? = some leaf) :
    check H leaves.length (rootOf H leaves) (entry H leaves i) = .ok (some leaf) := by
  have hcommit : commit H leaves.length (mth H leaves).val = .ok (rootOf H leaves) :=
    commit_eq_ok.mpr ⟨by omega,by exact_mod_cast hn,rfl⟩
  rw [check, readEntry_entry h]
  dsimp only [intOf]
  rw [verifyAuditPath, reconstructRoot_auditPath h]
  dsimp only
  rw [hcommit, ok_bind]
  have hself : (rootOf H leaves == rootOf H leaves) = true := beq_self_eq_true _
  simp only [hself, ok_bind, pure, Except.pure, ↓reduceIte]

end Check

section Proof
variable {leaves : List Bytes} {target : Bytes} {F : FloatOps} {n : ℕ}

theorem proofPairs_nodup (leaves : List Bytes) (lo : ℕ) : ((proofPairs H leaves lo).map Prod.fst).Nodup := by
  change [PyKey.str "tree_size", PyKey.str "predecessor", PyKey.str "successor"].Nodup
  decide

theorem readProof_proofPairs {targetRef : String} (ht : Bytes.fromhex targetRef = some target)
    (leaves : List Bytes) (lo : ℕ) :
    readProof (.str targetRef) (.dict (proofPairs H leaves lo)) = .ok (target,.int leaves.length,
      (if 0 < lo then entry H leaves (lo-1) else .none),(if lo < leaves.length then entry H leaves lo else .none)) := by
  have hn := proofPairs_nodup (H := H) leaves lo
  have htarget : (PyVal.str targetRef).fromhex = .ok target := by rw [PyVal.fromhex, ht]
  have hsize : (PyVal.dict (proofPairs H leaves lo)).subscript "tree_size" = .ok (.int leaves.length) :=
    PyVal.subscript_of_mem hn List.mem_cons_self
  have hpred : (PyVal.dict (proofPairs H leaves lo)).subscript "predecessor" =
      .ok (if 0 < lo then entry H leaves (lo-1) else .none) :=
    PyVal.subscript_of_mem hn (List.mem_cons_of_mem _ List.mem_cons_self)
  have hsucc : (PyVal.dict (proofPairs H leaves lo)).subscript "successor" =
      .ok (if lo < leaves.length then entry H leaves lo else .none) :=
    PyVal.subscript_of_mem hn (List.mem_cons_of_mem _ (List.mem_cons_of_mem _ List.mem_cons_self))
  rw [readProof, htarget, ok_bind, hsize, ok_bind, (get_of_subscript .none hpred).1, ok_bind,
    (get_of_subscript .none hsucc).1, ok_bind]
  rfl

theorem entry_ne_none (leaves : List Bytes) (i : ℕ) : isNone (entry H leaves i) = false := rfl

/-- The neighbours found by the search leave the target between them. -/
theorem verifyNeighbours_entries (h : Separates leaves target n) (hn : leaves.length < 2 ^ 64) (hne : leaves ≠ [])
    (hout : leaves[n]? ≠ some target) :
    verifyNeighbours H F target leaves.length (if 0 < n then entry H leaves (n-1) else .none)
      (if n < leaves.length then entry H leaves n else .none) (rootOf H leaves) = .ok true := by
  have hlen := List.length_pos_iff.mpr hne
  have habove : ∀ leaf, leaves[n]? = some leaf → target < leaf := fun leaf hget => by
    have hle := h.above n leaf le_rfl hget
    by_contra hge
    exact hout (by rw [hget, List.le_antisymm hle (List.not_lt.mp hge)])
  have hcheck : ∀ i, i < leaves.length → ∃ leaf, leaves[i]? = some leaf ∧
      check H leaves.length (rootOf H leaves) (entry H leaves i) = .ok (some leaf) := fun i hi =>
    ⟨leaves[i],List.getElem?_eq_getElem hi,check_entry hn (List.getElem?_eq_getElem hi)⟩
  have hindex : ∀ i, (entry H leaves i).get "index" = .ok (.int i) ∧
      getD (entry H leaves i) "index" (.int (-99)) = .ok (.int i) :=
        fun i => get_of_subscript (.int (-99)) (entry_index leaves i)
  rw [verifyNeighbours]
  by_cases hlo : 0 < n
  · rw [if_pos hlo, entry_ne_none]
    obtain ⟨leaf,hget,hpass⟩ := hcheck (n-1) (by have := h.le; omega)
    have hbelow := h.below (n-1) leaf (by omega) hget
    by_cases hhi : n < leaves.length
    · obtain ⟨leaf',hget',hpass'⟩ := hcheck n hhi
      have hnext : eqSucc F (.int n) (.int ((n-1 : ℕ) : ℤ)) = .ok true := by
        simp only [eqSucc, intOf, eqInt]
        rw [decide_eq_true (by omega)]
      have habove' := habove leaf' hget'
      rw [if_pos hhi, entry_ne_none, (hindex n).1, ok_bind, (hindex (n-1)).2]
      simp [hnext, hpass, hpass', hbelow, habove', pure, Except.pure]
    · have hlast : eqInt F (.int ((n-1 : ℕ) : ℤ)) ((leaves.length : ℤ) - 1) = true := by
        have := h.le
        simp only [eqInt, intOf]
        exact decide_eq_true (by omega)
      rw [if_neg hhi, (hindex (n-1)).1]
      simp [isNone, hlast, hpass, hbelow, pure, Except.pure]
  · obtain rfl : n = 0 := by omega
    obtain ⟨leaf,hget,hpass⟩ := hcheck 0 hlen
    have hfirst : eqInt F (.int 0) 0 = true := rfl
    have habove' := habove leaf hget
    rw [if_neg hlo, if_pos hlen, entry_ne_none, (hindex 0).1]
    simp [isNone, hfirst, hpass, habove', pure, Except.pure]

/-- An absence proof is refused for a member of the set, and is otherwise given and accepted against the
root of the set. -/
theorem proveAbsence_complete (F : FloatOps) {refs : List String} {targetRef : String}
    (h : sortedLeaves refs = .ok leaves) (hn : leaves.length < 2 ^ 64) (ht : Bytes.fromhex targetRef = some target) :
    ((∃ e, proveAbsence H targetRef refs = .error e ∧ e.kind = .valueError) ↔ ∃ r ∈ refs,
      Bytes.fromhex r = some target) ∧
      ((∀ r ∈ refs, Bytes.fromhex r ≠ some target) → ∃ proof root, proveAbsence H targetRef refs = .ok proof ∧
        buildRoot H refs = .ok root ∧ verifyAbsence H F (.str targetRef) proof (.str root) = .ok true) := by
  obtain ⟨hsorted,hmem⟩ := sortedLeaves_eq_ok h
  have hsep : Separates leaves target (bisect leaves target 0 leaves.length) := bisect_spec hsorted
  have htarget : (PyVal.str targetRef).fromhex = .ok target := by rw [PyVal.fromhex, ht]
  generalize hlo : bisect leaves target 0 leaves.length = lo at hsep
  have hfound : (lo < leaves.length ∧ leaves.getD lo [] = target) ↔ target ∈ leaves := by
    rw [hsep.mem_iff hsorted]
    constructor
    · rintro ⟨hlt,hget⟩
      rw [List.getElem?_eq_getElem hlt, ← hget, List.getD_eq_getElem _ _ hlt]
    · exact fun hget => ⟨(List.getElem?_eq_some_iff.mp hget).1,getD_of_getElem? hget⟩
  constructor
  · rw [← hmem, ← hfound]
    unfold proveAbsence
    rw [h, ok_bind, htarget, ok_bind, hlo]
    constructor
    · rintro ⟨e,he,-⟩
      by_contra hno
      rw [if_neg hno] at he
      cases he
    · intro hyes
      rw [if_pos hyes]
      exact ⟨_,rfl,rfl⟩
  · intro habsent
    have hout : target ∉ leaves := fun hin => by
      obtain ⟨r,hr,he⟩ := (hmem target).mp hin
      exact habsent r hr he
    have hroot := buildRoot_eq_ok (H := H) h hn
    refine ⟨.dict (proofPairs H leaves lo),_,?_,hroot,?_⟩
    · unfold proveAbsence
      rw [h, ok_bind, htarget, ok_bind, hlo, if_neg (fun hyes => hout (hfound.mp hyes))]
      rfl
    · have hsize : ¬((leaves.length : ℤ) < 0) := by omega
      rw [verifyAbsence, readProof_proofPairs ht]
      dsimp only [intOf]
      rw [if_neg hsize]
      by_cases hne : leaves = []
      · subst hne
        have hzero : lo = 0 := Nat.le_zero.mp hsep.le
        have hempty : rootOf H [] = EMPTY_ROOT H := by rw [rootOf, mth]; rfl
        rw [hzero, hempty]
        simp [isNone]
      · have hpos : (leaves.length : ℤ) ≠ 0 := by
          have := List.length_pos_iff.mpr hne
          omega
        rw [if_neg hpos]
        exact verifyNeighbours_entries hsep hn hne fun hget => hout ((hsep.mem_iff hsorted).mpr hget)

theorem proveAbsence_complete_sample : ∃ proof root, proveAbsence sha256 "01" ["02","00","02"] = .ok proof ∧
    buildRoot sha256 ["02","00","02"] = .ok root ∧
    verifyAbsence sha256 ⟨fun _ _ => false,id⟩ (.str "01") proof (.str root) = .ok true := by
  have h : sortedLeaves ["02","00","02"] = .ok [[0],[2]] := rfl
  exact (proveAbsence_complete (H := sha256) ⟨fun _ _ => false,id⟩ h (by decide) (show _ = some [1] from rfl)).2
    (by decide)

end Proof

end UnlearnShield.Merkle
