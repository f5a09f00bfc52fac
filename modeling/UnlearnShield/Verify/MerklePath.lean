import UnlearnShield.Verify.Merkle

/-! # Audit paths

`_audit_path` splits the leaves from the root downward, `reconstruct_root` reads the bits
of the index from the leaf upward. Both name the side of every sibling, and the sides are
the same ones for every index and every number of leaves.
-/
namespace UnlearnShield.Merkle
variable (H : Bytes → Digest)

def auditPath (index : ℕ) (leaves : List Bytes) : List Digest :=
  if leaves.length ≤ 1 then []
  else
    let k := split leaves.length
    if index < k then auditPath index (leaves.take k) ++ [mth H (leaves.drop k)]
    else auditPath (index - k) (leaves.drop k) ++ [mth H (leaves.take k)]
termination_by leaves.length
decreasing_by
  · have := split_bounds (n := leaves.length) (by omega)
    simp only [List.length_take]
    omega
  · have := split_bounds (n := leaves.length) (by omega)
    simp only [List.length_drop]
    omega

theorem shiftEven_le (fn sn : ℕ) : (shiftEven fn sn).2 ≤ sn := by
  induction fn, sn using shiftEven.induct with
  | case1 fn sn h ih =>
    rw [shiftEven, if_pos h]
    exact ih.trans (Nat.div_le_self ..)
  | case2 fn sn h =>
    rw [shiftEven, if_neg h]

/-- The sides on which the loop takes its siblings, from the leaf upward; `true` is the left one. -/
def turns (fn sn : ℕ) : List Bool :=
  if sn = 0 then []
  else if fn % 2 = 1 ∨ fn = sn then true :: turns ((shiftEven fn sn).1 / 2) ((shiftEven fn sn).2 / 2)
  else false :: turns (fn / 2) (sn / 2)
termination_by sn
decreasing_by
  · have := shiftEven_le fn sn
    omega
  · omega

def join (b : Bool) (sibling : Bytes) (node : Digest) : Digest :=
  if b then nodeHash H sibling node.val else nodeHash H node.val sibling

def ascend : List Bool → List Bytes → Digest → Option Digest
  | [], [], node => some node
  | b :: sides, sibling :: path, node => ascend sides path (join H b sibling node)
  | [], _ :: _, _ => none
  | _ :: _, [], _ => none

variable {H}

/-- The loop over a path depends on the indices through the sides alone. -/
theorem climb_eq_ascend (path : List Bytes) (fn sn : ℕ) (node : Digest) :
    climb H path fn sn node = ascend H (turns fn sn) path node := by
  induction path generalizing fn sn node with
  | nil =>
    rw [climb, turns]
    by_cases hz : sn = 0
    · simp [hz, ascend]
    · by_cases hc : fn % 2 = 1 ∨ fn = sn
      · simp [hz, hc, ascend]
      · simp [hz, hc, ascend]
  | cons sibling path ih =>
    rw [climb, turns]
    by_cases hz : sn = 0
    · simp [hz, ascend]
    · by_cases hc : fn % 2 = 1 ∨ fn = sn
      · rw [if_neg hz, if_neg hz, if_pos hc, if_pos hc]
        exact ih ..
      · rw [if_neg hz, if_neg hz, if_neg hc, if_neg hc]
        exact ih ..

theorem ascend_isSome {sides : List Bool} {path : List Bytes} {node : Digest} :
    (ascend H sides path node).isSome ↔ path.length = sides.length := by
  induction sides generalizing path node with
  | nil => cases path <;> simp [ascend]
  | cons b sides ih =>
    cases path with
    | nil => simp [ascend]
    | cons sibling path =>
      rw [ascend, ih]
      simp

/-- The last sibling is hashed last. -/
theorem ascend_concat (b : Bool) (sibling : Bytes) (sides : List Bool) (path : List Bytes) (node : Digest) :
    ascend H (sides ++ [b]) (path ++ [sibling]) node = (ascend H sides path node).map (join H b sibling) := by
  induction sides generalizing path node with
  | nil =>
    cases path with
    | nil => rfl
    | cons y path => cases path <;> rfl
  | cons c sides ih =>
    cases path with
    | nil => cases sides <;> rfl
    | cons y path => exact ih ..

/-- A path that ends on the outside of a tree of `2 ^ l` leaves turns as it does inside it. -/
theorem turns_left {fn sn l : ℕ} (hfn : fn < 2 ^ l) (h₁ : 2 ^ l ≤ sn) (h₂ : sn < 2 ^ (l+1)) :
    turns fn sn = turns fn (2 ^ l - 1) ++ [false] := by
  have hpos : 0 < 2 ^ l := Nat.two_pow_pos l
  induction l generalizing fn sn with
  | zero =>
    obtain rfl : sn = 1 := by omega
    obtain rfl : fn = 0 := by omega
    simp [turns]
  | succ l ih =>
    have hpow : 2 ^ (l+1) = 2 * 2 ^ l := pow_succ' 2 l
    have hpow' : 2 ^ (l+1+1) = 2 * 2 ^ (l+1) := pow_succ' 2 (l+1)
    have hhalf : (2 ^ (l+1) - 1) / 2 = 2 ^ l - 1 := by omega
    have hstep := ih (by omega : fn / 2 < 2 ^ l) (by omega : 2 ^ l ≤ sn / 2) (by omega) (Nat.two_pow_pos l)
    rw [turns, if_neg (show sn ≠ 0 by omega)]
    rw [turns.eq_1 fn (2 ^ (l+1) - 1), if_neg (show 2 ^ (l+1) - 1 ≠ 0 by omega)]
    by_cases hodd : fn % 2 = 1
    · have hshift : ∀ m, shiftEven fn m = (fn,m) := fun m => by
        rw [shiftEven, if_neg (by omega)]
      rw [if_pos (Or.inl hodd), if_pos (Or.inl hodd), hshift, hshift]
      dsimp only
      rw [hhalf, hstep]
      rfl
    · rw [if_neg (by omega), if_neg (by omega), hhalf, hstep]
      rfl

/-- A lone node on the right edge goes up to the left half in one step. -/
theorem shiftEven_two_pow (m : ℕ) : shiftEven (2 ^ m) (2 ^ m) = (1,1) := by
  induction m with
  | zero =>
    rw [pow_zero, shiftEven]
    rfl
  | succ m ih =>
    have hpow : 2 ^ (m+1) = 2 * 2 ^ m := pow_succ' 2 m
    have hpos : 0 < 2 ^ m := Nat.two_pow_pos m
    have hhalf : 2 ^ (m+1) / 2 = 2 ^ m := by omega
    rw [shiftEven, if_pos (by omega), hhalf, ih]

/-- The inner loop goes up as far beside a left half as without it. -/
theorem shiftEven_add {fn sn m : ℕ} (hfn : fn ≠ 0) (hle : fn ≤ sn) (hsn : sn < 2 ^ m) :
    ∃ j, (shiftEven fn sn).1 % 2 = 1 ∧ (shiftEven fn sn).1 ≤ (shiftEven fn sn).2 ∧ (shiftEven fn sn).2 < 2 ^ (j+1) ∧
      shiftEven (fn + 2 ^ m) (sn + 2 ^ m) = ((shiftEven fn sn).1 + 2 ^ (j+1),(shiftEven fn sn).2 + 2 ^ (j+1)) := by
  cases m with
  | zero => exact absurd hsn (by rw [pow_zero]; omega)
  | succ m =>
    have hpow : 2 ^ (m+1) = 2 * 2 ^ m := pow_succ' 2 m
    induction m generalizing fn sn with
    | zero =>
      refine ⟨0,?_⟩
      obtain rfl : fn = 1 := by omega
      rw [shiftEven, if_neg (by omega), shiftEven, if_neg (by omega)]
      exact ⟨rfl,hle,hsn,rfl⟩
    | succ m ih =>
      have hpow' : 2 ^ (m+1) = 2 * 2 ^ m := pow_succ' 2 m
      by_cases heven : fn % 2 = 0
      · have hfn' : (fn + 2 ^ (m+1+1)) / 2 = fn / 2 + 2 ^ (m+1) := by omega
        have hsn' : (sn + 2 ^ (m+1+1)) / 2 = sn / 2 + 2 ^ (m+1) := by omega
        rw [shiftEven, if_pos ⟨hfn,heven⟩, shiftEven.eq_1 (fn + 2 ^ (m+1+1)), if_pos (by omega), hfn', hsn']
        exact ih (by omega) (by omega) (by omega) hpow'
      · refine ⟨m + 1,?_⟩
        rw [shiftEven, if_neg (by omega), shiftEven, if_neg (by omega)]
        exact ⟨by omega,hle,hsn,rfl⟩

/-- Beside a left half of `2 ^ m` leaves a path turns as it does without it, and once more. -/
theorem turns_right {fn sn m : ℕ} (hle : fn ≤ sn) (hsn : sn < 2 ^ m) :
    turns (fn + 2 ^ m) (sn + 2 ^ m) = turns fn sn ++ [true] := by
  have hpos : 0 < 2 ^ m := Nat.two_pow_pos m
  induction fn, sn using turns.induct generalizing m with
  | case1 fn =>
    obtain rfl : fn = 0 := by omega
    rw [Nat.zero_add, turns, if_neg (by omega), if_pos (Or.inr rfl), shiftEven_two_pow]
    simp [turns]
  | case2 fn sn hz hc ih =>
    obtain ⟨j,hodd,hle',hlt,hshift⟩ := shiftEven_add (m := m) (by omega) hle hsn
    have hpow : 2 ^ (j+1) = 2 * 2 ^ j := pow_succ' 2 j
    have hc' : (fn + 2 ^ m) % 2 = 1 ∨ fn + 2 ^ m = sn + 2 ^ m := by
      rcases hc with hc | hc
      · cases m with
        | zero => exact absurd hsn (by rw [pow_zero]; omega)
        | succ m => exact Or.inl (by rw [pow_succ]; omega)
      · exact Or.inr (by omega)
    have hfst : ((shiftEven fn sn).1 + 2 ^ (j+1)) / 2 = (shiftEven fn sn).1 / 2 + 2 ^ j := by omega
    have hsnd : ((shiftEven fn sn).2 + 2 ^ (j+1)) / 2 = (shiftEven fn sn).2 / 2 + 2 ^ j := by omega
    rw [turns, if_neg (by omega), if_pos hc', hshift]
    dsimp only
    rw [hfst, hsnd, ih (by omega) (by omega) (Nat.two_pow_pos j), turns.eq_1 fn sn, if_neg hz, if_pos hc]
    rfl
  | case3 fn sn hz hc ih =>
    cases m with
    | zero => exact absurd hsn (by rw [pow_zero]; omega)
    | succ m =>
      have hpow : 2 ^ (m+1) = 2 * 2 ^ m := pow_succ' 2 m
      have hfn : (fn + 2 ^ (m+1)) / 2 = fn / 2 + 2 ^ m := by omega
      have hsn' : (sn + 2 ^ (m+1)) / 2 = sn / 2 + 2 ^ m := by omega
      rw [turns, if_neg (by omega), if_neg (by omega), hfn, hsn', ih (by omega) (by omega) (Nat.two_pow_pos m),
        turns.eq_1 fn sn, if_neg hz, if_neg hc]
      rfl

/-- Seen from the root, the last side tells the half the leaf is in. -/
theorem turns_split {n i : ℕ} (hn : 2 ≤ n) (hi : i < n) :
    turns i (n-1) = if i < split n then turns i (split n - 1) ++ [false]
      else turns (i - split n) (n - split n - 1) ++ [true] := by
  obtain ⟨l,h₁,h₂⟩ := exists_level hn
  have hpow : 2 ^ (l+1) = 2 * 2 ^ l := pow_succ' 2 l
  rw [split_eq h₁ h₂]
  split
  · next hlt => exact turns_left hlt (by omega) (by omega)
  · next hge =>
    have hright := turns_right (by omega : i - 2 ^ l ≤ n - 2 ^ l - 1) (by omega : n - 2 ^ l - 1 < 2 ^ l)
    rwa [show i - 2 ^ l + 2 ^ l = i by omega, show n - 2 ^ l - 1 + 2 ^ l = n - 1 by omega] at hright

/-- The root of a list above one leaf is that of its two parts. -/
theorem mth_split {leaves : List Bytes} (h : 2 ≤ leaves.length) :
    mth H leaves = nodeHash H (mth H (leaves.take (split leaves.length))).val
      (mth H (leaves.drop (split leaves.length))).val := by
  match leaves with
  | [] => exact absurd h (Nat.not_succ_le_zero 1)
  | [data] => exact absurd h (Nat.lt_irrefl 1)
  | x :: y :: rest =>
    rw [mth]
    rfl

/-- Hashed upward along its own audit path, a leaf gives the root. -/
theorem ascend_auditPath {leaves : List Bytes} {i : ℕ} {leaf : Bytes} (h : leaves[i]? = some leaf) :
    ascend H (turns i (leaves.length - 1)) ((auditPath H i leaves).map Subtype.val) (leafHash H leaf) =
      some (mth H leaves) := by
  obtain ⟨hi,-⟩ := List.getElem?_eq_some_iff.mp h
  induction i, leaves using auditPath.induct with
  | case1 i leaves hone =>
    match leaves with
    | [] => exact absurd hi (Nat.not_lt_zero _)
    | [data] =>
      obtain rfl : i = 0 := by simpa using hi
      cases h
      have hturns : turns 0 ([leaf].length - 1) = [] := by simp [turns]
      rw [auditPath, if_pos hone, hturns, mth]
      rfl
    | x :: y :: rest =>
      simp only [List.length_cons] at hone
      omega
  | case2 i leaves hone k hlt ih =>
    have hb := split_bounds (n := leaves.length) (by omega)
    have hlen : (leaves.take k).length = k := by
      rw [List.length_take]
      omega
    have hget : (leaves.take k)[i]? = some leaf := by rw [List.getElem?_take_of_lt hlt, h]
    have hstep := ih hget (by omega)
    rw [hlen] at hstep
    simp only [k] at hlt hstep
    rw [auditPath, if_neg hone, turns_split (by omega) hi, mth_split (by omega)]
    rw [if_pos hlt, if_pos hlt, List.map_append, List.map_singleton, ascend_concat, hstep]
    rfl
  | case3 i leaves hone k hge ih =>
    have hb := split_bounds (n := leaves.length) (by omega)
    have hlen : (leaves.drop k).length = leaves.length - k := List.length_drop ..
    have hindex : k + (i - k) = i := by omega
    have hget : (leaves.drop k)[i - k]? = some leaf := by rw [List.getElem?_drop, hindex, h]
    have hstep := ih hget (by omega)
    rw [hlen] at hstep
    simp only [k] at hge hstep
    rw [auditPath, if_neg hone, turns_split (by omega) hi, mth_split (by omega)]
    rw [if_neg hge, if_neg hge, List.map_append, List.map_singleton, ascend_concat, hstep]
    rfl

/-- `reconstruct_root` on a leaf and its audit path. -/
theorem reconstructRoot_auditPath {leaves : List Bytes} {i : ℕ} {leaf : Bytes} (h : leaves[i]? = some leaf) :
    reconstructRoot H leaf i leaves.length ((auditPath H i leaves).map Subtype.val) = some (mth H leaves) := by
  obtain ⟨hi,-⟩ := List.getElem?_eq_some_iff.mp h
  have hlast : ((leaves.length : ℤ) - 1).toNat = leaves.length - 1 := by omega
  rw [reconstructRoot, if_neg (by omega), climb_eq_ascend, hlast]
  exact ascend_auditPath h

end UnlearnShield.Merkle
