import UnlearnShield.Engine.Unlearning

/-! # Rolling back with another number of trees per slice

A booster does not record which slice a tree belongs to; a rollback multiplies the slice
by the setting of its own process. A tree at position `i` of a booster built with `a` trees
per slice saw the rows of the slices up to `i / a`.
-/
namespace UnlearnShield.Engine.Gbdt
open Deployment
variable {D : Deployment} {records : Records D.V}

/-- The rows that the tree at position `i` of a fresh booster was trained on. -/
def treeRows (records : Records D.V) (treesPerSlice i : ℕ) : Records D.V :=
  records.filter fun row => row.sliceIdx ≤ i / treesPerSlice

theorem getElem?_boost {data : List D.V} {n j : ℕ} (hj : j < n) (booster : D.Booster) :
    (boost data n booster)[booster.length + j]? =
      some (D.gbdt.nextTree data ((boost data n booster).take (booster.length + j))) := by
  induction n generalizing j booster with
  | zero => exact absurd hj (Nat.not_lt_zero j)
  | succ n ih =>
    have hlen : (booster ++ [D.gbdt.nextTree data booster]).length = booster.length + 1 := by
      rw [List.length_append, List.length_singleton]
    rw [boost]
    cases j with
    | zero =>
      obtain ⟨rest,hrest⟩ := prefix_boost data n (booster ++ [D.gbdt.nextTree data booster])
      rw [← hrest, Nat.add_zero, List.append_assoc, List.take_left, List.getElem?_append_right le_rfl, Nat.sub_self]
      rfl
    | succ j =>
      have hstep := ih (Nat.lt_of_succ_lt_succ hj) (booster ++ [D.gbdt.nextTree data booster])
      rw [hlen] at hstep
      rw [show booster.length + (j+1) = booster.length + 1 + j by omega]
      exact hstep

/-- Every tree of a fresh booster was trained on its rows and the trees before it. -/
theorem getElem?_scratch {a n i : ℕ} (hi : i < n * a) : (scratch records a n)[i]? =
    some (D.gbdt.nextTree ((treeRows records a i).map Row.values) ((scratch records a n).take i)) := by
  induction n with
  | zero => exact absurd hi (by rw [Nat.zero_mul]; exact Nat.not_lt_zero i)
  | succ n ih =>
    have hsucc : scratch records a (n+1) = boost (upto records n) a (scratch records a n) := by
      rw [scratch, boostSlices_add, Nat.zero_add]
      rfl
    have hlen := length_scratch records a n
    by_cases hlt : i < n * a
    · obtain ⟨rest,hrest⟩ := prefix_boost (upto records n) a (scratch records a n)
      rw [hsucc, ← hrest, List.getElem?_append_left (by omega), List.take_append_of_le_length (by omega)]
      exact ih hlt
    · obtain ⟨j,rfl⟩ := Nat.exists_eq_add_of_le (Nat.le_of_not_lt hlt)
      have hj : j < a := by
        rw [Nat.succ_mul] at hi
        omega
      have hrows : (treeRows records a (n * a + j)).map Row.values = upto records n := by
        have hdiv : (n * a + j) / a = n := by
          rw [Nat.mul_comm, Nat.mul_add_div (by omega), Nat.div_eq_of_lt hj, Nat.add_zero]
        rw [treeRows, hdiv]
        rfl
      have hboost : (boost (upto records n) a (scratch records a n))[_]? = _ := getElem?_boost hj (scratch records a n)
      rw [hlen] at hboost
      rw [hrows, hsucc]
      exact hboost

/-- Rebuilding with `b` trees per slice a booster that was built with `a` keeps no tree trained on a
row of the batch exactly when nothing is kept, or more is asked for than there is, or the trees kept
come before those of every slice with such a row. -/
theorem rollback_forgets_iff {a b m shard : ℕ} {refs : List Ref} {booster : D.Booster}
    (hbuilt : trainShard records 0 none a = .ok (some booster)) :
    (∀ result kept, rebuildBooster shard refs records m booster b = .ok result → rollback booster m b = .ok kept →
      ∀ i < (kept.getD []).length, ∀ row ∈ treeRows records a i, row.subjectRef ∉ refs) ↔
    (m = 0 ∨ D.settings.NUM_SLICES * a < m * b ∨ ∀ row ∈ records, row.subjectRef ∈ refs →
      m * b ≤ row.sliceIdx * a) := by
  obtain ⟨hd,hslices,rfl⟩ := trainShard_scratch.mp hbuilt
  have hlen := length_scratch records a D.settings.NUM_SLICES
  constructor
  · intro hforgets
    by_contra hno
    simp only [not_or, not_lt, not_forall] at hno
    obtain ⟨hm,hle,row,hrow,href,hlt⟩ := hno
    have hkept : rollback (scratch records a D.settings.NUM_SLICES) m b =
        .ok (some ((scratch records a D.settings.NUM_SLICES).take (m * b))) :=
      rollback_eq_ok.mpr (by rw [if_neg hm, hlen]; exact ⟨hle,rfl⟩)
    obtain ⟨rebuilt,htrain⟩ : ∃ rebuilt, trainShard (retain records refs) m
        (some ((scratch records a D.settings.NUM_SLICES).take (m * b))) b = .ok (some rebuilt) := by
      by_cases hms : m < D.settings.NUM_SLICES
      · exact ⟨_,trainShard_eq_ok.mpr ⟨fun _ => Option.some_ne_none _,hd,by rw [if_pos hms]⟩⟩
      · exact ⟨_,trainShard_eq_ok.mpr ⟨fun _ => Option.some_ne_none _,hd,by rw [if_neg hms]⟩⟩
    have hrebuilt : rebuildBooster shard refs records m _ b = .ok _ :=
      rebuildBooster_eq_ok.mpr ⟨⟨row,hrow,href⟩,rfl,_,hkept,htrain⟩
    -- the first tree of the slice of the row is kept
    have hi : row.sliceIdx * a < ((scratch records a D.settings.NUM_SLICES).take (m * b)).length := by
      rw [List.length_take, hlen]
      omega
    have ha : 0 < a := by
      by_contra hz
      obtain rfl : a = 0 := by omega
      omega
    refine hforgets _ _ hrebuilt hkept (row.sliceIdx * a) hi row ?_ href
    rw [treeRows, List.mem_filter, Nat.mul_div_cancel _ ha]
    exact ⟨hrow,decide_eq_true le_rfl⟩
  · intro hcond result kept hrebuilt hkept i hi row hrow href
    obtain ⟨hmem,hslice⟩ := List.mem_filter.mp hrow
    have hkept' := rollback_eq_ok.mp hkept
    by_cases hm : m = 0
    · rw [if_pos hm] at hkept'
      rw [hkept'] at hi
      exact Nat.not_lt_zero i hi
    · rw [if_neg hm, hlen] at hkept'
      obtain ⟨hle,rfl⟩ := hkept'
      rw [Option.getD_some, List.length_take] at hi
      have hall := (hcond.resolve_left hm).resolve_left (by omega) row hmem href
      have hdiv : i / a < row.sliceIdx := Nat.div_lt_of_lt_mul (by rw [Nat.mul_comm]; omega)
      have := of_decide_eq_true hslice
      omega

/-- The sample shard, built with one tree per slice and rebuilt with one. -/
theorem rollback_forgets_iff_sample :
    trainShard sampleRecords 0 none 1 = .ok (some (scratch (D := logging 2) sampleRecords 1 2)) ∧ ∀ result kept,
    rebuildBooster 0 [sampleRef 3] sampleRecords 1 (scratch (D := logging 2) sampleRecords 1 2) 1 = .ok result →
    rollback (scratch (D := logging 2) sampleRecords 1 2) 1 1 = .ok kept →
    ∀ i < (kept.getD []).length, ∀ row ∈ treeRows (D := logging 2) sampleRecords 1 i,
      row.subjectRef ∉ [sampleRef 3] := by
  have hbefore : ∀ row : Row ℕ, row ∈ sampleRecords → row.subjectRef ∈ [sampleRef 3] →
    1 * 1 ≤ row.sliceIdx * 1 := by decide
  have hbuilt : trainShard sampleRecords 0 none 1 = .ok (some (scratch (D := logging 2) sampleRecords 1 2)) :=
    trainShard_scratch.mpr ⟨rfl,Nat.two_pos,rfl⟩
  exact ⟨hbuilt,(rollback_forgets_iff (D := logging 2) (a := 1) (b := 1) (m := 1) hbuilt).mpr (Or.inr (Or.inr hbefore))⟩

/-- The same shard rebuilt with two trees per slice: both trees are kept, the second one saw the subject. -/
theorem not_rollback_forgets : ¬∀ result kept,
    rebuildBooster 0 [sampleRef 3] sampleRecords 1 (scratch (D := logging 2) sampleRecords 1 2) 2 = .ok result →
    rollback (scratch (D := logging 2) sampleRecords 1 2) 1 2 = .ok kept →
    ∀ i < (kept.getD []).length, ∀ row ∈ treeRows (D := logging 2) sampleRecords 1 i,
      row.subjectRef ∉ [sampleRef 3] := by
  intro h
  have hrow : (⟨sampleRef 3,1,30⟩ : Row ℕ) ∈ treeRows (D := logging 2) sampleRecords 1 1 :=
    List.mem_cons_of_mem _ (List.mem_cons_of_mem _ List.mem_cons_self)
  exact h _ _ rfl rfl 1 (by decide) _ hrow (List.mem_singleton_self _)

end UnlearnShield.Engine.Gbdt
