import Mathlib

/-! # Index arrays

Reading an array at a list of indices, writing one there, and the indices at which a
condition holds.
-/
namespace UnlearnShield.Arrays
variable {α β γ : Type}

/-- `xs[indices]`; all indices are in range. -/
def gather (xs : List α) (indices : List ℕ) : List α := indices.filterMap (xs[·]?)

/-- `out[indices] = values`. -/
def scatter (out : List α) (indices : List ℕ) (values : List α) : List α :=
  (indices.zip values).foldl (fun out e => out.set e.1 e.2) out

/-- `np.flatnonzero` of a condition on the entries. -/
def flatnonzero (xs : List α) (p : α → Bool) : List ℕ := (List.range xs.length).filter fun i => (xs[i]?).any p

/-- `np.cumsum`. -/
def cumsum : ℤ → List ℤ → List ℤ
  | _, [] => []
  | total, x :: xs => (total + x) :: cumsum (total + x) xs

theorem gather_map (xs : List α) (f : α → β) (indices : List ℕ) :
    gather (xs.map f) indices = (gather xs indices).map f := by
  unfold gather
  rw [List.map_filterMap]
  simp only [List.getElem?_map]

/-- Reading at indices that are themselves computed entry by entry. -/
theorem gather_of_getElem? {xs : List β} {ys : List α} {index : α → ℕ} {f : α → β}
    (h : ∀ y ∈ ys, xs[index y]? = some (f y)) : gather xs (ys.map index) = ys.map f := by
  induction ys with
  | nil => rfl
  | cons y ys ih =>
    obtain ⟨hy,hys⟩ := List.forall_mem_cons.mp h
    rw [List.map_cons, List.map_cons, gather, List.filterMap_cons_some hy]
    exact congrArg _ (ih hys)

/-- Reading at indices that are all in range reads one entry at each. -/
theorem length_gather {xs : List α} {indices : List ℕ} (h : ∀ i ∈ indices, i < xs.length) :
    (gather xs indices).length = indices.length := by
  induction indices with
  | nil => rfl
  | cons i indices ih =>
    obtain ⟨hi,his⟩ := List.forall_mem_cons.mp h
    have hget : (fun i => xs[i]?) i = some xs[i] := List.getElem?_eq_getElem hi
    have htail := ih his
    rw [gather, List.filterMap_cons_some hget, List.length_cons, List.length_cons]
    exact congrArg (· + 1) htail

theorem mem_of_mem_gather {xs : List α} {indices : List ℕ} {x : α} (h : x ∈ gather xs indices) : x ∈ xs := by
  obtain ⟨i,-,hi⟩ := List.mem_filterMap.mp h
  exact List.mem_of_getElem? hi

/-- A list as long as one without repetitions is its image under a function. -/
theorem exists_map_of_length [DecidableEq α] [Inhabited β] {xs : List α} {ys : List β} (hn : xs.Nodup)
    (h : ys.length = xs.length) : ∃ f : α → β, ys = xs.map f := by
  refine ⟨fun x => (ys[xs.idxOf x]?).getD default,List.ext_getElem? fun i => ?_⟩
  rw [List.getElem?_map]
  by_cases hi : i < xs.length
  · rw [List.getElem?_eq_getElem hi, Option.map_some, List.Nodup.idxOf_getElem hn i hi,
      List.getElem?_eq_getElem (h ▸ hi), Option.getD_some]
  · rw [List.getElem?_eq_none (Nat.le_of_not_lt hi), List.getElem?_eq_none (h ▸ Nat.le_of_not_lt hi)]
    rfl

theorem mem_flatnonzero {xs : List α} {p : α → Bool} {i : ℕ} :
    i ∈ flatnonzero xs p ↔ ∃ x, xs[i]? = some x ∧ p x = true := by
  rw [flatnonzero, List.mem_filter, List.mem_range]
  constructor
  · rintro ⟨-,h⟩
    cases hx : xs[i]? with
    | none =>
      rw [hx] at h
      cases h
    | some x =>
      rw [hx] at h
      exact ⟨x,rfl,h⟩
  · rintro ⟨x,hx,hp⟩
    obtain ⟨hlt,-⟩ := List.getElem?_eq_some_iff.mp hx
    exact ⟨hlt,by rw [hx]; exact hp⟩

theorem flatnonzero_map (xs : List α) (f : α → β) (p : β → Bool) :
    flatnonzero (xs.map f) p = flatnonzero xs fun x => p (f x) := by
  unfold flatnonzero
  rw [List.length_map]
  apply List.filter_congr
  intro i _
  cases h : xs[i]? <;> simp [h]

/-- Reading at the indices of a condition is filtering by it. -/
theorem gather_flatnonzero (xs : List α) (f : α → β) (p : β → Bool) :
    gather xs (flatnonzero (xs.map f) p) = xs.filter fun x => p (f x) := by
  induction xs with
  | nil => rfl
  | cons x xs ih =>
    have htail : (List.map Nat.succ ((List.range xs.length).filter fun i => ((xs.map f)[i]?).any p)).filterMap
      ((x :: xs)[·]?) =
        xs.filter fun x => p (f x) := by
      rw [← ih, List.filterMap_map, gather, flatnonzero, List.length_map]
      rfl
    rw [gather, flatnonzero, List.length_map, List.length_cons, List.range_succ_eq_map, List.filter_cons,
      List.filter_map]
    have hsucc : ((fun i => (((x :: xs).map f)[i]?).any p) ∘ Nat.succ) = fun i => ((xs.map f)[i]?).any p := rfl
    rw [hsucc]
    by_cases hp : p (f x) = true
    · have hzero : (((x :: xs).map f)[0]?).any p = true := hp
      have hhead : (fun i => (x :: xs)[i]?) 0 = some x := rfl
      rw [if_pos hzero, List.filterMap_cons_some hhead, htail]
      simp only [List.filter_cons, hp, ↓reduceIte]
    · have hzero : ¬(((x :: xs).map f)[0]?).any p = true := hp
      rw [if_neg hzero, htail]
      simp only [List.filter_cons, hp, Bool.false_eq_true, ↓reduceIte]

@[simp] theorem length_scatter (out : List α) (indices : List ℕ) (values : List α) :
    (scatter out indices values).length = out.length := by
  unfold scatter
  induction indices.zip values generalizing out with
  | nil => rfl
  | cons e rest ih => rw [List.foldl_cons, ih, List.length_set]

theorem scatter_cons (out : List α) (i : ℕ) (indices : List ℕ) (v : α) (values : List α) :
    scatter out (i :: indices) (v :: values) = scatter (out.set i v) indices values := rfl

/-- Entries at other indices stay. -/
theorem getElem?_scatter_of_notMem {i : ℕ} {indices : List ℕ} (h : i ∉ indices) (out : List α) (values : List α) :
    (scatter out indices values)[i]? = out[i]? := by
  induction indices generalizing out values with
  | nil => rfl
  | cons j indices ih =>
    rw [List.mem_cons, not_or] at h
    cases values with
    | nil => rfl
    | cons v values => rw [scatter_cons, ih h.2, List.getElem?_set_ne (Ne.symm h.1)]

/-- Entries at the indices are among the values written. -/
theorem getElem?_scatter_of_mem {i : ℕ} {indices : List ℕ} (out : List α) {values : List α} (h : i ∈ indices)
    (hlen : indices.length = values.length) (hi : i < out.length) :
    ∃ v ∈ values, (scatter out indices values)[i]? = some v := by
  induction indices generalizing out values with
  | nil => exact absurd h List.not_mem_nil
  | cons j indices ih =>
    cases values with
    | nil => cases hlen
    | cons v values =>
      rw [scatter_cons]
      by_cases hin : i ∈ indices
      · obtain ⟨w,hw,hget⟩ := ih (out.set j v) hin (Nat.succ.inj hlen) (by rwa [List.length_set])
        exact ⟨w,List.mem_cons_of_mem _ hw,hget⟩
      · obtain rfl := (List.mem_cons.mp h).resolve_right hin
        exact ⟨v,List.mem_cons_self,by rw [getElem?_scatter_of_notMem hin, List.getElem?_set_self hi]⟩

/-- Reading back what was written. -/
theorem gather_scatter {indices : List ℕ} (hn : indices.Nodup) (out : List α) {values : List α}
    (hlen : indices.length = values.length) (h : ∀ i ∈ indices, i < out.length) :
    gather (scatter out indices values) indices = values := by
  induction indices generalizing out values with
  | nil => exact (List.length_eq_zero_iff.mp hlen.symm).symm
  | cons i indices ih =>
    obtain ⟨hi,his⟩ := List.nodup_cons.mp hn
    obtain ⟨hlt,hlts⟩ := List.forall_mem_cons.mp h
    cases values with
    | nil => cases hlen
    | cons v values =>
      have hhead : (fun k => (scatter (out.set i v) indices values)[k]?) i = some v := by
        simp [getElem?_scatter_of_notMem hi, List.getElem?_set_self hlt]
      have htail := ih his (out.set i v) (Nat.succ.inj hlen) (by simpa using hlts)
      rw [scatter_cons, gather, List.filterMap_cons_some hhead]
      exact congrArg _ htail

theorem gather_range (xs : List α) : gather xs (List.range xs.length) = xs := by
  have h := gather_flatnonzero xs (fun _ => ()) fun _ => true
  have hall : flatnonzero (xs.map fun _ => ()) (fun _ => true) = List.range xs.length := by
    rw [flatnonzero, List.length_map, List.filter_eq_self]
    intro i hi
    simpa using hi
  rw [hall] at h
  simpa using h

/-- Reading at every index in some order rearranges the entries. -/
theorem gather_perm {xs : List α} {indices : List ℕ} (h : indices.Perm (List.range xs.length)) :
    (gather xs indices).Perm xs := by
  have hp : (gather xs indices).Perm (gather xs (List.range xs.length)) := h.filterMap _
  rwa [gather_range] at hp

theorem length_cumsum (total : ℤ) (xs : List ℤ) : (cumsum total xs).length = xs.length := by
  induction xs generalizing total with
  | nil => rfl
  | cons x xs ih => rw [cumsum, List.length_cons, ih, List.length_cons]

/-- Running sums of positive numbers are positive. -/
theorem pos_of_mem_cumsum {total : ℤ} {xs : List ℤ} (ht : 0 ≤ total) (h : ∀ x ∈ xs, 0 < x) :
    ∀ c ∈ cumsum total xs, 0 < c := by
  induction xs generalizing total with
  | nil => exact fun c hc => absurd hc List.not_mem_nil
  | cons x xs ih =>
    obtain ⟨hx,hxs⟩ := List.forall_mem_cons.mp h
    exact List.forall_mem_cons.mpr ⟨by omega,ih (by omega) hxs⟩

/-- Running sums of positive numbers stay between the start and the sum of all. -/
theorem bounds_of_mem_cumsum {total : ℤ} {xs : List ℤ} (h : ∀ x ∈ xs, 0 < x) :
    ∀ c ∈ cumsum total xs, total < c ∧ c ≤ total + xs.sum := by
  induction xs generalizing total with
  | nil => exact fun c hc => absurd hc List.not_mem_nil
  | cons x xs ih =>
    obtain ⟨hx,hxs⟩ := List.forall_mem_cons.mp h
    have hsum : 0 ≤ xs.sum := List.sum_nonneg fun y hy => (hxs y hy).le
    rw [List.sum_cons]
    refine List.forall_mem_cons.mpr ⟨⟨by omega,by omega⟩,fun c hc => ?_⟩
    have hc' := ih hxs c hc
    exact ⟨by omega,by omega⟩

theorem cumsum_pairwise {total : ℤ} {xs : List ℤ} (h : ∀ x ∈ xs, 0 < x) : (cumsum total xs).Pairwise (· < ·) := by
  induction xs generalizing total with
  | nil => exact List.Pairwise.nil
  | cons x xs ih =>
    obtain ⟨-,hxs⟩ := List.forall_mem_cons.mp h
    exact List.pairwise_cons.mpr ⟨fun c hc => (bounds_of_mem_cumsum hxs c hc).1,ih hxs⟩

/-- The last running sum is the sum. -/
theorem cumsum_getLastD (total : ℤ) {xs : List ℤ} (h : xs ≠ []) (d : ℤ) :
    (cumsum total xs).getLastD d = total + xs.sum := by
  induction xs generalizing total d with
  | nil => exact absurd rfl h
  | cons x xs ih =>
    rw [cumsum, List.getLastD_cons, List.sum_cons]
    cases xs with
    | nil => simp [cumsum]
    | cons y ys =>
      rw [ih (total + x) (List.cons_ne_nil _ _)]
      omega

end UnlearnShield.Arrays
