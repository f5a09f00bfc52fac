import UnlearnShield.Library.Arrays

/-! # Ranks

Sorting positions by value, and counting pairs. A value's average rank is the number
of smaller entries plus half of one more than the number of equal ones, and the
average ranks of a list against itself add up to a triangular number.
-/
namespace UnlearnShield.Arrays
variable {α β : Type}

/-- `np.argsort` with a stable sort. -/
def argsort [LinearOrder α] (xs : List α) : List ℕ :=
  (((List.range xs.length).zip xs).insertionSort fun a b => a.2 ≤ b.2).map Prod.fst

def unique [LinearOrder α] (xs : List α) : List α := xs.dedup.insertionSort (· ≤ ·)

section Argsort
variable [LinearOrder α]

theorem mem_unique {xs : List α} {x : α} : x ∈ unique xs ↔ x ∈ xs := by simp [unique]

theorem nodup_unique (xs : List α) : (unique xs).Nodup :=
  (List.perm_insertionSort _ _).nodup_iff.mpr (List.nodup_dedup xs)

theorem argsort_perm (xs : List α) : (argsort xs).Perm (List.range xs.length) := by
  unfold argsort
  refine ((List.perm_insertionSort _ _).map Prod.fst).trans ?_
  rw [List.map_fst_zip (by simp)]

/-- Read in the order of `argsort`, a list is sorted. -/
theorem gather_argsort_pairwise (xs : List α) : (gather xs (argsort xs)).Pairwise (· ≤ ·) := by
  let le : ℕ × α → ℕ × α → Prop := fun a b => a.2 ≤ b.2
  have htotal : Std.Total le := ⟨fun a b => le_total a.2 b.2⟩
  have htrans : IsTrans _ le := ⟨fun _ _ _ => le_trans⟩
  have hsorted := List.pairwise_insertionSort (fun a b : ℕ × α => a.2 ≤ b.2) ((List.range xs.length).zip xs)
  unfold gather argsort
  rw [List.filterMap_map, List.pairwise_filterMap]
  refine hsorted.imp_of_mem ?_
  intro e e' he he' hle a ha b hb
  have hkey : ∀ e ∈ (List.range xs.length).zip xs, xs[e.1]? = some e.2 := by
    intro e he
    obtain ⟨k,hk⟩ := List.mem_iff_getElem?.mp he
    obtain ⟨hi,hx⟩ := List.getElem?_zip_eq_some.mp hk
    obtain ⟨hlt,hik⟩ := List.getElem?_eq_some_iff.mp hi
    rw [List.getElem_range] at hik
    rwa [← hik]
  have hea := hkey e ((List.perm_insertionSort _ _).mem_iff.mp he)
  have heb := hkey e' ((List.perm_insertionSort _ _).mem_iff.mp he')
  simp only [Function.comp_apply, hea, heb, Option.some.injEq] at ha hb
  rw [← ha, ← hb]
  exact hle

/-- Reading rows in the order of a key is sorting them by it. -/
theorem gather_argsort (rows : List β) (key : β → α) :
    gather rows (argsort (rows.map key)) = rows.insertionSort fun a b => key a ≤ key b := by
  let table := (List.range rows.length).zip rows
  have hzip : (List.range (rows.map key).length).zip (rows.map key) = table.map fun e => (e.1,key e.2) := by
    rw [List.length_map, List.zip_map_right]
    rfl
  have hsort : argsort (rows.map key) = (table.insertionSort fun a b => key a.2 ≤ key b.2).map Prod.fst := by
    have hmap := List.map_insertionSort (fun a b : ℕ × β => key a.2 ≤ key b.2) (fun a b : ℕ × α => a.2 ≤ b.2)
      (fun e : ℕ × β => (e.1,key e.2)) table fun _ _ _ _ => Iff.rfl
    rw [argsort, hzip, ← hmap, List.map_map]
    rfl
  have hread : ∀ e ∈ table.insertionSort fun a b => key a.2 ≤ key b.2, rows[e.1]? = some e.2 := by
    intro e he
    obtain ⟨k,hk⟩ := List.mem_iff_getElem?.mp ((List.perm_insertionSort _ _).mem_iff.mp he)
    obtain ⟨hi,hx⟩ := List.getElem?_zip_eq_some.mp hk
    obtain ⟨hlt,hik⟩ := List.getElem?_eq_some_iff.mp hi
    rw [List.getElem_range] at hik
    rwa [← hik]
  rw [hsort, gather_of_getElem? hread]
  have hmap := List.map_insertionSort (fun a b : ℕ × β => key a.2 ≤ key b.2) (fun a b : β => key a ≤ key b)
    Prod.snd table fun _ _ _ _ => Iff.rfl
  rw [hmap, List.map_snd_zip (by simp)]

end Argsort

def pairs (p : α → β → Bool) (xs : List α) (ys : List β) : ℕ := (xs.map fun x => ys.countP (p x)).sum

@[simp] theorem pairs_nil (p : α → β → Bool) (ys : List β) : pairs p [] ys = 0 := rfl

theorem pairs_cons (p : α → β → Bool) (x : α) (xs : List α) (ys : List β) :
    pairs p (x :: xs) ys = ys.countP (p x) + pairs p xs ys := rfl

theorem pairs_nil_right (p : α → β → Bool) (xs : List α) : pairs p xs [] = 0 := by
  induction xs with
  | nil => rfl
  | cons x xs ih => rw [pairs_cons, ih]; rfl

theorem pairs_cons_right (p : α → β → Bool) (xs : List α) (y : β) (ys : List β) :
    pairs p xs (y :: ys) = xs.countP (fun x => p x y) + pairs p xs ys := by
  induction xs with
  | nil => rfl
  | cons x xs ih =>
    rw [pairs_cons, pairs_cons, ih, List.countP_cons, List.countP_cons]
    omega

/-- Pairs may be counted from either side. -/
theorem pairs_swap (p : α → β → Bool) (xs : List α) (ys : List β) :
    pairs p xs ys = pairs (fun y x => p x y) ys xs := by
  induction ys with
  | nil => exact pairs_nil_right p xs
  | cons y ys ih => rw [pairs_cons_right, pairs_cons, ih]

theorem pairs_append_right (p : α → β → Bool) (xs : List α) (ys zs : List β) :
    pairs p xs (ys ++ zs) = pairs p xs ys + pairs p xs zs := by
  induction xs with
  | nil => rfl
  | cons x xs ih =>
    rw [pairs_cons, pairs_cons, pairs_cons, ih, List.countP_append]
    omega

theorem pairs_perm {p : α → β → Bool} {xs xs' : List α} {ys ys' : List β} (hx : xs.Perm xs') (hy : ys.Perm ys') :
    pairs p xs ys = pairs p xs' ys' := by
  unfold pairs
  rw [(hx.map fun x => ys.countP (p x)).sum_eq]
  simp only [hy.countP_eq]

/-- A pair of entries of one list is in one order, in the other, or tied. -/
theorem pairs_self [LinearOrder α] (xs : List α) :
    2 * pairs (fun x y => y < x) xs xs + pairs (fun x y => y = x) xs xs = xs.length * xs.length := by
  have hone : ∀ x, xs.countP (fun y => y < x) + xs.countP (fun y => y = x) + xs.countP (fun y => x < y) =
    xs.length := by
    intro x
    induction xs with
    | nil => rfl
    | cons y ys ih =>
      simp only [List.countP_cons, List.length_cons, decide_eq_true_eq]
      rcases lt_trichotomy y x with h | h | h
      · simp [h, h.ne, h.not_gt]
        omega
      · simp [h]
        omega
      · simp [h, h.ne', h.not_gt]
        omega
  have hall : ∀ l : List α, pairs (fun x y => y < x) l xs + pairs (fun x y => y = x) l xs +
      pairs (fun x y => x < y) l xs = l.length * xs.length := by
    intro l
    induction l with
    | nil => simp
    | cons x l ih =>
      rw [pairs_cons, pairs_cons, pairs_cons, List.length_cons, Nat.succ_mul, ← ih, ← hone x]
      omega
  have hswap : pairs (fun x y => x < y) xs xs = pairs (fun x y => y < x) xs xs := pairs_swap _ xs xs
  have htotal := hall xs
  omega

/-- In a sorted list the positions of a value are those after every smaller entry; their
numbers, counted from `k + 1`, add up to the number of them times their average. -/
theorem sum_positions [LinearOrder α] {l : List (α × ℚ)} {k : ℕ} (hs : (l.map Prod.fst).Pairwise (· ≤ ·))
    (hr : l.map Prod.snd = (List.range' (k+1) l.length).map Nat.cast) (v : α) :
    ((l.filter fun e => e.1 = v).map Prod.snd).sum =
      (l.countP (fun e => e.1 = v) : ℚ) *
        (k + l.countP (fun e => e.1 < v) + ((l.countP (fun e => e.1 = v) : ℚ) + 1) / 2) := by
  induction l generalizing k with
  | nil => simp
  | cons e l ih =>
    obtain ⟨hhead,hs'⟩ := List.pairwise_cons.mp hs
    rw [List.length_cons, List.map_cons, List.range'_succ, List.map_cons] at hr
    obtain ⟨hk,hr'⟩ := List.cons.inj hr
    have ih' := ih hs' hr'
    have hge : ∀ e' ∈ l, e.1 ≤ e'.1 := fun e' he' => hhead _ (List.mem_map_of_mem he')
    rcases lt_trichotomy e.1 v with h | h | h
    · simp only [List.filter_cons, List.countP_cons, decide_eq_true_eq, h, h.ne, ↓reduceIte, ih']
      push_cast
      ring
    · have hnone : l.countP (fun e => e.1 < v) = 0 := by
        rw [List.countP_eq_zero]
        intro e' he'
        have hle := hge e' he'
        rw [h] at hle
        simpa using hle
      rw [hnone] at ih'
      simp only [List.filter_cons, List.countP_cons, decide_eq_true_eq, h, lt_irrefl, ↓reduceIte, List.map_cons,
        List.sum_cons, ih', hk, hnone]
      push_cast
      ring
    · have hnone : l.countP (fun e => e.1 = v) = 0 := by
        rw [List.countP_eq_zero]
        intro e' he'
        simpa using (h.trans_le (hge e' he')).ne'
      have hnil : l.filter (fun e => e.1 = v) = [] := by
        rw [← List.length_eq_zero_iff, ← List.countP_eq_length_filter]
        exact hnone
      simp [List.countP_cons, h.ne', hnone, hnil]

end UnlearnShield.Arrays
