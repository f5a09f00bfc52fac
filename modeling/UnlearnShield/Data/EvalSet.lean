import UnlearnShield.Library.Ranks

/-! # Scoring a model: the area under the ROC curve

`auc` ranks all rows by score, gives tied rows the mean of their ranks, and reads the
area off the sum of the ranks of the positives. Scores are rational; rounding is left out.
-/
namespace UnlearnShield.EvalSet
open Arrays

section Masks
variable {α β : Type}

/-- `xs[mask]`. -/
def select (mask : List Bool) (xs : List α) : List α := gather xs (flatnonzero mask id)

theorem select_map (p : α → Bool) (f : α → β) (rows : List α) :
    select (rows.map p) (rows.map f) = (rows.filter p).map f := by
  unfold select
  rw [gather_map, gather_flatnonzero]
  rfl

theorem select_cons (b : Bool) {mask : List Bool} (x : α) {xs : List α} (h : mask.length = xs.length) :
    select (b :: mask) (x :: xs) = if b then x :: select mask xs else select mask xs := by
  have htail := select_map Prod.fst Prod.snd (mask.zip xs)
  have hall := select_map Prod.fst Prod.snd ((b,x) :: mask.zip xs)
  rw [List.map_fst_zip (by omega), List.map_snd_zip (by omega)] at htail
  rw [List.map_cons, List.map_cons, List.map_fst_zip (by omega), List.map_snd_zip (by omega)] at hall
  rw [hall, htail]
  cases b <;> rfl

theorem select_not (p : α → Bool) (f : α → β) (rows : List α) :
    select ((rows.map p).map not) (rows.map f) = (rows.filter fun r => !p r).map f := by
  rw [List.map_map]
  exact select_map _ f rows

end Masks

def mean (xs : List ℚ) : ℚ := xs.sum / xs.length

def tied (yScore : List ℚ) (value : ℚ) : List ℕ := flatnonzero yScore (· = value)

def averageTie (yScore ranks : List ℚ) (value : ℚ) : List ℚ :=
  let tied := tied yScore value
  if 1 < tied.length then scatter ranks tied (List.replicate tied.length (mean (gather ranks tied))) else ranks

def averageTies (yScore ranks : List ℚ) : List ℚ := (unique yScore).foldl (averageTie yScore) ranks

def auc (yTrue : List Bool) (yScore : List ℚ) : ℚ :=
  let pos := select yTrue yScore
  let neg := select (yTrue.map not) yScore
  if pos.length = 0 ∨ neg.length = 0 then 1 / 2
  else
    let order := argsort yScore
    let ranks := scatter (List.replicate yScore.length 0) order ((List.range' 1 yScore.length).map Nat.cast)
    let averaged := averageTies yScore ranks
    let rankSumPos := (select yTrue averaged).sum
    (rankSumPos - pos.length * (pos.length + 1) / 2) / (pos.length * neg.length)

section Ties
variable {scores : List ℚ}

theorem mem_tied {i : ℕ} {v : ℚ} : i ∈ tied scores v ↔ scores[i]? = some v := by
  unfold tied
  rw [mem_flatnonzero]
  simp

@[simp] theorem length_averageTie (ranks : List ℚ) (v : ℚ) : (averageTie scores ranks v).length = ranks.length := by
  unfold averageTie
  dsimp only
  split
  · exact length_scatter ..
  · rfl

theorem length_foldl_averageTie (values ranks : List ℚ) :
    (values.foldl (averageTie scores) ranks).length = ranks.length := by
  induction values generalizing ranks with
  | nil => rfl
  | cons v values ih => rw [List.foldl_cons, ih, length_averageTie]

/-- The positions of the value get their mean, the others stay. -/
theorem getElem?_averageTie {ranks : List ℚ} (hlen : ranks.length = scores.length) {i : ℕ} {v : ℚ}
    (hi : scores[i]? = some v) (w : ℚ) : (averageTie scores ranks w)[i]? =
      if v = w then some (mean (gather ranks (tied scores w))) else ranks[i]? := by
  obtain ⟨hlt,-⟩ := List.getElem?_eq_some_iff.mp hi
  unfold averageTie
  dsimp only
  by_cases hvw : v = w
  · subst hvw
    have hm := mem_tied.mpr hi
    rw [if_pos rfl]
    split
    · have hvalues : (tied scores v).length =
          (List.replicate (tied scores v).length (mean (gather ranks (tied scores v)))).length :=
        List.length_replicate.symm
      obtain ⟨x,hx,hget⟩ := getElem?_scatter_of_mem ranks hm hvalues (by omega)
      rw [hget, List.eq_of_mem_replicate hx]
    · -- a lone position keeps its rank, which is its own mean
      have hsingle : tied scores v = [i] := by
        have hpos := List.length_pos_of_mem hm
        obtain ⟨j,hj⟩ := List.length_eq_one_iff.mp (by omega : (tied scores v).length = 1)
        rw [hj] at hm ⊢
        rw [List.mem_singleton.mp hm]
      have hget : ranks[i]? = some ranks[i] := List.getElem?_eq_getElem (by omega)
      rw [hsingle]
      simp [gather, mean, hget]
  · rw [if_neg hvw]
    have hm : i ∉ tied scores w := fun hm => by
      rw [mem_tied.mp hm, Option.some.injEq] at hi
      exact hvw hi.symm
    split
    · exact getElem?_scatter_of_notMem hm _ _
    · rfl

/-- The loop gives every position of a visited value the mean of the ranks there. -/
theorem getElem?_foldl_averageTie {values ranks : List ℚ} (hlen : ranks.length = scores.length) (hn : values.Nodup)
    {i : ℕ} {v : ℚ} (hi : scores[i]? = some v) : (values.foldl (averageTie scores) ranks)[i]? =
      if v ∈ values then some (mean (gather ranks (tied scores v))) else ranks[i]? := by
  induction values generalizing ranks with
  | nil => rfl
  | cons w values ih =>
    obtain ⟨hw,hn'⟩ := List.nodup_cons.mp hn
    rw [List.foldl_cons, ih (by simp [hlen]) hn']
    by_cases hvw : v = w
    · subst hvw
      rw [if_neg hw, if_pos List.mem_cons_self, getElem?_averageTie hlen hi, if_pos rfl]
    · have hsame : gather (averageTie scores ranks w) (tied scores v) = gather ranks (tied scores v) := by
        apply List.filterMap_congr
        intro j hj
        rw [getElem?_averageTie hlen (mem_tied.mp hj), if_neg hvw]
      rw [getElem?_averageTie hlen hi, if_neg hvw, hsame]
      simp [hvw]

/-- The rank of a value among the scores, ties counted by half. -/
def averageRank (scores : List ℚ) (v : ℚ) : ℚ :=
  scores.countP (fun x => x < v) + ((scores.countP (fun x => x = v) : ℚ) + 1) / 2

/-- Before ties are averaged, the ranks of a value average to its average rank. -/
theorem mean_tied {ranks : List ℚ} (hlen : ranks.length = scores.length)
    (hr : gather ranks (argsort scores) = (List.range' 1 scores.length).map Nat.cast) {v : ℚ} (hv : v ∈ scores) :
    mean (gather ranks (tied scores v)) = averageRank scores v := by
  -- positions with their score and rank, as they stand and in sorted order
  let table := scores.zip ranks
  have hfst : table.map Prod.fst = scores := List.map_fst_zip (by omega)
  have hsnd : table.map Prod.snd = ranks := List.map_snd_zip (by omega)
  have hlt : table.length = scores.length := by simp [table, hlen]
  have hperm : (gather table (argsort scores)).Perm table := gather_perm (hlt ▸ argsort_perm scores)
  have hsorted : ((gather table (argsort scores)).map Prod.fst).Pairwise (· ≤ ·) := by
    rw [← gather_map, hfst]
    exact gather_argsort_pairwise scores
  have hranks : (gather table (argsort scores)).map Prod.snd =
      (List.range' (0+1) (gather table (argsort scores)).length).map Nat.cast := by
    rw [← gather_map, hsnd, hr, hperm.length_eq, hlt]
  have hgather : gather ranks (tied scores v) = (table.filter fun e => e.1 = v).map Prod.snd := by
    have h := select_map (fun e : ℚ × ℚ => decide (e.1 = v)) Prod.snd table
    rw [hsnd] at h
    rw [← h, select, tied, ← hfst, flatnonzero_map, flatnonzero_map]
    rfl
  have hcount : ∀ p : ℚ → Bool, (gather table (argsort scores)).countP (fun e => p e.1) = scores.countP p := by
    intro p
    rw [hperm.countP_eq, ← hfst, List.countP_map]
    rfl
  have hsum := sum_positions hsorted hranks v
  rw [((hperm.filter _).map Prod.snd).sum_eq, hcount (fun x => decide (x = v)),
    hcount (fun x => decide (x < v))] at hsum
  have hlength : (gather ranks (tied scores v)).length = scores.countP (fun x => x = v) := by
    rw [hgather, List.length_map, ← List.countP_eq_length_filter, ← hfst, List.countP_map]
    rfl
  have hpos : (0 : ℚ) < scores.countP (fun x => x = v) := by
    exact_mod_cast List.countP_pos_iff.mpr ⟨v,hv,by simp⟩
  rw [mean, hlength, hgather, hsum, averageRank]
  field_simp
  push_cast
  ring

/-- After the loop every row carries the average rank of its score. -/
theorem averageTies_eq {ranks : List ℚ} (hlen : ranks.length = scores.length)
    (hr : gather ranks (argsort scores) = (List.range' 1 scores.length).map Nat.cast) :
    averageTies scores ranks = scores.map (averageRank scores) := by
  apply List.ext_getElem?
  intro i
  rw [List.getElem?_map]
  unfold averageTies
  cases hi : scores[i]? with
  | none =>
    rw [List.getElem?_eq_none]
    · rfl
    · rw [length_foldl_averageTie, hlen]
      exact List.getElem?_eq_none_iff.mp hi
  | some v =>
    have hv := List.mem_of_getElem? hi
    rw [getElem?_foldl_averageTie hlen (nodup_unique scores) hi, if_pos (mem_unique.mpr hv), mean_tied hlen hr hv]
    rfl

/-- Average ranks are counts of pairs. -/
theorem sum_averageRank (pos : List ℚ) : (pos.map (averageRank scores)).sum =
    pairs (fun x y => y < x) pos scores + ((pairs (fun x y => y = x) pos scores : ℚ) + pos.length) / 2 := by
  induction pos with
  | nil => simp
  | cons x pos ih =>
    rw [List.map_cons, List.sum_cons, ih, pairs_cons, pairs_cons, averageRank, List.length_cons]
    push_cast
    ring

/-- The ranks of the positives exceed those they have among themselves by the pairs they win. -/
theorem sum_averageRank_append (pos neg : List ℚ) (h : scores.Perm (pos ++ neg)) :
    (pos.map (averageRank scores)).sum - pos.length * (pos.length + 1) / 2 =
      pairs (fun x y => y < x) pos neg + (pairs (fun x y => y = x) pos neg : ℚ) / 2 := by
  have hself : 2 * (pairs (fun x y => y < x) pos pos : ℚ) + pairs (fun x y => y = x) pos pos =
      pos.length * pos.length := by exact_mod_cast pairs_self pos
  rw [sum_averageRank, pairs_perm (List.Perm.refl pos) h, pairs_perm (List.Perm.refl pos) h, pairs_append_right,
    pairs_append_right]
  push_cast
  linear_combination hself / 2

end Ties

def scoresOf (label : Bool) (rows : List (Bool × ℚ)) : List ℚ := (rows.filter fun r => r.1 = label).map Prod.snd

/-- The share of pairs of a positive and a negative that the positive wins, a tie counting half. -/
def winRate (pos neg : List ℚ) : ℚ :=
  (pairs (fun p q => q < p) pos neg + (pairs (fun p q => q = p) pos neg : ℚ) / 2) / (pos.length * neg.length)

theorem auc_rows (rows : List (Bool × ℚ)) : auc (rows.map Prod.fst) (rows.map Prod.snd) =
    if scoresOf true rows = [] ∨ scoresOf false rows = [] then 1 / 2
    else winRate (scoresOf true rows) (scoresOf false rows) := by
  have hpos : select (rows.map Prod.fst) (rows.map Prod.snd) = scoresOf true rows := by
    rw [select_map, scoresOf]
    simp
  have hneg : select ((rows.map Prod.fst).map not) (rows.map Prod.snd) = scoresOf false rows := by
    rw [select_not, scoresOf]
    simp
  unfold auc
  dsimp only
  rw [hpos, hneg]
  simp only [List.length_eq_zero_iff]
  split
  · rfl
  have horder := argsort_perm (rows.map Prod.snd)
  have hranks : gather (scatter (List.replicate (rows.map Prod.snd).length (0 : ℚ)) (argsort (rows.map Prod.snd))
      ((List.range' 1 (rows.map Prod.snd).length).map Nat.cast)) (argsort (rows.map Prod.snd)) =
      (List.range' 1 (rows.map Prod.snd).length).map Nat.cast := by
    apply gather_scatter
    · exact horder.nodup_iff.mpr List.nodup_range
    · simp [horder.length_eq]
    · intro i hi
      simpa using horder.mem_iff.mp hi
  rw [averageTies_eq (by simp) hranks, List.map_map, select_map]
  have hrankSum : (rows.filter Prod.fst).map (averageRank (rows.map Prod.snd) ∘ Prod.snd) =
      (scoresOf true rows).map (averageRank (rows.map Prod.snd)) := by
    rw [scoresOf, List.map_map]
    simp
  have hsplit : (rows.map Prod.snd).Perm (scoresOf true rows ++ scoresOf false rows) := by
    unfold scoresOf
    rw [← List.map_append]
    refine List.Perm.map _ ?_
    simpa using (List.filter_append_perm (fun r : Bool × ℚ => r.1) rows).symm
  rw [hrankSum, sum_averageRank_append _ _ hsplit, winRate]

theorem scoresOf_perm {rows rows' : List (Bool × ℚ)} (h : rows'.Perm rows) (label : Bool) :
    (scoresOf label rows').Perm (scoresOf label rows) := (h.filter _).map _

theorem auc_perm {rows rows' : List (Bool × ℚ)} (h : rows'.Perm rows) :
    auc (rows'.map Prod.fst) (rows'.map Prod.snd) = auc (rows.map Prod.fst) (rows.map Prod.snd) := by
  have ht := scoresOf_perm h true
  have hf := scoresOf_perm h false
  have hnil : ∀ {l l' : List ℚ}, l'.Perm l → (l' = [] ↔ l = []) := fun hp =>
    ⟨fun he => List.nil_perm.mp (he ▸ hp),fun he => List.perm_nil.mp (he ▸ hp)⟩
  rw [auc_rows, auc_rows]
  simp only [hnil ht, hnil hf]
  unfold winRate
  rw [pairs_perm ht hf, pairs_perm ht hf, ht.length_eq, hf.length_eq]

/-- `auc` is the pairwise win rate, a half when a class is absent, and does not depend on the
order of the rows. -/
theorem auc_eq_winRate (labels : List Bool) (scores : List ℚ) (h : labels.length = scores.length) :
    auc labels scores = (if scoresOf true (labels.zip scores) = [] ∨ scoresOf false (labels.zip scores) = [] then 1 / 2
      else winRate (scoresOf true (labels.zip scores)) (scoresOf false (labels.zip scores))) ∧
    ∀ labels' scores', labels'.length = scores'.length → (labels'.zip scores').Perm (labels.zip scores) →
      auc labels' scores' = auc labels scores := by
  have hrows : ∀ (labels : List Bool) (scores : List ℚ), labels.length = scores.length → auc labels scores =
      if scoresOf true (labels.zip scores) = [] ∨ scoresOf false (labels.zip scores) = [] then 1 / 2
      else winRate (scoresOf true (labels.zip scores)) (scoresOf false (labels.zip scores)) := by
    intro labels scores h
    have hr := auc_rows (labels.zip scores)
    rwa [List.map_fst_zip (by omega), List.map_snd_zip (by omega)] at hr
  refine ⟨hrows labels scores h,fun labels' scores' h' hperm => ?_⟩
  have hauc := auc_perm hperm
  rwa [List.map_fst_zip (by omega), List.map_snd_zip (by omega), List.map_fst_zip (by omega),
    List.map_snd_zip (by omega)] at hauc

/-- Two positives against two negatives with a tie across the classes: 3 wins and a half of 4 pairs. -/
theorem auc_eq_winRate_sample : auc [true, false, true, false] [3, 1, 1, 0] = 7 / 8 := by
  have h := (auc_eq_winRate [true, false, true, false] [3, 1, 1, 0] rfl).1
  rw [h]
  decide +kernel

end UnlearnShield.EvalSet
