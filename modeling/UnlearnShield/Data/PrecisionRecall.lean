import UnlearnShield.Data.EvalSet

/-! # Scoring a model: precision and recall

`average_precision` and `precision_at_recall` walk the rows from the highest score down and
take a new threshold at every row. A threshold lies between two scores, so rows with one
score cross it together: whether the walk tells them apart is decided here.
-/
namespace UnlearnShield.EvalSet
open Arrays

/-- `np.searchsorted` on sorted values: the entries before the first that is not smaller. -/
def searchsorted (xs : List ℤ) (v : ℤ) : ℕ := (xs.takeWhile fun x => decide (x < v)).length

/-- The labels, highest score first; the sort is stable. -/
def hitsOf (yTrue : List Bool) (yScore : List ℚ) : List Bool := gather yTrue (argsort (yScore.map fun s => -s))

def truePositives (hits : List Bool) : List ℤ := cumsum 0 (hits.map Bool.toInt)

def averagePrecision (yTrue : List Bool) (yScore : List ℚ) : ℚ :=
  let nPos := yTrue.count true
  if nPos = 0 then 0
  else
    let hits := hitsOf yTrue yScore
    let tp := truePositives hits
    let precision := List.zipWith (fun (t : ℤ) (rank : ℕ) => (t : ℚ) / rank) tp (List.range' 1 hits.length)
    (select hits precision).sum / nPos

structure PrecisionAtRecall where
  recallTarget : ℚ
  precision : ℚ
  alertsPerCatch : Option ℚ
  flagged : ℕ
  flaggedFraction : ℚ
deriving DecidableEq

def precisionAtRecall (yTrue : List Bool) (yScore : List ℚ) (target : ℚ) : PrecisionAtRecall :=
  let nPos := yTrue.count true
  if nPos = 0 then ⟨target,0,none,0,0⟩
  else
    let hits := hitsOf yTrue yScore
    let tp := truePositives hits
    let k := min (searchsorted tp ⌈target * nPos⌉ + 1) hits.length
    let precision : ℚ := (tp.getD (k-1) 0 : ℚ) / k
    ⟨target,precision,if 0 < precision then some (1 / precision) else none,k,(k : ℚ) / hits.length⟩

structure Metrics where
  rocAuc : ℚ
  averagePrecision : ℚ
  precisionAtRecall50 : PrecisionAtRecall
  precisionAtRecall80 : PrecisionAtRecall
deriving DecidableEq

def metrics (yTrue : List Bool) (yScore : List ℚ) : Metrics :=
  ⟨auc yTrue yScore,averagePrecision yTrue yScore,precisionAtRecall yTrue yScore (1 / 2),
    precisionAtRecall yTrue yScore (4 / 5)⟩

section Threshold
variable (rows : List (Bool × ℚ))

def precisionAbove (v : ℚ) : ℚ := rows.countP (fun r => r.1 && decide (v ≤ r.2)) / rows.countP fun r => v ≤ r.2

def recallGained (v : ℚ) : ℚ := rows.count (true,v) / rows.countP Prod.fst

def stepInterpolated : ℚ := ((unique (rows.map Prod.snd)).map fun v => precisionAbove rows v * recallGained rows v).sum

/-- A score is shared by rows of one label only, and by positives only above every negative. -/
def TiesSettled : Prop :=
  (∀ v, (true,v) ∈ rows → (false,v) ∉ rows) ∧ ∀ v, 2 ≤ rows.count (true,v) → ∀ w, (false,w) ∈ rows → w < v

def Descending : Prop := rows.Pairwise fun a b => b.2 ≤ a.2

def sortDescending : List (Bool × ℚ) := rows.insertionSort fun a b => -a.2 ≤ -b.2

end Threshold

/-- The sum of the precisions at the positives, `t` positives among `k` rows being behind. -/
def gain : ℤ → ℕ → List Bool → ℚ
  | _, _, [] => 0
  | t, k, b :: hits => (if b then ((t : ℚ) + 1) / ((k : ℚ) + 1) else 0) + gain (t + b.toInt) (k+1) hits

section Walk

theorem sum_select_precision (t : ℤ) (k : ℕ) (hits : List Bool) :
    (select hits (List.zipWith (fun (t : ℤ) (rank : ℕ) => (t : ℚ) / rank) (cumsum t (hits.map Bool.toInt))
      (List.range' (k+1) hits.length))).sum = gain t k hits := by
  induction hits generalizing t k with
  | nil => rfl
  | cons b hits ih =>
    have hlen : hits.length = (List.zipWith (fun (t : ℤ) (rank : ℕ) => (t : ℚ) / rank)
        (cumsum (t + b.toInt) (hits.map Bool.toInt)) (List.range' (k+1+1) hits.length)).length := by
      simp [length_cumsum]
    rw [List.map_cons, cumsum, List.length_cons, List.range'_succ, List.zipWith_cons_cons,
      select_cons b _ hlen, gain, ← ih]
    cases b <;> simp

theorem gain_append (t : ℤ) (k : ℕ) (xs ys : List Bool) :
    gain t k (xs ++ ys) = gain t k xs + gain (t + xs.count true) (k + xs.length) ys := by
  induction xs generalizing t k with
  | nil => simp [gain]
  | cons b xs ih =>
    have hcount : t + b.toInt + xs.count true = t + (b :: xs).count true := by
      have hunit : b.toInt = if b = true then 1 else 0 := by cases b <;> rfl
      rw [List.count_cons, hunit]
      push_cast
      simp only [beq_iff_eq]
      ring
    have hlength : k + 1 + xs.length = k + (b :: xs).length := by
      rw [List.length_cons]
      omega
    rw [List.cons_append, gain, gain, ih, hcount, hlength, add_assoc]

theorem hitsOf_rows (rows : List (Bool × ℚ)) :
    hitsOf (rows.map Prod.fst) (rows.map Prod.snd) = (sortDescending rows).map Prod.fst := by
  rw [hitsOf, gather_map, List.map_map]
  exact congrArg _ (gather_argsort rows fun r => -r.2)

theorem sortDescending_perm (rows : List (Bool × ℚ)) : (sortDescending rows).Perm rows := List.perm_insertionSort _ _

theorem descending_sortDescending (rows : List (Bool × ℚ)) : Descending (sortDescending rows) := by
  have htotal : Std.Total fun a b : Bool × ℚ => -a.2 ≤ -b.2 := ⟨fun a b => le_total (-a.2) (-b.2)⟩
  have htrans : IsTrans (Bool × ℚ) fun a b => -a.2 ≤ -b.2 := ⟨fun _ _ _ => le_trans⟩
  exact (List.pairwise_insertionSort (fun a b : Bool × ℚ => -a.2 ≤ -b.2) rows).imp fun h => neg_le_neg_iff.mp h

theorem averagePrecision_rows (rows : List (Bool × ℚ)) : averagePrecision (rows.map Prod.fst) (rows.map Prod.snd) =
    if rows.countP Prod.fst = 0 then 0 else gain 0 0 ((sortDescending rows).map Prod.fst) / rows.countP Prod.fst := by
  have hcount : (rows.map Prod.fst).count true = rows.countP Prod.fst := by
    simp [List.count, List.countP_map, Function.comp_def]
  unfold averagePrecision
  dsimp only
  rw [hcount, hitsOf_rows, truePositives, sum_select_precision]

end Walk

section Ties

/-- A positive among `k` rows of which `c` are positive gains precision from the `e` positives tied
with it, unless there are none or nothing but positives so far. -/
theorem rank_le_tie {c k : ℕ} (e : ℕ) (h : c ≤ k) :
    ((c : ℚ) + 1) / ((k : ℚ) + 1) ≤ (c + 1 + e : ℕ) / (k + 1 + e : ℕ) ∧
      (((c : ℚ) + 1) / ((k : ℚ) + 1) = (c + 1 + e : ℕ) / (k + 1 + e : ℕ) ↔ e = 0 ∨ c = k) := by
  have hck : (c : ℚ) ≤ k := by exact_mod_cast h
  have hk : (0 : ℚ) < (k : ℚ) + 1 := by positivity
  have hke : (0 : ℚ) < (k + 1 + e : ℕ) := by positivity
  have hdiff : (((c + 1 + e : ℕ) : ℚ)) * ((k : ℚ) + 1) - ((c : ℚ) + 1) * (k + 1 + e : ℕ) = e * (k - c) := by
    push_cast
    ring
  constructor
  · rw [div_le_div_iff₀ hk hke]
    have hnonneg : (0 : ℚ) ≤ e * (k - c) := mul_nonneg (Nat.cast_nonneg e) (sub_nonneg.mpr hck)
    linarith
  · rw [div_eq_div_iff hk.ne' hke.ne']
    have hzero : (e : ℚ) * (k - c) = 0 ↔ e = 0 ∨ c = k := by
      rw [mul_eq_zero, sub_eq_zero, Nat.cast_eq_zero]
      exact or_congr Iff.rfl ⟨fun he => by exact_mod_cast he.symm,fun he => by rw [he]⟩
    rw [← hzero]
    constructor <;> intro he <;> linarith

theorem countP_above {pre post : List (Bool × ℚ)} {v : ℚ} (hd : Descending (pre ++ (true,v) :: post)) :
    (∀ r ∈ pre, v ≤ r.2) ∧ ∀ r ∈ post, r.2 ≤ v := by
  obtain ⟨-,hpost,hcross⟩ := List.pairwise_append.mp hd
  exact ⟨fun r hr => hcross r hr _ List.mem_cons_self,(List.pairwise_cons.mp hpost).1⟩

/-- The rows tied with a positive are positives that follow it, when it is the first of them. -/
theorem precisionAbove_split {pre post : List (Bool × ℚ)} {v : ℚ} (hd : Descending (pre ++ (true,v) :: post))
    (hp : (false,v) ∉ pre ++ (true,v) :: post) : precisionAbove (pre ++ (true,v) :: post) v =
      (pre.countP Prod.fst + 1 + post.countP (fun r => r.2 = v) : ℕ) /
        (pre.length + 1 + post.countP (fun r => r.2 = v) : ℕ) := by
  obtain ⟨hpre,hpost⟩ := countP_above hd
  have hall : pre.countP (fun r => v ≤ r.2) = pre.length := by
    rw [List.countP_eq_length]
    simpa using hpre
  have hhits : pre.countP (fun r => r.1 && decide (v ≤ r.2)) = pre.countP Prod.fst := by
    refine List.countP_congr fun r hr => ?_
    simp [hpre r hr]
  have htied : post.countP (fun r => v ≤ r.2) = post.countP fun r => r.2 = v := by
    refine List.countP_congr fun r hr => ?_
    have := hpost r hr
    simp only [decide_eq_true_eq]
    exact ⟨fun h => le_antisymm this h,fun h => h.ge⟩
  have htiedhits : post.countP (fun r => r.1 && decide (v ≤ r.2)) = post.countP fun r => r.2 = v := by
    refine List.countP_congr fun r hr => ?_
    have := hpost r hr
    simp only [Bool.and_eq_true, decide_eq_true_eq]
    refine ⟨fun h => le_antisymm this h.2,fun h => ⟨?_,h.ge⟩⟩
    by_contra hneg
    refine hp (List.mem_append_right _ (List.mem_cons_of_mem _ ?_))
    have hr' : r = (false,v) := Prod.ext (Bool.eq_false_iff.mpr hneg) h
    exact hr' ▸ hr
  unfold precisionAbove
  rw [List.countP_append, List.countP_append, List.countP_cons_of_pos (by simp),
    List.countP_cons_of_pos (by simp), hall,
    hhits, htied, htiedhits]
  congr 2 <;> omega

/-- A place in a list is its head or a place in its tail. -/
theorem forall_split_cons {α : Type} {x : α} {post : List α} {P : List α → α → List α → Prop} :
    (∀ a r b, x :: post = a ++ r :: b → P a r b) ↔ P [] x post ∧ ∀ a r b, post = a ++ r :: b → P (x :: a) r b := by
  constructor
  · exact fun h => ⟨h [] x post rfl,fun a r b he => h _ r b (congrArg _ he)⟩
  · rintro ⟨hhead,htail⟩ a r b he
    cases a with
    | nil =>
      obtain ⟨rfl,rfl⟩ := List.cons.inj he
      exact hhead
    | cons y a =>
      obtain ⟨rfl,he'⟩ := List.cons.inj he
      exact htail a r b he'

/-- Down a list without mixed ties no positive counts for more than at its threshold, and all of them
count for as much just when no positive below a negative is tied with a later one. -/
theorem gain_le_step {l pre post : List (Bool × ℚ)} (hl : l = pre ++ post) (hd : Descending l)
    (hp : ∀ v, (true,v) ∈ l → (false,v) ∉ l) :
    gain (pre.countP Prod.fst) pre.length (post.map Prod.fst) ≤
      ((post.filter Prod.fst).map fun r => precisionAbove l r.2).sum ∧
      (gain (pre.countP Prod.fst) pre.length (post.map Prod.fst) =
      ((post.filter Prod.fst).map fun r => precisionAbove l r.2).sum ↔
        ∀ a r b, post = a ++ r :: b → r.1 = true → (∀ s ∈ b, s.2 ≠ r.2) ∨ ∀ s ∈ pre ++ a, s.1 = true) := by
  induction post generalizing pre with
  | nil =>
    refine ⟨le_refl _,fun _ a r b h => ?_,fun _ => rfl⟩
    simp at h
  | cons r post ih =>
    obtain ⟨hle,hiff⟩ := ih (show l = (pre ++ [r]) ++ post by simp [hl])
    obtain ⟨label,v⟩ := r
    rw [forall_split_cons]
    have htotal : ((pre.countP Prod.fst : ℕ) : ℤ) + label.toInt = ((pre ++ [(label,v)]).countP Prod.fst : ℕ) := by
      cases label <;> simp [List.countP_append, Bool.toInt]
    have hlength : pre.length + 1 = (pre ++ [(label,v)]).length := by simp
    have htail : (∀ a r b, post = a ++ r :: b → r.1 = true → (∀ s ∈ b, s.2 ≠ r.2) ∨
      ∀ s ∈ pre ++ (label,v) :: a, s.1 = true) ↔
        gain ((pre ++ [(label,v)]).countP Prod.fst : ℕ) (pre ++ [(label,v)]).length (post.map Prod.fst) =
          ((post.filter Prod.fst).map fun r => precisionAbove l r.2).sum := by
      rw [hiff]
      simp only [List.append_assoc, List.cons_append, List.nil_append]
    rw [htail, List.map_cons, gain, htotal, hlength]
    cases label with
    | false =>
      simp only [List.filter_cons, Bool.false_eq_true, ↓reduceIte, zero_add, false_implies, true_and]
      exact ⟨hle,trivial⟩
    | true =>
      subst hl
      have hprec := precisionAbove_split hd (hp v (by simp))
      obtain ⟨hrank,heq⟩ := rank_le_tie (c := pre.countP Prod.fst) (k := pre.length) (post.countP fun r => r.2 = v)
        List.countP_le_length
      rw [← hprec] at hrank heq
      simp only [List.filter_cons, ↓reduceIte, List.map_cons, List.sum_cons, Int.cast_natCast, true_implies]
      refine ⟨add_le_add hrank hle,?_⟩
      rw [add_eq_add_iff_eq_and_eq hrank hle, heq, List.countP_eq_zero, List.countP_eq_length, List.append_nil]
      simp only [decide_eq_true_eq]

/-- A sum over the values of a list is one over its distinct values. -/
theorem sum_mul_count {values xs : List ℚ} (hn : values.Nodup) (h : ∀ x ∈ xs, x ∈ values) (f : ℚ → ℚ) :
    (values.map fun v => f v * xs.count v).sum = (xs.map f).sum := by
  rw [← List.sum_toFinset _ hn, Finset.sum_list_map_count]
  have hsub : xs.toFinset ⊆ values.toFinset := fun x hx => List.mem_toFinset.mpr (h x (List.mem_toFinset.mp hx))
  have hout : ∀ v ∈ values.toFinset, v ∉ xs.toFinset → f v * xs.count v = 0 := by
    intro v _ hv
    rw [List.count_eq_zero_of_not_mem (fun hin => hv (List.mem_toFinset.mpr hin))]
    simp
  rw [← Finset.sum_subset hsub hout]
  refine Finset.sum_congr rfl fun v _ => ?_
  rw [nsmul_eq_mul, mul_comm]

theorem stepInterpolated_eq (rows : List (Bool × ℚ)) :
    stepInterpolated rows = ((rows.filter Prod.fst).map fun r => precisionAbove rows r.2).sum /
      rows.countP Prod.fst := by
  have hcount : ∀ v, rows.count (true,v) = ((rows.filter Prod.fst).map Prod.snd).count v := by
    intro v
    rw [List.count, List.count, List.countP_map, List.countP_filter]
    refine List.countP_congr fun r _ => ?_
    obtain ⟨label,w⟩ := r
    cases label <;> simp
  have hsub : ∀ x ∈ (rows.filter Prod.fst).map Prod.snd, x ∈ unique (rows.map Prod.snd) := by
    intro x hx
    obtain ⟨r,hr,rfl⟩ := List.mem_map.mp hx
    exact mem_unique.mpr (List.mem_map_of_mem (List.mem_of_mem_filter hr))
  have hsum := sum_mul_count (nodup_unique (rows.map Prod.snd)) hsub (precisionAbove rows)
  rw [List.map_map] at hsum
  unfold stepInterpolated recallGained
  simp only [hcount, div_eq_mul_inv, ← mul_assoc]
  rw [List.sum_map_mul_right, hsum]
  rfl

theorem stepInterpolated_perm {rows rows' : List (Bool × ℚ)} (h : rows'.Perm rows) :
    stepInterpolated rows' = stepInterpolated rows := by
  have habove : precisionAbove rows' = precisionAbove rows := by
    funext v
    rw [precisionAbove, precisionAbove, h.countP_eq, h.countP_eq]
  rw [stepInterpolated_eq, stepInterpolated_eq, habove, h.countP_eq, ((h.filter _).map _).sum_eq]

/-- In a list without mixed ties, sorted down, every positive counts as at its threshold when ties
among positives come before the negatives. -/
theorem settled_iff {l : List (Bool × ℚ)} (hd : Descending l) (hp : ∀ v, (true,v) ∈ l → (false,v) ∉ l) :
    (∀ a r b, l = a ++ r :: b → r.1 = true → (∀ s ∈ b, s.2 ≠ r.2) ∨ ∀ s ∈ a, s.1 = true) ↔
      ∀ v, 2 ≤ l.count (true,v) → ∀ w, (false,w) ∈ l → w < v := by
  constructor
  · intro h v hcount w hw
    obtain ⟨a,b,rfl,hfirst⟩ := List.eq_append_cons_of_mem (List.count_pos_iff.mp (by omega : 0 < l.count (true,v)))
    have hagain : (true,v) ∈ b := by
      rw [List.count_append, List.count_cons_self, List.count_eq_zero_of_not_mem hfirst] at hcount
      exact List.count_pos_iff.mp (by omega)
    obtain ⟨-,hbelow⟩ := countP_above hd
    rcases h a (true,v) b rfl rfl with hlone | hclean
    · exact absurd rfl (hlone _ hagain)
    · have hin : (false,w) ∈ b := by
        rcases List.mem_append.mp hw with hin | hin
        · exact absurd (hclean _ hin) Bool.false_ne_true
        · exact (List.mem_cons.mp hin).resolve_left fun he => Bool.false_ne_true (congrArg Prod.fst he)
      refine lt_of_le_of_ne (hbelow _ hin) ?_
      rintro rfl
      exact hp w (by simp) hw
  · rintro h a ⟨label,v⟩ b rfl hr
    obtain rfl : label = true := hr
    by_cases hlone : ∀ s ∈ b, s.2 ≠ v
    · exact Or.inl hlone
    · right
      simp only [not_forall, not_not] at hlone
      obtain ⟨⟨label,w⟩,hs,rfl⟩ := hlone
      have hpos : label = true := by
        by_contra hneg
        rw [Bool.not_eq_true] at hneg
        subst hneg
        exact hp w (by simp) (by simp [hs])
      subst hpos
      have hcount : 2 ≤ (a ++ (true,w) :: b).count (true,w) := by
        have := List.count_pos_iff.mpr hs
        rw [List.count_append, List.count_cons_self]
        omega
      intro s hin
      by_contra hneg
      rw [Bool.not_eq_true] at hneg
      obtain ⟨habove,-⟩ := countP_above hd
      have hlt := h w hcount s.2 (List.mem_append_left _ (hneg ▸ hin))
      exact absurd (habove s hin) (not_le.mpr hlt)

end Ties

section Order

/-- Swapping a positive behind a negative loses precision. -/
theorem gain_swap_lt (a b : List Bool) : gain 0 0 (a ++ false :: true :: b) < gain 0 0 (a ++ true :: false :: b) := by
  have htrue : true.toInt = 1 := rfl
  have hfalse : false.toInt = 0 := rfl
  rw [gain_append, gain_append]
  simp only [gain, htrue, hfalse, Bool.false_eq_true, ↓reduceIte, zero_add, add_zero, Nat.cast_add, Nat.cast_one,
    Int.cast_natCast]
  have hnum : (0 : ℚ) < (a.count true : ℚ) + 1 := by positivity
  have hlt : ((a.count true : ℚ) + 1) / ((a.length : ℚ) + 1 + 1) < ((a.count true : ℚ) + 1) / ((a.length : ℚ) + 1) :=
    div_lt_div_of_pos_left hnum (by positivity) (by linarith)
  linarith

/-- Two tied rows at the front stay in their order in the sorted list, at a place that does not
depend on their labels. -/
theorem sortDescending_tied (v : ℚ) (rest : List (Bool × ℚ)) : ∃ a b, ∀ x y : Bool,
    sortDescending ((x,v) :: (y,v) :: rest) = a ++ (x,v) :: (y,v) :: b := by
  let above : Bool × ℚ → Bool := fun r => decide ¬-v ≤ -r.2
  refine ⟨(sortDescending rest).takeWhile above,(sortDescending rest).dropWhile above,fun x y => ?_⟩
  have hinsert : ∀ (x : Bool) (rows : List (Bool × ℚ)),
      sortDescending ((x,v) :: rows) = (sortDescending rows).takeWhile above ++ (x,v) ::
        (sortDescending rows).dropWhile above :=
    fun x rows => List.insertionSort_cons_eq_take_drop _ _ _
  have hall : ∀ r ∈ (sortDescending rest).takeWhile above, above r = true := fun r hr => List.mem_takeWhile_imp hr
  have hstop : above (y,v) = false := by simp [above]
  rw [hinsert, hinsert, List.takeWhile_append_of_pos hall, List.dropWhile_append_of_pos hall]
  simp [hstop]

theorem sortDescending_eq {rows rows' : List (Bool × ℚ)} (hp : ∀ v, (true,v) ∈ rows → (false,v) ∉ rows)
    (h : rows'.Perm rows) : sortDescending rows' = sortDescending rows := by
  have hperm := (sortDescending_perm rows').trans (h.trans (sortDescending_perm rows).symm)
  refine List.Perm.eq_of_pairwise ?_ (descending_sortDescending rows') (descending_sortDescending rows) hperm
  rintro ⟨x,v⟩ ⟨y,w⟩ hx hy hle hge
  obtain rfl : v = w := le_antisymm hge hle
  have hx' := h.subset ((sortDescending_perm rows').subset hx)
  have hy' := (sortDescending_perm rows).subset hy
  cases x <;> cases y
  · rfl
  · exact absurd hx' (hp v hy')
  · exact absurd hy' (hp v hx')
  · rfl

theorem precisionAtRecall_eq {rows rows' : List (Bool × ℚ)} (hp : ∀ v, (true,v) ∈ rows → (false,v) ∉ rows)
    (h : rows'.Perm rows) (target : ℚ) : precisionAtRecall (rows'.map Prod.fst) (rows'.map Prod.snd) target =
      precisionAtRecall (rows.map Prod.fst) (rows.map Prod.snd) target := by
  unfold precisionAtRecall
  rw [hitsOf_rows, hitsOf_rows, sortDescending_eq hp h, (h.map Prod.fst).count_eq]

theorem averagePrecision_eq {rows rows' : List (Bool × ℚ)} (hp : ∀ v, (true,v) ∈ rows → (false,v) ∉ rows)
    (h : rows'.Perm rows) : averagePrecision (rows'.map Prod.fst) (rows'.map Prod.snd) =
      averagePrecision (rows.map Prod.fst) (rows.map Prod.snd) := by
  rw [averagePrecision_rows, averagePrecision_rows, sortDescending_eq hp h, h.countP_eq]

/-- Without mixed ties a score shared by positives is above the negatives just when the average
precision is the step-interpolated one. -/
theorem averagePrecision_eq_step_iff {rows : List (Bool × ℚ)} (hp : ∀ v, (true,v) ∈ rows → (false,v) ∉ rows) :
    averagePrecision (rows.map Prod.fst) (rows.map Prod.snd) = stepInterpolated rows ↔
      ∀ v, 2 ≤ rows.count (true,v) → ∀ w, (false,w) ∈ rows → w < v := by
  have hperm := sortDescending_perm rows
  have hp' : ∀ v, (true,v) ∈ sortDescending rows → (false,v) ∉ sortDescending rows := fun v ht hf =>
    hp v (hperm.subset ht) (hperm.subset hf)
  have hwalk := (gain_le_step (show sortDescending rows = [] ++ sortDescending rows from rfl)
    (descending_sortDescending rows) hp').2
  have hsettled := settled_iff (descending_sortDescending rows) hp'
  have hcount : ∀ v, (sortDescending rows).count (true,v) = rows.count (true,v) := fun v => hperm.count_eq _
  have hmem : ∀ w, (false,w) ∈ sortDescending rows ↔ (false,w) ∈ rows := fun w => hperm.mem_iff
  simp only [hcount, hmem] at hsettled
  rw [averagePrecision_rows, ← stepInterpolated_perm hperm, stepInterpolated_eq, hperm.countP_eq]
  split
  · next hzero =>
    simp only [hzero, Nat.cast_zero, div_zero, true_iff]
    intro v hv
    have hpos : 0 < rows.countP Prod.fst :=
      List.countP_pos_iff.mpr ⟨(true,v),List.count_pos_iff.mp (by omega : 0 < rows.count (true,v)),rfl⟩
    omega
  · next hpos =>
    rw [div_left_inj' (by exact_mod_cast hpos)]
    exact hwalk.trans hsettled

/-- A positive and a negative with one score can be put in either order. -/
theorem exists_averagePrecision_ne {rows : List (Bool × ℚ)} {v : ℚ} (ht : (true,v) ∈ rows) (hf : (false,v) ∈ rows) :
    ∃ rows' : List (Bool × ℚ), rows'.Perm rows ∧ averagePrecision (rows'.map Prod.fst) (rows'.map Prod.snd) ≠
      averagePrecision (rows.map Prod.fst) (rows.map Prod.snd) := by
  have hf' : (false,v) ∈ rows.erase (true,v) := by
    rw [List.mem_erase_of_ne (by simp)]
    exact hf
  have hfirst : ((true,v) :: (false,v) :: (rows.erase (true,v)).erase (false,v)).Perm rows :=
    ((List.perm_cons_erase hf').symm.cons _).trans (List.perm_cons_erase ht).symm
  have hsecond := (List.Perm.swap (true,v) (false,v) ((rows.erase (true,v)).erase (false,v))).trans hfirst
  by_contra hnone
  push Not at hnone
  have heq := (hnone _ hfirst).trans (hnone _ hsecond).symm
  obtain ⟨a,b,hsort⟩ := sortDescending_tied v ((rows.erase (true,v)).erase (false,v))
  have hpos : 0 < rows.countP Prod.fst := List.countP_pos_iff.mpr ⟨_,ht,rfl⟩
  rw [averagePrecision_rows, averagePrecision_rows, hfirst.countP_eq, hsecond.countP_eq, if_neg hpos.ne',
    if_neg hpos.ne',
    hsort, hsort, div_left_inj' (by exact_mod_cast hpos.ne')] at heq
  have hlt := gain_swap_lt (a.map Prod.fst) (b.map Prod.fst)
  simp only [List.map_append, List.map_cons] at heq
  exact absurd heq hlt.ne'

/-- Neither metric depends on the order of the rows, and the average precision is the sum over the
thresholds. -/
def OrderFree (rows : List (Bool × ℚ)) : Prop := ∀ rows' : List (Bool × ℚ), rows'.Perm rows →
  averagePrecision (rows'.map Prod.fst) (rows'.map Prod.snd) =
    averagePrecision (rows.map Prod.fst) (rows.map Prod.snd) ∧
  averagePrecision (rows'.map Prod.fst) (rows'.map Prod.snd) = stepInterpolated rows' ∧
  ∀ target, 0 < target → target ≤ 1 → precisionAtRecall (rows'.map Prod.fst) (rows'.map Prod.snd) target =
    precisionAtRecall (rows.map Prod.fst) (rows.map Prod.snd) target

/-- The metrics depend on the rows alone exactly when no walk can tell tied rows apart. -/
theorem orderFree_iff (rows : List (Bool × ℚ)) : OrderFree rows ↔ TiesSettled rows := by
  constructor
  · intro h
    have hp : ∀ v, (true,v) ∈ rows → (false,v) ∉ rows := by
      intro v ht hf
      obtain ⟨rows',hperm,hne⟩ := exists_averagePrecision_ne ht hf
      exact hne (h rows' hperm).1
    exact ⟨hp,(averagePrecision_eq_step_iff hp).mp (h rows (List.Perm.refl rows)).2.1⟩
  · rintro ⟨hp,hties⟩ rows' hperm
    refine ⟨averagePrecision_eq hp hperm,?_,fun target _ _ => precisionAtRecall_eq hp hperm target⟩
    rw [averagePrecision_eq hp hperm, stepInterpolated_perm hperm]
    exact (averagePrecision_eq_step_iff hp).mpr hties

/-- A fraud and a legitimate row with one score: 1 or 1/2, by which of them comes first. -/
theorem not_orderFree : ¬∀ rows, OrderFree rows := by
  intro h
  have hswap := (h [(true,0),(false,0)] [(false,0),(true,0)] (List.Perm.swap ..)).1
  have hne : averagePrecision [false,true] [0,0] ≠ averagePrecision [true,false] [0,0] := by decide +kernel
  exact hne hswap

/-- Without mixed ties all that the benchmark reports depends on the rows alone. -/
theorem metrics_perm {rows rows' : List (Bool × ℚ)} (hp : ∀ v, (true,v) ∈ rows → (false,v) ∉ rows)
    (h : rows'.Perm rows) :
    metrics (rows'.map Prod.fst) (rows'.map Prod.snd) = metrics (rows.map Prod.fst) (rows.map Prod.snd) := by
  rw [metrics, auc_perm h, averagePrecision_eq hp h, precisionAtRecall_eq hp h, precisionAtRecall_eq hp h]
  rfl

end Order

end UnlearnShield.EvalSet
