import UnlearnShield.Engine.Corpus

/-! # Order and balance of the slices

A subject goes to the slice in which its last record falls when the subjects are laid
out in churn order and the records are cut into equal parts. The records before slice
`j` therefore end less than one subject away from `j/n` of all records, as long as the running sums and
their products with the number of slices fit the arrays they are held in.
-/
namespace UnlearnShield.Engine
open Arrays

structure Subject (C : Type) where
  subjectId : String
  churn : C
  records : ℤ
deriving DecidableEq

section Filling
variable {α : Type} {weight slice : α → ℤ} {slotOf : ℤ → ℤ} {n B : ℤ}

def recordsWhere (weight : α → ℤ) (p : α → Bool) (l : List α) : ℤ := ((l.filter p).map weight).sum

theorem recordsWhere_cons (p : α → Bool) (a : α) (l : List α) :
    recordsWhere weight p (a :: l) = (if p a then weight a else 0) + recordsWhere weight p l := by
  unfold recordsWhere
  by_cases h : p a <;> simp [h]

theorem recordsWhere_perm {l l' : List α} (h : l.Perm l') (p : α → Bool) :
    recordsWhere weight p l = recordsWhere weight p l' := ((h.filter p).map weight).sum_eq

/-- The records of one slice are those before the next one less those before it. -/
theorem recordsWhere_eq (l : List α) (j : ℤ) : recordsWhere weight (fun a => slice a = j) l =
    recordsWhere weight (fun a => slice a < j + 1) l - recordsWhere weight (fun a => slice a < j) l := by
  induction l with
  | nil => rfl
  | cons a l ih =>
    rw [recordsWhere_cons, recordsWhere_cons, recordsWhere_cons, ih]
    simp only [decide_eq_true_eq]
    rcases lt_trichotomy (slice a) j with h | h | h
    · rw [if_neg h.ne, if_pos (by omega), if_pos h]
      ring
    · rw [if_pos h, if_pos (by omega), if_neg (by omega)]
      ring
    · rw [if_neg h.ne', if_neg (by omega), if_neg (by omega)]
      ring

/-- The records laid out up to a boundary overshoot it by less than one record, and
fall short of it by less than one subject. -/
theorem filled_bounds {l : List α} {acc c : ℤ} {j : ℤ} (hn : 0 < n) (hpos : ∀ a ∈ l, 0 < weight a)
    (hc : ∀ a ∈ l, weight a ≤ c) (hslot : ∀ t, slotOf t < j ↔ (t - 1) * n < B)
    (hl : l.map slice = (cumsum acc (l.map weight)).map slotOf) (hacc : acc * n < B + n) :
    (acc + recordsWhere weight (fun a => slice a < j) l) * n < B + n ∧
      (B ≤ (acc + recordsWhere weight (fun a => slice a < j) l) * n + (c - 1) * n ∨
        recordsWhere weight (fun a => slice a < j) l = (l.map weight).sum) := by
  induction l generalizing acc with
  | nil =>
    refine ⟨?_,Or.inr rfl⟩
    simpa [recordsWhere] using hacc
  | cons a l ih =>
    obtain ⟨ha,hpos'⟩ := List.forall_mem_cons.mp hpos
    obtain ⟨hac,hc'⟩ := List.forall_mem_cons.mp hc
    rw [List.map_cons, List.map_cons, cumsum, List.map_cons] at hl
    obtain ⟨hhead,htail⟩ := List.cons.inj hl
    rw [recordsWhere_cons, List.map_cons, List.sum_cons]
    by_cases hlt : slice a < j
    · have hstep : (acc + weight a - 1) * n < B := (hslot _).mp (hhead ▸ hlt)
      have hacc' : (acc + weight a) * n < B + n := by linarith [sub_mul (acc + weight a) 1 n]
      obtain ⟨hupper,hlower⟩ := ih hpos' hc' htail hacc'
      simp only [decide_eq_true_eq, if_pos hlt, ← add_assoc]
      exact ⟨hupper,hlower.imp_right fun h => by rw [h]⟩
    · -- the boundary falls within this subject, so every later one is past it
      have hstop : B ≤ (acc + weight a - 1) * n := by
        by_contra h
        exact hlt (hhead ▸ (hslot _).mpr (not_le.mp h))
      have hrest : recordsWhere weight (fun a => slice a < j) l = 0 := by
        unfold recordsWhere
        rw [List.filter_eq_nil_iff.mpr]
        · rfl
        · intro b hb
          rw [decide_eq_true_eq]
          intro hbj
          have hm : slice b ∈ (cumsum (acc + weight a) (l.map weight)).map slotOf := htail ▸ List.mem_map_of_mem hb
          obtain ⟨t,ht,hbt⟩ := List.mem_map.mp hm
          have hpos'' : ∀ x ∈ l.map weight, 0 < x := by simpa using hpos'
          have hlate := (bounds_of_mem_cumsum hpos'' t ht).1
          have hearly := (hslot t).mp (hbt ▸ hbj)
          have hmul : (acc + weight a - 1) * n ≤ (t - 1) * n := mul_le_mul_of_nonneg_right (by omega) hn.le
          omega
      rw [hrest]
      simp only [decide_eq_true_eq, if_neg hlt, add_zero]
      refine ⟨hacc,Or.inl ?_⟩
      have hmul : (acc + weight a - 1) * n ≤ (acc + c - 1) * n := mul_le_mul_of_nonneg_right (by omega) hn.le
      linarith [add_mul acc (c - 1) n, show acc + c - 1 = acc + (c - 1) by ring]

end Filling

variable {C : Type} [LinearOrder C]

/-- The order in which subjects are packed: by churn, ties by subject. -/
def Subject.Precedes (a b : Subject C) : Prop := a.churn < b.churn ∨ (a.churn = b.churn ∧ a.subjectId < b.subjectId)

theorem Subject.Precedes.asymm {a b : Subject C} (h : a.Precedes b) : ¬b.Precedes a := by
  rintro (hba | ⟨heq,hba⟩)
  · rcases h with hab | ⟨heq,-⟩
    · exact lt_asymm hab hba
    · exact hba.ne heq.symm
  · rcases h with hab | ⟨-,hab⟩
    · exact hab.ne heq.symm
    · exact lt_asymm hab hba

def assignSubjects (store : ℤ → ℤ) (subjects : List (Subject C)) (numSlices : ℤ) : Py (List ℤ) :=
  assignSlices store (subjects.map Subject.subjectId) (subjects.map Subject.churn)
    (subjects.map Subject.records) numSlices

def packed (subjects : List (Subject C)) : List (Subject C) :=
  gather subjects (lexsort (subjects.map Subject.subjectId) (subjects.map Subject.churn))

theorem packed_perm (subjects : List (Subject C)) : (packed subjects).Perm subjects := by
  have h : (subjects.map Subject.churn).length = (subjects.map Subject.subjectId).length := by simp
  refine gather_perm ?_
  simpa using lexsort_perm h

def LexLe (a b : ℕ × C × String) : Prop := a.2.1 < b.2.1 ∨ (a.2.1 = b.2.1 ∧ a.2.2 ≤ b.2.2)

instance : DecidableRel (LexLe (C := C)) := fun a b =>
  inferInstanceAs (Decidable (a.2.1 < b.2.1 ∨ (a.2.1 = b.2.1 ∧ a.2.2 ≤ b.2.2)))

theorem LexLe.total (a b : ℕ × C × String) : LexLe a b ∨ LexLe b a := by
  rcases lt_trichotomy a.2.1 b.2.1 with h | h | h
  · exact Or.inl (Or.inl h)
  · exact (le_total a.2.2 b.2.2).imp (fun hs => Or.inr ⟨h,hs⟩) fun hs => Or.inr ⟨h.symm,hs⟩
  · exact Or.inr (Or.inl h)

theorem LexLe.trans {a b c : ℕ × C × String} (hab : LexLe a b) (hbc : LexLe b c) : LexLe a c := by
  rcases hab with h | ⟨h,hs⟩
  · rcases hbc with h' | ⟨h',-⟩
    · exact Or.inl (h.trans h')
    · exact Or.inl (h' ▸ h)
  · rcases hbc with h' | ⟨h',hs'⟩
    · exact Or.inl (h ▸ h')
    · exact Or.inr ⟨h.trans h',hs.trans hs'⟩

omit [LinearOrder C] in
/-- A subject that is read at an index carries the keys that stand beside the index. -/
theorem keys_of_mem {subjects : List (Subject C)} {e : ℕ × C × String}
    (he : e ∈ (List.range (subjects.map Subject.subjectId).length).zip
      ((subjects.map Subject.churn).zip (subjects.map Subject.subjectId)))
    {a : Subject C} (ha : subjects[e.1]? = some a) : e.2 = (a.churn,a.subjectId) := by
  obtain ⟨k,hk⟩ := List.mem_iff_getElem?.mp he
  obtain ⟨hi,hrest⟩ := List.getElem?_zip_eq_some.mp hk
  obtain ⟨hchurn,hid⟩ := List.getElem?_zip_eq_some.mp hrest
  obtain ⟨hlt,hik⟩ := List.getElem?_eq_some_iff.mp hi
  rw [List.getElem_range] at hik
  rw [← hik] at ha
  rw [List.getElem?_map, ha, Option.map_some, Option.some.injEq] at hchurn hid
  exact Prod.ext hchurn.symm hid.symm

/-- No subject of the packing order comes after one it precedes. -/
theorem packed_pairwise (subjects : List (Subject C)) : (packed subjects).Pairwise fun a b => ¬b.Precedes a := by
  have htotal : Std.Total (LexLe (C := C)) := ⟨LexLe.total⟩
  have htrans : IsTrans _ (LexLe (C := C)) := ⟨fun _ _ _ => LexLe.trans⟩
  unfold packed lexsort gather
  rw [List.filterMap_map, List.pairwise_filterMap]
  have hsorted := List.pairwise_insertionSort LexLe ((List.range (subjects.map Subject.subjectId).length).zip
    ((subjects.map Subject.churn).zip (subjects.map Subject.subjectId)))
  refine hsorted.imp_of_mem ?_
  intro e e' he he' hle a ha b hb hba
  have hea := keys_of_mem ((List.perm_insertionSort LexLe _).mem_iff.mp he) ha
  have heb := keys_of_mem ((List.perm_insertionSort LexLe _).mem_iff.mp he') hb
  unfold LexLe at hle
  rw [hea, heb] at hle
  rcases hba with h | ⟨h,hs⟩
  · rcases hle with h' | ⟨h',-⟩
    · exact lt_asymm h h'
    · exact h.ne h'.symm
  · rcases hle with h' | ⟨-,hs'⟩
    · exact h'.ne h.symm
    · exact not_lt.mpr hs' hs

def totalRecords (subjects : List (Subject C)) : ℤ := (subjects.map Subject.records).sum

omit [LinearOrder C] in
theorem totalRecords_pos {subjects : List (Subject C)} (hne : subjects ≠ []) (hpos : ∀ a ∈ subjects, 1 ≤ a.records) :
    0 < totalRecords subjects := by
  cases subjects with
  | nil => exact absurd rfl hne
  | cons a rest =>
    obtain ⟨ha,hrest⟩ := List.forall_mem_cons.mp hpos
    have hsum : 0 ≤ (rest.map Subject.records).sum := by
      apply List.sum_nonneg
      intro x hx
      obtain ⟨b,hb,rfl⟩ := List.mem_map.mp hx
      linarith [hrest b hb]
    unfold totalRecords
    rw [List.map_cons, List.sum_cons]
    omega

/-- `assign_slices` never fails on subjects, and along the packing order each slice is the
one in which the running record count falls. -/
theorem exists_assignSubjects {subjects : List (Subject C)} {n : ℤ} (hn : 1 ≤ n) (hne : subjects ≠ [])
    (hd : (subjects.map Subject.subjectId).Nodup) (hpos : ∀ a ∈ subjects, 1 ≤ a.records) :
    ∃ slice : Subject C → ℤ, assignSubjects id subjects n = .ok (subjects.map slice) ∧
      (packed subjects).map slice = (cumsum 0 ((packed subjects).map Subject.records)).map
        fun t => (t - 1) * n / totalRecords subjects := by
  have hrecords : gather (subjects.map Subject.records)
      (lexsort (subjects.map Subject.subjectId) (subjects.map Subject.churn)) =
      (packed subjects).map Subject.records := gather_map ..
  have hsum : ((packed subjects).map Subject.records).sum = totalRecords subjects :=
    ((packed_perm subjects).map Subject.records).sum_eq
  have hne' : (packed subjects).map Subject.records ≠ [] := by
    intro h
    have hperm := packed_perm subjects
    rw [List.map_eq_nil_iff.mp h] at hperm
    exact hne (List.nil_perm.mp hperm)
  have hpos' : ∀ x ∈ (packed subjects).map Subject.records, 0 < x := by
    intro x hx
    obtain ⟨a,ha,rfl⟩ := List.mem_map.mp hx
    exact hpos a ((packed_perm subjects).mem_iff.mp ha)
  have hlast : (cumsum 0 ((packed subjects).map Subject.records)).getLastD 0 = totalRecords subjects := by
    rw [cumsum_getLastD 0 hne', zero_add, hsum]
  -- no running count exceeds the total, so the cap at the last slice never applies
  have hcap : (cumsum 0 ((packed subjects).map Subject.records)).map
      (fun t => min ((t - 1) * n / totalRecords subjects) (n - 1)) =
      (cumsum 0 ((packed subjects).map Subject.records)).map fun t => (t - 1) * n / totalRecords subjects := by
    apply List.map_congr_left
    intro t ht
    obtain ⟨ht0,htT⟩ := bounds_of_mem_cumsum hpos' t ht
    rw [zero_add, hsum] at htT
    have hlt : (t - 1) * n / totalRecords subjects < n := by
      apply Int.ediv_lt_of_lt_mul (by omega)
      rw [mul_comm n]
      exact mul_lt_mul_of_pos_right (by omega) (by omega)
    exact min_eq_left (by omega)
  have hfloor : (fun t : ℤ => min (((t - 1) * n).fdiv (totalRecords subjects)) (n - 1)) =
      fun t => min ((t - 1) * n / totalRecords subjects) (n - 1) := by
    funext t
    rw [Int.fdiv_eq_ediv_of_nonneg _ (totalRecords_pos hne hpos).le]
  let out := scatter (List.replicate subjects.length (0 : ℤ))
    (lexsort (subjects.map Subject.subjectId) (subjects.map Subject.churn))
    ((cumsum 0 ((packed subjects).map Subject.records)).map fun t => (t - 1) * n / totalRecords subjects)
  have hresult : assignSubjects id subjects n = .ok out := by
    unfold assignSubjects assignSlices
    rw [if_neg (by omega), if_neg (by simpa using hne)]
    simp only [List.map_id, id_eq, ↓reduceIte]
    rw [hrecords, hlast, hfloor, hcap, List.length_map]
  obtain ⟨slice,hslice⟩ := exists_map_of_length (List.Nodup.of_map _ hd) (by simp [out] : out.length = subjects.length)
  refine ⟨slice,by rw [hresult, hslice],?_⟩
  have hperm : (lexsort (subjects.map Subject.subjectId) (subjects.map Subject.churn)).Perm
      (List.range subjects.length) := by
    have h : (subjects.map Subject.churn).length = (subjects.map Subject.subjectId).length := by simp
    simpa using lexsort_perm h
  rw [packed, ← gather_map, ← hslice]
  apply gather_scatter
  · exact hperm.nodup_iff.mpr List.nodup_range
  · rw [List.length_map, length_cumsum, List.length_map, (packed_perm subjects).length_eq, hperm.length_eq,
      List.length_range]
  · intro i hi
    rw [List.length_replicate]
    exact List.mem_range.mp (hperm.mem_iff.mp hi)

/-- The error of each boundary: how far `n` times the records before slice `j` is from `j` times the total. -/
theorem boundary_bounds {subjects : List (Subject C)} {slice : Subject C → ℤ} {n c j : ℤ} (hn : 1 ≤ n)
    (hT : 0 < totalRecords subjects) (hpos : ∀ a ∈ subjects, 1 ≤ a.records) (hc : ∀ a ∈ subjects, a.records ≤ c)
    (hslice : (packed subjects).map slice = (cumsum 0 ((packed subjects).map Subject.records)).map
      fun t => (t - 1) * n / totalRecords subjects) (hj : 0 ≤ j) (hjn : j ≤ n) :
    recordsWhere Subject.records (fun a => slice a < j) subjects * n < j * totalRecords subjects + n ∧
      j * totalRecords subjects - (c - 1) * n ≤ recordsWhere Subject.records (fun a => slice a < j) subjects * n := by
  have hperm := packed_perm subjects
  have hstart : 0 * n < j * totalRecords subjects + n := by
    have hprod := mul_nonneg hj hT.le
    omega
  obtain ⟨hupper,hlower⟩ := filled_bounds (B := j * totalRecords subjects)
    (by omega : 0 < n) (fun a ha => hpos a (hperm.mem_iff.mp ha)) (fun a ha => hc a (hperm.mem_iff.mp ha))
    (fun t => Int.ediv_lt_iff_lt_mul hT) hslice hstart
  rw [recordsWhere_perm hperm, zero_add] at hupper hlower
  refine ⟨hupper,?_⟩
  rcases hlower with h | h
  · linarith
  · have hsum : ((packed subjects).map Subject.records).sum = totalRecords subjects :=
      (hperm.map Subject.records).sum_eq
    obtain ⟨a,ha⟩ : ∃ a, a ∈ subjects := by
      cases hs : subjects with
      | nil =>
        rw [hs] at hT
        exact absurd hT (lt_irrefl 0)
      | cons a rest => exact ⟨a,List.mem_cons_self⟩
    have hc1 : 0 ≤ (c - 1) * n := mul_nonneg (by linarith [hpos a ha, hc a ha]) (by omega)
    rw [h, hsum, mul_comm (totalRecords subjects)]
    have hjT : j * totalRecords subjects ≤ n * totalRecords subjects := mul_le_mul_of_nonneg_right hjn hT.le
    omega

/-- Along the packing order slices do not decrease. -/
theorem slice_mono {subjects : List (Subject C)} {slice : Subject C → ℤ} {n : ℤ} (hn : 1 ≤ n)
    (hT : 0 < totalRecords subjects) (hpos : ∀ a ∈ subjects, 1 ≤ a.records)
    (hslice : (packed subjects).map slice = (cumsum 0 ((packed subjects).map Subject.records)).map
      fun t => (t - 1) * n / totalRecords subjects) :
    ∀ a ∈ subjects, ∀ b ∈ subjects, a.Precedes b → slice a ≤ slice b := by
  have hperm := packed_perm subjects
  have hpos' : ∀ x ∈ (packed subjects).map Subject.records, 0 < x := by
    intro x hx
    obtain ⟨a,ha,rfl⟩ := List.mem_map.mp hx
    exact hpos a (hperm.mem_iff.mp ha)
  have hmono : ((packed subjects).map slice).Pairwise (· ≤ ·) := by
    rw [hslice, List.pairwise_map]
    refine (cumsum_pairwise hpos').imp fun {s t} hst => ?_
    exact Int.ediv_le_ediv hT (mul_le_mul_of_nonneg_right (by omega) (by omega))
  -- the packing order decides every pair one way, so compare a pair in either order
  let Agrees : Subject C → Subject C → Prop := fun a b =>
    (a.Precedes b → slice a ≤ slice b) ∧ (b.Precedes a → slice b ≤ slice a)
  have hpair : (packed subjects).Pairwise Agrees :=
    ((packed_pairwise subjects).and (List.pairwise_map.mp hmono)).imp fun h =>
      ⟨fun _ => h.2,fun hba => absurd hba h.1⟩
  have hsymm : Std.Symm Agrees := ⟨fun _ _ h => ⟨h.2,h.1⟩⟩
  have hself : ∀ a ∈ packed subjects, Agrees a a := fun a _ =>
    ⟨fun h => absurd h h.asymm,fun h => absurd h h.asymm⟩
  have hall := List.Pairwise.forall_of_forall hself hpair
  exact fun a ha b hb => (hall (hperm.mem_iff.mpr ha) (hperm.mem_iff.mpr hb)).1

theorem int64_of_fits {x : ℤ} (h0 : 0 ≤ x) (h : x < 2^63) : int64 x = x := by
  unfold int64
  apply Int.bmod_eq_of_le <;> omega

section Wrap
variable {subjectIds : List String} {churn : List C} {counts : List ℤ} {n : ℤ}

/-- Where the records and their product with the number of slices fit an `int64`, nothing wraps. -/
theorem assignSlices_int64 (hchurn : churn.length = subjectIds.length) (hcounts : counts.length = subjectIds.length)
    (hpos : ∀ c ∈ counts, 0 < c) (hn : n < 2^63) (hsum : counts.sum < 2^63) (hprod : (counts.sum - 1) * n < 2^63) :
    assignSlices int64 subjectIds churn counts n = assignSlices id subjectIds churn counts n := by
  unfold assignSlices
  by_cases hlt : n < 1
  · rw [if_pos hlt, if_pos hlt]
  by_cases hnil : subjectIds = []
  · rw [if_pos hnil, if_pos hnil]
  rw [if_neg hlt, if_neg hlt, if_neg hnil, if_neg hnil]
  have hperm : (gather counts (lexsort subjectIds churn)).Perm counts := by
    apply gather_perm
    rw [hcounts]
    exact lexsort_perm hchurn
  have hrun : ∀ t ∈ cumsum 0 (gather counts (lexsort subjectIds churn)), 0 < t ∧ t ≤ counts.sum := by
    intro t ht
    have hbounds := bounds_of_mem_cumsum (fun c hc => hpos c (hperm.mem_iff.mp hc)) t ht
    rwa [zero_add, hperm.sum_eq] at hbounds
  have hkept : (cumsum 0 (gather counts (lexsort subjectIds churn))).map int64 =
      cumsum 0 (gather counts (lexsort subjectIds churn)) := by
    conv_rhs => rw [← List.map_id (cumsum 0 (gather counts (lexsort subjectIds churn)))]
    refine List.map_congr_left fun t ht => ?_
    obtain ⟨h0,h1⟩ := hrun t ht
    exact int64_of_fits h0.le (h1.trans_lt hsum)
  have hlast : 0 ≤ (cumsum 0 (gather counts (lexsort subjectIds churn))).getLastD 0 := by
    rw [List.getLastD_eq_getLast?]
    cases hl : (cumsum 0 (gather counts (lexsort subjectIds churn))).getLast? with
    | none => exact le_rfl
    | some t => exact (hrun t (List.mem_of_getLast? hl)).1.le
  simp only [hkept, List.map_id, id_eq, int64_of_fits (by omega : 0 ≤ n) hn, ↓reduceIte]
  congr 2
  refine List.map_congr_left fun t ht => ?_
  obtain ⟨h0,h1⟩ := hrun t ht
  have hmul : 0 ≤ (t - 1) * n := mul_nonneg (by omega) (by omega)
  have hmul' : (t - 1) * n ≤ (counts.sum - 1) * n := mul_le_mul_of_nonneg_right (by omega) (by omega)
  rw [int64_of_fits (by omega : 0 ≤ t - 1) (by omega), int64_of_fits hmul (by omega)]
  rw [Int.fdiv_eq_ediv_of_nonneg _ hlast]
  have hquot := Int.ediv_nonneg hmul hlast
  have hquot' := Int.ediv_le_self ((cumsum 0 (gather counts (lexsort subjectIds churn))).getLastD 0) hmul
  rw [int64_of_fits hquot (by omega)]

/-- `build` fills the same slices when it computes in `int64`, as long as all records and their
product with the number of slices fit. -/
theorem sliceShards_int64 {shardOf ks : List ℕ} {out : List ℤ} (hchurn : churn.length = subjectIds.length)
    (hcounts : counts.length = subjectIds.length) (hshards : shardOf.length = subjectIds.length)
    (hpos : ∀ c ∈ counts, 0 < c) (hn : n < 2^63) (hsum : counts.sum < 2^63) (hprod : (counts.sum - 1) * n < 2^63) :
    sliceShards int64 subjectIds churn counts shardOf n ks out =
      sliceShards id subjectIds churn counts shardOf n ks out := by
  induction ks generalizing out with
  | nil => rfl
  | cons k ks ih =>
    have hm : ∀ i ∈ flatnonzero shardOf (· = k), i < subjectIds.length := fun i hi => by
      obtain ⟨x,hx,-⟩ := mem_flatnonzero.mp hi
      obtain ⟨hlt,-⟩ := List.getElem?_eq_some_iff.mp hx
      rwa [hshards] at hlt
    have hids := length_gather hm
    have hpart : (gather counts (flatnonzero shardOf (· = k))).sum ≤ counts.sum := by
      refine List.Sublist.sum_le_sum ?_ fun c hc => (hpos c hc).le
      have hsub : (flatnonzero shardOf (· = k)).Sublist (List.range counts.length) := by
        rw [flatnonzero, hshards, hcounts]
        exact List.filter_sublist
      have hread := hsub.filterMap (counts[·]?)
      rwa [← gather, ← gather, gather_range] at hread
    unfold sliceShards
    have hslices : assignSlices int64 (gather subjectIds (flatnonzero shardOf (· = k)))
        (gather churn (flatnonzero shardOf (· = k))) (gather counts (flatnonzero shardOf (· = k))) n =
        assignSlices id (gather subjectIds (flatnonzero shardOf (· = k)))
          (gather churn (flatnonzero shardOf (· = k))) (gather counts (flatnonzero shardOf (· = k))) n := by
      by_cases hn0 : n < 1
      · unfold assignSlices
        rw [if_pos hn0, if_pos hn0]
      refine assignSlices_int64 ((length_gather fun i hi => by rw [hchurn]; exact hm i hi).trans hids.symm)
        ((length_gather fun i hi => by rw [hcounts]; exact hm i hi).trans hids.symm)
        (fun c hc => hpos c (mem_of_mem_gather hc)) hn (hpart.trans_lt hsum) ?_
      exact (mul_le_mul_of_nonneg_right (by omega) (by omega)).trans_lt hprod
    simp only [hslices, ih]

end Wrap

/-- Every subject gets one slice, in churn order, and every slice holds `T/n` records up to
less than the records of the largest subject. -/
theorem assignSlices_balanced {subjects : List (Subject C)} {n : ℤ} (hn : 1 ≤ n) (hne : subjects ≠ [])
    (hd : (subjects.map Subject.subjectId).Nodup) (hpos : ∀ a ∈ subjects, 1 ≤ a.records)
    (hn64 : n < 2^63) (hsum : totalRecords subjects < 2^63) (hprod : (totalRecords subjects - 1) * n < 2^63) :
    ∃ slice : Subject C → ℤ,
      assignSlices int64 (subjects.map Subject.subjectId) (subjects.map Subject.churn)
        (subjects.map Subject.records) n = .ok (subjects.map slice) ∧
      (∀ a ∈ subjects, 0 ≤ slice a ∧ slice a < n) ∧
      (∀ a ∈ subjects, ∀ b ∈ subjects, a.Precedes b → slice a ≤ slice b) ∧
      ∀ c, (∀ a ∈ subjects, a.records ≤ c) → ∀ j, 0 ≤ j → j < n →
        |(recordsWhere Subject.records (fun a => slice a = j) subjects : ℚ) - (totalRecords subjects : ℚ) / n| < c := by
  have hT := totalRecords_pos hne hpos
  obtain ⟨slice,hassign,hslice⟩ := exists_assignSubjects hn hne hd hpos
  have hpos' : ∀ x ∈ subjects.map Subject.records, 0 < x := by
    intro x hx
    obtain ⟨a,ha,rfl⟩ := List.mem_map.mp hx
    exact hpos a ha
  refine ⟨slice,(assignSlices_int64 (by simp) (by simp) hpos' hn64 hsum hprod).trans hassign,?_,
    slice_mono hn hT hpos hslice,fun c hc j hj hjn => ?_⟩
  · obtain ⟨-,hrange⟩ := assignSlices_spec (by simp) (by simp) hpos' hassign
    exact fun a ha => hrange _ (List.mem_map_of_mem ha)
  · obtain ⟨hu,hl⟩ := boundary_bounds hn hT hpos hc hslice hj hjn.le
    obtain ⟨hu',hl'⟩ := boundary_bounds hn hT hpos hc hslice (by omega : 0 ≤ j + 1) hjn
    have hrecords : recordsWhere Subject.records (fun a => slice a = j) subjects = _ := recordsWhere_eq subjects j
    set R := recordsWhere Subject.records (fun a => slice a = j) subjects
    set T := totalRecords subjects
    have hbounds : -(c * n) < R * n - T ∧ R * n - T < c * n := by
      rw [hrecords, sub_mul]
      constructor <;> linarith [add_mul j 1 T, sub_mul c 1 n]
    have hnq : (0 : ℚ) < n := by exact_mod_cast (by omega : 0 < n)
    have hdiv : (R : ℚ) - (T : ℚ) / n = ((R * n - T : ℤ) : ℚ) / n := by
      push_cast
      field_simp
    rw [hdiv, abs_lt]
    constructor
    · rw [lt_div_iff₀ hnq]
      exact_mod_cast (by linarith [hbounds.1] : -c * n < R * n - T)
    · rw [div_lt_iff₀ hnq]
      exact_mod_cast hbounds.2

def sampleSubjects : List (Subject ℕ) := [⟨"b",2,1⟩,⟨"a",1,7⟩,⟨"d",2,2⟩,⟨"c",0,1⟩]

theorem assignSlices_balanced_sample : ∃ slice : Subject ℕ → ℤ,
    assignSlices int64 ["b", "a", "d", "c"] [2, 1, 2, 0] [1, 7, 2, 1] 3 = .ok (sampleSubjects.map slice) ∧
      |(recordsWhere Subject.records (fun a => slice a = 1) sampleSubjects : ℚ) - 11 / 3| < 7 := by
  obtain ⟨slice,hassign,-,-,hbalance⟩ := assignSlices_balanced (by decide : (1 : ℤ) ≤ 3)
    (by decide : sampleSubjects ≠ []) (by decide) (by decide) (by decide) (by decide) (by decide)
  have hb := hbalance 7 (by decide) 1 (by decide) (by decide)
  have htotal : totalRecords sampleSubjects = 11 := by decide
  rw [htotal] at hb
  push_cast at hb
  exact ⟨slice,hassign,hb⟩

/-- Two subjects whose product with five slices no longer fits. -/
def largeSubjects : List (Subject ℕ) := [⟨"a",0,2^62⟩,⟨"b",1,2^61⟩]

/-- The product wraps, and the second subject gets a slice that is none. -/
theorem not_assignSlices_balanced : ¬∃ slice : Subject ℕ → ℤ,
    assignSlices int64 ["a", "b"] [0, 1] [2^62, 2^61] 5 = .ok (largeSubjects.map slice) ∧
      ∀ a ∈ largeSubjects, 0 ≤ slice a ∧ slice a < 5 := by
  rintro ⟨slice,hassign,hrange⟩
  have hwrapped : assignSlices int64 ["a", "b"] [0, 1] [2^62, 2^61] 5 = .ok [0, -1] := by decide +kernel
  have hslices := Except.ok.inj (hwrapped.symm.trans hassign)
  have hlast : slice ⟨"b",1,2^61⟩ = -1 := (List.cons.inj (List.cons.inj hslices).2).1.symm
  have hneg := (hrange ⟨"b",1,2^61⟩ (by decide)).1
  omega

end UnlearnShield.Engine
