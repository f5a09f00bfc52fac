import Mathlib

/-! # Insertion-ordered dictionaries

An association list whose keys are distinct, with the order in which keys were
first inserted. Overwriting a key keeps its place and replaces its value, and
removing a key closes the gap, so two dictionaries with the same entries were
written in the same order.
-/
namespace UnlearnShield

structure Dict (κ α : Type) where
  entries : List (κ × α)
  nodup : (entries.map Prod.fst).Nodup

namespace Dict
variable {κ α β : Type}

@[ext] theorem ext {d e : Dict κ α} (h : d.entries = e.entries) : d = e := by
  cases d; cases e; simpa using h

def empty : Dict κ α := ⟨[], List.nodup_nil⟩

def keys (d : Dict κ α) : List κ := d.entries.map Prod.fst
def values (d : Dict κ α) : List α := d.entries.map Prod.snd

instance : Membership κ (Dict κ α) := ⟨fun d k => k ∈ d.keys⟩

theorem mem_iff {d : Dict κ α} {k : κ} : k ∈ d ↔ k ∈ d.keys := Iff.rfl

theorem mem_iff_exists {d : Dict κ α} {k : κ} : k ∈ d ↔ ∃ v, (k,v) ∈ d.entries := by
  simp [mem_iff, keys]

variable [DecidableEq κ]

instance (d : Dict κ α) (k : κ) : Decidable (k ∈ d) := inferInstanceAs (Decidable (k ∈ d.keys))

def get? (d : Dict κ α) (k : κ) : Option α := (d.entries.find? fun e => e.1 = k).map Prod.snd

/-- Writing `k` replaces its value in place, or appends it when it is new. -/
def insert (d : Dict κ α) (k : κ) (v : α) : Dict κ α :=
  if h : k ∈ d then
    ⟨d.entries.map fun e => if e.1 = k then (k,v) else e, by
      have he : (d.entries.map fun e => if e.1 = k then (k,v) else e).map Prod.fst =
          d.entries.map Prod.fst := by
        rw [List.map_map]
        apply List.map_congr_left
        intro e _
        by_cases hk : e.1 = k <;> simp [hk]
      exact he ▸ d.nodup⟩
  else
    ⟨d.entries ++ [(k,v)], by
      rw [List.map_append, List.map_singleton, ← List.concat_eq_append]
      exact d.nodup.concat h⟩

def erase (d : Dict κ α) (k : κ) : Dict κ α :=
  ⟨d.entries.filter fun e => e.1 ≠ k, d.nodup.sublist (List.filter_sublist.map _)⟩

def without (d : Dict κ α) (ks : List κ) : Dict κ α :=
  ⟨d.entries.filter fun e => e.1 ∉ ks, d.nodup.sublist (List.filter_sublist.map _)⟩

/-- `dict(pairs)`: later pairs overwrite earlier ones of the same key. -/
def ofList (pairs : List (κ × α)) : Dict κ α :=
  pairs.foldl (fun d e => d.insert e.1 e.2) empty

theorem get?_eq_some {d : Dict κ α} {k : κ} {v : α} : d.get? k = some v ↔ (k,v) ∈ d.entries := by
  unfold get?
  obtain ⟨l,hl⟩ := d
  dsimp only
  induction l with
  | nil => simp
  | cons e rest ih =>
    rw [List.map_cons, List.nodup_cons] at hl
    obtain ⟨hk,hr⟩ := hl
    rw [List.find?_cons]
    by_cases he : e.1 = k
    · subst he
      simp only [decide_true, Option.map_some, Option.some.injEq, List.mem_cons]
      constructor
      · rintro rfl
        exact Or.inl rfl
      · rintro (h | h)
        · exact (congrArg Prod.snd h).symm
        · exact absurd (List.mem_map_of_mem (f := Prod.fst) h) hk
    · simp only [he, decide_false, ih hr, List.mem_cons]
      constructor
      · exact Or.inr
      · rintro (h | h)
        · exact absurd (congrArg Prod.fst h).symm he
        · exact h

theorem mem_values {d : Dict κ α} {v : α} : v ∈ d.values ↔ ∃ k, d.get? k = some v := by
  simp [values, get?_eq_some]

theorem get?_isSome {d : Dict κ α} {k : κ} : (d.get? k).isSome ↔ k ∈ d := by
  rw [Option.isSome_iff_exists, mem_iff_exists]
  exact exists_congr fun _ => get?_eq_some

theorem get?_eq_none {d : Dict κ α} {k : κ} : d.get? k = none ↔ k ∉ d := by
  rw [← get?_isSome]
  simp

theorem mem_of_get? {d : Dict κ α} {k : κ} {v : α} (h : d.get? k = some v) : k ∈ d :=
  get?_isSome.mp (by simp [h])

theorem exists_get?_of_mem {d : Dict κ α} {k : κ} (h : k ∈ d) : ∃ v, d.get? k = some v :=
  Option.isSome_iff_exists.mp (get?_isSome.mpr h)

@[simp] theorem entries_erase (d : Dict κ α) (k : κ) :
    (d.erase k).entries = d.entries.filter fun e => e.1 ≠ k := rfl

@[simp] theorem mem_erase {d : Dict κ α} {j k : κ} : j ∈ d.erase k ↔ j ∈ d ∧ j ≠ k := by
  simp only [mem_iff_exists, entries_erase, List.mem_filter, decide_eq_true_eq]
  constructor
  · rintro ⟨v,h,hj⟩
    exact ⟨⟨v,h⟩,hj⟩
  · rintro ⟨⟨v,h⟩,hj⟩
    exact ⟨v,h,hj⟩

theorem get?_erase_of_ne {d : Dict κ α} {j k : κ} (h : j ≠ k) : (d.erase k).get? j = d.get? j := by
  apply Option.ext
  intro v
  rw [get?_eq_some, get?_eq_some, entries_erase, List.mem_filter]
  simp [h]

theorem get?_erase_self (d : Dict κ α) (k : κ) : (d.erase k).get? k = none := by
  rw [get?_eq_none, mem_erase]
  exact fun h => h.2 rfl

@[simp] theorem entries_without (d : Dict κ α) (ks : List κ) :
    (d.without ks).entries = d.entries.filter fun e => e.1 ∉ ks := rfl

@[simp] theorem without_nil (d : Dict κ α) : d.without [] = d := by
  ext1
  simp

theorem erase_without (d : Dict κ α) (k : κ) (ks : List κ) : (d.erase k).without ks = d.without (k :: ks) := by
  ext1
  rw [entries_without, entries_erase, List.filter_filter, entries_without]
  apply List.filter_congr
  intro e _
  simp [Bool.and_comm]

theorem without_erase (d : Dict κ α) (k : κ) (ks : List κ) : (d.without ks).erase k = (d.erase k).without ks := by
  ext1
  simp only [entries_erase, entries_without]
  rw [List.filter_comm]

theorem get?_without {d : Dict κ α} {ks : List κ} {k : κ} :
    (d.without ks).get? k = if k ∈ ks then none else d.get? k := by
  apply Option.ext
  intro v
  rw [get?_eq_some, entries_without, List.mem_filter, ← get?_eq_some]
  by_cases h : k ∈ ks <;> simp [h]

@[simp] theorem mem_without {d : Dict κ α} {ks : List κ} {k : κ} : k ∈ d.without ks ↔ k ∈ d ∧ k ∉ ks := by
  rw [← get?_isSome, get?_without, ← get?_isSome]
  by_cases h : k ∈ ks <;> simp [h]

theorem mem_entries_insert {d : Dict κ α} {j k : κ} {u v : α} :
    (j,u) ∈ (d.insert k v).entries ↔ (j = k ∧ u = v) ∨ (j ≠ k ∧ (j,u) ∈ d.entries) := by
  unfold insert
  split
  · next hk =>
    simp only [List.mem_map]
    constructor
    · rintro ⟨e,he,heq⟩
      by_cases h : e.1 = k
      · rw [if_pos h] at heq
        exact Or.inl ⟨(congrArg Prod.fst heq).symm,(congrArg Prod.snd heq).symm⟩
      · rw [if_neg h] at heq
        subst heq
        exact Or.inr ⟨h,he⟩
    · rintro (⟨rfl,rfl⟩ | ⟨hne,he⟩)
      · obtain ⟨w,hw⟩ := mem_iff_exists.mp hk
        exact ⟨(j,w),hw,if_pos rfl⟩
      · exact ⟨(j,u),he,if_neg hne⟩
  · next hk =>
    simp only [List.mem_append, List.mem_singleton, Prod.mk.injEq]
    constructor
    · rintro (h | h)
      · exact Or.inr ⟨fun he => hk (mem_iff_exists.mpr ⟨u,he ▸ h⟩),h⟩
      · exact Or.inl h
    · rintro (h | h)
      · exact Or.inr h
      · exact Or.inl h.2

@[simp] theorem get?_insert_self (d : Dict κ α) (k : κ) (v : α) : (d.insert k v).get? k = some v := by
  rw [get?_eq_some, mem_entries_insert]
  exact Or.inl ⟨rfl,rfl⟩

theorem get?_insert_of_ne {d : Dict κ α} {j k : κ} (h : j ≠ k) (v : α) :
    (d.insert k v).get? j = d.get? j := by
  apply Option.ext
  intro u
  simp [get?_eq_some, mem_entries_insert, h]

theorem get?_insert (d : Dict κ α) (j k : κ) (v : α) : (d.insert k v).get? j = if j = k then some v else d.get? j := by
  by_cases h : j = k
  · rw [if_pos h, h, get?_insert_self]
  · rw [if_neg h, get?_insert_of_ne h]

@[simp] theorem mem_insert {d : Dict κ α} {j k : κ} {v : α} : j ∈ d.insert k v ↔ j = k ∨ j ∈ d := by
  rw [← get?_isSome, get?_insert, ← get?_isSome]
  by_cases h : j = k <;> simp [h]

@[simp] theorem get?_empty (k : κ) : (empty : Dict κ α).get? k = none := rfl

def setdefault (d : Dict κ α) (k : κ) (v : α) : Dict κ α := if k ∈ d then d else d.insert k v

theorem setdefault_of_mem {d : Dict κ α} {k : κ} (h : k ∈ d) (v : α) : d.setdefault k v = d := if_pos h
theorem setdefault_of_notMem {d : Dict κ α} {k : κ} (h : k ∉ d) (v : α) : d.setdefault k v = d.insert k v := if_neg h

@[simp] theorem mem_setdefault {d : Dict κ α} {j k : κ} {v : α} : j ∈ d.setdefault k v ↔ j = k ∨ j ∈ d := by
  unfold setdefault
  split
  · next h =>
    constructor
    · exact Or.inr
    · rintro (rfl | hj)
      · exact h
      · exact hj
  · exact mem_insert

/-- What was there stays. -/
theorem get?_setdefault_of_get? {d : Dict κ α} {j k : κ} {u v : α} (h : d.get? j = some u) :
    (d.setdefault k v).get? j = some u := by
  unfold setdefault
  split
  · exact h
  · next hk =>
    have hne : j ≠ k := by
      rintro rfl
      exact hk (mem_of_get? h)
    rw [get?_insert_of_ne hne, h]

theorem get?_setdefault_of_ne {d : Dict κ α} {j k : κ} (h : j ≠ k) (v : α) : (d.setdefault k v).get? j = d.get? j := by
  unfold setdefault
  split
  · rfl
  · exact get?_insert_of_ne h v

theorem get?_setdefault_self {d : Dict κ α} {k : κ} {u v : α} :
    (d.setdefault k v).get? k = some u ↔ d.get? k = some u ∨ k ∉ d ∧ u = v := by
  by_cases h : k ∈ d
  · simp [setdefault_of_mem h, h]
  · rw [setdefault_of_notMem h, get?_insert_self, get?_eq_none.mpr h]
    simp [h, eq_comm]

def insertAll (d : Dict κ α) (l : List (κ × α)) : Dict κ α := l.foldl (fun d e => d.insert e.1 e.2) d

theorem get?_insertAll_of_notMem {l : List (κ × α)} {k : κ} (h : k ∉ l.map Prod.fst) (d : Dict κ α) :
    (d.insertAll l).get? k = d.get? k := by
  induction l generalizing d with
  | nil => rfl
  | cons e l ih =>
    rw [List.map_cons, List.mem_cons, not_or] at h
    rw [insertAll, List.foldl_cons, ← insertAll, ih h.2, get?_insert_of_ne h.1]

theorem get?_insertAll_of_mem {l : List (κ × α)} (hn : (l.map Prod.fst).Nodup) {k : κ} {v : α} (h : (k,v) ∈ l)
    (d : Dict κ α) :
    (d.insertAll l).get? k = some v := by
  induction l generalizing d with
  | nil => cases h
  | cons e l ih =>
    rw [List.map_cons, List.nodup_cons] at hn
    rw [insertAll, List.foldl_cons, ← insertAll]
    rcases List.mem_cons.mp h with rfl | h
    · rw [get?_insertAll_of_notMem hn.1, get?_insert_self]
    · exact ih hn.2 h _

theorem mem_insertAll {l : List (κ × α)} {d : Dict κ α} {k : κ} : k ∈ d.insertAll l ↔ k ∈ d ∨ k ∈ l.map Prod.fst := by
  induction l generalizing d with
  | nil => simp [insertAll]
  | cons e l ih =>
    rw [insertAll, List.foldl_cons, ← insertAll, ih, mem_insert, List.map_cons, List.mem_cons]
    tauto

/-- A list without repeated keys is the dictionary it builds. -/
theorem entries_ofList {l : List (κ × α)} (h : (l.map Prod.fst).Nodup) : (ofList l).entries = l := by
  suffices hs : ∀ (rest : List (κ × α)) (d : Dict κ α), ((d.entries ++ rest).map Prod.fst).Nodup →
      (rest.foldl (fun d e => d.insert e.1 e.2) d).entries = d.entries ++ rest by
    simpa [ofList, empty] using hs l empty (by simpa [empty] using h)
  intro rest
  induction rest with
  | nil => intro d _; simp
  | cons e rest ih =>
    intro d hd
    have hnew : e.1 ∉ d := by
      intro hm
      rw [List.map_append, List.nodup_append] at hd
      exact hd.2.2 _ hm _ (by simp) rfl
    have hi : (d.insert e.1 e.2).entries = d.entries ++ [e] := by simp [insert, hnew]
    rw [List.foldl_cons, ih _ (by simpa [hi] using hd), hi]
    simp

theorem ofList_entries (d : Dict κ α) : ofList d.entries = d := ext (entries_ofList d.nodup)

theorem ofList_append (l l' : List (κ × α)) : ofList (l ++ l') = l'.foldl (fun d e => d.insert e.1 e.2) (ofList l) :=
  List.foldl_append ..

/-- A dictionary holds one of the values its pairs give a key. -/
theorem mem_of_get?_ofList {l : List (κ × α)} {k : κ} {v : α} (h : (ofList l).get? k = some v) : (k,v) ∈ l := by
  induction l using List.reverseRecOn with
  | nil => cases h
  | append_singleton l e ih =>
    rw [ofList_append, List.foldl_cons, List.foldl_nil, get?_insert] at h
    rw [List.mem_append]
    split at h
    · next he =>
      cases h
      exact Or.inr (List.mem_singleton.mpr (Prod.ext he rfl))
    · exact Or.inl (ih h)

theorem mem_ofList {l : List (κ × α)} {k : κ} : k ∈ ofList l ↔ ∃ v, (k,v) ∈ l := by
  induction l using List.reverseRecOn with
  | nil => simp [ofList, mem_iff, keys, empty]
  | append_singleton l e ih =>
    rw [ofList_append, List.foldl_cons, List.foldl_nil, mem_insert, ih]
    constructor
    · rintro (rfl | ⟨v,hv⟩)
      · exact ⟨e.2,by simp⟩
      · exact ⟨v,List.mem_append_left _ hv⟩
    · rintro ⟨v,hv⟩
      rcases List.mem_append.mp hv with hv | hv
      · exact Or.inr ⟨v,hv⟩
      · exact Or.inl (congrArg Prod.fst (List.mem_singleton.mp hv))

/-- Pairs that agree on a key give it their value. -/
theorem get?_ofList_of_mem {l : List (κ × α)} {k : κ} {v : α} (h : (k,v) ∈ l) (hl : ∀ u, (k,u) ∈ l → u = v) :
    (ofList l).get? k = some v := by
  obtain ⟨u,hu⟩ := exists_get?_of_mem (mem_ofList.mpr ⟨v,h⟩)
  rw [hu, hl u (mem_of_get?_ofList hu)]

end Dict

end UnlearnShield
