import UnlearnShield.Python.Json

/-! # What storing a value does to its canonical text

The text of an object depends on its members and not on their order, so only a
change of keys or of nested values can change it. When a single member changes,
the texts agree exactly when the texts of that member do.
-/
namespace UnlearnShield.Json

theorem keyLe_total (a b : PyKey) : keyLe a b ∨ keyLe b a := by
  cases a with
  | int m =>
    cases b with
    | int n => exact le_total m n
    | str t => exact Or.inl trivial
  | str s =>
    cases b with
    | int n => exact Or.inr trivial
    | str t => exact le_total s t

theorem keyLe_trans {a b c : PyKey} (hab : keyLe a b) (hbc : keyLe b c) : keyLe a c := by
  cases a with
  | int m =>
    cases b with
    | int n =>
      cases c with
      | int o => exact le_trans (α := ℤ) hab hbc
      | str u => trivial
    | str t => cases c with
      | int o => exact hbc.elim
      | str u => trivial
  | str s =>
    cases b with
    | int n => exact hab.elim
    | str t => cases c with
      | int o => exact hbc.elim
      | str u => exact le_trans (α := String) hab hbc

theorem keyLe_antisymm {a b : PyKey} (hab : keyLe a b) (hba : keyLe b a) : a = b := by
  cases a with
  | int m =>
    cases b with
    | int n => exact congrArg PyKey.int (le_antisymm (α := ℤ) hab hba)
    | str t => exact hba.elim
  | str s =>
    cases b with
    | int n => exact hab.elim
    | str t => exact congrArg PyKey.str (le_antisymm (α := String) hab hba)

instance {α : Type} : Std.Total (itemLe (α := α)) := ⟨fun a b => keyLe_total a.1 b.1⟩
instance {α : Type} : IsTrans (PyKey × α) itemLe := ⟨fun _ _ _ => keyLe_trans⟩

section Sorting
variable {α : Type} {items items' : List (PyKey × α)}

/-- Members with distinct keys have one sorted order. -/
theorem eq_of_sorted (hs : items.Pairwise itemLe) (hs' : items'.Pairwise itemLe)
    (hn : (items.map Prod.fst).Nodup) (h : items.Perm items') : items = items' := by
  refine h.eq_of_pairwise ?_ hs hs'
  intro a b ha hb hab hba
  have hk : a.1 = b.1 := keyLe_antisymm hab hba
  exact List.inj_on_of_nodup_map hn ha (h.mem_iff.mpr hb) hk

theorem sortItems_perm (hn : (items.map Prod.fst).Nodup) (h : items.Perm items') :
    sortItems items = sortItems items' := by
  have hall : ∀ p : PyKey × α → Bool, items.all p = items'.all p := fun p => h.all_eq
  have hsort : items.insertionSort itemLe = items'.insertionSort itemLe := by
    have hp := (List.perm_insertionSort itemLe items).trans (h.trans (List.perm_insertionSort itemLe items').symm)
    refine eq_of_sorted (List.pairwise_insertionSort _ _) (List.pairwise_insertionSort _ _) ?_ hp
    exact ((List.perm_insertionSort itemLe items).map Prod.fst).nodup_iff.mpr hn
  unfold sortItems
  rw [hall, hall, hsort]

def OneKind (items : List (PyKey × α)) : Prop :=
  (∀ e ∈ items, isIntKey e.1 = true) ∨ ∀ e ∈ items, isIntKey e.1 = false

theorem sortItems_of_oneKind (h : OneKind items) : sortItems items = .ok (items.insertionSort itemLe) := by
  have hall : items.all (fun e => isIntKey e.1) = true ∨ items.all (fun e => !isIntKey e.1) = true := by
    unfold OneKind at h
    simpa only [List.all_eq_true, Bool.not_eq_eq_eq_not, Bool.not_true] using h
  rw [sortItems, if_pos hall]

end Sorting

theorem objectText_perm {items items' : List (PyKey × Py Text)} (hn : (items.map Prod.fst).Nodup)
    (h : items.Perm items') : objectText items = objectText items' := by
  unfold objectText
  rw [sortItems_perm hn h]

def memberText (e : PyKey × Text) : Text := quote (keyText e.1) ++ ':' :: e.2

theorem mapM_ok {α β : Type} (f : α → Py β) (g : α → β) {l : List α} (h : ∀ a ∈ l, f a = .ok (g a)) :
    l.mapM f = .ok (l.map g) := by
  induction l with
  | nil => rfl
  | cons a l ih =>
    have ha := h a List.mem_cons_self
    have hl := ih fun b hb => h b (List.mem_cons_of_mem a hb)
    rw [List.mapM_cons, ha, hl]
    rfl

theorem objectText_ok {items : List (PyKey × Text)} (h : OneKind items) :
    objectText (items.map fun e => (e.1,.ok e.2)) =
      .ok ('{' :: commaJoin ((items.insertionSort itemLe).map memberText) ++ ['}']) := by
  have hkind : OneKind (items.map fun e => (e.1,(.ok e.2 : Py Text))) := by
    rcases h with h | h
    · exact Or.inl (List.forall_mem_map.mpr h)
    · exact Or.inr (List.forall_mem_map.mpr h)
  have hmap := List.map_insertionSort itemLe itemLe (fun e : PyKey × Text => (e.1,(.ok e.2 : Py Text))) items
    fun _ _ _ _ => Iff.rfl
  have hparts : ((items.insertionSort itemLe).map fun e => (e.1,(.ok e.2 : Py Text))).mapM (fun e => do
      let t ← e.2
      pure (quote (keyText e.1) ++ ':' :: t)) = .ok ((items.insertionSort itemLe).map memberText) := by
    rw [List.mapM_map]
    exact mapM_ok _ memberText fun e _ => rfl
  unfold objectText
  rw [sortItems_of_oneKind hkind, ← hmap, ok_bind, hparts]
  rfl

@[simp] theorem dumps_str (s : String) : dumps (.str s) = .ok (quote s) := by rw [dumps]
@[simp] theorem dumps_int (n : ℤ) : dumps (.int n) = .ok (toString n).toList := by rw [dumps]
@[simp] theorem reload_str (O : ObjectOrder) (s : String) : reload O (.str s) = .str s := by simp [reload]
@[simp] theorem reload_int (O : ObjectOrder) (n : ℤ) : reload O (.int n) = .int n := by simp [reload]

theorem dumpsPairs_eq_map (pairs : List (PyKey × PyVal)) :
    dumpsPairs pairs = pairs.map fun e => (e.1,dumps e.2) := by
  induction pairs with
  | nil => rw [dumpsPairs]; rfl
  | cons e pairs ih =>
    obtain ⟨k,v⟩ := e
    rw [dumpsPairs, ih]
    rfl

theorem reloadPairs_eq_map (O : ObjectOrder) (pairs : List (PyKey × PyVal)) :
    reloadPairs O pairs = pairs.map fun e => (e.1,reload O e.2) := by
  induction pairs with
  | nil => rw [reloadPairs]; rfl
  | cons e pairs ih =>
    obtain ⟨k,v⟩ := e
    rw [reloadPairs, ih]
    rfl

theorem dumps_dict {pairs : List (PyKey × PyVal)} (hn : (pairs.map Prod.fst).Nodup) :
    dumps (.dict pairs) = objectText (pairs.map fun e => (e.1,dumps e.2)) := by
  have hk : ((pairs.map fun e => (e.1,dumps e.2)).map Prod.fst).Nodup := by
    rw [List.map_map]
    exact hn
  rw [dumps, dumpsPairs_eq_map, Dict.entries_ofList hk]

theorem items_of_nodup {pairs : List (PyKey × PyVal)} (hn : (pairs.map Prod.fst).Nodup) :
    PyVal.items pairs = pairs := Dict.entries_ofList hn

/-- A stored object: string keys, stored values, in the order of the store. -/
theorem storedPairs_perm (O : ObjectOrder) {pairs : List (PyKey × PyVal)} (hn : (pairs.map Prod.fst).Nodup)
    (ht : (pairs.map fun e => keyText e.1).Nodup) :
    (storedPairs O pairs).Perm (pairs.map fun e => (.str (keyText e.1),reload O e.2)) ∧
      ((storedPairs O pairs).map Prod.fst).Nodup := by
  have hk : ((pairs.map fun e => (e.1,reload O e.2)).map Prod.fst).Nodup := by
    rw [List.map_map]
    exact hn
  have hs : ((pairs.map fun e => (PyKey.str (keyText e.1),reload O e.2)).map Prod.fst).Nodup := by
    have hm := ht.map (f := PyKey.str) fun _ _ h => PyKey.str.inj h
    rw [List.map_map] at hm ⊢
    exact hm
  have hp : (storedPairs O pairs).Perm (pairs.map fun e => (.str (keyText e.1),reload O e.2)) := by
    rw [storedPairs, reloadPairs_eq_map, items_of_nodup hk, List.map_map]
    refine (O.perm _).trans ?_
    have hi : PyVal.items (pairs.map (stringKey ∘ fun e => (e.1,reload O e.2))) =
        pairs.map fun e => (.str (keyText e.1),reload O e.2) := items_of_nodup hs
    rw [hi]
  exact ⟨hp,(hp.map Prod.fst).nodup_iff.mpr hs⟩

/-- An object with string keys keeps its keys. -/
theorem storedPairs_perm_of_str (O : ObjectOrder) {pairs : List (PyKey × PyVal)} (hn : (pairs.map Prod.fst).Nodup)
    (hs : ∀ e ∈ pairs, .str (keyText e.1) = e.1) :
    (storedPairs O pairs).Perm (pairs.map fun e => (e.1,reload O e.2)) ∧
      ((storedPairs O pairs).map Prod.fst).Nodup := by
  have hstr : (pairs.map fun e => PyKey.str (keyText e.1)) = pairs.map Prod.fst := List.map_congr_left hs
  have hkeys : (pairs.map fun e => keyText e.1).Nodup := by
    refine List.Nodup.of_map PyKey.str ?_
    rw [List.map_map]
    exact hstr ▸ hn
  have he : (pairs.map fun e => (PyKey.str (keyText e.1),reload O e.2)) = pairs.map fun e => (e.1,reload O e.2) :=
    List.map_congr_left fun e hm => by rw [hs e hm]
  have hp := storedPairs_perm O hn hkeys
  rwa [he] at hp

theorem dumps_perm {pairs pairs' : List (PyKey × PyVal)} (hn : (pairs.map Prod.fst).Nodup)
    (h : pairs.Perm pairs') : dumps (.dict pairs) = dumps (.dict pairs') := by
  have hn' := (h.map Prod.fst).nodup_iff.mp hn
  have hk : ((pairs.map fun e => (e.1,dumps e.2)).map Prod.fst).Nodup := by
    rw [List.map_map]
    exact hn
  rw [dumps_dict hn, dumps_dict hn', objectText_perm hk (h.map _)]

theorem dumps_reload_dict (O : ObjectOrder) {pairs : List (PyKey × PyVal)} (hn : (pairs.map Prod.fst).Nodup)
    (ht : (pairs.map fun e => keyText e.1).Nodup) :
    dumps (reload O (.dict pairs)) =
      objectText (pairs.map fun e => (.str (keyText e.1),dumps (reload O e.2))) := by
  obtain ⟨hp,hs⟩ := storedPairs_perm O hn ht
  have hs' := (hp.map Prod.fst).nodup_iff.mp hs
  rw [reload_eq_storedPairs, dumps_perm hs hp, dumps_dict hs', List.map_map]
  rfl

theorem commaJoin_cons (t : Text) (rest : List Text) :
    commaJoin (t :: rest) = t ++ rest.flatMap fun u => ',' :: u := by
  induction rest generalizing t with
  | nil => simp [commaJoin]
  | cons u rest ih => rw [commaJoin, ih, List.flatMap_cons, List.cons_append]

/-- Replacing one part of a joined text changes it exactly when the part changes. -/
theorem commaJoin_inj (a b : List Text) {t u : Text} :
    commaJoin (a ++ t :: b) = commaJoin (a ++ u :: b) ↔ t = u := by
  cases a with
  | nil =>
    rw [List.nil_append, List.nil_append, commaJoin_cons, commaJoin_cons]
    exact List.append_left_inj _
  | cons c a =>
    simp only [List.cons_append, commaJoin_cons, List.flatMap_append, List.flatMap_cons, List.append_cancel_left_eq,
      List.cons.injEq, true_and]
    exact List.append_left_inj _

theorem memberText_inj {k : PyKey} {t u : Text} : memberText (k,t) = memberText (k,u) ↔ t = u := by
  simp [memberText]

def setMember (k : PyKey) (t : Text) (e : PyKey × Text) : PyKey × Text := if e.1 = k then (k,t) else e

theorem setMember_fst (k : PyKey) (t : Text) (e : PyKey × Text) : (setMember k t e).1 = e.1 := by
  unfold setMember
  split
  · next h => exact h.symm
  · rfl

theorem map_setMember_of_ne {k : PyKey} {t : Text} {items : List (PyKey × Text)} (h : ∀ e ∈ items, e.1 ≠ k) :
    items.map (setMember k t) = items := by
  have hid : items.map (setMember k t) = items.map id := List.map_congr_left fun e he => if_neg (h e he)
  rw [hid, List.map_id]

theorem OneKind.setMember {items : List (PyKey × Text)} (h : OneKind items) (k : PyKey) (t : Text) :
    OneKind (items.map (setMember k t)) := by
  rcases h with h | h
  · exact Or.inl (List.forall_mem_map.mpr fun e he => by rw [setMember_fst]; exact h e he)
  · exact Or.inr (List.forall_mem_map.mpr fun e he => by rw [setMember_fst]; exact h e he)

theorem objectText_setMember {items : List (PyKey × Text)} {k : PyKey} {t u : Text}
    (hn : (items.map Prod.fst).Nodup) (hkind : OneKind items) (hk : (k,t) ∈ items) :
    objectText ((items.map (setMember k u)).map fun e => (e.1,.ok e.2)) =
      objectText (items.map fun e => (e.1,.ok e.2)) ↔ u = t := by
  have hmap := List.map_insertionSort itemLe itemLe (setMember k u) items
    fun a _ b _ => by unfold itemLe; rw [setMember_fst, setMember_fst]
  obtain ⟨a,b,hab⟩ := List.append_of_mem ((List.mem_insertionSort itemLe).mpr hk)
  have hn' : ((a ++ (k,t) :: b).map Prod.fst).Nodup := by
    rw [← hab]
    exact ((List.perm_insertionSort itemLe items).map Prod.fst).nodup_iff.mpr hn
  rw [List.map_append, List.map_cons, List.nodup_append, List.nodup_cons] at hn'
  obtain ⟨-,⟨hkb,-⟩,hka⟩ := hn'
  have ha : a.map (setMember k u) = a :=
    map_setMember_of_ne fun e he => hka e.1 (List.mem_map_of_mem he) k List.mem_cons_self
  have hb : b.map (setMember k u) = b := by
    apply map_setMember_of_ne
    rintro e he rfl
    have hm : e.1 ∈ b.map Prod.fst := List.mem_map_of_mem he
    exact hkb hm
  have hset : (items.map (setMember k u)).insertionSort itemLe = a ++ (k,u) :: b := by
    rw [← hmap, hab, List.map_append, List.map_cons, ha, hb, setMember, if_pos rfl]
  rw [objectText_ok (hkind.setMember k u), objectText_ok hkind, hset, hab]
  simp only [Except.ok.injEq, List.cons_append, List.cons.injEq, true_and, List.append_left_inj, List.map_append,
    List.map_cons]
  rw [commaJoin_inj, memberText_inj]

def textOf (v : PyVal) : Text :=
  match dumps v with
  | .ok t => t
  | .error _ => []

theorem textOf_eq {v : PyVal} {t : Text} (h : dumps v = .ok t) : textOf v = t := by
  rw [textOf, h]

theorem dumps_eq_ok {pairs : List (PyKey × PyVal)} (hn : (pairs.map Prod.fst).Nodup)
    (ho : ∀ e ∈ pairs, ∃ t, dumps e.2 = .ok t) :
    dumps (.dict pairs) = objectText ((pairs.map fun e => (e.1,textOf e.2)).map fun e => (e.1,.ok e.2)) := by
  rw [dumps_dict hn, List.map_map]
  congr 1
  apply List.map_congr_left
  intro e he
  obtain ⟨t,ht⟩ := ho e he
  simp only [Function.comp_apply, ht, textOf_eq ht]

/-- When storing changes at most the member `k` of an object with string keys, the canonical
text survives exactly when the text of that member does. -/
theorem dumps_reload_member (O : ObjectOrder) {pairs : List (PyKey × PyVal)} {k : PyKey} {v : PyVal}
    {t t' : Text} (hn : (pairs.map Prod.fst).Nodup) (hs : ∀ e ∈ pairs, .str (keyText e.1) = e.1)
    (hk : (k,v) ∈ pairs) (hv : dumps v = .ok t) (hv' : dumps (reload O v) = .ok t')
    (ho : ∀ e ∈ pairs, e.1 ≠ k → reload O e.2 = e.2 ∧ ∃ u, dumps e.2 = .ok u) :
    (∃ u, dumps (.dict pairs) = .ok u) ∧ (∃ u, dumps (reload O (.dict pairs)) = .ok u) ∧
    (dumps (reload O (.dict pairs)) = dumps (.dict pairs) ↔ t' = t) := by
  have hsame : ∀ e ∈ pairs, e.1 = k → e = (k,v) := fun e he hek => List.inj_on_of_nodup_map hn he hk hek
  have hstr : (pairs.map fun e => PyKey.str (keyText e.1)) = pairs.map Prod.fst := List.map_congr_left hs
  have hkeys : (pairs.map fun e => keyText e.1).Nodup := by
    refine List.Nodup.of_map PyKey.str ?_
    rw [List.map_map]
    exact hstr ▸ hn
  have hdumps := dumps_eq_ok hn fun e he => by
    by_cases hek : e.1 = k
    · exact ⟨t,hsame e he hek ▸ hv⟩
    · exact (ho e he hek).2
  let items := pairs.map fun e => (e.1,textOf e.2)
  have hitems : items.map Prod.fst = pairs.map Prod.fst := by
    rw [List.map_map]
    rfl
  have hreload : dumps (reload O (.dict pairs)) =
    objectText ((items.map (setMember k t')).map fun e => (e.1,.ok e.2)) := by
    rw [dumps_reload_dict O hn hkeys, List.map_map, List.map_map]
    congr 1
    apply List.map_congr_left
    intro e he
    by_cases hek : e.1 = k
    · obtain rfl := hsame e he hek
      simp only [Function.comp_apply, setMember, if_pos, hv', hs _ he]
    · obtain ⟨hr,u,hu⟩ := ho e he hek
      simp only [Function.comp_apply, setMember, if_neg hek, hr, hu, textOf_eq hu, hs e he]
  have hkind : OneKind items := by
    right
    intro e he
    obtain ⟨e',he',rfl⟩ := List.mem_map.mp he
    change isIntKey e'.1 = false
    rw [← hs e' he']
    rfl
  have hmem : (k,t) ∈ items := List.mem_map.mpr ⟨(k,v),hk,Prod.ext rfl (textOf_eq hv)⟩
  refine ⟨⟨_,hdumps.trans (objectText_ok hkind)⟩,⟨_,hreload.trans (objectText_ok (hkind.setMember k t'))⟩,?_⟩
  rw [hreload, hdumps]
  exact objectText_setMember (hitems ▸ hn) hkind hmem

end UnlearnShield.Json
