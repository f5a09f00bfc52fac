import UnlearnShield.Library.Delimited
import UnlearnShield.Python.JsonText

/-! # The canonical text determines the value

Two values with one canonical text are one value once they are stored: the same lists, the
same strings and numbers, and objects with the same members. Strings are read back
character by character, numbers and constants up to a delimiter, and lists and objects
member by member.
-/
namespace UnlearnShield
namespace Json
open Delimited

section Strings

def hexValue (c : Char) : ℕ := if c.isDigit then c.toNat - 48 else c.toNat - 87

def readHex4 : Text → Option (ℕ × Text)
  | '\\' :: 'u' :: a :: b :: c :: d :: rest =>
    some (((hexValue a * 16 + hexValue b) * 16 + hexValue c) * 16 + hexValue d,rest)
  | _ => none

def unescape : Char → Option Char
  | '"' => some '"'
  | '\\' => some '\\'
  | 'n' => some '\n'
  | 'r' => some '\r'
  | 't' => some '\t'
  | 'b' => some '\x08'
  | 'f' => some '\x0c'
  | _ => none

def readPlain : Text → Option (Char × Text)
  | '\\' :: c :: rest => (unescape c).map fun c => (c,rest)
  | '"' :: _ => none
  | c :: rest => some (c,rest)
  | [] => none

def readChar (text : Text) : Option (Char × Text) :=
  match readHex4 text with
  | some (n,rest) =>
    if 0xd800 ≤ n ∧ n < 0xdc00 then
      (readHex4 rest).map fun low => (Char.ofNat (0x10000 + (n - 0xd800) * 0x400 + (low.1 - 0xdc00)),low.2)
    else some (Char.ofNat n,rest)
  | none => readPlain text

theorem hexValue_digitChar : ∀ n < 16, hexValue (Nat.digitChar n) = n := by decide

theorem readHex4_hex4 {n : ℕ} (h : n < 65536) (rest : Text) : readHex4 (hex4 n ++ rest) = some (n,rest) := by
  have hdigit : ∀ m, hexValue (Nat.digitChar (m % 16)) = m % 16 :=
    fun m => hexValue_digitChar _ (Nat.mod_lt _ (by decide))
  have hvalue : ((n / 4096 % 16 * 16 + n / 256 % 16) * 16 + n / 16 % 16) * 16 + n % 16 = n := by omega
  simp only [hex4, List.map_cons, List.map_nil, List.cons_append, List.nil_append, readHex4, hdigit, hvalue]

/-- A scalar value is no surrogate. -/
theorem readChar_hex4 {c : Char} (h : c.toNat < 65536) (rest : Text) :
    readChar (hex4 c.toNat ++ rest) = some (c,rest) := by
  have hvalid : ¬(0xd800 ≤ c.toNat ∧ c.toNat < 0xdc00) := by
    have hc := c.valid
    simp only [UInt32.isValidChar, Nat.isValidChar] at hc
    have : c.toNat = c.val.toNat := rfl
    omega
  unfold readChar
  rw [readHex4_hex4 h]
  dsimp only
  rw [if_neg hvalid, Char.ofNat_toNat]

theorem readChar_pair {c : Char} (h : 65536 ≤ c.toNat) (rest : Text) :
    readChar (hex4 (0xd800 + (c.toNat - 0x10000) / 0x400) ++ hex4 (0xdc00 + (c.toNat - 0x10000) % 0x400) ++ rest) =
      some (c,rest) := by
  have hc := c.valid
  simp only [UInt32.isValidChar, Nat.isValidChar] at hc
  have hsame : c.toNat = c.val.toNat := rfl
  have hhigh : 0xd800 + (c.toNat - 0x10000) / 0x400 < 0xdc00 := by omega
  have hlow : 0xdc00 + (c.toNat - 0x10000) % 0x400 < 65536 := by omega
  have hback : 0x10000 + (0xd800 + (c.toNat - 0x10000) / 0x400 - 0xd800) * 0x400 +
    (0xdc00 + (c.toNat - 0x10000) % 0x400 - 0xdc00) = c.toNat := by
    omega
  unfold readChar
  rw [List.append_assoc, readHex4_hex4 (by omega)]
  dsimp only
  rw [if_pos ⟨by omega,hhigh⟩, readHex4_hex4 hlow, Option.map_some, hback, Char.ofNat_toNat]

theorem readChar_plain {c : Char}
    (hquote : c ≠ '"') (hback : c ≠ '\\') (rest : Text) : readChar (c :: rest) = some (c,rest) := by
  have hhex : readHex4 (c :: rest) = none := by
    unfold readHex4
    split
    · next heq => exact absurd (List.cons.inj heq).1 hback
    · rfl
  have hplain : readPlain (c :: rest) = some (c,rest) := by
    unfold readPlain
    split
    · next heq => exact absurd (List.cons.inj heq).1 hback
    · next heq => exact absurd (List.cons.inj heq).1 hquote
    · next heq =>
      obtain ⟨rfl,rfl⟩ := List.cons.inj heq
      rfl
    · next heq => cases heq
  unfold readChar
  rw [hhex, hplain]

/-- A character is read back from its escape. -/
theorem readChar_escapeChar (c : Char) (rest : Text) : readChar (escapeChar c ++ rest) = some (c,rest) := by
  unfold escapeChar
  split
  · next h => subst h; rfl
  split
  · next h => subst h; rfl
  split
  · next h => subst h; rfl
  split
  · next h => subst h; rfl
  split
  · next h => subst h; rfl
  split
  · next h => subst h; rfl
  split
  · next h => subst h; rfl
  split
  · next hquote hback _ _ _ _ _ _ => exact readChar_plain hquote hback rest
  split
  · next h => exact readChar_hex4 h rest
  · next h => exact readChar_pair (by omega) rest

theorem readChar_quote (rest : Text) : readChar ('"' :: rest) = none := rfl

/-- A string is read back up to its closing quote. -/
theorem quote_cancel {s t : String} {r r' : Text} (h : quote s ++ r = quote t ++ r') : s = t ∧ r = r' := by
  have hbody : s.toList.flatMap escapeChar ++ '"' :: r = t.toList.flatMap escapeChar ++ '"' :: r' := by
    simpa [quote] using h
  obtain ⟨hchars,hrest⟩ := flatMap_cancel readChar_escapeChar readChar_quote hbody
  exact ⟨String.toList_injective hchars,hrest⟩

end Strings

section Scalars

def delimiters : Text := [',', ']', '}']

def floatChars : Text :=
  ['0', '1', '2', '3', '4', '5', '6', '7', '8', '9', '+', '-', '.', 'e', 'I', 'N', 'i', 'n', 'f', 't', 'y', 'a']

/-- What `float.__repr__` writes is no constant and no integer. -/
def FloatText (s : String) : Prop := (∀ c ∈ s.toList, c ∈ floatChars) ∧ s ≠ "" ∧ s.isInt = false

instance (s : String) : Decidable (FloatText s) := by
  unfold FloatText
  infer_instance

inductive Printable : PyVal → Prop
  | none : Printable .none
  | bool (b : Bool) : Printable (.bool b)
  | int (n : ℤ) : Printable (.int n)
  | float {repr : String} (h : FloatText repr) : Printable (.float repr)
  | str (s : String) : Printable (.str s)
  | list {xs : List PyVal} (h : ∀ x ∈ xs, Printable x) : Printable (.list xs)
  | dict {pairs : List (PyKey × PyVal)} (h : ∀ e ∈ pairs, Printable e.2) : Printable (.dict pairs)

def scalarText : PyVal → Option Text
  | .none => some "null".toList
  | .bool b => some (if b then "true" else "false").toList
  | .int n => some (toString n).toList
  | .float repr => some repr.toList
  | _ => none

def readScalar (text : Text) : PyVal :=
  if text = "null".toList then .none
  else if text = "true".toList then .bool true
  else if text = "false".toList then .bool false
  else if (String.ofList text).isInt then .int ((String.ofList text).toInt?.getD 0)
  else .float (String.ofList text)

variable {v w : PyVal} {t u : Text}

theorem dumps_of_scalar (h : scalarText v = some t) : dumps v = .ok t := by
  cases v with
  | none | bool _ | int _ | float _ => rw [← Option.some.inj h, dumps]
  | str _ | list _ | dict _ => cases h

theorem int_chars {n : ℤ} {c : Char} (h : c ∈ (toString n).toList) : c.isDigit = true ∨ c = '-' := by
  have hnat : ∀ m : ℕ, c ∈ m.repr.toList → c.isDigit = true := fun m hm =>
    Nat.isDigit_of_mem_toDigits (b := 10) (by decide) le_rfl (by simpa using hm)
  rw [Int.toString_eq_repr, Int.repr_eq_if] at h
  split at h
  · exact Or.inl (hnat _ h)
  · rw [String.toList_append, List.mem_append] at h
    rcases h with h | h
    · exact Or.inr (by simpa using h)
    · exact Or.inl (hnat _ h)

/-- Constants and numbers hold no delimiter, and open nothing. -/
theorem scalar_chars (hv : Printable v) (h : scalarText v = some t) : t ≠ [] ∧ ∀ c ∈ t, c ∉ delimiters ∧
    c ∉ ['"', '[', '{'] := by
  cases hv with
  | none =>
    rw [← Option.some.inj h]
    simp [delimiters]
  | bool b =>
    rw [← Option.some.inj h]
    cases b with
    | true => simp [delimiters]
    | false => simp [delimiters]
  | int n =>
    rw [← Option.some.inj h]
    refine ⟨fun hnil => ?_,fun c hc => ?_⟩
    · rw [Int.toString_eq_repr, Int.repr_eq_if] at hnil
      split at hnil
      · exact Nat.repr_ne_empty (String.toList_injective hnil)
      · rw [String.toList_append] at hnil
        cases hnil
    · have hne : ∀ d ∈ delimiters ++ ['"', '[', '{'], d.isDigit = false ∧ d ≠ '-' := by simp [delimiters]
      have hc' : c ∉ delimiters ++ ['"', '[', '{'] := by
        intro hin
        rcases int_chars hc with hdigit | hminus
        · exact absurd hdigit (Bool.eq_false_iff.mp (hne c hin).1)
        · exact (hne c hin).2 hminus
      exact not_or.mp fun h => hc' (List.mem_append.mpr h)
  | float hfloat =>
    rw [← Option.some.inj h]
    refine ⟨fun hnil => hfloat.2.1 (String.toList_injective hnil),fun c hc => ?_⟩
    have hall : ∀ c ∈ floatChars, c ∉ delimiters ∧ c ∉ ['"', '[', '{'] := by simp [floatChars, delimiters]
    exact hall c (hfloat.1 c hc)
  | str s | list _ | dict _ => cases h

/-- A constant or a number is read back from its text. -/
theorem readScalar_scalarText (hv : Printable v) (h : scalarText v = some t) : readScalar t = v := by
  have hnumber : (∀ c ∈ t, c.isDigit = true ∨ c = '-' ∨ c ∈ floatChars) →
    t ≠ "null".toList ∧ t ≠ "true".toList ∧ t ≠ "false".toList := by
    intro hall
    have hapart : ∀ (c : Char), c.isDigit = false → c ≠ '-' → c ∉ floatChars → c ∉ t := by
      intro c hdigit hminus hfloat hc
      rcases hall c hc with h | h | h
      · exact absurd h (Bool.eq_false_iff.mp hdigit)
      · exact hminus h
      · exact hfloat h
    have hu : 'u' ∉ t := hapart 'u' rfl (by decide) (by simp [floatChars])
    have hs : 's' ∉ t := hapart 's' rfl (by decide) (by simp [floatChars])
    refine ⟨fun heq => hu ?_,fun heq => hu ?_,fun heq => hs ?_⟩
    · simp [heq]
    · simp [heq]
    · simp [heq]
  cases hv with
  | none =>
    rw [← Option.some.inj h]
    rfl
  | bool b =>
    rw [← Option.some.inj h]
    cases b with
    | true => simp [readScalar]
    | false => simp [readScalar]
  | int n =>
    obtain rfl := Option.some.inj h
    obtain ⟨hnull,htrue,hfalse⟩ := hnumber fun c hc => (int_chars hc).imp_right Or.inl
    have hint : (toString n).isInt = true := Int.isInt_repr n
    have hvalue : (toString n).toInt? = some n := Int.toInt?_repr n
    rw [readScalar, if_neg hnull, if_neg htrue, if_neg hfalse, String.ofList_toList, if_pos hint, hvalue,
      Option.getD_some]
  | float hfloat =>
    obtain rfl := Option.some.inj h
    obtain ⟨hnull,htrue,hfalse⟩ := hnumber fun c hc => Or.inr (Or.inr (hfloat.1 c hc))
    rw [readScalar, if_neg hnull, if_neg htrue, if_neg hfalse, String.ofList_toList, hfloat.2.2,
      if_neg Bool.false_ne_true]
  | str s | list _ | dict _ => cases h

end Scalars

section Objects

theorem entries_ofList_map {κ α β : Type} [DecidableEq κ] (f : α → β) (l : List (κ × α)) :
    (Dict.ofList (l.map fun e => (e.1,f e.2))).entries = (Dict.ofList l).entries.map fun e => (e.1,f e.2) := by
  have hinsert : ∀ (d : Dict κ α) (d' : Dict κ β) (k : κ) (v : α), d'.entries = d.entries.map (fun e => (e.1,f e.2)) →
      (d'.insert k (f v)).entries = (d.insert k v).entries.map fun e => (e.1,f e.2) := by
    intro d d' k v h
    have hkeys : k ∈ d' ↔ k ∈ d := by
      rw [Dict.mem_iff, Dict.mem_iff, Dict.keys, Dict.keys, h, List.map_map]
      rfl
    by_cases hk : k ∈ d
    · rw [Dict.insert, dif_pos (hkeys.mpr hk), Dict.insert, dif_pos hk]
      dsimp only
      rw [h, List.map_map, List.map_map]
      refine List.map_congr_left fun e _ => ?_
      by_cases he : e.1 = k
      · simp [he]
      · simp [he]
    · rw [Dict.insert, dif_neg (hkeys.not.mpr hk), Dict.insert, dif_neg hk]
      dsimp only
      rw [h, List.map_append]
      rfl
  induction l using List.reverseRecOn with
  | nil => rfl
  | append_singleton l e ih =>
    rw [List.map_append, Dict.ofList_append, Dict.ofList_append]
    exact hinsert _ _ e.1 e.2 ih

variable {v w : PyVal} {xs : List PyVal} {pairs : List (PyKey × PyVal)} {t : Text}

theorem dumpsList_eq_mapM (xs : List PyVal) : dumpsList xs = xs.mapM dumps := by
  induction xs with
  | nil => rw [dumpsList, List.mapM_nil]; rfl
  | cons x xs ih => rw [dumpsList, List.mapM_cons, ih]

/-- The text of a list is that of its members between commas. -/
theorem dumps_list_eq_ok (h : dumps (.list xs) = .ok t) :
    (∀ x ∈ xs, ∃ u, dumps x = .ok u) ∧ t = '[' :: commaJoin (xs.map textOf) ++ [']'] := by
  rw [dumps, dumpsList_eq_mapM] at h
  obtain ⟨ts,hts,ht⟩ := bind_eq_ok.mp h
  have hmap := mapM_eq_ok.mp hts
  have hsome : ∀ x ∈ xs, ∃ u, dumps x = .ok u := by
    intro x hx
    have hin : dumps x ∈ ts.map Except.ok := hmap ▸ List.mem_map_of_mem hx
    obtain ⟨u,-,hu⟩ := List.mem_map.mp hin
    exact ⟨u,hu.symm⟩
  have htexts : (xs.map textOf).map (Except.ok : Text → Py Text) = ts.map Except.ok := by
    rw [← hmap, List.map_map]
    refine List.map_congr_left fun x hx => ?_
    obtain ⟨u,hu⟩ := hsome x hx
    rw [Function.comp_apply, textOf_eq hu, hu]
  rw [List.map_injective_iff.mpr (fun _ _ heq => Except.ok.inj heq) htexts]
  exact ⟨hsome,(Except.ok.inj ht).symm⟩

def sortedMembers (pairs : List (PyKey × PyVal)) : List (PyKey × PyVal) := (PyVal.items pairs).insertionSort itemLe

theorem mem_sortedMembers {e : PyKey × PyVal} : e ∈ sortedMembers pairs ↔ e ∈ PyVal.items pairs :=
  (List.perm_insertionSort itemLe _).mem_iff

theorem mem_of_mem_items {e : PyKey × PyVal} (h : e ∈ PyVal.items pairs) : e ∈ pairs :=
  Dict.mem_of_get?_ofList (Dict.get?_eq_some.mpr h)

def textOfMember (e : PyKey × PyVal) : Text := memberText (e.1,textOf e.2)

/-- The text of an object is that of its members, sorted and between commas. -/
theorem dumps_dict_eq_ok (h : dumps (.dict pairs) = .ok t) : OneKind (PyVal.items pairs) ∧
    (∀ e ∈ sortedMembers pairs, ∃ u, dumps e.2 = .ok u) ∧
    t = '{' :: commaJoin ((sortedMembers pairs).map textOfMember) ++ ['}'] := by
  rw [dumps, dumpsPairs_eq_map, entries_ofList_map] at h
  obtain ⟨sorted,hsorted,h⟩ := bind_eq_ok.mp h
  obtain ⟨parts,hparts,ht⟩ := bind_eq_ok.mp h
  unfold sortItems at hsorted
  split at hsorted
  · next hall =>
    have hkind : OneKind (PyVal.items pairs) := by
      rw [List.all_map, List.all_map, List.all_eq_true, List.all_eq_true] at hall
      exact hall.imp_right fun hstr e he => by simpa using hstr e he
    have hmap : ((PyVal.items pairs).map fun e => (e.1,dumps e.2)).insertionSort itemLe =
      (sortedMembers pairs).map fun e => (e.1,dumps e.2) :=
      (List.map_insertionSort itemLe itemLe (fun e : PyKey × PyVal => (e.1,dumps e.2)) (PyVal.items pairs)
        fun _ _ _ _ => Iff.rfl).symm
    rw [← Except.ok.inj hsorted, show (Dict.ofList pairs).entries = PyVal.items pairs from rfl, hmap] at hparts
    have hmembers := mapM_eq_ok.mp hparts
    rw [List.map_map] at hmembers
    have hsome : ∀ e ∈ sortedMembers pairs, ∃ u, dumps e.2 = .ok u := by
      intro e he
      have hin := List.mem_map_of_mem (f := (fun e : PyKey × Py Text => (do
        let t ← e.2
        pure (quote (keyText e.1) ++ ':' :: t) : Py Text)) ∘ fun e : PyKey × PyVal => (e.1,dumps e.2)) he
      rw [hmembers] at hin
      obtain ⟨part,-,hpart⟩ := List.mem_map.mp hin
      obtain ⟨u,hu,-⟩ := bind_eq_ok.mp hpart.symm
      exact ⟨u,hu⟩
    have hparts' : ((sortedMembers pairs).map textOfMember).map (Except.ok : Text → Py Text) = parts.map Except.ok := by
      rw [← hmembers, List.map_map]
      refine List.map_congr_left fun e he => ?_
      obtain ⟨u,hu⟩ := hsome e he
      rw [Function.comp_apply, Function.comp_apply, textOfMember, textOf_eq hu]
      dsimp only
      rw [hu]
      rfl
    rw [List.map_injective_iff.mpr (fun _ _ heq => Except.ok.inj heq) hparts']
    exact ⟨hkind,hsome,(Except.ok.inj ht).symm⟩
  · cases hsorted

theorem keyText_inj {k k' : PyKey} (hkind : isIntKey k = isIntKey k') (h : keyText k = keyText k') : k = k' := by
  cases k with
  | int n =>
    cases k' with
    | int n' => exact congrArg PyKey.int (Int.repr_injective h)
    | str s' => cases hkind
  | str s =>
    cases k' with
    | int n' => cases hkind
    | str s' => exact congrArg PyKey.str h

def ObjectOrder.sorted : ObjectOrder := ⟨List.insertionSort itemLe,List.perm_insertionSort itemLe⟩

/-- The value as it is read back, the members of its objects sorted. -/
def canonical (v : PyVal) : PyVal := reload .sorted v

theorem reloadList_eq_map (O : ObjectOrder) (xs : List PyVal) : reloadList O xs = xs.map (reload O) := by
  induction xs with
  | nil => simp [reloadList]
  | cons x xs ih => simp [reloadList, ih]

theorem canonical_list (xs : List PyVal) : canonical (.list xs) = .list (xs.map canonical) := by
  rw [canonical, reload, reloadList_eq_map]
  rfl

theorem canonical_scalar (h : scalarText v = some t) : canonical v = v := by
  cases v with
  | none | bool _ | int _ | float _ => simp [canonical, reload]
  | str _ | list _ | dict _ => cases h

/-- An object is read back from what is read of its members. -/
theorem canonical_dict (hkind : OneKind (PyVal.items pairs)) : canonical (.dict pairs) =
    .dict (((sortedMembers pairs).map fun e => (PyKey.str (keyText e.1),canonical e.2)).insertionSort itemLe) := by
  let read := (PyVal.items pairs).map fun e => (PyKey.str (keyText e.1),canonical e.2)
  have hkeys : (read.map Prod.fst).Nodup := by
    rw [List.map_map]
    refine List.Nodup.map_on ?_ (Dict.ofList pairs).nodup.of_map
    intro e he e' he' heq
    have hsame : isIntKey e.1 = isIntKey e'.1 := by
      rcases hkind with hint | hstr
      · rw [hint e he, hint e' he']
      · rw [hstr e he, hstr e' he']
    exact List.inj_on_of_nodup_map (Dict.ofList pairs).nodup he he' (keyText_inj hsame (PyKey.str.inj heq))
  have hread : (PyVal.items (reloadPairs .sorted pairs)).map stringKey = read := by
    rw [reloadPairs_eq_map, PyVal.items, entries_ofList_map, List.map_map]
    rfl
  have hperm : read.Perm ((sortedMembers pairs).map fun e => (PyKey.str (keyText e.1),canonical e.2)) :=
    (List.perm_insertionSort itemLe (PyVal.items pairs)).symm.map _
  have hsorted : read.insertionSort itemLe =
    ((sortedMembers pairs).map fun e => (PyKey.str (keyText e.1),canonical e.2)).insertionSort itemLe := by
    have hboth := (List.perm_insertionSort itemLe read).trans (hperm.trans (List.perm_insertionSort itemLe _).symm)
    refine eq_of_sorted (List.pairwise_insertionSort _ _) (List.pairwise_insertionSort _ _) ?_ hboth
    exact ((List.perm_insertionSort itemLe read).map Prod.fst).nodup_iff.mpr hkeys
  rw [canonical, reload_eq_storedPairs, storedPairs, hread, items_of_nodup hkeys]
  exact congrArg PyVal.dict hsorted

end Objects

section Values
variable {v w : PyVal} {t u : Text}

def opening : PyVal → Option Char
  | .str _ => some '"'
  | .list _ => some '['
  | .dict _ => some '{'
  | _ => none

/-- A text begins with the symbol of its value, or with one that opens nothing. -/
def Opens (v : PyVal) (t : Text) : Prop := ∃ c rest, t = c :: rest ∧ c ∉ delimiters ∧
    (if c ∈ ['"', '[', '{'] then some c else none) = opening v

theorem opening_of_scalar (h : scalarText v = some t) : opening v = none := by
  cases v <;> first
    | rfl
    | cases h

theorem opens_of_scalar (hv : Printable v) (h : scalarText v = some t) : Opens v t := by
  obtain ⟨hne,hchars⟩ := scalar_chars hv h
  obtain ⟨c,rest,rfl⟩ := List.exists_cons_of_ne_nil hne
  obtain ⟨hdelimiter,hopening⟩ := hchars c List.mem_cons_self
  refine ⟨c,rest,rfl,hdelimiter,?_⟩
  rw [if_neg hopening, opening_of_scalar h]

theorem opens_of_dumps (hv : Printable v) (h : dumps v = .ok t) : Opens v t := by
  have hscalar : ∀ u, scalarText v = some u → Opens v t := by
    intro u hu
    rw [← Except.ok.inj ((dumps_of_scalar hu).symm.trans h)]
    exact opens_of_scalar hv hu
  cases v with
  | none | bool _ | int _ | float _ => exact hscalar _ rfl
  | str s =>
    rw [dumps_str] at h
    rw [← Except.ok.inj h, quote]
    exact ⟨'"',_,rfl,by simp [delimiters],rfl⟩
  | list xs =>
    rw [(dumps_list_eq_ok h).2]
    exact ⟨'[',_,rfl,by simp [delimiters],rfl⟩
  | dict pairs =>
    rw [(dumps_dict_eq_ok h).2.2]
    exact ⟨'{',_,rfl,by simp [delimiters],rfl⟩

theorem opens_textOf (hv : Printable v) (h : dumps v = .ok t) : Opens v (textOf v) := by
  rw [textOf_eq h]
  exact opens_of_dumps hv h

/-- Texts that begin alike are of values of one kind. -/
theorem opening_eq {r s : Text} (hv : Opens v (textOf v)) (hw : Opens w (textOf w))
    (h : textOf v ++ r = textOf w ++ s) :
    opening v = opening w := by
  obtain ⟨c,rest,hv,-,hc⟩ := hv
  obtain ⟨d,rest',hw,-,hd⟩ := hw
  rw [hv, hw] at h
  rw [← hc, ← hd, (List.cons.inj h).1]

theorem Opens.starts (h : Opens v t) {close : Char} (hclose : close ∈ delimiters) : Starts close t := by
  obtain ⟨c,rest,rfl,hc,-⟩ := h
  exact ⟨c,rest,rfl,fun heq => hc (heq ▸ hclose)⟩

theorem reads_scalar (hv : Printable v) (hw : Printable w) (ht : scalarText v = some t) (hu : dumps w = .ok u) :
    Reads delimiters textOf canonical v w := by
  intro r s hr hs h
  have hopening := opening_eq (opens_textOf hv (dumps_of_scalar ht)) (opens_textOf hw hu) h
  rw [opening_of_scalar ht] at hopening
  obtain ⟨u',hu'⟩ : ∃ u, scalarText w = some u := by
    cases w with
    | none | bool _ | int _ | float _ => exact ⟨_,rfl⟩
    | str _ | list _ | dict _ => cases hopening
  rw [textOf_eq (dumps_of_scalar ht), textOf_eq (dumps_of_scalar hu')] at h
  obtain ⟨rfl,hrest⟩ :=
    append_cancel (fun c hc => ((scalar_chars hv ht).2 c hc).1) (fun c hc => ((scalar_chars hw hu').2 c hc).1) hr hs h
  refine ⟨?_,hrest⟩
  rw [← readScalar_scalarText hv ht, ← readScalar_scalarText hw hu']

/-- What is between the brackets of two lists is read back, when each member is. -/
theorem reads_list {xs ys : List PyVal} {r s : Text} (hx : ∀ x ∈ xs, Opens x (textOf x))
    (hy : ∀ y ∈ ys, Opens y (textOf y)) (hreads : ∀ x ∈ xs, ∀ y ∈ ys, Reads delimiters textOf canonical x y)
    (h : commaJoin (xs.map textOf) ++ ']' :: r = commaJoin (ys.map textOf) ++ ']' :: s) :
    canonical (.list xs) = canonical (.list ys) ∧ r = s := by
  have hcomma : ',' ∈ delimiters := by simp [delimiters]
  have hclose : ']' ∈ delimiters := by simp [delimiters]
  obtain ⟨hvalues,hrest⟩ := joined_cancel (fun zs => commaJoin (zs.map textOf)) hcomma hclose
    (by decide) hreads (fun x hin => (hx x hin).starts hclose) (fun y hin => (hy y hin).starts hclose) rfl
    (fun z zs => by rw [List.map_cons, commaJoin_cons, List.flatMap_map]) h
  rw [canonical_list, canonical_list, hvalues]
  exact ⟨rfl,hrest⟩

def canonicalMember (e : PyKey × PyVal) : PyKey × PyVal := (.str (keyText e.1),canonical e.2)

/-- A member is read back when its value is. -/
theorem reads_member {e e' : PyKey × PyVal} (h : Reads delimiters textOf canonical e.2 e'.2) :
    Reads delimiters textOfMember canonicalMember e e' := by
  intro r s hr hs heq
  rw [textOfMember, textOfMember, memberText, memberText, List.append_assoc, List.append_assoc] at heq
  obtain ⟨hkey,hvalue⟩ := quote_cancel heq
  obtain ⟨hcanonical,hrest⟩ := h r s hr hs (List.cons.inj hvalue).2
  rw [canonicalMember, canonicalMember, hcanonical, show keyText e.1 = keyText e'.1 from hkey]
  exact ⟨rfl,hrest⟩

theorem starts_textOfMember (e : PyKey × PyVal) : Starts '}' (textOfMember e) := by
  rw [textOfMember, memberText, quote]
  exact ⟨'"',_,rfl,by decide⟩

/-- What is between the braces of two objects is read back, when the value of each member is. -/
theorem reads_dict {pairs pairs' : List (PyKey × PyVal)} {r s : Text} (hkind : OneKind (PyVal.items pairs))
    (hkind' : OneKind (PyVal.items pairs'))
    (hreads : ∀ e ∈ sortedMembers pairs, ∀ e' ∈ sortedMembers pairs', Reads delimiters textOf canonical e.2 e'.2)
    (h : commaJoin ((sortedMembers pairs).map textOfMember) ++ '}' :: r =
      commaJoin ((sortedMembers pairs').map textOfMember) ++ '}' :: s) :
    canonical (.dict pairs) = canonical (.dict pairs') ∧ r = s := by
  have hcons : ∀ (e : PyKey × PyVal) (es : List (PyKey × PyVal)), commaJoin ((e :: es).map textOfMember) =
      textOfMember e ++ es.flatMap fun e => ',' :: textOfMember e := by
    intro e es
    rw [List.map_cons, commaJoin_cons, List.flatMap_map]
  have hcomma : ',' ∈ delimiters := by simp [delimiters]
  have hclose : '}' ∈ delimiters := by simp [delimiters]
  obtain ⟨hvalues,hrest⟩ := joined_cancel (fun es => commaJoin (es.map textOfMember)) hcomma hclose (by decide)
    (fun e he e' he' => reads_member (hreads e he e' he'))
    (fun e _ => starts_textOfMember e) (fun e _ => starts_textOfMember e) rfl hcons h
  rw [canonical_dict hkind, canonical_dict hkind']
  exact ⟨congrArg (fun es => PyVal.dict (es.insertionSort itemLe)) hvalues,hrest⟩

theorem eq_str_of_opening {a : String} (h : opening (.str a) = opening w) : ∃ b, w = .str b := by
  cases w <;> simp [opening] at h ⊢

theorem eq_list_of_opening {xs : List PyVal} (h : opening (.list xs) = opening w) : ∃ ys, w = .list ys := by
  cases w <;> simp [opening] at h ⊢

theorem eq_dict_of_opening {pairs : List (PyKey × PyVal)} (h : opening (.dict pairs) = opening w) :
    ∃ pairs', w = .dict pairs' := by
  cases w <;> simp [opening] at h ⊢

/-- The text of a value determines it, and where it ends. -/
theorem reads_value (hv : Printable v) (hw : Printable w) (ht : dumps v = .ok t) (hu : dumps w = .ok u) :
    Reads delimiters textOf canonical v w := by
  induction hv generalizing w t u with
  | none => exact reads_scalar .none hw rfl hu
  | bool b => exact reads_scalar (.bool b) hw rfl hu
  | int n => exact reads_scalar (.int n) hw rfl hu
  | float hfloat => exact reads_scalar (.float hfloat) hw rfl hu
  | str a =>
    intro r s _ _ h
    obtain ⟨b,rfl⟩ := eq_str_of_opening (opening_eq (opens_textOf (.str a) ht) (opens_textOf hw hu) h)
    rw [textOf_eq (dumps_str a), textOf_eq (dumps_str b)] at h
    obtain ⟨rfl,hrest⟩ := quote_cancel h
    exact ⟨rfl,hrest⟩
  | list hxs ih =>
    intro r s _ _ h
    obtain ⟨ys,rfl⟩ := eq_list_of_opening (opening_eq (opens_textOf (.list hxs) ht) (opens_textOf hw hu) h)
    cases hw with
    | list hys =>
      obtain ⟨hsome,rfl⟩ := dumps_list_eq_ok ht
      obtain ⟨hsome',rfl⟩ := dumps_list_eq_ok hu
      rw [textOf_eq ht, textOf_eq hu] at h
      refine reads_list (fun x hx => ?_) (fun y hy => ?_) (fun x hx y hy => ?_) (by simpa using h)
      · obtain ⟨a,ha⟩ := hsome x hx
        exact opens_textOf (hxs x hx) ha
      · obtain ⟨b,hb⟩ := hsome' y hy
        exact opens_textOf (hys y hy) hb
      · obtain ⟨a,ha⟩ := hsome x hx
        obtain ⟨b,hb⟩ := hsome' y hy
        exact ih x hx (hys y hy) ha hb
  | dict hpairs ih =>
    intro r s _ _ h
    obtain ⟨pairs',rfl⟩ := eq_dict_of_opening (opening_eq (opens_textOf (.dict hpairs) ht) (opens_textOf hw hu) h)
    cases hw with
    | dict hpairs' =>
      obtain ⟨hkind,hsome,ht'⟩ := dumps_dict_eq_ok ht
      obtain ⟨hkind',hsome',hu'⟩ := dumps_dict_eq_ok hu
      rw [textOf_eq ht, textOf_eq hu, ht', hu'] at h
      refine reads_dict hkind hkind' (fun e he e' he' => ?_) (by simpa using h)
      obtain ⟨a,ha⟩ := hsome e he
      obtain ⟨b,hb⟩ := hsome' e' he'
      have hin := mem_of_mem_items (mem_sortedMembers.mp he)
      have hin' := mem_of_mem_items (mem_sortedMembers.mp he')
      exact ih e hin (hpairs' e' hin') ha hb

/-- Values with one canonical text are one value. -/
theorem canonical_eq_of_dumps (hv : Printable v) (hw : Printable w) (ht : dumps v = .ok t) (hu : dumps w = .ok t) :
    canonical v = canonical w := by
  refine (reads_value hv hw ht hu [] [] (stops_nil _) (stops_nil _) ?_).1
  rw [textOf_eq ht, textOf_eq hu]

end Values

section Loading
variable {v : PyVal} {pairs : List (PyKey × PyVal)} {t : Text}

/-- What `json.load` returns: the keys of objects are strings. -/
inductive Loaded : PyVal → Prop
  | none : Loaded .none
  | bool (b : Bool) : Loaded (.bool b)
  | int (n : ℤ) : Loaded (.int n)
  | float {repr : String} (h : FloatText repr) : Loaded (.float repr)
  | str (s : String) : Loaded (.str s)
  | list {xs : List PyVal} (h : ∀ x ∈ xs, Loaded x) : Loaded (.list xs)
  | dict {pairs : List (PyKey × PyVal)} (hkeys : ∀ e ∈ pairs, ∃ key, e.1 = .str key) (h : ∀ e ∈ pairs, Loaded e.2) :
    Loaded (.dict pairs)

theorem Loaded.printable (h : Loaded v) : Printable v := by
  induction h with
  | none => exact .none
  | bool b => exact .bool b
  | int n => exact .int n
  | float hfloat => exact .float hfloat
  | str s => exact .str s
  | list _ ih => exact .list ih
  | dict _ _ ih => exact .dict ih

/-- What was loaded can be written again. -/
theorem Loaded.exists_dumps (h : Loaded v) : ∃ t, dumps v = .ok t := by
  induction h with
  | none => exact ⟨_,dumps_of_scalar rfl⟩
  | bool b => exact ⟨_,dumps_of_scalar rfl⟩
  | int n => exact ⟨_,dumps_of_scalar rfl⟩
  | float _ => exact ⟨_,dumps_of_scalar rfl⟩
  | str s => exact ⟨_,dumps_str s⟩
  | @list xs _ ih =>
    rw [dumps, dumpsList_eq_mapM]
    rw [mapM_ok dumps textOf fun x hx => ?_]
    · exact ⟨_,rfl⟩
    · obtain ⟨t,ht⟩ := ih x hx
      rw [ht, textOf_eq ht]
  | @dict pairs hkeys _ ih =>
    have hitems : (PyVal.items pairs).map (fun e => (e.1,dumps e.2)) =
        ((PyVal.items pairs).map fun e => (e.1,textOf e.2)).map fun e => (e.1,.ok e.2) := by
      rw [List.map_map]
      refine List.map_congr_left fun e he => ?_
      obtain ⟨t,ht⟩ := ih e (mem_of_mem_items he)
      rw [Function.comp_apply, textOf_eq ht, ht]
    have hkind : OneKind ((PyVal.items pairs).map fun e => (e.1,textOf e.2)) := by
      refine Or.inr (List.forall_mem_map.mpr fun e he => ?_)
      obtain ⟨key,hkey⟩ := hkeys e (mem_of_mem_items he)
      rw [hkey]
      rfl
    rw [dumps, dumpsPairs_eq_map, entries_ofList_map, show (Dict.ofList pairs).entries = PyVal.items pairs from rfl,
      hitems]
    exact ⟨_,objectText_ok hkind⟩

theorem Loaded.of_subset {pairs' : List (PyKey × PyVal)} (h : Loaded (.dict pairs)) (hin : ∀ e ∈ pairs', e ∈ pairs) :
    Loaded (.dict pairs') := by
  cases h with
  | dict hkeys hvalues => exact .dict (fun e he => hkeys e (hin e he)) fun e he => hvalues e (hin e he)

theorem Printable.append (h : Printable (.dict pairs)) {e : PyKey × PyVal} (hv : Printable e.2) :
    Printable (.dict (pairs ++ [e])) := by
  cases h with
  | dict hvalues =>
    refine .dict fun e' he => ?_
    rcases List.mem_append.mp he with he | he
    · exact hvalues e' he
    · rwa [List.mem_singleton.mp he]

/-- Whatever was written, what is read back was loaded. -/
theorem Printable.loaded (O : ObjectOrder) (h : Printable v) : Loaded (reload O v) := by
  induction h with
  | none => simpa only [reload] using Loaded.none
  | bool b => simpa only [reload] using Loaded.bool b
  | int n => simpa only [reload] using Loaded.int n
  | float hfloat => simpa only [reload] using Loaded.float hfloat
  | str s => simpa only [reload] using Loaded.str s
  | @list xs _ ih =>
    rw [reload, reloadList_eq_map]
    apply Loaded.list
    simpa using ih
  | @dict pairs _ ih =>
    have hin : ∀ e ∈ storedPairs O pairs, ∃ e' ∈ pairs, e = (.str (keyText e'.1),reload O e'.2) := by
      intro e he
      obtain ⟨e',he',rfl⟩ := List.mem_map.mp (mem_of_mem_items ((O.perm _).mem_iff.mp he))
      have hpairs := mem_of_mem_items he'
      rw [reloadPairs_eq_map] at hpairs
      obtain ⟨e,hmem,rfl⟩ := List.mem_map.mp hpairs
      exact ⟨e,hmem,rfl⟩
    rw [reload_eq_storedPairs]
    apply Loaded.dict
    · intro e he
      obtain ⟨e',-,rfl⟩ := hin e he
      exact ⟨_,rfl⟩
    · intro e he
      obtain ⟨e',he',rfl⟩ := hin e he
      exact ih e' he'

theorem oneKind_of_strings (h : ∀ e ∈ pairs, ∃ key, e.1 = .str key) : OneKind (PyVal.items pairs) := by
  refine Or.inr fun e he => ?_
  obtain ⟨key,hkey⟩ := h e (mem_of_mem_items he)
  rw [hkey]
  rfl

/-- Reading an object back keeps its keys and sorts its members. -/
theorem canonical_dict_perm (h : ∀ e ∈ pairs, ∃ key, e.1 = .str key) :
    ∃ members, canonical (.dict pairs) = .dict members ∧
      members.Perm ((PyVal.items pairs).map fun e => (e.1,canonical e.2)) ∧
      (members.map Prod.fst).Nodup := by
  have hmembers : (PyVal.items pairs).map canonicalMember = (PyVal.items pairs).map fun e => (e.1,canonical e.2) := by
    refine List.map_congr_left fun e he => ?_
    obtain ⟨key,hkey⟩ := h e (mem_of_mem_items he)
    rw [canonicalMember, hkey]
    rfl
  have hperm : (((sortedMembers pairs).map canonicalMember).insertionSort itemLe).Perm
    ((PyVal.items pairs).map fun e => (e.1,canonical e.2)) := by
    rw [← hmembers]
    exact (List.perm_insertionSort itemLe _).trans
      ((List.perm_insertionSort itemLe (PyVal.items pairs)).map canonicalMember)
  refine ⟨_,canonical_dict (oneKind_of_strings h),hperm,(hperm.map Prod.fst).nodup_iff.mpr ?_⟩
  rw [List.map_map]
  exact (Dict.ofList pairs).nodup

/-- What is read back has the text it was read from. -/
theorem dumps_canonical (h : Loaded v) : dumps (canonical v) = dumps v := by
  induction h with
  | none => rw [canonical_scalar rfl]
  | bool b => rw [canonical_scalar rfl]
  | int n => rw [canonical_scalar rfl]
  | float hfloat => rw [canonical_scalar rfl]
  | str s => rw [canonical, reload_str]
  | @list xs _ ih =>
    have htexts : (xs.map canonical).mapM dumps = xs.mapM dumps := by
      clear * - ih
      induction xs with
      | nil => rfl
      | cons x xs hxs =>
        rw [List.map_cons, List.mapM_cons, List.mapM_cons, ih x List.mem_cons_self,
          hxs fun y hy => ih y (List.mem_cons_of_mem _ hy)]
    rw [canonical_list, dumps, dumps, dumpsList_eq_mapM, dumpsList_eq_mapM, htexts]
  | @dict pairs hkeys _ ih =>
    obtain ⟨members,hcanonical,hperm,hn⟩ := canonical_dict_perm hkeys
    have htexts : ((PyVal.items pairs).map fun e => (e.1,canonical e.2)).map (fun e => (e.1,dumps e.2)) =
        (PyVal.items pairs).map fun e => (e.1,dumps e.2) := by
      rw [List.map_map]
      refine List.map_congr_left fun e he => ?_
      rw [Function.comp_apply, ih e (mem_of_mem_items he)]
    have hnames : ((members.map fun e => (e.1,dumps e.2)).map Prod.fst).Nodup := by
      rw [List.map_map]
      exact hn
    rw [hcanonical, dumps_dict hn, objectText_perm hnames (hperm.map _), htexts, dumps, dumpsPairs_eq_map,
      entries_ofList_map]
    rfl

/-- Loaded values have one canonical text exactly when they are one value, up to the order of members. -/
theorem dumps_eq_iff {w : PyVal} (hv : Loaded v) (hw : Loaded w) (ht : dumps v = .ok t) :
    dumps w = .ok t ↔ canonical w = canonical v := by
  constructor
  · exact fun hu => canonical_eq_of_dumps hw.printable hv.printable hu ht
  · intro h
    rw [← dumps_canonical hw, h, dumps_canonical hv, ht]

end Loading

end Json
end UnlearnShield
