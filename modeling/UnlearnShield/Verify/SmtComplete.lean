import UnlearnShield.Verify.SmtVerify
import UnlearnShield.Python.JsonText

/-! # Completeness of absence proofs

The proof a tree gives for an absent reference is accepted against its root, both
as the dictionary with integer depths that the prover builds and after that
dictionary was written as JSON and parsed back.
-/
namespace UnlearnShield.Smt
open BitTrie Json
variable {H : Bytes → Digest}

/-- The items supply exactly the listed siblings, in any order. -/
structure Encodes (items : List (PyKey × PyVal)) (siblings : List (ℕ × Digest)) : Prop where
  listed : ∀ e ∈ items, ∃ a ∈ siblings, Denotes e a.1 a.2
  present : ∀ a ∈ siblings, ∃ e ∈ items, Denotes e a.1 a.2

/-- When no depth is listed twice, the last item for a depth supplies the listed sibling. -/
theorem Encodes.supplied {items : List (PyKey × PyVal)} {siblings : List (ℕ × Digest)} (h : Encodes items siblings)
    (hn : (siblings.map Prod.fst).Nodup) (d : ℕ) :
    (∀ x, (d,x) ∈ siblings → supplied items d = some x) ∧
      ((∀ x, (d,x) ∉ siblings) → supplied items d = none) := by
  have hitem : ∀ e ∈ items, ∀ y, siblingFor d e = some y → (d,y) ∈ siblings := by
    intro e he y hy
    obtain ⟨⟨i,x⟩,ha,hd⟩ := h.listed e he
    rw [hd.siblingFor] at hy
    split at hy
    · next hi =>
      cases hy
      exact hi ▸ ha
    · cases hy
  have hmem : ∀ y ∈ items.filterMap (siblingFor d), (d,y) ∈ siblings := by
    intro y hy
    obtain ⟨e,he,hey⟩ := List.mem_filterMap.mp hy
    exact hitem e he y hey
  constructor
  · intro x hx
    have hall : ∀ y ∈ items.filterMap (siblingFor d), y = x := fun y hy =>
      congrArg Prod.snd (List.inj_on_of_nodup_map hn (hmem y hy) hx rfl)
    obtain ⟨e,he,hd⟩ := h.present (d,x) hx
    have hxm : x ∈ items.filterMap (siblingFor d) :=
      List.mem_filterMap.mpr ⟨e,he,(hd.siblingFor d).trans (if_pos rfl)⟩
    cases hl : (items.filterMap (siblingFor d)).getLast? with
    | none =>
      rw [List.getLast?_eq_none_iff.mp hl] at hxm
      cases hxm
    | some y =>
      rw [Smt.supplied, hl, hall y (List.mem_of_getLast? hl)]
  · intro hx
    rw [Smt.supplied, List.getLast?_eq_none_iff, List.eq_nil_iff_forall_not_mem]
    exact fun y hy => hx y (hmem y hy)

theorem siblingsAt_nodup (p : ℕ → Prop) [DecidablePred p] (t : Ref) (ks : List Ref) (d n : ℕ) :
    ((siblingsAt H p t ks d n).map Prod.fst).Nodup := by
  have hp : ((siblingsAt H p t ks d n).map Prod.fst).Pairwise (· < ·) :=
    List.pairwise_map.mpr (siblingsAt_pairwise p t ks d n)
  exact hp.imp fun h => h.ne

/-- Side roots that are left out are the default, so filling in defaults restores them all. -/
theorem orDefault_of_encodes {items : List (PyKey × PyVal)} {p : ℕ → Prop} [DecidablePred p] {t : Ref}
    {ks : List Ref} (h : Encodes items (siblingsAt H p t ks 0 DEPTH))
    (hp : ∀ i, ¬p i → sideRoot H t ks i = defaults H (i+1)) {d : ℕ} (hd : d < DEPTH) :
    orDefault H (supplied items) d = sideRoot H t ks d := by
  obtain ⟨hsome,hnone⟩ := h.supplied (siblingsAt_nodup p t ks 0 DEPTH) d
  unfold orDefault
  by_cases hpd : p d
  · have hm : (d,sideRoot H t ks d) ∈ siblingsAt H p t ks 0 DEPTH :=
      mem_siblingsAt.mpr ⟨⟨Nat.zero_le d,by omega⟩,hpd,rfl⟩
    rw [hsome _ hm]
    rfl
  · rw [hnone fun x hx => hpd (mem_siblingsAt.mp hx).2.1, hp d hpd]
    rfl

def siblingPairs (siblings : List (ℕ × Digest)) : List (PyKey × PyVal) :=
  siblings.map fun e => (.int (e.1 : ℤ),.str e.2.val.hex)

def storedSiblingPairs (siblings : List (ℕ × Digest)) : List (PyKey × PyVal) :=
  siblings.map fun e => (.str (toString e.1),.str e.2.val.hex)

theorem keyText_natCast (n : ℕ) : keyText (.int (n : ℤ)) = toString n := rfl

theorem toString_injective : Function.Injective (toString : ℕ → String) := by
  intro a b h
  rw [Nat.toString_eq_ofList_toDigits, Nat.toString_eq_ofList_toDigits] at h
  have hd := String.ofList_injective h
  have ha := Nat.ofDigitChars_ten_toDigits (n := a)
  rw [hd, Nat.ofDigitChars_ten_toDigits] at ha
  exact ha.symm

theorem siblingPairs_nodup {siblings : List (ℕ × Digest)} (hn : (siblings.map Prod.fst).Nodup) :
    ((siblingPairs siblings).map Prod.fst).Nodup ∧ ((siblingPairs siblings).map fun e => keyText e.1).Nodup := by
  constructor
  · have hm := hn.map (f := fun n : ℕ => PyKey.int n) fun a b h => by simpa using h
    rw [List.map_map] at hm
    rw [siblingPairs, List.map_map]
    exact hm
  · have hm := hn.map toString_injective
    rw [List.map_map] at hm
    rw [siblingPairs, List.map_map]
    exact hm

theorem storedPairs_siblings (O : ObjectOrder) {siblings : List (ℕ × Digest)} (hn : (siblings.map Prod.fst).Nodup) :
    (storedPairs O (siblingPairs siblings)).Perm (storedSiblingPairs siblings) ∧
      ((storedPairs O (siblingPairs siblings)).map Prod.fst).Nodup := by
  obtain ⟨hk,ht⟩ := siblingPairs_nodup hn
  obtain ⟨hp,hs⟩ := storedPairs_perm O hk ht
  refine ⟨?_,hs⟩
  rw [siblingPairs, List.map_map] at hp
  have he : siblings.map ((fun e => (PyKey.str (keyText e.1),reload O e.2)) ∘ fun e =>
    (.int (e.1 : ℤ),.str e.2.val.hex)) =
      storedSiblingPairs siblings := by
    apply List.map_congr_left
    intro e _
    simp only [Function.comp_apply, keyText_natCast, reload]
  rw [he] at hp
  exact hp

theorem encodes_siblingPairs {siblings : List (ℕ × Digest)} (h : ∀ a ∈ siblings, a.1 < DEPTH) :
    Encodes (siblingPairs siblings) siblings := by
  have hd : ∀ a ∈ siblings, Denotes (.int (a.1 : ℤ),.str a.2.val.hex) a.1 a.2 :=
    fun a ha => ⟨rfl,h a ha,PyVal.fromhex_hex _⟩
  constructor
  · intro e he
    obtain ⟨a,ha,rfl⟩ := List.mem_map.mp he
    exact ⟨a,ha,hd a ha⟩
  · intro a ha
    exact ⟨_,List.mem_map_of_mem ha,hd a ha⟩

theorem toInt_toString {n : ℕ} (h : n < DEPTH) : (PyKey.str (toString n)).toInt = .ok (n : ℤ) := by
  have hlt : n < 10 ^ PyInt.maxDigits := by
    refine lt_of_lt_of_le h ?_
    calc DEPTH ≤ 10 ^ 3 := by decide
      _ ≤ 10 ^ PyInt.maxDigits := Nat.pow_le_pow_right (by decide) (by decide)
  rw [PyKey.toInt, PyInt.ofString_toString hlt]

theorem encodes_stored {items : List (PyKey × PyVal)} {siblings : List (ℕ × Digest)}
    (hp : items.Perm (storedSiblingPairs siblings)) (h : ∀ a ∈ siblings, a.1 < DEPTH) : Encodes items siblings := by
  have hd : ∀ a ∈ siblings, Denotes (.str (toString a.1),.str a.2.val.hex) a.1 a.2 :=
    fun a ha => ⟨toInt_toString (h a ha),h a ha,PyVal.fromhex_hex _⟩
  constructor
  · intro e he
    obtain ⟨a,ha,rfl⟩ := List.mem_map.mp (hp.mem_iff.mp he)
    exact ⟨a,ha,hd a ha⟩
  · intro a ha
    exact ⟨_,hp.mem_iff.mpr (List.mem_map_of_mem ha),hd a ha⟩

theorem siblingsAt_lt {p : ℕ → Prop} [DecidablePred p] {t : Ref} {ks : List Ref} :
    ∀ a ∈ siblingsAt H p t ks 0 DEPTH, a.1 < DEPTH := by
  rintro ⟨i,x⟩ ha
  have hi := (mem_siblingsAt.mp ha).1.2
  omega

def proofPairs (siblings : List (ℕ × Digest)) : List (PyKey × PyVal) := [
  (.str "scheme",.str "smt-256"),
  (.str "siblings",.dict (siblingPairs siblings))]

theorem proofOf_eq (siblings : List (ℕ × Digest)) : proofOf siblings = .dict (proofPairs siblings) := rfl

theorem proofPairs_nodup (siblings : List (ℕ × Digest)) :
    ((proofPairs siblings).map Prod.fst).Nodup ∧ ((proofPairs siblings).map fun e => keyText e.1).Nodup := by
  constructor
  · change [PyKey.str "scheme", PyKey.str "siblings"].Nodup
    decide
  · change ["scheme", "siblings"].Nodup
    decide

theorem wellFormed_of_mem {pairs : List (PyKey × PyVal)} {raw : List (PyKey × PyVal)} {siblings : List (ℕ × Digest)}
    (hn : (pairs.map Prod.fst).Nodup) (hr : (raw.map Prod.fst).Nodup)
    (hscheme : (.str "scheme",.str "smt-256") ∈ pairs) (hsiblings : (.str "siblings",.dict raw) ∈ pairs)
    (he : Encodes raw siblings) : WellFormedProof (.dict pairs) raw := by
  have hget : (Dict.ofList pairs).get? (.str "scheme") = some (.str "smt-256") := by
    rw [Dict.get?_eq_some, Dict.entries_ofList hn]
    exact hscheme
  refine ⟨?_,PyVal.subscript_of_mem hn hsiblings,?_⟩
  · rw [PyVal.get, hget]
    rfl
  · intro e hm
    rw [items_of_nodup hr] at hm
    obtain ⟨a,-,ha⟩ := he.listed e hm
    exact ⟨a.1,a.2,ha⟩

theorem wellFormed_proofOf {siblings : List (ℕ × Digest)} (hn : (siblings.map Prod.fst).Nodup)
    (h : ∀ a ∈ siblings, a.1 < DEPTH) : WellFormedProof (proofOf siblings) (siblingPairs siblings) :=
  wellFormed_of_mem (proofPairs_nodup siblings).1 (siblingPairs_nodup hn).1 List.mem_cons_self
    (List.mem_cons_of_mem _ List.mem_cons_self) (encodes_siblingPairs h)

theorem wellFormed_reload (O : ObjectOrder) {siblings : List (ℕ × Digest)} (hn : (siblings.map Prod.fst).Nodup)
    (h : ∀ a ∈ siblings, a.1 < DEPTH) :
    WellFormedProof (reload O (proofOf siblings)) (storedPairs O (siblingPairs siblings)) := by
  obtain ⟨hk,ht⟩ := proofPairs_nodup siblings
  obtain ⟨hp,hs⟩ := storedPairs_perm O hk ht
  obtain ⟨hp',hs'⟩ := storedPairs_siblings O hn
  rw [proofOf_eq, reload_eq_storedPairs]
  refine wellFormed_of_mem hs hs' (hp.mem_iff.mpr ?_) (hp.mem_iff.mpr ?_) (encodes_stored hp' h)
  · refine List.mem_map.mpr ⟨_,List.mem_cons_self,?_⟩
    simp only [keyText, reload]
  · refine List.mem_map.mpr ⟨_,List.mem_cons_of_mem _ List.mem_cons_self,?_⟩
    simp only [keyText, reload_eq_storedPairs]

section Accept
variable {p : ℕ → Prop} [DecidablePred p] {t : Ref} {ks : List Ref}

theorem verifyAbsence_proofOf (ht : t ∉ ks) (hp : ∀ i, ¬p i → sideRoot H t ks i = defaults H (i+1)) :
    verifyAbsence H (.str t.val.hex) (proofOf (siblingsAt H p t ks 0 DEPTH))
      (.str ((trie H).root DEPTH 0 ks).val.hex) = .ok true := by
  have hn := siblingsAt_nodup (H := H) p t ks 0 DEPTH
  refine verifyAbsence_of_siblings (wellFormed_proofOf hn siblingsAt_lt) ht fun d hd => ?_
  unfold effective
  rw [items_of_nodup (siblingPairs_nodup hn).1]
  exact orDefault_of_encodes (encodes_siblingPairs siblingsAt_lt) hp hd

theorem verifyAbsence_reload (O : ObjectOrder) (ht : t ∉ ks)
    (hp : ∀ i, ¬p i → sideRoot H t ks i = defaults H (i+1)) :
    verifyAbsence H (.str t.val.hex) (reload O (proofOf (siblingsAt H p t ks 0 DEPTH)))
      (.str ((trie H).root DEPTH 0 ks).val.hex) = .ok true := by
  have hn := siblingsAt_nodup (H := H) p t ks 0 DEPTH
  obtain ⟨hperm,hs⟩ := storedPairs_siblings O hn
  refine verifyAbsence_of_siblings (wellFormed_reload O hn siblingsAt_lt) ht fun d hd => ?_
  unfold effective
  rw [items_of_nodup hs]
  exact orDefault_of_encodes (encodes_stored hperm siblingsAt_lt) hp hd

end Accept

/-- Every tree, whatever was removed from it, proves the absence of what it does not hold. -/
theorem verifyAbsence_proveAbsence {tree : SparseMerkleTree H} {t : Ref} (ht : t ∉ tree.keys) :
    ∃ proof, tree.proveAbsence t = .ok proof ∧
      verifyAbsence H (.str t.val.hex) proof (.str tree.root) = .ok true := by
  have hrep : Represents H tree.node 0 (onPath H t 0 tree.keys) := by
    have h0 : onPath H t 0 tree.keys = tree.keys := (trie H).onPath_zero t tree.keys
    rw [h0]
    exact tree.represents
  obtain ⟨p,hw,hp⟩ := walk_eq (Nat.zero_add DEPTH) hrep
  refine ⟨_,if_neg ht,?_⟩
  rw [hw, tree.root_eq]
  exact verifyAbsence_proofOf ht fun i hi => hp i (Nat.zero_le i) (by simpa using hi)

end UnlearnShield.Smt
