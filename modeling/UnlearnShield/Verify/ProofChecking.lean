import UnlearnShield.Verify.MerklePath
import UnlearnShield.Verify.VerifierCli

/-! # Which proofs the checkers answer

Both checkers say that they never raise. The sparse one catches every exception its operations
have. The sorted one reads the neighbours and encodes the tree size outside its `try` blocks, so
a neighbour without attributes, an index that cannot be added to, or a size of more than
eight bytes with a path of the right length is not answered.
-/
namespace UnlearnShield

def RaisesOnly {α : Type} (kinds : List ErrKind) (x : Py α) : Prop := ∀ e, x = .error e → e.kind ∈ kinds

namespace RaisesOnly
variable {α β : Type} {kinds : List ErrKind}

theorem ok (a : α) : RaisesOnly kinds (.ok a : Py α) := fun _ h => by cases h

theorem raise {kind : ErrKind} (h : kind ∈ kinds) (message : String) :
    RaisesOnly kinds (raise kind message : Py α) := by
  intro e he
  cases he
  exact h

theorem bind {x : Py α} {f : α → Py β} (hx : RaisesOnly kinds x) (hf : ∀ a, RaisesOnly kinds (f a)) :
    RaisesOnly kinds (x >>= f) := by
  cases x with
  | error e =>
    intro e' he
    cases he
    exact hx e rfl
  | ok a => exact hf a

theorem mapM {f : α → Py β} (hf : ∀ a, RaisesOnly kinds (f a)) (as : List α) : RaisesOnly kinds (as.mapM f) := by
  induction as with
  | nil => exact ok []
  | cons a as ih =>
    rw [List.mapM_cons]
    exact (hf a).bind fun b => ih.bind fun bs => ok (b :: bs)

theorem fromhex (hv : ErrKind.valueError ∈ kinds) (ht : ErrKind.typeError ∈ kinds) (v : PyVal) :
    RaisesOnly kinds v.fromhex := by
  unfold PyVal.fromhex
  split
  · split
    · exact ok _
    · exact raise hv _
  · exact raise ht _

theorem subscript (hk : ErrKind.keyError ∈ kinds) (ht : ErrKind.typeError ∈ kinds) (v : PyVal) (key : String) :
    RaisesOnly kinds (v.subscript key) := by
  unfold PyVal.subscript
  split
  · split
    · exact ok _
    · exact raise hk _
  · exact raise ht _
  · exact raise ht _
  · exact raise ht _

theorem get (ha : ErrKind.attributeError ∈ kinds) (v : PyVal) (key : String) : RaisesOnly kinds (v.get key) := by
  unfold PyVal.get
  split
  · exact ok _
  · exact raise ha _

theorem toInt (hv : ErrKind.valueError ∈ kinds) (key : PyKey) : RaisesOnly kinds key.toInt := by
  unfold PyKey.toInt
  split
  · exact ok _
  · split
    · exact ok _
    · exact raise hv _

end RaisesOnly

namespace Smt

theorem readSiblings_raisesOnly (raw : List (PyKey × PyVal)) (siblings : Dict ℕ Digest) :
    RaisesOnly [.valueError, .typeError, .keyError, .attributeError] (readSiblings raw siblings) := by
  induction raw generalizing siblings with
  | nil => exact .ok _
  | cons e rest ih =>
    unfold readSiblings
    refine (RaisesOnly.toInt (by decide) _).bind fun d => ?_
    split
    · refine (RaisesOnly.fromhex (by decide) (by decide) _).bind fun sibling => ?_
      split
      · exact ih _
      · exact .ok _
    · exact .ok _

theorem readProof_raisesOnly (targetRef proof : PyVal) :
    RaisesOnly [.valueError, .typeError, .keyError, .attributeError] (readProof targetRef proof) := by
  unfold readProof
  refine (RaisesOnly.fromhex (by decide) (by decide) _).bind fun target => ?_
  split
  · refine (RaisesOnly.get (by decide) _ _).bind fun scheme => ?_
    split
    · refine (RaisesOnly.subscript (by decide) (by decide) _ _).bind fun siblings => ?_
      split
      · exact (readSiblings_raisesOnly _ _).bind fun _ => .ok _
      · exact .ok _
    · exact .ok _
  · exact .ok _

/-- The sparse checker answers whatever it is given. -/
theorem verifyAbsence_returns (H : Bytes → Digest) (targetRef proof rootHex : PyVal) :
    ∃ verdict, verifyAbsence H targetRef proof rootHex = .ok verdict := by
  unfold verifyAbsence
  split
  · next e he =>
    rw [if_pos (readProof_raisesOnly targetRef proof e he)]
    exact ⟨_,rfl⟩
  · exact ⟨_,rfl⟩
  · exact ⟨_,rfl⟩

end Smt

namespace Merkle

theorem iter_raisesOnly (v : PyVal) : RaisesOnly [.valueError, .typeError, .keyError] (iter v) := by
  unfold iter
  split
  · exact .ok _
  · exact .ok _
  · exact .ok _
  · exact .raise (by decide) _

theorem readEntry_raisesOnly (entry : PyVal) : RaisesOnly [.valueError, .typeError, .keyError] (readEntry entry) := by
  unfold readEntry
  refine (RaisesOnly.subscript (by decide) (by decide) _ _).bind fun leafHex => ?_
  refine (RaisesOnly.fromhex (by decide) (by decide) _).bind fun leaf => ?_
  refine (RaisesOnly.subscript (by decide) (by decide) _ _).bind fun pathHex => ?_
  refine (iter_raisesOnly _).bind fun siblings => ?_
  refine (RaisesOnly.mapM (RaisesOnly.fromhex (by decide) (by decide)) _).bind fun path => ?_
  exact (RaisesOnly.subscript (by decide) (by decide) _ _).bind fun index => .ok _

/-- A proof without attributes cannot be subscripted either. -/
theorem readProof_raisesOnly (targetRef proof : PyVal) :
    RaisesOnly [.valueError, .typeError, .keyError] (readProof targetRef proof) := by
  unfold readProof
  refine (RaisesOnly.fromhex (by decide) (by decide) _).bind fun target => ?_
  cases proof with
  | dict pairs =>
    exact (RaisesOnly.subscript (by decide) (by decide) _ _).bind fun size => .ok _
  | _ => exact .raise (by decide) _

/-- How many siblings `_audit_path` gives. -/
def auditDepth (index n : ℕ) : ℕ :=
  if n ≤ 1 then 0
  else if index < split n then auditDepth index (split n) + 1
  else auditDepth (index - split n) (n - split n) + 1
termination_by n
decreasing_by
  · exact (split_bounds (by omega)).2
  · have := split_bounds (n := n) (by omega)
    omega

theorem length_turns {index n : ℕ} (h : index < n) : (turns index (n-1)).length = auditDepth index n := by
  induction index, n using auditDepth.induct with
  | case1 index n hone =>
    obtain rfl : n = 1 := by omega
    rw [auditDepth, if_pos hone, turns, if_pos rfl, List.length_nil]
  | case2 index n hone hlt ih =>
    have hb := split_bounds (n := n) (by omega)
    rw [turns_split (by omega) h, if_pos hlt, List.length_append, ih hlt, List.length_singleton]
    rw [auditDepth.eq_1 index n, if_neg hone, if_pos hlt]
  | case3 index n hone hge ih =>
    have hb := split_bounds (n := n) (by omega)
    rw [turns_split (by omega) h, if_neg hge, List.length_append, ih (by omega), List.length_singleton]
    rw [auditDepth.eq_1 index n, if_neg hone, if_neg hge]

/-- A neighbour that leads somewhere in a tree whose size has no eight bytes. -/
def Overflows (size : ℤ) (entry : PyVal) : Prop :=
  2 ^ 64 ≤ size ∧ ∃ leaf path index i, readEntry entry = .ok (leaf,path,index) ∧ intOf index = some i ∧
    0 ≤ i ∧ i < size ∧
    path.length = auditDepth i.toNat size.toNat

/-- `isinstance(v, (int, float))`. -/
def IsNumber : PyVal → Prop
  | .int _ | .bool _ | .float _ => True
  | _ => False

/-- The neighbours that the part after the `try` block can read, for a tree of a positive size. -/
def Readable (F : FloatOps) (size : ℤ) (pred succ : PyVal) : Prop :=
  if isNone pred then isNone succ ∨ ∃ index, succ.get "index" = .ok index ∧ (eqInt F index 0 → ¬Overflows size succ)
  else if isNone succ then ∃ index, pred.get "index" = .ok index ∧ (eqInt F index (size - 1) → ¬Overflows size pred)
  else ∃ after before, succ.get "index" = .ok after ∧ getD pred "index" (.int (-99)) = .ok before ∧ IsNumber before ∧
    (eqSucc F after before = .ok true → ¬Overflows size pred ∧ ¬Overflows size succ)

section
variable {H : Bytes → Digest} {F : FloatOps}

theorem eqSucc_returns_iff {v w : PyVal} : (∃ b, eqSucc F v w = .ok b) ↔ IsNumber w := by
  cases w <;> simp [eqSucc, intOf, IsNumber, raise]

theorem reconstructRoot_isSome {leaf : Bytes} {index size : ℤ} {path : List Bytes} :
    (reconstructRoot H leaf index size path).isSome ↔
      0 ≤ index ∧ index < size ∧ path.length = auditDepth index.toNat size.toNat := by
  unfold reconstructRoot
  split
  · next h =>
    refine iff_of_false (by decide) fun hs => ?_
    omega
  · next h =>
    have hlt : index.toNat < size.toNat := by omega
    have hlast : (size - 1).toNat = size.toNat - 1 := by omega
    rw [climb_eq_ascend, ascend_isSome, hlast, length_turns hlt]
    exact ⟨fun hl => ⟨by omega,by omega,hl⟩,fun hs => hs.2.2⟩

theorem commit_returns_iff {size : ℤ} {root : Bytes} (h : 0 ≤ size) :
    (∃ text, commit H size root = .ok text) ↔ size < 2 ^ 64 := by
  unfold commit
  rw [if_neg (by omega)]
  split
  · next hlt => exact ⟨fun _ => hlt,fun _ => ⟨_,rfl⟩⟩
  · next hge =>
    refine iff_of_false ?_ hge
    rintro ⟨text,he⟩
    cases he

theorem check_returns_iff {size : ℤ} {root : String} {entry : PyVal} (h : 0 ≤ size) :
    (∃ leaf, check H size root entry = .ok leaf) ↔ ¬Overflows size entry := by
  unfold check Overflows
  split
  · next e he =>
    rw [if_pos (readEntry_raisesOnly entry e he)]
    refine iff_of_true ⟨_,rfl⟩ ?_
    rintro ⟨-,leaf,path,index,i,hread,-⟩
    cases he.symm.trans hread
  · next leaf path index hread =>
    split
    · next hindex =>
      refine iff_of_true ⟨_,rfl⟩ ?_
      rintro ⟨-,leaf',path',index',i,hread',hi,-⟩
      cases hread.symm.trans hread'
      cases hindex.symm.trans hi
    · next i hindex =>
      have hsome : (reconstructRoot H leaf i size path).isSome ↔ _ := reconstructRoot_isSome
      unfold verifyAuditPath
      cases hnode : reconstructRoot H leaf i size path with
      | none =>
        rw [hnode] at hsome
        refine iff_of_true ⟨_,rfl⟩ ?_
        rintro ⟨-,leaf',path',index',i',hread',hi,hrange⟩
        cases hread.symm.trans hread'
        cases hindex.symm.trans hi
        exact absurd (hsome.mpr hrange) (by decide)
      | some node =>
        rw [hnode] at hsome
        have hrange := hsome.mp rfl
        have hcommit : (∃ text, commit H size node.val = .ok text) ↔ _ := commit_returns_iff h
        constructor
        · rintro ⟨leaf',hok⟩ ⟨hbig,-⟩
          obtain ⟨verified,hv,-⟩ := bind_eq_ok.mp hok
          obtain ⟨text,htext,-⟩ := bind_eq_ok.mp hv
          exact absurd (hcommit.mp ⟨text,htext⟩) (by omega)
        · intro hno
          have hlt : size < 2 ^ 64 := by
            by_contra hge
            exact hno ⟨by omega,leaf,path,index,i,hread,hindex,hrange⟩
          obtain ⟨text,htext⟩ := hcommit.mpr hlt
          dsimp only
          rw [htext, ok_bind]
          exact ⟨_,rfl⟩

/-- The part after the `try` block answers exactly what it can read. -/
theorem verifyNeighbours_returns_iff {target : Bytes} {size : ℤ} {pred succ : PyVal} {root : String} (h : 0 ≤ size) :
    (∃ b, verifyNeighbours H F target size pred succ root = .ok b) ↔ Readable F size pred succ := by
  have hcheck : ∀ entry, (∃ leaf, check H size root entry = .ok leaf) ↔ ¬Overflows size entry :=
    fun entry => check_returns_iff h
  unfold verifyNeighbours Readable
  split
  · next hpred =>
    split
    · next hsucc => exact iff_of_true ⟨_,rfl⟩ (Or.inl hsucc)
    · next hsucc =>
      constructor
      · rintro ⟨b,hb⟩
        obtain ⟨index,hindex,hb⟩ := bind_eq_ok.mp hb
        refine Or.inr ⟨index,hindex,fun heq => (hcheck succ).mp ?_⟩
        rw [if_pos heq] at hb
        obtain ⟨leaf,hleaf,-⟩ := bind_eq_ok.mp hb
        exact ⟨leaf,hleaf⟩
      · intro hread
        obtain ⟨index,hindex,hno⟩ := hread.resolve_left hsucc
        rw [hindex, ok_bind]
        split
        · next heq =>
          obtain ⟨leaf,hleaf⟩ := (hcheck succ).mpr (hno heq)
          rw [hleaf, ok_bind]
          cases leaf <;> exact ⟨_,rfl⟩
        · exact ⟨_,rfl⟩
  · next hpred =>
    split
    · next hsucc =>
      constructor
      · rintro ⟨b,hb⟩
        obtain ⟨index,hindex,hb⟩ := bind_eq_ok.mp hb
        refine ⟨index,hindex,fun heq => (hcheck pred).mp ?_⟩
        rw [if_pos heq] at hb
        obtain ⟨leaf,hleaf,-⟩ := bind_eq_ok.mp hb
        exact ⟨leaf,hleaf⟩
      · rintro ⟨index,hindex,hno⟩
        rw [hindex, ok_bind]
        split
        · next heq =>
          obtain ⟨leaf,hleaf⟩ := (hcheck pred).mpr (hno heq)
          rw [hleaf, ok_bind]
          cases leaf <;> exact ⟨_,rfl⟩
        · exact ⟨_,rfl⟩
    · next hsucc =>
      constructor
      · rintro ⟨b,hb⟩
        obtain ⟨after,hafter,hb⟩ := bind_eq_ok.mp hb
        obtain ⟨before,hbefore,hb⟩ := bind_eq_ok.mp hb
        obtain ⟨adjacent,hadj,hb⟩ := bind_eq_ok.mp hb
        refine ⟨after,before,hafter,hbefore,eqSucc_returns_iff.mp ⟨adjacent,hadj⟩,fun htrue => ?_⟩
        cases hadj.symm.trans htrue
        obtain ⟨lo,hlo,hb⟩ := bind_eq_ok.mp hb
        obtain ⟨hi,hhi,hb⟩ := bind_eq_ok.mp hb
        exact ⟨(hcheck pred).mp ⟨lo,hlo⟩,(hcheck succ).mp ⟨hi,hhi⟩⟩
      · rintro ⟨after,before,hafter,hbefore,hnumber,hno⟩
        obtain ⟨adjacent,hadj⟩ := (eqSucc_returns_iff (F := F) (v := after)).mpr hnumber
        rw [hafter, ok_bind, hbefore, ok_bind, hadj, ok_bind]
        cases adjacent with
        | false => exact ⟨_,rfl⟩
        | true =>
          obtain ⟨hpred',hsucc'⟩ := hno hadj
          obtain ⟨lo,hlo⟩ := (hcheck pred).mpr hpred'
          obtain ⟨hi,hhi⟩ := (hcheck succ).mpr hsucc'
          rw [if_pos rfl, hlo, ok_bind, hhi, ok_bind]
          cases lo <;> cases hi <;> exact ⟨_,rfl⟩

/-- The sorted checker answers exactly when what gets past its first checks can be read. -/
theorem verifyAbsence_isOk_iff {targetRef proof rootHex : PyVal} :
    (∃ b, verifyAbsence H F targetRef proof rootHex = .ok b) ↔ ∀ target size pred succ root n,
      readProof targetRef proof = .ok (target,size,pred,succ) → rootHex = .str root → intOf size = some n → 0 < n →
        Readable F n pred succ := by
  unfold verifyAbsence
  split
  · next e he =>
    rw [if_pos (readProof_raisesOnly targetRef proof e he)]
    refine iff_of_true ⟨_,rfl⟩ fun target size pred succ root n hread => ?_
    cases he.symm.trans hread
  · next target size pred succ hread =>
    split
    · next root n hsize =>
      split
      · next hneg =>
        refine iff_of_true ⟨_,rfl⟩ fun target' size' pred' succ' root' n' hread' _ hsize' hpos => ?_
        cases hread.symm.trans hread'
        cases hsize.symm.trans hsize'
        omega
      · next hnonneg =>
        split
        · next hzero =>
          refine iff_of_true ⟨_,rfl⟩ fun target' size' pred' succ' root' n' hread' _ hsize' hpos => ?_
          cases hread.symm.trans hread'
          cases hsize.symm.trans hsize'
          omega
        · next hne =>
          rw [verifyNeighbours_returns_iff (by omega)]
          constructor
          · intro hr target' size' pred' succ' root' n' hread' _ hsize' _
            cases hread.symm.trans hread'
            cases hsize.symm.trans hsize'
            exact hr
          · exact fun hall => hall target size pred succ root n hread rfl hsize (by omega)
    · next hno =>
      refine iff_of_true ⟨_,rfl⟩ fun target' size' pred' succ' root' n' hread' hroot hsize' _ => ?_
      cases hread.symm.trans hread'
      exact absurd hsize' (hno root' n' hroot)

end

end Merkle

namespace VerifierCli
open Merkle

/-- The verifier answers every sparse proof, and a sorted one exactly when its neighbours can be read. -/
theorem verifyAbsence_returns_iff (H : Bytes → Digest) (F : FloatOps) (subjectRef proof datasetRoot : PyVal) :
    (∃ verdict, verifyAbsence H (Merkle.verifyAbsence H F) subjectRef proof datasetRoot = .ok verdict) ↔
      (isSmtProof proof = true ∨ ∀ target size pred succ root n,
      readProof subjectRef proof = .ok (target,size,pred,succ) →
        datasetRoot = .str root → intOf size = some n → 0 < n → Readable F n pred succ) := by
  unfold verifyAbsence
  split
  · next hsmt =>
    obtain ⟨ok,hok⟩ := Smt.verifyAbsence_returns H subjectRef proof datasetRoot
    rw [hok, ok_bind]
    exact iff_of_true ⟨_,rfl⟩ (Or.inl hsmt)
  · next hno =>
    rw [or_iff_right hno, ← Merkle.verifyAbsence_isOk_iff (H := H)]
    constructor
    · rintro ⟨verdict,h⟩
      obtain ⟨ok,hok,-⟩ := bind_eq_ok.mp h
      exact ⟨ok,hok⟩
    · rintro ⟨ok,hok⟩
      rw [hok, ok_bind]
      exact ⟨_,rfl⟩

def numberNeighbour : PyVal := .dict [(.str "tree_size",.int 1), (.str "predecessor",.none), (.str "successor",.int 5)]

theorem not_verifyAbsence_returns : ¬∃ verdict, verifyAbsence sha256 (Merkle.verifyAbsence sha256 ⟨fun _ _ => false,id⟩)
    (.str "00") numberNeighbour (.str "") = .ok verdict := by
  rintro ⟨verdict,h⟩
  cases h

end VerifierCli

end UnlearnShield
