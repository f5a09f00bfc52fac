import UnlearnShield.Crypto.Sha256
import UnlearnShield.Python.Value

/-! # The sorted Merkle tree

Leaves are the sorted, distinct references; a list of more than one is split at the
largest power of two below its length. The published root also commits to the number
of leaves. An audit path is checked from the leaf upward, by the bits of its index and
of the index of the last leaf.
-/
namespace UnlearnShield.Merkle

/-- `n.to_bytes(length, "big")` of a number that fits. -/
def toBytesBig : ℕ → ℕ → Bytes
  | 0, _ => []
  | length + 1, n => toBytesBig length (n / 256) ++ [UInt8.ofNat n]

variable (H : Bytes → Digest)

def commitInput (treeSize : ℕ) (mthRoot : Bytes) : Bytes := 0x02 :: (toBytesBig 8 treeSize ++ mthRoot)

def commit (treeSize : ℤ) (mthRoot : Bytes) : Py String :=
  if treeSize < 0 then raise .overflowError "can't convert negative int to unsigned"
  else if treeSize < 2 ^ 64 then .ok (H (commitInput treeSize.toNat mthRoot)).val.hex
  else raise .overflowError "int too big to convert"

def EMPTY_ROOT : String := (H (commitInput 0 (H []).val)).val.hex

def leafInput (data : Bytes) : Bytes := 0x00 :: data
def nodeInput (left right : Bytes) : Bytes := 0x01 :: (left ++ right)
def leafHash (data : Bytes) : Digest := H (leafInput data)
def nodeHash (left right : Bytes) : Digest := H (nodeInput left right)

/-- Largest power of two strictly less than `n`. -/
def split (n : ℕ) : ℕ := 1 <<< (Nat.size (n - 1) - 1)

theorem split_eq {n l : ℕ} (h₁ : 2 ^ l < n) (h₂ : n ≤ 2 ^ (l+1)) : split n = 2 ^ l := by
  have hpos : 0 < 2 ^ l := Nat.two_pow_pos l
  have hle : Nat.size (n - 1) ≤ l + 1 := Nat.size_le.mpr (by omega)
  have hlt : l < Nat.size (n - 1) := Nat.lt_size.mpr (by omega)
  have hsize : Nat.size (n - 1) - 1 = l := by omega
  rw [split, hsize, Nat.one_shiftLeft]

/-- A length above one lies between two powers of two. -/
theorem exists_level {n : ℕ} (h : 2 ≤ n) : ∃ l, 2 ^ l < n ∧ n ≤ 2 ^ (l+1) := by
  have hpos : 0 < Nat.size (n - 1) := Nat.size_pos.mpr (by omega)
  have hle : 2 ^ (Nat.size (n - 1) - 1) ≤ n - 1 := Nat.lt_size.mp (by omega)
  have hlt : n - 1 < 2 ^ Nat.size (n - 1) := Nat.lt_size_self (n - 1)
  refine ⟨Nat.size (n - 1) - 1,by omega,?_⟩
  rw [Nat.sub_add_cancel hpos]
  omega

theorem split_bounds {n : ℕ} (h : 2 ≤ n) : 0 < split n ∧ split n < n := by
  obtain ⟨l,h₁,h₂⟩ := exists_level h
  rw [split_eq h₁ h₂]
  exact ⟨Nat.two_pow_pos l,h₁⟩

def mth : List Bytes → Digest
  | [] => H []
  | [data] => leafHash H data
  | x :: y :: rest =>
    let k := split (rest.length + 2)
    nodeHash H (mth ((x :: y :: rest).take k)).val (mth ((x :: y :: rest).drop k)).val
termination_by leaves => leaves.length
decreasing_by
  · have := split_bounds (Nat.le_add_left 2 rest.length)
    simp only [List.length_take, List.length_cons]
    omega
  · have := split_bounds (Nat.le_add_left 2 rest.length)
    simp only [List.length_drop, List.length_cons]
    omega

/-- `sorted({bytes.fromhex(r) for r in subject_refs})`. -/
def sortedLeaves (subjectRefs : List String) : Py (List Bytes) := do
  let leaves ← subjectRefs.mapM fun r => (PyVal.str r).fromhex
  pure (leaves.dedup.insertionSort (· ≤ ·))

def buildRoot (subjectRefs : List String) : Py String := do
  let leaves ← sortedLeaves subjectRefs
  commit H leaves.length (mth H leaves).val

/-- `while fn != 0 and not (fn & 1)`. -/
def shiftEven (fn sn : ℕ) : ℕ × ℕ := if fn ≠ 0 ∧ fn % 2 = 0 then shiftEven (fn / 2) (sn / 2) else (fn,sn)
termination_by fn
decreasing_by omega

def climb : List Bytes → ℕ → ℕ → Digest → Option Digest
  | [], _, sn, node => if sn = 0 then some node else none
  | sibling :: path, fn, sn, node =>
    if sn = 0 then none
    else if fn % 2 = 1 ∨ fn = sn then
      let (fn',sn') := shiftEven fn sn
      climb path (fn' / 2) (sn' / 2) (nodeHash H sibling node.val)
    else climb path (fn / 2) (sn / 2) (nodeHash H node.val sibling)

def reconstructRoot (leaf : Bytes) (index treeSize : ℤ) (path : List Bytes) : Option Digest :=
  if index ≥ treeSize ∨ index < 0 then none
  else climb H path index.toNat (treeSize - 1).toNat (leafHash H leaf)

def verifyAuditPath (leaf : Bytes) (index treeSize : ℤ) (path : List Bytes) (committedRoot : String) : Py Bool :=
  match reconstructRoot H leaf index treeSize path with
  | none => .ok false
  | some node => do
    let root ← commit H treeSize node.val
    pure (root == committedRoot)

/-- What comparing and adding give when a float is involved. No proof with one is accepted. -/
structure FloatOps where
  eq : PyVal → PyVal → Bool
  addOne : String → String

/-- The integer that `isinstance(v, int)` finds. -/
def intOf : PyVal → Option ℤ
  | .int n => some n
  | .bool b => some (if b then 1 else 0)
  | _ => none

/-- `v == n`. -/
def eqInt (F : FloatOps) (v : PyVal) (n : ℤ) : Bool :=
  match intOf v, v with
  | some m, _ => m = n
  | none, .float _ => F.eq v (.int n)
  | none, _ => false

/-- `v == w + 1`. -/
def eqSucc (F : FloatOps) (v w : PyVal) : Py Bool :=
  match intOf w, w with
  | some n, _ => .ok (eqInt F v (n+1))
  | none, .float x =>
    .ok (((intOf v).isSome || match v with | .float _ => true | _ => false) && F.eq v (.float (F.addOne x)))
  | none, .str _ => raise .typeError "can only concatenate str (not \"int\") to str"
  | none, .list _ => raise .typeError "can only concatenate list (not \"int\") to list"
  | none, _ => raise .typeError s!"unsupported operand type(s) for +: '{w.typeName}' and 'int'"

/-- The values a `for` loop over `v` takes. -/
def iter (v : PyVal) : Py (List PyVal) :=
  match v with
  | .list xs => .ok xs
  | .str s => .ok (s.toList.map fun c => .str (String.singleton c))
  | .dict pairs => .ok ((PyVal.items pairs).map fun e => match e.1 with | .int n => .int n | .str s => .str s)
  | v => raise .typeError s!"'{v.typeName}' object is not iterable"

/-- `v.get(key, default)`. -/
def getD (v : PyVal) (key : String) (default : PyVal) : Py PyVal :=
  match v with
  | .dict pairs => .ok (((Dict.ofList pairs).get? (.str key)).getD default)
  | v => raise .attributeError s!"'{v.typeName}' object has no attribute 'get'"

/-- The body of the `try` block of `check`. -/
def readEntry (entry : PyVal) : Py (Bytes × List Bytes × PyVal) := do
  let leafHex ← entry.subscript "leaf"
  let leaf ← leafHex.fromhex
  let pathHex ← entry.subscript "path"
  let siblings ← iter pathHex
  let path ← siblings.mapM PyVal.fromhex
  let index ← entry.subscript "index"
  pure (leaf,path,index)

def check (size : ℤ) (rootHex : String) (entry : PyVal) : Py (Option Bytes) :=
  match readEntry entry with
  | .error e => if e.kind ∈ [.valueError, .typeError, .keyError] then .ok none else .error e
  | .ok (leaf,path,index) =>
    match intOf index with
    | none => .ok none
    | some i => do
      let verified ← verifyAuditPath H leaf i size path rootHex
      pure (if verified then some leaf else none)

/-- The body of the first `try` block. -/
def readProof (targetRef proof : PyVal) : Py (Bytes × PyVal × PyVal × PyVal) := do
  let target ← targetRef.fromhex
  let size ← proof.subscript "tree_size"
  let pred ← proof.get "predecessor"
  let succ ← proof.get "successor"
  pure (target,size,pred,succ)

def isNone : PyVal → Bool
  | .none => true
  | _ => false

/-- The part after the checks on the size: the neighbours must be adjacent and stand around the target. -/
def verifyNeighbours (F : FloatOps) (target : Bytes) (size : ℤ) (pred succ : PyVal) (rootHex : String) : Py Bool :=
  if isNone pred then
    if isNone succ then .ok false
    else do
      let index ← succ.get "index"
      if eqInt F index 0 then
        match ← check H size rootHex succ with
        | some leaf => pure (target < leaf)
        | none => pure false
      else pure false
  else if isNone succ then do
    let index ← pred.get "index"
    if eqInt F index (size - 1) then
      match ← check H size rootHex pred with
      | some leaf => pure (leaf < target)
      | none => pure false
    else pure false
  else do
    let after ← succ.get "index"
    let before ← getD pred "index" (.int (-99))
    if ← eqSucc F after before then
      let lo ← check H size rootHex pred
      let hi ← check H size rootHex succ
      match lo, hi with
      | some lo, some hi => pure (lo < target ∧ target < hi)
      | _, _ => pure false
    else pure false

def verifyAbsence (F : FloatOps) (targetRef proof rootHex : PyVal) : Py Bool :=
  match readProof targetRef proof with
  | .error e => if e.kind ∈ [.valueError, .typeError, .keyError] then .ok false else .error e
  | .ok (target,size,pred,succ) =>
    match rootHex, intOf size with
    | .str root, some n =>
      if n < 0 then .ok false
      else if n = 0 then .ok (isNone pred && isNone succ && root == EMPTY_ROOT H)
      else verifyNeighbours H F target n pred succ root
    | _, _ => .ok false

end UnlearnShield.Merkle
