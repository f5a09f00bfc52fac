import UnlearnShield.Engine.Partition
import UnlearnShield.Library.Arrays

/-! # Building the partition

`build` computes a shard and a slice for each subject by index arithmetic on arrays, cuts
the raw rows into shard files by them, and writes the routing table from the same arrays.
-/
namespace UnlearnShield.Engine
open Deployment Arrays

structure RawRow (V : Type) where
  nameOrig : String
  values : V

/-- What ingest computes about subjects: the frozen churn score of each, its hash and its reference.
A score is a float; only the order of the scores and the test against the hot threshold are used. -/
structure Ingest (V : Type) where
  Churn : Type
  order : LinearOrder Churn
  churnScores : List (RawRow V) → String → Churn
  hot : Churn → Bool
  stableHash : String → ℕ
  HOT_SHARDS : ℕ
  TENANT_ID : String
  subjectRef : String → Ref

variable {D : Deployment} (I : Ingest D.V)

instance : LinearOrder I.Churn := I.order

variable (D) in
def assignShard (subjectId : String) (churnScore : I.Churn) : Py ℕ :=
  if 0 < I.HOT_SHARDS ∧ I.HOT_SHARDS < D.settings.NUM_SHARDS then
    if I.hot churnScore then .ok (I.stableHash subjectId % I.HOT_SHARDS)
    else .ok (I.HOT_SHARDS + I.stableHash subjectId % (D.settings.NUM_SHARDS - I.HOT_SHARDS))
  else raise .valueError s!"hot_shards must be in (0, {D.settings.NUM_SHARDS}), got {I.HOT_SHARDS}"

variable (D) in
def assignAll (subjectIds : List String) (churn : List I.Churn) : Py (List ℕ) :=
  (subjectIds.zip churn).mapM fun e => assignShard D I e.1 e.2

/-- `np.lexsort((subject_ids, churn))`: by churn, ties by subject. -/
def lexsort {C : Type} [LinearOrder C] (subjectIds : List String) (churn : List C) : List ℕ :=
  (((List.range subjectIds.length).zip (churn.zip subjectIds)).insertionSort fun a b =>
    a.2.1 < b.2.1 ∨ (a.2.1 = b.2.1 ∧ a.2.2 ≤ b.2.2)).map Prod.fst

/-- What an `int64` array keeps of an integer. -/
def int64 (x : ℤ) : ℤ := x.bmod (2^64)

/-- `assign_slices` on arrays that keep `store x` of an integer `x`. -/
def assignSlices {C : Type} [LinearOrder C] (store : ℤ → ℤ) (subjectIds : List String) (churn : List C)
    (recordCounts : List ℤ) (numSlices : ℤ) : Py (List ℤ) :=
  if numSlices < 1 then raise .valueError s!"num_slices must be >= 1, got {numSlices}"
  else if subjectIds = [] then .ok []
  else
    let order := lexsort subjectIds churn
    -- running sums that are cut down at every step are the exact ones cut down once
    let cumulative := (cumsum 0 (gather recordCounts order)).map store
    let total := cumulative.getLastD 0
    if store numSlices = numSlices then
      let sliceOfOrdered := cumulative.map fun c =>
        min (store ((store (store (c - 1) * numSlices)).fdiv total)) (numSlices - 1)
      .ok (scatter (List.replicate subjectIds.length 0) order sliceOfOrdered)
    else raise .overflowError s!"Python integer {numSlices} out of bounds for int64"

def sliceShards {C : Type} [LinearOrder C] (store : ℤ → ℤ) (subjects : List String) (churn : List C)
    (counts : List ℤ) (shardOf : List ℕ) (numSlices : ℤ) : List ℕ → List ℤ → Py (List ℤ)
  | [], out => .ok out
  | k :: ks, out => do
    let m := flatnonzero shardOf (· = k)
    let slices ← assignSlices store (gather subjects m) (gather churn m) (gather counts m) numSlices
    sliceShards store subjects churn counts shardOf numSlices ks (scatter out m slices)

/-- The arrays `build` computes, one entry for each subject but `inverse`, which has one for each row. -/
structure Arrangement where
  subjects : List String
  inverse : List ℕ
  counts : List ℤ
  shardOf : List ℕ
  sliceOf : List ℤ

/-- `np.unique` with its inverse, `np.bincount`, and the assignments. The rows are held in memory
and the slices are a constant of the deployment, so the products fit and nothing is cut down. -/
def arrange (raw : List (RawRow D.V)) : Py Arrangement := do
  let names := raw.map RawRow.nameOrig
  let subjects := names.dedup.insertionSort (· ≤ ·)
  let inverse := names.map (subjects.idxOf ·)
  let counts := (List.range subjects.length).map fun i => (inverse.count i : ℤ)
  if raw = [] then raise .valueError "zero-size array to reduction operation maximum which has no identity"
  else
    let churn := subjects.map (I.churnScores raw)
    let shardOf ← assignAll D I subjects churn
    let sliceOf ← sliceShards id subjects churn counts shardOf D.settings.NUM_SLICES
      (List.range D.settings.NUM_SHARDS) (List.replicate subjects.length (-1))
    pure ⟨subjects,inverse,counts,shardOf,sliceOf⟩

/-- The columns of one shard file. Every slice is a natural number when the file is written. -/
def shardRecords (raw : List (RawRow D.V)) (a : Arrangement) (k : ℕ) : Records D.V :=
  let rows := flatnonzero (gather a.shardOf a.inverse) (· = k)
  let refs := a.subjects.map I.subjectRef
  let subjectRef := gather refs (gather a.inverse rows)
  let sliceIdx := gather a.sliceOf (gather a.inverse rows)
  let values := (gather raw rows).map RawRow.values
  (subjectRef.zip (sliceIdx.zip values)).map fun e => ⟨e.1,e.2.1.toNat,e.2.2⟩

def routingOf (a : Arrangement) : Routing :=
  Dict.ofList ((a.subjects.zip (a.shardOf.zip (a.sliceOf.zip a.counts))).map fun e =>
    (I.subjectRef e.1,⟨I.TENANT_ID,e.2.1,e.2.2.1.toNat,e.2.2.2.toNat⟩))

def saveShards (raw : List (RawRow D.V)) (a : Arrangement) : List ℕ → FileM D Unit
  | [] => pure ()
  | k :: ks => do
    saveShard k (shardRecords I raw a k)
    saveShards raw a ks

def build (raw : List (RawRow D.V)) : FileM D Routing := do
  let a ← Program.lift (arrange I raw)
  saveShards I raw a (List.range D.settings.NUM_SHARDS)
  saveRouting (routingOf I a)
  pure (routingOf I a)

end UnlearnShield.Engine
