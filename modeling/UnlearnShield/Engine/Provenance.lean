import UnlearnShield.Engine.Unlearning

/-! # What a model was trained on

A model counts as trained on a set of rows when some sequence of initialisations,
resumptions and training steps on rows of the set gives it. The learners are
arbitrary functions, so for one that logs its rows this is where its rows come from.
-/
namespace UnlearnShield.Engine
open Deployment
variable {D : Deployment}

/-- Training on rows of `R` alone, directly or through a checkpoint. -/
inductive TrainedOn (R : Row D.V → Prop) : Training D → Prop
  | fresh (seed : ℤ) : TrainedOn R (D.mlp.buildModel seed,D.mlp.adam (D.mlp.buildModel seed) D.settings.LEARNING_RATE)
  | resumed {t : Training D} (seed : ℤ) : TrainedOn R t →
      TrainedOn R (D.mlp.loadStateDict (D.mlp.buildModel seed) (D.mlp.stateDict t.1),
        D.mlp.adam (D.mlp.loadStateDict (D.mlp.buildModel seed) (D.mlp.stateDict t.1)) D.settings.LEARNING_RATE)
  | slice {t : Training D} {records : Records D.V} {preproc : D.mlp.Preproc} {i : ℕ} (seed : ℤ) : TrainedOn R t →
      fitPreprocessor records = .ok preproc → (∀ row ∈ records, row.sliceIdx ≤ i → R row) →
      TrainedOn R (trainSlice preproc records seed i t)

theorem TrainedOn.mono {R R' : Row D.V → Prop} {t : Training D} (h : TrainedOn R t) (hR : ∀ row, R row → R' row) :
    TrainedOn R' t := by
  induction h with
  | fresh seed => exact .fresh seed
  | resumed seed _ ih => exact .resumed seed ih
  | slice seed _ hfit hrows ih => exact .slice seed ih hfit fun row hrow hi => hR row (hrows row hrow hi)

/-- Training over slices `i` to `i + n - 1` of a shard file. -/
theorem TrainedOn.afterSlices {R : Row D.V → Prop} {records : Records D.V} {preproc : D.mlp.Preproc} {seed : ℤ} {i : ℕ}
    {t : Training D} (h : TrainedOn R t) (hfit : fitPreprocessor records = .ok preproc) (n : ℕ)
    (hR : ∀ row ∈ records, row.sliceIdx < i + n → R row) : TrainedOn R (afterSlices preproc records seed i t n) := by
  induction n with
  | zero => exact h
  | succ n ih =>
    have hearlier := ih fun row hrow hlt => hR row hrow (by omega)
    exact .slice seed hearlier hfit fun row hrow hle => hR row hrow (by omega)

inductive BoostedOn (R : Row D.V → Prop) : D.Booster → Prop
  | nil : BoostedOn R []
  | snoc {booster : D.Booster} {data : List D.V} : BoostedOn R booster → (∀ v ∈ data, ∃ row, R row ∧ row.values = v) →
      BoostedOn R (booster ++ [D.gbdt.nextTree data booster])

theorem BoostedOn.mono {R R' : Row D.V → Prop} {booster : D.Booster} (h : BoostedOn R booster)
    (hR : ∀ row, R row → R' row) : BoostedOn R' booster := by
  induction h with
  | nil => exact .nil
  | snoc _ hdata ih =>
    refine .snoc ih fun v hv => ?_
    obtain ⟨row,hrow,hval⟩ := hdata v hv
    exact ⟨row,hR row hrow,hval⟩

theorem BoostedOn.boost {R : Row D.V → Prop} {data : List D.V}
    (hdata : ∀ v ∈ data, ∃ row, R row ∧ row.values = v) (n : ℕ) {booster : D.Booster}
    (h : BoostedOn R booster) : BoostedOn R (Gbdt.boost data n booster) := by
  induction n generalizing booster with
  | zero => exact h
  | succ n ih => exact ih (.snoc h hdata)

theorem mem_upto {V : Type} {records : Records V} {i : ℕ} {v : V} (h : v ∈ upto records i) :
    ∃ row ∈ records, row.sliceIdx ≤ i ∧ row.values = v := by
  obtain ⟨row,hrow,rfl⟩ := List.mem_map.mp h
  obtain ⟨hmem,hi⟩ := List.mem_filter.mp hrow
  exact ⟨row,hmem,of_decide_eq_true hi,rfl⟩

/-- Boosting over slices `i` to `i + n - 1` of a shard file. -/
theorem BoostedOn.boostSlices {records : Records D.V} (treesPerSlice n i : ℕ) {R : Row D.V → Prop} {booster : D.Booster}
    (h : BoostedOn R booster) (hR : ∀ row ∈ records, row.sliceIdx < i + n → R row) :
    BoostedOn R (Gbdt.boostSlices records treesPerSlice n i booster) := by
  induction n generalizing i booster with
  | zero => exact h
  | succ n ih =>
    refine ih (i+1) (.boost (fun v hv => ?_) _ h) fun row hrow hlt => hR row hrow (by omega)
    obtain ⟨row,hrow,hi,hval⟩ := mem_upto hv
    exact ⟨row,hR row hrow (by omega),hval⟩

def ModelTrainedOn (engine : ModelEngine) (R : Row D.V → Prop) (shard : ℕ) (s : Process D) (weights : String) : Prop :=
  match engine with
  | .mlp _ => ∃ t, TrainedOn R t ∧ s.1.checkpoints shard (D.settings.NUM_SLICES - 1) = some (D.mlp.stateDict t.1) ∧
      weights = stateDictDigest (D.mlp.stateDict t.1)
  | .gbdt _ => ∃ booster, BoostedOn R booster ∧ s.1.boosters shard = some booster ∧ weights = Gbdt.boosterDigest booster

end UnlearnShield.Engine
