import Mathlib

/-! # Aligned segments of a list

A list cut into segments of `2 ^ l` entries, the last of which may be shorter. A segment
of the next level is two of these, or one when there is nothing to its right.
-/
namespace UnlearnShield
variable {α : Type} {xs : List α} {l j : ℕ}

/-- The entries from `j * 2 ^ l` on, at most `2 ^ l` of them. -/
def segment (xs : List α) (l j : ℕ) : List α := (xs.drop (j * 2 ^ l)).take (2 ^ l)

theorem length_segment (xs : List α) (l j : ℕ) : (segment xs l j).length = min (2 ^ l) (xs.length - j * 2 ^ l) := by
  rw [segment, List.length_take, List.length_drop]

theorem segment_zero (h : j < xs.length) : segment xs 0 j = [xs[j]] := by
  rw [segment, pow_zero, Nat.mul_one, List.drop_eq_getElem_cons h]
  rfl

theorem segment_top (h : xs.length ≤ 2 ^ l) : segment xs l 0 = xs := by
  rw [segment, Nat.zero_mul, List.drop_zero, List.take_of_length_le h]

theorem take_segment_succ (xs : List α) (l j : ℕ) : (segment xs (l+1) j).take (2 ^ l) = segment xs l (2 * j) := by
  have hle : 2 ^ l ≤ 2 ^ (l+1) := Nat.pow_le_pow_right (by decide) (Nat.le_succ l)
  have hstart : j * 2 ^ (l+1) = 2 * j * 2 ^ l := by ring
  rw [segment, segment, List.take_take, Nat.min_eq_left hle, hstart]

theorem drop_segment_succ (xs : List α) (l j : ℕ) : (segment xs (l+1) j).drop (2 ^ l) = segment xs l (2 * j + 1) := by
  have hlen : 2 ^ (l+1) - 2 ^ l = 2 ^ l := by
    rw [pow_succ]
    omega
  have hstart : j * 2 ^ (l+1) + 2 ^ l = (2 * j + 1) * 2 ^ l := by ring
  rw [segment, segment, List.drop_take, List.drop_drop, hlen, hstart]

/-- With nothing to its right, a segment is one of the next level. -/
theorem segment_succ_of_short (h : xs.length ≤ (2 * j + 1) * 2 ^ l) : segment xs (l+1) j = segment xs l (2 * j) := by
  rw [← take_segment_succ, List.take_of_length_le]
  rw [length_segment]
  have hstart : (2 * j + 1) * 2 ^ l = j * 2 ^ (l+1) + 2 ^ l := by ring
  omega

/-- The last segment of a level, if its index is even, is the last one of the next level. -/
theorem segment_last {i k : ℕ} (h : xs.length - 1 < (i * 2 ^ k + 1) * 2 ^ l) :
    segment xs l (i * 2 ^ k) = segment xs (l+k) i := by
  induction k generalizing i with
  | zero => rw [pow_zero, Nat.mul_one, Nat.add_zero]
  | succ k ih =>
    have hi : i * 2 ^ (k+1) = 2 * i * 2 ^ k := by ring
    rw [hi] at h ⊢
    rw [ih h, ← Nat.add_assoc]
    refine (segment_succ_of_short ?_).symm
    have hone : 1 ≤ 2 ^ k := Nat.one_le_two_pow
    have hgrow : (2 * i * 2 ^ k + 1) * 2 ^ l ≤ (2 * i + 1) * 2 ^ (l+k) := by
      have hmul : (2 * i + 1) * 2 ^ (l+k) = (2 * i * 2 ^ k + 2 ^ k) * 2 ^ l := by ring
      rw [hmul]
      exact Nat.mul_le_mul_right _ (by omega)
    omega

end UnlearnShield
