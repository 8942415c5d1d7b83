import Mathlib

/-!
# Rounded shares

A pool is divided among weights in proportion to a total, each share rounded
down. Shares never add up to more than the pool (`sum_share_le`,
`sum_share_le_pool`), a larger weight never has a smaller share (`share_mono`),
and leaving weights out never adds to a sum (`sum_map_le_of_subset`).
-/

namespace Shares

variable {α : Type*}

/-- The part of `pool` that `w` of `total` has, rounded down. -/
def share (pool total w : ℕ) : ℕ := pool * w / total

theorem share_mono (pool total : ℕ) {w w' : ℕ} (h : w ≤ w') :
    share pool total w ≤ share pool total w' :=
  Nat.div_le_div_right (Nat.mul_le_mul_left pool h)

theorem share_le_pool {pool total w : ℕ} (h : w ≤ total) : share pool total w ≤ pool :=
  Nat.div_le_of_le_mul (by rw [Nat.mul_comm]; exact Nat.mul_le_mul_right pool h)

/-- Rounding one by one loses, and never gains. -/
theorem sum_share_le (pool total : ℕ) (ws : List ℕ) :
    (ws.map (share pool total)).sum ≤ share pool total ws.sum := by
  induction ws with
  | nil => simp
  | cons w ws ih =>
    rw [List.map_cons, List.sum_cons, List.sum_cons, share, share, Nat.mul_add]
    exact (Nat.add_le_add_left ih _).trans Nat.div_add_div_le_add_div

/-- The shares of weights within the total are within the pool. -/
theorem sum_share_le_pool {pool total : ℕ} {ws : List ℕ} (h : ws.sum ≤ total) :
    (ws.map (share pool total)).sum ≤ pool :=
  (sum_share_le pool total ws).trans (share_le_pool h)

/-- Leaving elements out of a sum does not add to it. -/
theorem sum_map_le_of_subset (f : α → ℕ) {S S' : List α} (hnodup : S'.Nodup) (hsub : S' ⊆ S) :
    (S'.map f).sum ≤ (S.map f).sum := by
  obtain ⟨T, hperm, hsublist⟩ := List.subperm_of_subset hnodup hsub
  rw [← (hperm.map f).sum_eq]
  exact (hsublist.map f).sum_le_sum fun x _ => Nat.zero_le x

end Shares
