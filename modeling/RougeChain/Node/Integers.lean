import RougeChain.Consensus.Arith
import RougeChain.Node.AmmTotal
import RougeChain.Node.Fees

/-!
# Quotients and roots

The integer arithmetic that rewards, fees and pools rest on, at its full width. The consensus
machine divides a product of 256 bits bit by bit; the ledger splits it, and its second remainder
saturates.

* `quotients_exact`: the machine's quotients are the mathematical floors, and nothing when those do
  not fit; the ledger's is the floor exactly when its saturated remainder gives the same quotient;
* `isqrt_total_iff`: Newton's root is reached without overflow, for all numbers but the largest.
-/

namespace RougeChain.Node

open Consensus

/-! ## Quotients -/

/-- A quotient that fits is split without loss, up to the remainder. -/
theorem mulDiv_exact_iff {a b d : U128} (hd : d ≠ 0)
    (hfits : a.toNat * b.toNat / d.toNat < 2 ^ 128) :
    (mulDiv a b d).toNat = a.toNat * b.toNat / d.toNat ↔
      min (2 ^ 128 - 1) (a.toNat % d.toNat * b.toNat) / d.toNat =
        a.toNat % d.toNat * b.toNat / d.toNat := by
  have hpos : 0 < d.toNat := Nat.pos_of_ne_zero fun h => hd (BitVec.eq_of_toNat_eq h)
  rw [toNat_mulDiv hd]
  rw [mul_div_split hpos] at hfits ⊢
  have hle : min (2 ^ 128 - 1) (a.toNat % d.toNat * b.toNat) / d.toNat ≤
      a.toNat % d.toNat * b.toNat / d.toNat := Nat.div_le_div_right (min_le_right _ _)
  omega

theorem quotients_exact (a b d : U128) (x y : BitVec 128) :
    (mulDivFloor a.toNat b.toNat d.toNat =
      if 0 < d.toNat ∧ a.toNat * b.toNat / d.toNat < 2 ^ 128 then
        some (a.toNat * b.toNat / d.toNat)
      else none) ∧
    (signedMulDivFloor x.toInt b.toNat d.toNat =
      if 0 < d.toNat then toI128 (x.toInt * b.toNat / d.toNat) else none) ∧
    (floorDiv x.toInt y.toInt =
      if y.toInt = 0 then none else toI128 (x.toInt.fdiv y.toInt)) ∧
    (d ≠ 0 → a.toNat * b.toNat / d.toNat < 2 ^ 128 →
      ((mulDiv a b d).toNat = a.toNat * b.toNat / d.toNat ↔
        min (2 ^ 128 - 1) (a.toNat % d.toNat * b.toNat) / d.toNat =
          a.toNat % d.toNat * b.toNat / d.toNat)) :=
  ⟨mulDivFloor_exact _ _ d.isLt, signedMulDivFloor_exact _ _ d.isLt,
    floorDiv_exact (BitVec.le_toInt x) BitVec.toInt_lt, mulDiv_exact_iff⟩

/-- Three quarters of the largest number. -/
theorem quotients_exact_largest :
    (mulDiv (BitVec.allOnes 128) 3 4).toNat = (2 ^ 128 - 1) * 3 / 4 :=
  ((quotients_exact (BitVec.allOnes 128) 3 4 0 0).2.2.2 (by decide) (by decide)).2 (by decide)

/-- The remainder `2^127 - 1` times `2^127` saturates, and leaves a quotient of one. -/
theorem mulDiv_inexact :
    ∃ a b d : U128, d ≠ 0 ∧ a.toNat * b.toNat / d.toNat < 2 ^ 128 ∧
      (mulDiv a b d).toNat ≠ a.toNat * b.toNat / d.toNat :=
  ⟨BitVec.ofNat 128 (2 ^ 127 - 1), BitVec.ofNat 128 (2 ^ 127), BitVec.ofNat 128 (2 ^ 127),
    by decide, by decide, by decide⟩

/-! ## Roots -/

/-- The loop of `isqrt` with its operations checked: nothing if one of them overflows or divides by
    zero, or if the turns do not suffice. -/
def isqrtLoopChecked : ℕ → ℕ → ℕ → ℕ → Option ℕ
  | 0, _, _, _ => none
  | fuel + 1, n, x, y =>
    if y < x then
      if y = 0 ∨ 2 ^ 128 ≤ y + n / y then none else isqrtLoopChecked fuel n y ((y + n / y) / 2)
    else some x

/-- The source's `isqrt` with its operations checked. -/
def isqrtChecked (n : ℕ) : Option ℕ :=
  if n < 2 then some n
  else if 2 ^ 128 ≤ n + 1 then none
  else isqrtLoopChecked n n n ((n + 1) / 2)

/-- A turn that does not fall has met the root. -/
theorem eq_sqrt_of_not_lt {n x : ℕ} (hpos : 0 < x) (hx : n.sqrt ≤ x)
    (hstop : ¬(x + n / x) / 2 < x) : x = n.sqrt := by
  refine le_antisymm (Nat.le_sqrt.2 ?_) hx
  exact (Nat.le_div_iff_mul_le hpos).1 (by omega)

theorem isqrtLoop_eq {n : ℕ} (hn : n + 1 < 2 ^ 128) (hroot : 0 < n.sqrt) (fuel : ℕ) {x : ℕ}
    (hx : n.sqrt ≤ x) (hle : x ≤ n) (hfuel : x < fuel + n.sqrt) :
    isqrtLoopChecked fuel n x ((x + n / x) / 2) = some n.sqrt ∧
      isqrtLoop fuel n x ((x + n / x) / 2) = n.sqrt := by
  -- the iterates fall, and stay at or above the root
  induction fuel generalizing x with
  | zero => omega
  | succ fuel ih =>
    rw [isqrtLoopChecked, isqrtLoop]
    have hpos := hroot.trans_le hx
    by_cases hlt : (x + n / x) / 2 < x
    · have hy := sqrt_le_newton hpos hx
      have hyn : (x + n / x) / 2 ≤ n := hlt.le.trans hle
      have hsum := (newton_sum_le (hroot.trans_le hy) hyn).trans_lt hn
      rw [if_pos hlt, if_pos hlt, if_neg (by omega)]
      exact ih hy hyn (by omega)
    · rw [if_neg hlt, if_neg hlt, ← eq_sqrt_of_not_lt hpos hx hlt]
      exact ⟨rfl, rfl⟩

theorem isqrt_total {n : ℕ} (hn : n + 1 < 2 ^ 128) :
    isqrtChecked n = some n.sqrt ∧ isqrt n = n.sqrt := by
  rw [isqrtChecked, isqrt]
  split
  · next hlt =>
    obtain rfl | rfl : n = 0 ∨ n = 1 := by omega
    · exact ⟨rfl, rfl⟩
    · exact ⟨rfl, rfl⟩
  · next hge =>
    have hpos : 0 < n := by omega
    have hroot := Nat.sqrt_pos.2 hpos
    have hloop := isqrtLoop_eq hn hroot n (Nat.sqrt_le_self n) le_rfl (by omega)
    rw [Nat.div_self hpos] at hloop
    rwa [if_neg (by omega)]

theorem isqrt_total_iff (n : U128) :
    (∃ r, isqrtChecked n.toNat = some r ∧ isqrt n.toNat = r ∧
      r * r ≤ n.toNat ∧ n.toNat < (r + 1) * (r + 1)) ↔ n ≠ BitVec.allOnes 128 := by
  have hlt := n.isLt
  constructor
  · rintro ⟨r, hr, -⟩ rfl
    have hnone : isqrtChecked (BitVec.allOnes 128).toNat = none := by decide
    exact absurd (hr.symm.trans hnone) (Option.some_ne_none r)
  · intro hne
    have hn : n.toNat + 1 < 2 ^ 128 := by
      have : n.toNat ≠ 2 ^ 128 - 1 := fun h => hne (BitVec.eq_of_toNat_eq h)
      omega
    obtain ⟨hchecked, hroot⟩ := isqrt_total hn
    exact ⟨_, hchecked, hroot, Nat.sqrt_le _, Nat.lt_succ_sqrt _⟩

/-- The first sum of the largest number overflows. -/
theorem isqrt_largest : ∃ n : U128, isqrtChecked n.toNat = none := ⟨BitVec.allOnes 128, by decide⟩

end RougeChain.Node
