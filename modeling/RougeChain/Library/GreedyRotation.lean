import Mathlib.NumberTheory.Harmonic.Bounds
import Mathlib.Tactic

/-!
# Greedy weighted rotation

Finitely many participants share a sequence of turns in proportion to their
weights `w`. Every participant has a credit. At each turn all credits grow by
the weights, a participant of greatest credit is picked, and pays the total
weight `∑ w` for it. Ties may be broken in any way.

With all credits zero at the start, the credit of `i` after `N` turns is
`N · w i - count i · ∑ w` (`Rotates.credit_eq`): the amount by which `i` is
behind its exact share. It stays within bounds:

* above `-∑ w` (`Rotates.neg_lt_credit`): the credit that is picked is the
  greatest, and the credits after growth have a positive sum;
* at most `(H_n - 1) · ∑ w`, for `n` participants and the harmonic numbers `H`
  (`Rotates.credit_le`). This is the argument of the cup game: a set of `k`
  participants that misses a turn together with the one who was picked is a
  set of `k + 1` of no smaller average credit before the payment, so that the
  average credit of `k` participants exceeds that of `k + 1` by at most
  `∑ w / (k + 1)` (`Level`, `Level.next`).

The bounds of `Level` and `IsPick.neg_lt_next` hold of turns from any credits.
-/

open Finset

namespace Rotation

variable {ι : Type*} [Fintype ι] [DecidableEq ι]

/-- `b` has the greatest credit once all credits have grown. -/
def IsPick (w P : ι → ℤ) (b : ι) : Prop := ∀ i, P i + w i ≤ P b + w b

/-- The credits after a turn of `b`. -/
def next (w P : ι → ℤ) (b : ι) : ι → ℤ :=
  fun i => P i + w i - if i = b then ∑ j, w j else 0

/-- `Rotates w picks P`: from zero credits, the turns `picks` lead to the
    credits `P`. -/
inductive Rotates (w : ι → ℤ) : List ι → (ι → ℤ) → Prop
  | nil : Rotates w [] fun _ => 0
  | snoc {picks P b} : Rotates w picks P → IsPick w P b → Rotates w (picks ++ [b]) (next w P b)

variable {w P : ι → ℤ} {picks : List ι}

theorem sum_next (S : Finset ι) (b : ι) :
    ∑ i ∈ S, next w P b i = ∑ i ∈ S, (P i + w i) - if b ∈ S then ∑ j, w j else 0 := by
  simp only [next]
  rw [sum_sub_distrib, sum_ite_eq' S b]

theorem Rotates.credit_eq (h : Rotates w picks P) (i : ι) :
    P i = picks.length * w i - picks.count i * ∑ j, w j := by
  induction h with
  | nil => simp
  | @snoc picks P b _ _ ih =>
    rw [next, ih, List.length_append, List.count_append, List.length_singleton,
      List.count_singleton]
    by_cases hb : i = b
    · subst hb
      simp only [if_true, beq_self_eq_true]
      push_cast
      ring
    · simp only [hb, if_false, beq_eq_false_iff_ne.2 (Ne.symm hb), Bool.false_eq_true]
      push_cast
      ring

/-- A turn hands out `∑ w` and takes it back. -/
theorem sum_next_univ (b : ι) : ∑ i, next w P b i = ∑ i, P i := by
  rw [sum_next, if_pos (mem_univ b), sum_add_distrib]
  ring

theorem Rotates.sum_credit (h : Rotates w picks P) : ∑ i, P i = 0 := by
  induction h with
  | nil => simp
  | snoc _ _ ih => rw [sum_next_univ, ih]

/-! ## Lower bounds -/

/-- The credit that is picked is the greatest of a family with a positive sum. -/
theorem IsPick.neg_lt_next {b : ι} (hb : IsPick w P b) (hw : ∀ i, 0 < w i) (hsum : 0 ≤ ∑ i, P i) :
    -∑ j, w j < next w P b b := by
  have hW : 0 < ∑ j, w j := sum_pos (fun j _ => hw j) ⟨b, mem_univ b⟩
  have hpos : 0 < P b + w b := by
    by_contra hneg
    have := sum_nonpos fun j (_ : j ∈ univ) => (hb j).trans (not_lt.1 hneg)
    rw [sum_add_distrib] at this
    omega
  rw [next, if_pos rfl]
  omega

theorem le_next_of_ne (hw : ∀ i, 0 < w i) {b i : ι} (h : i ≠ b) : P i ≤ next w P b i := by
  have := hw i
  rw [next, if_neg h]
  omega

theorem Rotates.neg_lt_credit (h : Rotates w picks P) (hw : ∀ i, 0 < w i) (i : ι) :
    -∑ j, w j < P i := by
  have hW : 0 < ∑ j, w j := sum_pos (fun j _ => hw j) ⟨i, mem_univ i⟩
  induction h generalizing i with
  | nil => simpa using hW
  | @snoc picks P b h hb ih =>
    by_cases hi : i = b
    · rw [hi]
      exact hb.neg_lt_next hw h.sum_credit.ge
    · exact (ih i).trans_le (le_next_of_ne hw hi)

/-! ## Upper bounds -/

/-- The step from `k + 1` participants to `k`: `c = k`, `x` is the credit of the
    `k` and `y` that of the one picked, before it pays `W`. -/
private theorem le_of_insert_le {c H W D x y : ℚ} (hc : 0 ≤ c) (hmax : x ≤ c * y)
    (hbig : y + x - W ≤ (c + 1) * ((H - (c + 1)⁻¹) * W + D)) : x ≤ c * (H * W + D) := by
  have hpos : 0 < c + 1 := by linarith
  have hinv : (c + 1) * (c + 1)⁻¹ = 1 := mul_inv_cancel₀ hpos.ne'
  have hsum : y + x ≤ (c + 1) * (H * W + D) := by
    have e : (c + 1) * ((H - (c + 1)⁻¹) * W + D) =
        (c + 1) * (H * W + D) - (c + 1) * (c + 1)⁻¹ * W := by
      ring
    rw [e, hinv] at hbig
    linarith
  have : (c + 1) * x ≤ (c + 1) * (c * (H * W + D)) := by
    calc (c + 1) * x = c * x + x := by ring
      _ ≤ c * x + c * y := by gcongr
      _ = c * (y + x) := by ring
      _ ≤ c * ((c + 1) * (H * W + D)) := by gcongr
      _ = (c + 1) * (c * (H * W + D)) := by ring
  exact le_of_mul_le_mul_left this hpos

/-- The average credit of every set `S` of participants is at most
    `(H_n - H_{|S|}) · ∑ w + D`. -/
def Level (w P : ι → ℤ) (D : ℤ) : Prop := ∀ S : Finset ι, ((∑ i ∈ S, P i : ℤ) : ℚ) ≤
  S.card * ((harmonic (Fintype.card ι) - harmonic S.card) * (∑ j, w j : ℤ) + D)

omit [DecidableEq ι] in
theorem level_of_le {D : ℤ} (hw : ∀ i, 0 ≤ w i) (hP : ∀ i, P i ≤ D) : Level w P D := by
  intro S
  have hW : (0 : ℚ) ≤ (∑ j, w j : ℤ) := by exact_mod_cast sum_nonneg fun j _ => hw j
  have hle : harmonic S.card ≤ harmonic (Fintype.card ι) :=
    sum_le_sum_of_subset_of_nonneg (range_mono (card_le_univ S)) fun i _ _ => by positivity
  have hsum : ((∑ i ∈ S, P i : ℤ) : ℚ) ≤ S.card * D := by
    exact_mod_cast (sum_le_card_nsmul S P D fun i _ => hP i).trans_eq (nsmul_eq_mul _ _)
  refine hsum.trans ?_
  gcongr
  exact le_add_of_nonneg_left (mul_nonneg (sub_nonneg.2 hle) hW)

/-- A turn keeps the averages within their bounds. -/
theorem Level.next {D : ℤ} (h : Level w P D) (hw : ∀ i, 0 ≤ w i)
    (hsum : ∑ i, P i ≤ Fintype.card ι * D) {b : ι} (hb : IsPick w P b) :
    Level w (next w P b) D := by
  intro S
  -- Downwards from the set of all participants, whose credits keep their sum.
  induction hk : Fintype.card ι - S.card generalizing S with
  | zero =>
    have hS : S = univ := eq_univ_of_card S (by have := card_le_univ S; omega)
    rw [hS, sum_next_univ, card_univ, sub_self, zero_mul, zero_add]
    exact_mod_cast hsum
  | succ k ihk =>
    by_cases hbS : b ∈ S
    · -- The picked participant pays at least what `S` was given.
      refine le_trans ?_ (h S)
      rw [sum_next, if_pos hbS, sum_add_distrib]
      have hle : ∑ i ∈ S, w i ≤ ∑ j, w j :=
        sum_le_sum_of_subset_of_nonneg (subset_univ S) fun i _ _ => hw i
      exact_mod_cast (by omega : ∑ i ∈ S, P i + ∑ i ∈ S, w i - ∑ j, w j ≤ ∑ i ∈ S, P i)
    · have hcard : (insert b S).card = S.card + 1 := card_insert_of_notMem hbS
      have hbig := ihk (insert b S) (by omega)
      rw [sum_next, if_pos (mem_insert_self b S), sum_insert hbS, hcard, harmonic_succ] at hbig
      rw [sum_next, if_neg hbS, sub_zero]
      have hmax : ∑ i ∈ S, (P i + w i) ≤ S.card * (P b + w b) := by
        simpa using sum_le_card_nsmul S _ _ fun i _ => hb i
      have hmax : ((∑ i ∈ S, (P i + w i) : ℤ) : ℚ) ≤ S.card * ((P b + w b : ℤ) : ℚ) := by
        exact_mod_cast hmax
      refine le_of_insert_le (Nat.cast_nonneg _) hmax ?_
      push_cast at hbig ⊢
      rwa [← sub_sub] at hbig

omit [DecidableEq ι] in
theorem Level.credit_le {D : ℤ} (h : Level w P D) (i : ι) :
    (P i : ℚ) ≤ (harmonic (Fintype.card ι) - 1) * (∑ j, w j : ℤ) + D := by
  simpa [harmonic] using h {i}

theorem Rotates.level (h : Rotates w picks P) (hw : ∀ i, 0 ≤ w i) : Level w P 0 := by
  induction h with
  | nil => exact level_of_le hw fun _ => le_rfl
  | snoc h hb ih => exact ih.next hw (by rw [h.sum_credit, mul_zero]) hb

/-- No participant falls behind its share by more than `H_n - 1` turns. -/
theorem Rotates.credit_le (h : Rotates w picks P) (hw : ∀ i, 0 ≤ w i) (i : ι) :
    (P i : ℚ) ≤ (harmonic (Fintype.card ι) - 1) * (∑ j, w j : ℤ) := by
  simpa using (h.level hw).credit_le i

end Rotation
