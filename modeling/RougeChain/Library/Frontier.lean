import Mathlib.Data.List.FinRange
import Mathlib.Data.Nat.Bitwise
import Mathlib.Tactic

/-!
# The frontier of a Merkle tree

A complete binary tree over the leaves `leaf 0`, `leaf 1`, … hashes pairs with `merge`; all leaves
from a position `n` on are `zero`. An append-only tree keeps only its *frontier*: for each bit of
`n` that is set, the root of the complete subtree of that height which ends at the boundary.

* `Frontier.node`: the root of a subtree, by its height and its place among those of that height;
* `Frontier.node_succ_of_bit`, `Frontier.node_succ_of_not_bit`: one level up on the path from the
  leaf `n`, where the sibling is a subtree of the frontier or an empty subtree;
* `Frontier.slot_succ`: the frontier with one more leaf, which waits on the lowest level whose bit
  is not set.
-/

namespace RougeChain.Frontier

variable {D : Type*} (merge : D → D → D)

/-- The root of subtree `i` of height `h`: its leaves are those at `i * 2 ^ h` and the following
    `2 ^ h - 1` positions. -/
def node (leaf : ℕ → D) : ℕ → ℕ → D
  | 0, i => leaf i
  | h + 1, i => merge (node leaf h (2 * i)) (node leaf h (2 * i + 1))

/-- The root of the subtree of height `h` whose leaves are all `zero`. -/
def empty (zero : D) : ℕ → D
  | 0 => zero
  | h + 1 => merge (empty zero h) (empty zero h)

/-- What the frontier of the first `n` leaves holds on level `l`: the complete subtree of that
    height which ends at the boundary, if the bit is set. -/
def slot (zero : D) (leaf : ℕ → D) (n l : ℕ) : D :=
  if n.testBit l then node merge leaf l (n / 2 ^ l - 1) else zero

/-! ## Places on a level -/

section Places

variable {n k l : ℕ}

theorem testBit_iff : n.testBit l = true ↔ n / 2 ^ l % 2 = 1 := by
  rw [Nat.testBit_eq_decide_div_mod_eq, decide_eq_true_iff]

theorem div_two_pow_succ : n / 2 ^ (l + 1) = n / 2 ^ l / 2 := by
  rw [pow_succ, Nat.div_div_eq_div_mul]

/-- The two halves of a subtree hold its leaves. -/
theorem div_two_pow_of_half {i j : ℕ} (h : j / 2 ^ l = 2 * i ∨ j / 2 ^ l = 2 * i + 1) :
    j / 2 ^ (l + 1) = i := by
  rw [div_two_pow_succ]
  omega

theorem testBit_eq_false_iff : n.testBit l = false ↔ n / 2 ^ l % 2 = 0 := by
  rw [Nat.testBit_eq_decide_div_mod_eq, decide_eq_false_iff_not]
  exact Nat.mod_two_ne_one

/-- All bits below `k` are set when `n + 1` is a multiple of `2 ^ k`. -/
theorem div_of_succ_eq {q : ℕ} (h : n + 1 = 2 ^ k * (q + 1)) : n / 2 ^ k = q := by
  have hpos : 0 < 2 ^ k := Nat.two_pow_pos k
  refine Nat.div_eq_of_lt_le ?_ ?_
  · rw [Nat.mul_comm]
    rw [Nat.mul_succ] at h
    omega
  · rw [Nat.mul_comm, ← h]
    exact Nat.lt_succ_self n

theorem exists_succ_eq (h : 2 ^ k ∣ n + 1) : ∃ q, n + 1 = 2 ^ k * (q + 1) := by
  obtain ⟨m, hm⟩ := h
  cases m with
  | zero => exact absurd hm (Nat.succ_ne_zero n)
  | succ q => exact ⟨q, hm⟩

/-- With bit `k` set as well, all bits below `k + 1` are. -/
theorem dvd_succ_of_bit (hk : 2 ^ k ∣ n + 1) (hbit : n.testBit k = true) : 2 ^ (k + 1) ∣ n + 1 := by
  obtain ⟨q, hq⟩ := exists_succ_eq hk
  rw [testBit_iff, div_of_succ_eq hq] at hbit
  obtain ⟨r, hr⟩ : 2 ∣ q + 1 := by omega
  exact ⟨r, by rw [hq, hr, pow_succ, Nat.mul_assoc]⟩

/-- The bits below `k` are cleared by one more leaf. -/
theorem testBit_succ_of_dvd (hk : 2 ^ k ∣ n + 1) (hl : l < k) : (n + 1).testBit l = false := by
  obtain ⟨m, hm⟩ := hk
  rw [testBit_eq_false_iff, hm, show k = l + 1 + (k - l - 1) by omega, pow_add, pow_succ,
    Nat.mul_assoc, Nat.mul_assoc, Nat.mul_div_cancel_left _ (Nat.two_pow_pos l), Nat.mul_mod_right]

/-- The subtree left of the one of leaf `n` ends before that leaf. -/
theorem lt_of_div_eq {j : ℕ} (hbit : n.testBit l = true) (hj : j / 2 ^ l = n / 2 ^ l - 1) :
    j < n := by
  rw [testBit_iff] at hbit
  obtain ⟨p, hp⟩ : ∃ p, n / 2 ^ l = 2 * p + 1 := ⟨n / 2 ^ l / 2, by omega⟩
  by_contra hle
  have hmono := Nat.div_le_div_right (c := 2 ^ l) (Nat.le_of_not_lt hle)
  omega

end Places

/-! ## Subtrees -/

section Subtrees

variable {merge} {zero : D} {leaf leaf' : ℕ → D} {n l : ℕ}

/-- A subtree depends on its own leaves only. -/
theorem node_congr {h i : ℕ} (heq : ∀ j, j / 2 ^ h = i → leaf j = leaf' j) :
    node merge leaf h i = node merge leaf' h i := by
  induction h generalizing i with
  | zero => exact heq i (by rw [pow_zero, Nat.div_one])
  | succ h ih =>
    rw [node, node, ih fun j hj => heq j (div_two_pow_of_half (.inl hj)),
      ih fun j hj => heq j (div_two_pow_of_half (.inr hj))]

theorem node_of_zero {h i : ℕ} (hz : ∀ j, j / 2 ^ h = i → leaf j = zero) :
    node merge leaf h i = empty merge zero h := by
  induction h generalizing i with
  | zero => exact hz i (by rw [pow_zero, Nat.div_one])
  | succ h ih =>
    rw [node, empty, ih fun j hj => hz j (div_two_pow_of_half (.inl hj)),
      ih fun j hj => hz j (div_two_pow_of_half (.inr hj))]

/-- Where the bit is set, the subtree of leaf `n` is a right child. -/
theorem node_succ_of_bit (hbit : n.testBit l = true) :
    node merge leaf (l + 1) (n / 2 ^ (l + 1)) =
      merge (node merge leaf l (n / 2 ^ l - 1)) (node merge leaf l (n / 2 ^ l)) := by
  rw [testBit_iff] at hbit
  obtain ⟨q, hq⟩ : ∃ q, n / 2 ^ l = 2 * q + 1 := ⟨n / 2 ^ l / 2, by omega⟩
  rw [node, div_two_pow_succ, hq, Nat.add_sub_cancel, show (2 * q + 1) / 2 = q by omega]

/-- Where it is not set, the subtree is a left child, and its sibling is empty. -/
theorem node_succ_of_not_bit (hbit : n.testBit l = false) (hz : ∀ j, n < j → leaf j = zero) :
    node merge leaf (l + 1) (n / 2 ^ (l + 1)) =
      merge (node merge leaf l (n / 2 ^ l)) (empty merge zero l) := by
  rw [testBit_eq_false_iff] at hbit
  rw [node, div_two_pow_succ, show 2 * (n / 2 ^ l / 2) = n / 2 ^ l by omega]
  refine congrArg _ (node_of_zero fun j hj => hz j ?_)
  by_contra hle
  have := Nat.div_le_div_right (c := 2 ^ l) (Nat.le_of_not_lt hle)
  omega

/-! ## One more leaf -/

variable {k : ℕ}

/-- Below the lowest bit that is not set, the new frontier is empty; on that level, it holds the
    subtree that leaf `n` completes; above, it is the old one. -/
theorem slot_succ (hk : 2 ^ k ∣ n + 1) (hbit : n.testBit k = false)
    (heq : ∀ j < n, leaf' j = leaf j) (l : ℕ) :
    slot merge zero leaf' (n + 1) l =
      if l < k then zero else if l = k then node merge leaf' k (n / 2 ^ k)
      else slot merge zero leaf n l := by
  obtain ⟨q, hq⟩ := exists_succ_eq hk
  have hplace : n / 2 ^ k = q := div_of_succ_eq hq
  have hnext : (n + 1) / 2 ^ k = q + 1 := by rw [hq, Nat.mul_div_cancel_left _ (Nat.two_pow_pos k)]
  rw [testBit_eq_false_iff, hplace] at hbit
  rcases lt_trichotomy l k with hlt | rfl | hgt
  · rw [slot, testBit_succ_of_dvd hk hlt, if_neg Bool.false_ne_true, if_pos hlt]
  · have hset : (n + 1).testBit l = true := by rw [testBit_iff, hnext]; omega
    rw [slot, if_pos hset, if_neg (lt_irrefl _), if_pos rfl, hnext, hplace, Nat.add_sub_cancel]
  · -- the boundary moves inside one place of the level
    have hsame : (n + 1) / 2 ^ l = n / 2 ^ l := by
      rw [show l = k + 1 + (l - k - 1) by omega, pow_add, ← Nat.div_div_eq_div_mul,
        ← Nat.div_div_eq_div_mul, div_two_pow_succ, div_two_pow_succ, hnext, hplace]
      congr 1
      omega
    have hbits : (n + 1).testBit l = n.testBit l := by
      rw [Nat.testBit_eq_decide_div_mod_eq, Nat.testBit_eq_decide_div_mod_eq, hsame]
    rw [if_neg (by omega), if_neg (by omega), slot, slot, hbits, hsame]
    split_ifs with hset
    · exact node_congr fun j hj => heq j (lt_of_div_eq hset hj)
    · rfl

/-- The frontier with all bits set becomes empty. -/
theorem slot_succ_of_full (hk : 2 ^ k ∣ n + 1) (hl : l < k) :
    slot merge zero leaf (n + 1) l = zero := by
  rw [slot, testBit_succ_of_dvd hk hl, if_neg Bool.false_ne_true]

end Subtrees

/-- The levels from `k` on start with `k`. -/
theorem drop_finRange {d k : ℕ} (hk : k < d) :
    (List.finRange d).drop k = ⟨k, hk⟩ :: (List.finRange d).drop (k + 1) := by
  rw [List.drop_eq_getElem_cons (by rwa [List.length_finRange]), List.getElem_finRange]
  rfl

end RougeChain.Frontier
