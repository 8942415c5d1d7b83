import Mathlib.Tactic

/-!
# Exact multiply-divide

`⌊a·b / d⌋` on 128-bit integers with a 256-bit intermediate: the schoolbook
product of 64-bit halves (`fullMul`), and a bit-by-bit long division
(`divWide`), whose remainder register is 128 bits wide, so that its top bit is
shifted out and kept aside as `carry`.

* `fullMul_eq`: the two halves of the product are exact;
* `divWide_eq`: the division is exact, and defined if the quotient fits;
* `mulDivFloor_exact`, `signedMulDivFloor_exact`, `floorDiv_exact`: hence so are the quotients that
  are rounded down.
-/

namespace RougeChain.Consensus

/-- The full `128 × 128 → 256`-bit product as `(high, low)`. -/
def fullMul (a b : ℕ) : ℕ × ℕ :=
  let mask := 2 ^ 64 - 1
  let a1 := a >>> 64
  let a0 := a &&& mask
  let b1 := b >>> 64
  let b0 := b &&& mask
  let p00 := a0 * b0
  let p01 := a0 * b1
  let p10 := a1 * b0
  let p11 := a1 * b1
  let mid := (p00 >>> 64) + (p01 &&& mask) + (p10 &&& mask)
  let lo := (p00 &&& mask) ||| ((mid &&& mask) <<< 64)
  let hi := p11 + (p01 >>> 64) + (p10 >>> 64) + (mid >>> 64)
  (hi, lo)

/-- The loop of `divWide` on the bits `i - 1, …, 0` of `lo`. -/
def divLoop (lo d : ℕ) : ℕ → ℕ → ℕ → ℕ × ℕ
  | 0, rem, q => (q, rem)
  | i + 1, rem, q =>
    let carry := rem >>> 127
    let rem := ((rem <<< 1) % 2 ^ 128) ||| ((lo >>> i) &&& 1)
    let q := q <<< 1
    if carry = 1 ∨ d ≤ rem then divLoop lo d i ((rem + 2 ^ 128 - d) % 2 ^ 128) (q ||| 1)
    else divLoop lo d i rem q

/-- `(hi·2^128 + lo) / d` as `(quotient, remainder)`, `none` if `d = 0` or the
    quotient does not fit. -/
def divWide (hi lo d : ℕ) : Option (ℕ × ℕ) :=
  if d = 0 ∨ d ≤ hi then none
  else if hi = 0 then some (lo / d, lo % d)
  else some (divLoop lo d 128 hi 0)

/-- `⌊a·b / d⌋` with a 256-bit intermediate. -/
def mulDivFloor (a b d : ℕ) : Option ℕ :=
  let (hi, lo) := fullMul a b
  (divWide hi lo d).map Prod.fst

/-- The magnitude of the least `i128`. -/
def i128Bound : ℕ := 2 ^ 127

/-- An `i128`, or nothing if `x` does not fit. -/
def toI128 (x : ℤ) : Option ℤ := if -i128Bound ≤ x ∧ x < i128Bound then some x else none

/-- `⌊a·b / d⌋` for signed `a`, rounding toward negative infinity. -/
def signedMulDivFloor (a : ℤ) (b d : ℕ) : Option ℤ :=
  if 0 ≤ a then
    (mulDivFloor a.natAbs b d).bind fun q => toI128 q
  else
    let (hi, lo) := fullMul a.natAbs b
    (divWide hi lo d).bind fun (q, r) =>
      let mag := if r = 0 then some q else if q + 1 < 2 ^ 128 then some (q + 1) else none
      mag.bind fun mag => if i128Bound < mag then none else some (-(mag : ℤ))

/-- Floor division of `i128`s; `none` if `d = 0` or on overflow. -/
def floorDiv (a d : ℤ) : Option ℤ :=
  if d = 0 then none
  else
    (toI128 (a.tdiv d)).bind fun q =>
      let r := a.tmod d
      if r ≠ 0 ∧ (r < 0 ↔ ¬d < 0) then toI128 (q - 1) else some q

theorem toI128_eq {x : ℤ} (h : -2 ^ 127 ≤ x) (h' : x < 2 ^ 127) : toI128 x = some x := by
  have hb : (i128Bound : ℤ) = 2 ^ 127 := by norm_num [i128Bound]
  rw [toI128, if_pos (by rw [hb]; exact ⟨h, h'⟩)]

theorem eq_of_toI128 {x y : ℤ} (h : toI128 x = some y) : y = x ∧ x < 2 ^ 127 := by
  have hb : (i128Bound : ℤ) = 2 ^ 127 := by norm_num [i128Bound]
  rw [toI128, hb] at h
  split at h
  · next hx => exact ⟨(Option.some.inj h).symm, hx.2⟩
  · exact absurd h (by simp)

/-! ## The product -/

private theorem and_mask (n : ℕ) : n &&& (2 ^ 64 - 1) = n % 2 ^ 64 :=
  Nat.and_two_pow_sub_one_eq_mod n 64

theorem fullMul_eq (a b : ℕ) :
    (fullMul a b).1 * 2 ^ 128 + (fullMul a b).2 = a * b ∧ (fullMul a b).2 < 2 ^ 128 := by
  simp only [fullMul, and_mask, Nat.shiftRight_eq_div_pow]
  set a0 := a % 2 ^ 64
  set a1 := a / 2 ^ 64
  set b0 := b % 2 ^ 64
  set b1 := b / 2 ^ 64
  have ha : a = a1 * 2 ^ 64 + a0 := (Nat.div_add_mod' a _).symm
  have hb : b = b1 * 2 ^ 64 + b0 := (Nat.div_add_mod' b _).symm
  set mid := a0 * b0 / 2 ^ 64 + a0 * b1 % 2 ^ 64 + a1 * b0 % 2 ^ 64 with hmid
  have hlo : (a0 * b0 % 2 ^ 64 ||| (mid % 2 ^ 64) <<< 64) =
      mid % 2 ^ 64 * 2 ^ 64 + a0 * b0 % 2 ^ 64 := by
    rw [Nat.or_comm, ← Nat.shiftLeft_add_eq_or_of_lt (Nat.mod_lt _ (by positivity)),
      Nat.shiftLeft_eq]
  rw [hlo]
  have hab : a * b = a1 * b1 * 2 ^ 128 + (a0 * b1 + a1 * b0) * 2 ^ 64 + a0 * b0 := by
    rw [ha, hb]
    ring
  rw [hab, hmid]
  -- From here on the four partial products are opaque numbers.
  generalize a0 * b0 = p00
  generalize a0 * b1 = p01
  generalize a1 * b0 = p10
  constructor <;> omega

/-! ## The division -/

/-- One turn of the loop brings one bit of `lo` down and subtracts `d` if it
    fits, whether or not the shifted remainder still fits the register. -/
theorem divLoop_turn {d rem : ℕ} (lo i : ℕ) (hd : d < 2 ^ 128) (hrem : rem < d) :
    let r := ((rem <<< 1) % 2 ^ 128) ||| ((lo >>> i) &&& 1)
    let full := 2 * rem + lo / 2 ^ i % 2
    (rem >>> 127 = 1 ∨ d ≤ r ↔ d ≤ full) ∧
      (d ≤ full → (r + 2 ^ 128 - d) % 2 ^ 128 = full - d) ∧ (¬d ≤ full → r = full) := by
  have hr : ((rem <<< 1) % 2 ^ 128) ||| ((lo >>> i) &&& 1) =
      2 * rem % 2 ^ 128 + lo / 2 ^ i % 2 := by
    have hshift : (rem <<< 1) % 2 ^ 128 = (rem % 2 ^ 127) <<< 1 := by
      rw [Nat.shiftLeft_eq, Nat.shiftLeft_eq]
      omega
    rw [hshift, Nat.shiftRight_eq_div_pow lo, Nat.and_one_is_mod,
      ← Nat.shiftLeft_add_eq_or_of_lt (Nat.mod_lt _ (by norm_num)), Nat.shiftLeft_eq]
    omega
  intro r full
  have hr : r = 2 * rem % 2 ^ 128 + lo / 2 ^ i % 2 := hr
  have hfull : full = 2 * rem + lo / 2 ^ i % 2 := rfl
  rw [Nat.shiftRight_eq_div_pow, hr, hfull]
  have hbit := Nat.mod_lt (lo / 2 ^ i) (show 0 < 2 by norm_num)
  generalize lo / 2 ^ i % 2 = bit at hbit
  refine ⟨?_, ?_, ?_⟩ <;> omega

/-- The loop keeps `q·d + rem` equal to the bits of the dividend read so far. -/
theorem divLoop_eq {d : ℕ} (lo : ℕ) (hd : d < 2 ^ 128) :
    ∀ {i rem q : ℕ}, rem < d →
      (divLoop lo d i rem q).1 * d + (divLoop lo d i rem q).2 = (q * d + rem) * 2 ^ i + lo % 2 ^ i ∧
        (divLoop lo d i rem q).2 < d
  | 0, rem, q, h => by simp [divLoop, Nat.mod_one, h]
  | i + 1, rem, q, h => by
    obtain ⟨hiff, hge, hlt⟩ := divLoop_turn lo i hd h
    have hq : q <<< 1 ||| 1 = 2 * q + 1 := by
      rw [← Nat.shiftLeft_add_eq_or_of_lt (by norm_num), Nat.shiftLeft_eq]
      ring
    -- The bit brought down is the top bit of `lo % 2 ^ (i + 1)`.
    have hlo : lo % 2 ^ (i + 1) = lo / 2 ^ i % 2 * 2 ^ i + lo % 2 ^ i := by
      rw [pow_succ, Nat.mod_mul, Nat.mul_comm (2 ^ i), Nat.add_comm]
    rw [divLoop]
    by_cases hfull : d ≤ 2 * rem + lo / 2 ^ i % 2
    · rw [if_pos (hiff.2 hfull), hge hfull, hq]
      have hb := Nat.mod_lt (lo / 2 ^ i) (show 0 < 2 by norm_num)
      obtain ⟨heq, hrem⟩ := divLoop_eq lo hd (i := i) (q := 2 * q + 1)
        (show 2 * rem + lo / 2 ^ i % 2 - d < d by omega)
      refine ⟨?_, hrem⟩
      rw [heq, hlo, pow_succ]
      have : (2 * q + 1) * d + (2 * rem + lo / 2 ^ i % 2 - d) =
          2 * (q * d + rem) + lo / 2 ^ i % 2 := by
        have := Nat.sub_add_cancel hfull
        linarith
      rw [this]
      ring
    · rw [if_neg (fun h' => hfull (hiff.1 h')), hlt hfull]
      obtain ⟨heq, hrem⟩ := divLoop_eq lo hd (i := i) (q := q <<< 1)
        (show 2 * rem + lo / 2 ^ i % 2 < d by omega)
      refine ⟨?_, hrem⟩
      rw [heq, hlo, pow_succ, Nat.shiftLeft_eq]
      ring

theorem divWide_eq {hi lo d : ℕ} (hlo : lo < 2 ^ 128) (hd : d < 2 ^ 128) :
    divWide hi lo d = if d = 0 ∨ d ≤ hi then none
      else some ((hi * 2 ^ 128 + lo) / d, (hi * 2 ^ 128 + lo) % d) := by
  unfold divWide
  by_cases h : d = 0 ∨ d ≤ hi
  · rw [if_pos h, if_pos h]
  rw [if_neg h, if_neg h]
  push Not at h
  split
  · next h0 => simp [h0]
  · obtain ⟨heq, hrem⟩ := divLoop_eq lo hd (i := 128) (q := 0) h.2
    rw [Nat.zero_mul, Nat.zero_add, Nat.mod_eq_of_lt hlo] at heq
    have hpos : 0 < d := Nat.pos_of_ne_zero h.1
    refine congrArg some (Prod.ext ?_ ?_)
    · refine (Nat.div_eq_of_lt_le ?_ ?_).symm <;> rw [← heq]
      · omega
      · rw [Nat.succ_mul]
        omega
    · rw [← heq, Nat.add_comm, Nat.add_mul_mod_self_right, Nat.mod_eq_of_lt hrem]

/-- The division of a full product. -/
theorem divWide_fullMul {a b d : ℕ} (hd : d < 2 ^ 128) :
    divWide (fullMul a b).1 (fullMul a b).2 d =
      if 0 < d ∧ a * b / d < 2 ^ 128 then some (a * b / d, a * b % d) else none := by
  obtain ⟨hmul, hlo⟩ := fullMul_eq a b
  rw [divWide_eq hlo hd, hmul]
  have hfits : (d = 0 ∨ d ≤ (fullMul a b).1) ↔ ¬(0 < d ∧ a * b / d < 2 ^ 128) := by
    rcases Nat.eq_zero_or_pos d with rfl | hpos
    · simp
    · rw [Nat.div_lt_iff_lt_mul hpos]
      omega
  by_cases h : 0 < d ∧ a * b / d < 2 ^ 128
  · rw [if_neg fun h' => hfits.1 h' h, if_pos h]
  · rw [if_pos (hfits.2 h), if_neg h]

/-- `mulDivFloor` is the floor of the exact quotient, and defined if that fits. -/
theorem mulDivFloor_exact (a b : ℕ) {d : ℕ} (hd : d < 2 ^ 128) :
    mulDivFloor a b d = if 0 < d ∧ a * b / d < 2 ^ 128 then some (a * b / d) else none := by
  simp only [mulDivFloor, divWide_fullMul hd]
  split <;> rfl

theorem mulDivFloor_eq {a b d c : ℕ} (hd : d < 2 ^ 128) (h : mulDivFloor a b d = some c) :
    0 < d ∧ c = a * b / d := by
  rw [mulDivFloor_exact a b hd] at h
  split at h
  · next h0 => exact ⟨h0.1, (Option.some.inj h).symm⟩
  · exact absurd h (by simp)

/-! ## Signed quotients -/

/-- The floor of a negative quotient is minus the quotient of the magnitudes,
    rounded up. -/
theorem neg_mul_ediv {n b d : ℕ} (h0 : 0 < d) :
    -(n : ℤ) * b / d = if n * b % d = 0 then -((n * b / d : ℕ) : ℤ) else -((n * b / d : ℕ) + 1 : ℤ) := by
  have hd : (0 : ℤ) < d := by exact_mod_cast h0
  have hmod := Nat.div_add_mod (n * b) d
  have hlt := Nat.mod_lt (n * b) h0
  have hval : -(n : ℤ) * b = -((n * b : ℕ) : ℤ) := by push_cast; ring
  rw [hval]
  split
  · next hr =>
    rw [hr, Nat.add_zero] at hmod
    rw [← hmod, Nat.mul_div_cancel_left _ h0]
    push_cast
    rw [Int.ediv_eq_iff_of_pos hd]
    constructor <;> nlinarith
  · next hr =>
    rw [Int.ediv_eq_iff_of_pos hd]
    generalize n * b / d = q at hmod ⊢
    generalize n * b % d = r at hmod hlt hr
    rw [← hmod]
    push_cast
    have hr' : (0 : ℤ) < r := by exact_mod_cast Nat.pos_of_ne_zero hr
    have hlt' : (r : ℤ) < d := by exact_mod_cast hlt
    constructor <;> nlinarith

theorem toI128_eq_none {x : ℤ} (h : x < -2 ^ 127 ∨ 2 ^ 127 ≤ x) : toI128 x = none := by
  have hb : (i128Bound : ℤ) = 2 ^ 127 := by norm_num [i128Bound]
  rw [toI128, hb, if_neg (by omega)]

/-- `signedMulDivFloor` is the floor of the exact quotient, and defined if that fits. -/
theorem signedMulDivFloor_exact (a : ℤ) (b : ℕ) {d : ℕ} (hd : d < 2 ^ 128) :
    signedMulDivFloor a b d = if 0 < d then toI128 (a * b / d) else none := by
  have hbound : i128Bound = 2 ^ 127 := by rw [i128Bound]
  by_cases h0 : 0 < d
  swap
  · simp only [signedMulDivFloor, mulDivFloor_exact _ _ hd, divWide_fullMul hd, h0, false_and,
      if_false, Option.bind_none, ite_self]
  simp only [if_pos h0, signedMulDivFloor]
  split
  · next ha =>
    have hval : a * b / d = ((a.natAbs * b / d : ℕ) : ℤ) := by
      push_cast
      rw [abs_of_nonneg ha]
    rw [mulDivFloor_exact _ _ hd, hval]
    generalize a.natAbs * b / d = q
    split
    · rw [Option.bind_some]
    · next h => exact (toI128_eq_none (by omega)).symm
  · next ha =>
    have hneg : a = -(a.natAbs : ℤ) := by omega
    have hediv := neg_mul_ediv (n := a.natAbs) (b := b) h0
    rw [← hneg] at hediv
    rw [divWide_fullMul hd, hediv]
    generalize a.natAbs * b / d = q
    generalize a.natAbs * b % d = r
    split
    · -- the magnitude, rounded up, is compared with the bound
      next h =>
      simp only [Option.bind_some]
      split
      · rw [Option.bind_some]
        split
        · exact (toI128_eq_none (by omega)).symm
        · rw [toI128_eq (by omega) (by omega)]
      · split
        · rw [Option.bind_some]
          split
          · exact (toI128_eq_none (by omega)).symm
          · rw [toI128_eq (by omega) (by omega)]
            push_cast
            rfl
        · exact (toI128_eq_none (by omega)).symm
    · next h =>
      split
      · exact (toI128_eq_none (by omega)).symm
      · exact (toI128_eq_none (by omega)).symm

theorem signedMulDivFloor_eq {a c : ℤ} {b d : ℕ} (hd : d < 2 ^ 128)
    (h : signedMulDivFloor a b d = some c) : c = a * b / d := by
  rw [signedMulDivFloor_exact a b hd] at h
  split at h
  · exact (eq_of_toI128 h).1
  · exact absurd h (by simp)

/-- A factor of at most one does not leave the range. -/
theorem exists_signedMulDivFloor {a : ℤ} {b d : ℕ} (hd : d < 2 ^ 128) (h0 : 0 < d) (hb : b ≤ d)
    (ha : a.natAbs < 2 ^ 127) : ∃ c, signedMulDivFloor a b d = some c := by
  have hd' : (0 : ℤ) < d := by exact_mod_cast h0
  have hle : |a * b| ≤ |a| * d := by
    rw [abs_mul, Nat.abs_cast]
    gcongr
  have ha' : |a| ≤ 2 ^ 127 - 1 := by
    rw [Int.abs_eq_natAbs]
    omega
  have hbound : |a * b| ≤ (2 ^ 127 - 1) * d := hle.trans (by gcongr)
  obtain ⟨hlo, hhi⟩ := abs_le.1 hbound
  have hlow : -(2 ^ 127 - 1) ≤ a * b / d := (Int.le_ediv_iff_mul_le hd').2 (by linarith)
  have hhigh : a * b / d ≤ 2 ^ 127 - 1 := Int.ediv_le_of_le_mul hd' hhi
  exact ⟨_, by rw [signedMulDivFloor_exact a b hd, if_pos h0, toI128_eq (by omega) (by omega)]⟩

/-- The truncated quotient is the floor, or one above it where the remainder and the divisor have
    different signs. -/
theorem fdiv_eq_tdiv {a d : ℤ} (hd : d ≠ 0) :
    a.fdiv d = if a.tmod d ≠ 0 ∧ (a.tmod d < 0 ↔ ¬d < 0) then a.tdiv d - 1 else a.tdiv d := by
  rw [Int.fdiv_eq_tdiv]
  by_cases hdvd : d ∣ a
  · rw [if_pos hdvd, if_neg fun h => h.1 (Int.dvd_iff_tmod_eq_zero.1 hdvd), sub_zero]
  have hne : a.tmod d ≠ 0 := mt Int.dvd_iff_tmod_eq_zero.2 hdvd
  -- the remainder has the sign of the dividend
  have hsign : a.tmod d < 0 ↔ a < 0 := by
    rcases le_or_gt 0 a with ha | ha
    · have := Int.tmod_nonneg d ha
      omega
    · have := Int.tmod_nonneg d (neg_nonneg.2 ha.le)
      rw [Int.neg_tmod] at this
      omega
  simp only [if_neg hdvd, hsign]
  rcases lt_or_gt_of_ne hd with hneg | hpos
  · rw [Int.sign_eq_neg_one_of_neg hneg]
    split_ifs <;> omega
  · rw [Int.sign_eq_one_of_pos hpos]
    split_ifs <;> omega

/-- `floorDiv` is the floor of the quotient, and defined if that fits. -/
theorem floorDiv_exact {a d : ℤ} (ha : -2 ^ 127 ≤ a) (ha' : a < 2 ^ 127) :
    floorDiv a d = if d = 0 then none else toI128 (a.fdiv d) := by
  rw [floorDiv]
  split
  · rfl
  next hd =>
  rw [fdiv_eq_tdiv hd]
  have hle := Int.natAbs_tdiv_le_natAbs a d
  by_cases hfits : a.tdiv d < 2 ^ 127
  · rw [toI128_eq (by omega) hfits, Option.bind_some]
    dsimp only
    split
    · rfl
    · rw [toI128_eq (by omega) hfits]
  · -- only the least number divided by -1 does not fit, and it leaves no remainder
    have hdiv : (a.tdiv d).natAbs = a.natAbs / d.natAbs := Int.natAbs_tdiv a d
    have hone : d.natAbs = 1 := by
      by_contra hne
      have hhalf := Nat.div_le_div_left (a := a.natAbs) (show 2 ≤ d.natAbs by omega) two_pos
      omega
    have hzero : a.tmod d = 0 := by
      rcases Int.natAbs_eq_iff.1 hone with rfl | rfl <;> simp
    rw [toI128_eq_none (Or.inr (not_lt.1 hfits)), if_neg fun h => h.1 hzero,
      toI128_eq_none (Or.inr (not_lt.1 hfits))]
    rfl

theorem floorDiv_eq {a c d : ℤ} (hd : 0 < d) (h : floorDiv a d = some c) : c = a / d := by
  rw [floorDiv, if_neg hd.ne'] at h
  obtain ⟨q, hq, h⟩ := Option.bind_eq_some_iff.1 h
  obtain rfl := (eq_of_toI128 hq).1
  rw [← Int.fdiv_eq_ediv_of_nonneg a hd.le, fdiv_eq_tdiv hd.ne']
  dsimp only at h
  split at h
  · next hr => rw [if_pos hr, (eq_of_toI128 h).1]
  · next hr => rw [if_neg hr, Option.some.inj h]

/-- A quotient is no larger than the dividend. -/
theorem exists_floorDiv {a d : ℤ} (hd : 0 < d) (ha : |a| < 2 ^ 126) :
    ∃ c, floorDiv a d = some c := by
  have hle : |a.tdiv d| ≤ |a| := by
    have := Int.natAbs_tdiv_le_natAbs a d
    rw [Int.abs_eq_natAbs, Int.abs_eq_natAbs]
    exact_mod_cast this
  obtain ⟨hlo, hhi⟩ := abs_le.1 (hle.trans ha.le)
  rw [floorDiv, if_neg hd.ne', toI128_eq (by omega) (by omega), Option.bind_some]
  dsimp only
  split
  · exact ⟨_, toI128_eq (by omega) (by omega)⟩
  · exact ⟨_, rfl⟩

end RougeChain.Consensus
