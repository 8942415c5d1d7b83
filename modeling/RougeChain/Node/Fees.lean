import RougeChain.Node.Units

/-!
# Fee distribution

What a block collects in fees is burnt in part, and the rest is split between the proposer, the
validators by their stake, and the treasury, which takes what the divisions leave over. Where the
rest is below a floor, the staking reserve adds what is missing, if it has it.

Every plain `+` and `-` of the source is checked here: `none` stands for an overflow, on which a
debug build panics and a release build wraps.

* `mulDiv_le`: the proportional share is at most the exact quotient, also where the product is too
  wide;
* `payShares_spec`: the shares of the validators are never more than their pool;
* `distributeFees_conserves`: nothing overflows, and the balances grow by the fees less what is
  burnt.
-/

namespace RougeChain.Node

open Std (ExtTreeMap)

/-! ## Shares -/

def checkedMul128 (a b : U128) : Option U128 :=
  if a.toNat * b.toNat < 2 ^ 128 then some (a * b) else none

def saturatingMul128 (a b : U128) : U128 := (checkedMul128 a b).getD (.allOnes 128)

def saturatingAdd128 (a b : U128) : U128 := (checkedAdd128 a b).getD (.allOnes 128)

def min128 (a b : U128) : U128 := if a ≤ b then a else b

/-- `a * b / c`, rounded down; where the product does not fit, quotient and remainder are taken
    apart, and what does not fit then is cut off. -/
def mulDiv (a b c : U128) : U128 :=
  if c = 0 then 0
  else
    match checkedMul128 a b with
    | some p => p / c
    | none =>
      let q := saturatingMul128 (a / c) b
      let r := a % c
      let extra :=
        match checkedMul128 r b with
        | some rb => rb / c
        | none => saturatingMul128 (r / c) b + saturatingMul128 (r % c) b / c
      saturatingAdd128 q extra

/-! ## The distribution -/

def stakingReserve : String := "__staking_rewards__"

def treasury : String := "__treasury__"

/-- The fees that are split are at least this, as far as the reserve allows. -/
def minTipFloor : U128 := feeToQuanta 0.1

/-- The source's `*balances.entry(k).or_insert(0) += x`. -/
def payTo (b : Balances) (k : String) (x : U128) : Option Balances := do
  let v ← checkedAdd128 (balance b k) x
  return b.insert k v

/-- The source's `*balances.entry(k).or_insert(0) -= x`. -/
def takeOut (b : Balances) (k : String) (x : U128) : Option Balances := do
  let v ← checkedSub128 (balance b k) x
  return b.insert k v

/-- The pool, brought up to the floor from the reserve. -/
def subsidise (b : Balances) (tipPool : U128) : Option (Balances × U128) :=
  if tipPool < minTipFloor then do
    let subsidy ← checkedSub128 minTipFloor tipPool
    let actualSubsidy := min128 subsidy (balance b stakingReserve)
    if 0 < actualSubsidy then do
      let b ← takeOut b stakingReserve actualSubsidy
      let tipPool ← checkedAdd128 tipPool actualSubsidy
      return (b, tipPool)
    else return (b, tipPool)
  else return (b, tipPool)

variable (P : Platform)

/-- The loop over the validators: the balances, and what was paid out. -/
def payShares (pool totalStake : U128) : List (String × U128) → Balances → U128 →
    Option (Balances × U128)
  | [], b, paid => some (b, paid)
  | (key, stake) :: stakes, b, paid => do
    let share := mulDiv pool stake totalStake
    let b ← payTo b (canonAddr P key) share
    let paid ← checkedAdd128 paid share
    payShares pool totalStake stakes b paid

/-- The part of the validators, which falls to the proposer if nobody has a stake. -/
def payValidators (pool : U128) (proposer : String) (stakes : ExtTreeMap String U128)
    (b : Balances) : Option (Balances × U128) := do
  let totalStake ← (stakes.toList.map Prod.snd).foldlM checkedAdd128 0
  if 0 < totalStake then payShares P pool totalStake stakes.toList b 0
  else do
    let b ← payTo b (canonAddr P proposer) pool
    return (b, pool)

/-- The pool is split between the proposer, the validators and the treasury. -/
def payOut (b : Balances) (tipPool : U128) (proposer : String) (stakes : ExtTreeMap String U128) :
    Option Balances := do
  let proposerShare := mulDiv tipPool 20 100
  let b ← payTo b (canonAddr P proposer) proposerShare
  let (b, paid) ← payValidators P (mulDiv tipPool 70 100) proposer stakes b
  -- the treasury takes what is left
  let rest ← checkedSub128 tipPool proposerShare
  let treasuryShare ← checkedSub128 rest paid
  payTo b treasury treasuryShare

/-- What is burnt, and the balances afterwards. -/
def distributeFees (b : Balances) (totalFees : U128) (proposer : String)
    (stakes : ExtTreeMap String U128) (baseFeePerTx : U128) (txCount : UInt64) :
    Option (U128 × Balances) := do
  let totalBaseFees := saturatingMul128 baseFeePerTx (u64AsU128 txCount)
  let burned := min128 (mulDiv totalBaseFees 1 2) totalFees
  let tipPool ← checkedSub128 totalFees burned
  let (b, tipPool) ← subsidise b tipPool
  if tipPool = 0 then return (burned, b)
  else do
    let b ← payOut P b tipPool proposer stakes
    return (burned, b)

/-! ## Arithmetic -/

section Arithmetic

variable {a b c : U128}

theorem checkedAdd128_of_lt (h : a.toNat + b.toNat < 2 ^ 128) :
    checkedAdd128 a b = some (a + b) := if_pos h

theorem toNat_add_of_lt (h : a.toNat + b.toNat < 2 ^ 128) : (a + b).toNat = a.toNat + b.toNat := by
  rw [BitVec.toNat_add, Nat.mod_eq_of_lt h]

theorem checkedSub128_of_le (h : b.toNat ≤ a.toNat) : checkedSub128 a b = some (a - b) :=
  if_pos (BitVec.le_def.2 h)

theorem toNat_sub_of_toNat_le (h : b.toNat ≤ a.toNat) : (a - b).toNat = a.toNat - b.toNat :=
  BitVec.toNat_sub_of_le (BitVec.le_def.2 h)

theorem toNat_min128 (a b : U128) : (min128 a b).toNat = min a.toNat b.toNat := by
  rw [min128]
  split
  next h => exact (Nat.min_eq_left (BitVec.le_def.1 h)).symm
  next h => exact (Nat.min_eq_right (Nat.le_of_not_le fun hle => h (BitVec.le_def.2 hle))).symm

theorem toNat_mul_of_lt (h : a.toNat * b.toNat < 2 ^ 128) : (a * b).toNat = a.toNat * b.toNat := by
  rw [BitVec.toNat_mul, Nat.mod_eq_of_lt h]

/-- What saturates is cut off. -/
theorem toNat_saturatingMul128 (a b : U128) :
    (saturatingMul128 a b).toNat = min (2 ^ 128 - 1) (a.toNat * b.toNat) := by
  rw [saturatingMul128, checkedMul128]
  split
  next h =>
    rw [Option.getD_some, toNat_mul_of_lt h]
    omega
  next h =>
    rw [Option.getD_none, BitVec.toNat_allOnes]
    omega

theorem toNat_saturatingAdd128 (a b : U128) :
    (saturatingAdd128 a b).toNat = min (2 ^ 128 - 1) (a.toNat + b.toNat) := by
  by_cases h : a.toNat + b.toNat < 2 ^ 128
  · rw [saturatingAdd128, checkedAdd128_of_lt h, Option.getD_some, toNat_add_of_lt h]
    omega
  · rw [saturatingAdd128, checkedAdd128, if_neg h, Option.getD_none, BitVec.toNat_allOnes]
    omega

/-- Division of the dividend apart from its remainder. -/
theorem mul_div_split {a b c : ℕ} (hc : 0 < c) : a * b / c = a / c * b + a % c * b / c := by
  rw [← Nat.mul_add_div hc]
  congr 1
  rw [← Nat.mul_assoc, ← Nat.add_mul, Nat.div_add_mod]

/-- The quotient and what the remainder adds to it, each cut off. -/
theorem toNat_mulDiv (hc : c ≠ 0) : (mulDiv a b c).toNat = min (2 ^ 128 - 1)
    (a.toNat / c.toNat * b.toNat + min (2 ^ 128 - 1) (a.toNat % c.toNat * b.toNat) / c.toNat) := by
  have hpos : 0 < c.toNat := Nat.pos_of_ne_zero fun hzero => hc (BitVec.eq_of_toNat_eq hzero)
  have hr : (a % c).toNat = a.toNat % c.toNat := BitVec.toNat_umod
  rw [mulDiv, if_neg hc]
  split
  next p hp =>
    rw [checkedMul128] at hp
    split at hp
    next h =>
      obtain rfl := Option.some.inj hp
      have hle : a.toNat % c.toNat * b.toNat ≤ a.toNat * b.toNat :=
        Nat.mul_le_mul_right _ (Nat.mod_le _ _)
      have hquot := Nat.div_le_self (a.toNat * b.toNat) c.toNat
      have hcut : min (2 ^ 128 - 1) (a.toNat % c.toNat * b.toNat) = a.toNat % c.toNat * b.toNat :=
        min_eq_right (by omega)
      rw [BitVec.toNat_udiv, toNat_mul_of_lt h, hcut, ← mul_div_split hpos]
      omega
    · cases hp
  next hp =>
    have hextra : (match checkedMul128 (a % c) b with
        | some rb => rb / c
        | none => saturatingMul128 (a % c / c) b + saturatingMul128 (a % c % c) b / c).toNat =
          min (2 ^ 128 - 1) (a.toNat % c.toNat * b.toNat) / c.toNat := by
      have hcut : saturatingMul128 (a % c) b = (checkedMul128 (a % c) b).getD (.allOnes 128) := rfl
      rw [← hr, ← toNat_saturatingMul128, ← BitVec.toNat_udiv, hcut]
      cases hrb : checkedMul128 (a % c) b with
      | some rb => rfl
      | none =>
        -- the remainder is below the divisor
        have hzero : a % c / c = 0#128 := by
          refine BitVec.eq_of_toNat_eq ?_
          rw [BitVec.toNat_udiv, hr, Nat.div_eq_of_lt (Nat.mod_lt _ hpos)]
          rfl
        have hmod : a % c % c = a % c := by
          refine BitVec.eq_of_toNat_eq ?_
          rw [BitVec.toNat_umod, hr, Nat.mod_mod]
        have hnone : saturatingMul128 0#128 b = 0#128 := by
          refine BitVec.eq_of_toNat_eq ?_
          rw [toNat_saturatingMul128, BitVec.toNat_zero, Nat.zero_mul, Nat.min_zero]
        change (saturatingMul128 (a % c / c) b + saturatingMul128 (a % c % c) b / c).toNat = _
        rw [hzero, hmod, hnone, BitVec.zero_add, hcut, hrb]
    change (saturatingAdd128 _ _).toNat = _
    rw [toNat_saturatingAdd128, hextra, toNat_saturatingMul128, BitVec.toNat_udiv]
    omega

theorem mulDiv_of_lt (hc : c ≠ 0) (h : a.toNat * b.toNat < 2 ^ 128) :
    (mulDiv a b c).toNat = a.toNat * b.toNat / c.toNat := by
  rw [mulDiv, if_neg hc, checkedMul128, if_pos h]
  change (a * b / c).toNat = _
  rw [BitVec.toNat_udiv, toNat_mul_of_lt h]

/-- A share is at most the exact quotient, also where the product is too wide. -/
theorem mulDiv_le (hc : c ≠ 0) : (mulDiv a b c).toNat ≤ a.toNat * b.toNat / c.toNat := by
  have hpos : 0 < c.toNat := Nat.pos_of_ne_zero fun hzero => hc (BitVec.eq_of_toNat_eq hzero)
  rw [toNat_mulDiv hc, mul_div_split hpos]
  exact (min_le_right _ _).trans (Nat.add_le_add_left (Nat.div_le_div_right (min_le_right _ _)) _)

end Arithmetic

/-! ## Payments -/

/-- What the payments give to `a`. -/
def paidTo (a : String) (credits : List (String × ℕ)) : ℕ :=
  ((credits.filter fun c => c.1 = a).map Prod.snd).sum

/-- Everything there is. -/
def supply (b : Balances) : ℕ := Accounts.total (fun _ => true) b

theorem balance_le_supply (b : Balances) (k : String) : (balance b k).toNat ≤ supply b := by
  cases hk : b[k]? with
  | none =>
    rw [balance, hk]
    exact Nat.zero_le _
  | some v =>
    rw [balance, hk, supply, Accounts.total, entrySum_eq_add_erase _ hk, if_pos rfl]
    exact Nat.le_add_right _ _

/-- `b'` is `b` after the payments. -/
structure Paid (b b' : Balances) (credits : List (String × ℕ)) : Prop where
  balance_eq : ∀ a, (balance b' a).toNat = (balance b a).toNat + paidTo a credits
  supply_eq : supply b' = supply b + (credits.map Prod.snd).sum

theorem Paid.refl (b : Balances) : Paid b b [] := ⟨fun _ => rfl, rfl⟩

theorem Paid.trans {b b' b'' : Balances} {credits credits' : List (String × ℕ)}
    (h : Paid b b' credits) (h' : Paid b' b'' credits') : Paid b b'' (credits ++ credits') where
  balance_eq a := by
    rw [h'.balance_eq, h.balance_eq, paidTo, paidTo, paidTo, List.filter_append,
      List.map_append, List.sum_append, Nat.add_assoc]
  supply_eq := by
    rw [h'.supply_eq, h.supply_eq, List.map_append, List.sum_append, Nat.add_assoc]

theorem payTo_paid {b : Balances} {x : U128} (k : String) (h : supply b + x.toNat < 2 ^ 128) :
    ∃ b', payTo b k x = some b' ∧ Paid b b' [(k, x.toNat)] := by
  have hlt : (balance b k).toNat + x.toNat < 2 ^ 128 :=
    Nat.lt_of_le_of_lt (Nat.add_le_add_right (balance_le_supply b k) _) h
  refine ⟨credit b k x, ?_, fun a => ?_, ?_⟩
  · rw [payTo, checkedAdd128_of_lt hlt]
    rfl
  · rw [Accounts.balance_credit, paidTo, List.filter_cons]
    by_cases ha : k = a
    · rw [if_pos ha, if_pos (decide_eq_true ha), ← ha, toNat_add_of_lt hlt]
      rfl
    · rw [if_neg ha, if_neg fun h => ha (of_decide_eq_true h)]
      rfl
  · rw [supply, Accounts.total_credit hlt, if_pos rfl]
    rfl

/-! ## The parts -/

/-- Rounded shares of a pool do not add up to more than the pool. -/
theorem sum_shares_le (pool total : ℕ) (stakes : List ℕ) :
    (stakes.map fun s => pool * s / total).sum ≤ pool * stakes.sum / total := by
  induction stakes with
  | nil => simp
  | cons s stakes ih =>
    rw [List.map_cons, List.sum_cons, List.sum_cons, Nat.mul_add]
    exact (Nat.add_le_add_left ih _).trans Nat.div_add_div_le_add_div

section Parts

variable {P}

theorem payShares_spec {pool totalStake : U128} {stakes : List (String × U128)} {b : Balances}
    {paid : U128}
    (hsupply : supply b + (stakes.map fun s => (mulDiv pool s.2 totalStake).toNat).sum < 2 ^ 128)
    (hpaid : paid.toNat + (stakes.map fun s => (mulDiv pool s.2 totalStake).toNat).sum < 2 ^ 128) :
    ∃ b' paid' credits, payShares P pool totalStake stakes b paid = some (b', paid') ∧
      Paid b b' credits ∧
      (credits.map Prod.snd).sum = (stakes.map fun s => (mulDiv pool s.2 totalStake).toNat).sum ∧
      paid'.toNat = paid.toNat + (credits.map Prod.snd).sum := by
  induction stakes generalizing b paid with
  | nil => exact ⟨b, paid, [], rfl, .refl b, rfl, rfl⟩
  | cons s stakes ih =>
    obtain ⟨key, stake⟩ := s
    rw [List.map_cons, List.sum_cons, ← Nat.add_assoc] at hsupply hpaid
    have hnext : paid.toNat + (mulDiv pool stake totalStake).toNat < 2 ^ 128 :=
      Nat.lt_of_le_of_lt (Nat.le_add_right _ _) hpaid
    obtain ⟨b₁, hb₁, hpaid₁⟩ := payTo_paid (canonAddr P key)
      (Nat.lt_of_le_of_lt (Nat.le_add_right _ _) hsupply)
    have hsum := toNat_add_of_lt hnext
    have hsupply₁ : supply b₁ = supply b + (mulDiv pool stake totalStake).toNat := hpaid₁.supply_eq
    obtain ⟨b', paid', credits, hrun, hcredits, htotal, hval⟩ :=
      @ih b₁ (paid + mulDiv pool stake totalStake) (by rwa [hsupply₁]) (by rwa [hsum])
    refine ⟨b', paid', _, ?_, hpaid₁.trans hcredits, ?_, ?_⟩
    · rw [payShares, hb₁, Option.bind_eq_bind, Option.bind_some, checkedAdd128_of_lt hnext,
        Option.bind_eq_bind, Option.bind_some, hrun]
    · rw [List.map_append, List.sum_append, htotal, List.map_cons, List.sum_cons]
      rfl
    · rw [hval, hsum, List.map_append, List.sum_append, Nat.add_assoc]
      rfl

theorem foldlM_checkedAdd128 {l : List U128} {start : U128}
    (h : start.toNat + (l.map BitVec.toNat).sum < 2 ^ 128) :
    ∃ r, l.foldlM checkedAdd128 start = some r ∧
      r.toNat = start.toNat + (l.map BitVec.toNat).sum := by
  induction l generalizing start with
  | nil => exact ⟨start, rfl, rfl⟩
  | cons x l ih =>
    rw [List.map_cons, List.sum_cons, ← Nat.add_assoc] at h ⊢
    have hnext : start.toNat + x.toNat < 2 ^ 128 := by omega
    have hsum := toNat_add_of_lt hnext
    rw [← hsum] at h
    obtain ⟨r, hr, hval⟩ := ih h
    refine ⟨r, ?_, by rw [hval, hsum]⟩
    rw [List.foldlM_cons, checkedAdd128_of_lt hnext]
    exact hr

/-- The stake of all validators. -/
def stakeSum (stakes : ExtTreeMap String U128) : ℕ := valueSum BitVec.toNat stakes

/-- The validators, or the proposer in their place, get no more than their part. -/
theorem payValidators_spec {pool : U128} (proposer : String) {stakes : ExtTreeMap String U128}
    {b : Balances} (hstakes : stakeSum stakes < 2 ^ 128) (hsupply : supply b + pool.toNat < 2 ^ 128) :
    ∃ b' paid credits, payValidators P pool proposer stakes b = some (b', paid) ∧
      Paid b b' credits ∧ paid.toNat = (credits.map Prod.snd).sum ∧ paid.toNat ≤ pool.toNat := by
  have hzero : (0 : U128).toNat = 0 := rfl
  have hmap : ((stakes.toList.map Prod.snd).map BitVec.toNat).sum = stakeSum stakes := by
    rw [List.map_map, stakeSum, valueSum]
    rfl
  have hfits : (0 : U128).toNat + ((stakes.toList.map Prod.snd).map BitVec.toNat).sum < 2 ^ 128 := by
    rwa [hzero, Nat.zero_add, hmap]
  obtain ⟨total, htotal, hval⟩ := foldlM_checkedAdd128 hfits
  rw [hzero, Nat.zero_add, hmap] at hval
  rw [payValidators, htotal, Option.bind_eq_bind, Option.bind_some]
  split
  next hpos =>
    have hpos' : 0 < total.toNat := BitVec.lt_def.1 hpos
    have hne : total ≠ 0 := fun h => by
      rw [h] at hpos'
      exact absurd hpos' (Nat.lt_irrefl 0)
    -- the shares together are at most the part
    have hshares : (stakes.toList.map fun s => (mulDiv pool s.2 total).toNat).sum ≤ pool.toNat :=
      calc (stakes.toList.map fun s => (mulDiv pool s.2 total).toNat).sum
          ≤ (stakes.toList.map fun s => pool.toNat * s.2.toNat / total.toNat).sum :=
            List.sum_le_sum fun s _ => mulDiv_le hne
        _ = ((stakes.toList.map fun s => s.2.toNat).map
              fun s => pool.toNat * s / total.toNat).sum := by
            rw [List.map_map]
            rfl
        _ ≤ pool.toNat * (stakes.toList.map fun s => s.2.toNat).sum / total.toNat :=
            sum_shares_le _ _ _
        _ = pool.toNat := by
            have hsum : (stakes.toList.map fun s => s.2.toNat).sum = total.toNat := hval.symm
            rw [hsum, Nat.mul_div_cancel _ hpos']
    have hfits₁ : supply b + (stakes.toList.map fun s => (mulDiv pool s.2 total).toNat).sum <
        2 ^ 128 := by omega
    have hfits₂ : (0 : U128).toNat +
        (stakes.toList.map fun s => (mulDiv pool s.2 total).toNat).sum < 2 ^ 128 := by omega
    obtain ⟨b', paid, credits, hrun, hpaid, hcredits, hpaidVal⟩ :=
      payShares_spec (P := P) hfits₁ hfits₂
    rw [hzero, Nat.zero_add] at hpaidVal
    exact ⟨b', paid, credits, hrun, hpaid, hpaidVal, by rw [hpaidVal, hcredits]; exact hshares⟩
  · obtain ⟨b', hb', hpaid⟩ := payTo_paid (canonAddr P proposer) hsupply
    refine ⟨b', pool, _, ?_, hpaid, (Nat.add_zero _).symm, le_rfl⟩
    rw [hb']
    rfl

/-- What the reserve adds to a pool that is too small. -/
def subsidyOf (b : Balances) (tipPool : ℕ) : ℕ :=
  min (minTipFloor.toNat - tipPool) (balance b stakingReserve).toNat

theorem subsidise_spec (b : Balances) (tipPool : U128) :
    ∃ b' tipPool', subsidise b tipPool = some (b', tipPool') ∧
      tipPool'.toNat = tipPool.toNat + subsidyOf b tipPool.toNat ∧
      supply b' + subsidyOf b tipPool.toNat = supply b ∧
      ∀ a, (balance b' a).toNat + (if a = stakingReserve then subsidyOf b tipPool.toNat else 0) =
        (balance b a).toNat := by
  have hfloor := minTipFloor.isLt
  rw [subsidise]
  split
  next hlow =>
    have hlow' : tipPool.toNat < minTipFloor.toNat := BitVec.lt_def.1 hlow
    have hsub : (minTipFloor - tipPool).toNat = minTipFloor.toNat - tipPool.toNat :=
      toNat_sub_of_toNat_le hlow'.le
    have hmin : (min128 (minTipFloor - tipPool) (balance b stakingReserve)).toNat =
        subsidyOf b tipPool.toNat := by
      rw [toNat_min128, hsub, subsidyOf]
    rw [checkedSub128_of_le hlow'.le, Option.bind_eq_bind, Option.bind_some]
    dsimp only
    generalize min128 (minTipFloor - tipPool) (balance b stakingReserve) = subsidy at hmin
    rw [← hmin]
    have hreserve : subsidy.toNat ≤ (balance b stakingReserve).toNat := by
      rw [hmin]
      exact Nat.min_le_right _ _
    split
    next hpos =>
      have hle : subsidy ≤ balance b stakingReserve := BitVec.le_def.2 hreserve
      have hfits : tipPool.toNat + subsidy.toNat < 2 ^ 128 := by
        have : subsidyOf b tipPool.toNat ≤ minTipFloor.toNat - tipPool.toNat := Nat.min_le_left _ _
        omega
      refine ⟨debit b stakingReserve subsidy, tipPool + subsidy, ?_, toNat_add_of_lt hfits, ?_,
        fun a => ?_⟩
      · rw [takeOut, checkedSub128_of_le hreserve, checkedAdd128_of_lt hfits]
        rfl
      · have htotal := Accounts.total_debit (p := fun _ => true) hle
        rwa [if_pos rfl] at htotal
      · rw [Accounts.balance_debit]
        by_cases ha : stakingReserve = a
        · rw [if_pos ha, if_pos ha.symm, BitVec.toNat_sub_of_le hle, ← ha]
          exact Nat.sub_add_cancel hreserve
        · rw [if_neg ha, if_neg (Ne.symm ha), Nat.add_zero]
    next hpos =>
      -- an empty reserve adds nothing
      have hzero : subsidy.toNat = 0 :=
        Nat.eq_zero_of_not_pos fun h => hpos (BitVec.lt_def.2 h)
      rw [hzero]
      refine ⟨b, tipPool, rfl, rfl, rfl, fun a => ?_⟩
      rw [ite_self, Nat.add_zero]
  next hlow =>
    have hzero : subsidyOf b tipPool.toNat = 0 := by
      have hle : minTipFloor.toNat ≤ tipPool.toNat :=
        Nat.le_of_not_lt fun h => hlow (BitVec.lt_def.2 h)
      rw [subsidyOf, Nat.sub_eq_zero_of_le hle, Nat.zero_min]
    rw [hzero]
    refine ⟨b, tipPool, rfl, rfl, rfl, fun a => ?_⟩
    rw [ite_self, Nat.add_zero]

/-- The whole pool is paid out. -/
theorem payOut_spec {b : Balances} {tipPool : U128} (proposer : String)
    {stakes : ExtTreeMap String U128} (hstakes : stakeSum stakes < 2 ^ 128)
    (hsupply : supply b + tipPool.toNat < 2 ^ 128) :
    ∃ b' credits, payOut P b tipPool proposer stakes = some b' ∧ Paid b b' credits ∧
      (credits.map Prod.snd).sum = tipPool.toNat := by
  have hproposer : (mulDiv tipPool 20 100).toNat ≤ tipPool.toNat * 20 / 100 :=
    mulDiv_le (by decide)
  have hvalidators : (mulDiv tipPool 70 100).toNat ≤ tipPool.toNat * 70 / 100 :=
    mulDiv_le (by decide)
  rw [payOut]
  generalize mulDiv tipPool 20 100 = proposerShare at hproposer ⊢
  generalize mulDiv tipPool 70 100 = pool at hvalidators ⊢
  have hle : proposerShare.toNat + pool.toNat ≤ tipPool.toNat := by omega
  have hfits₁ : supply b + proposerShare.toNat < 2 ^ 128 := by omega
  obtain ⟨b₁, hb₁, hpaid₁⟩ := payTo_paid (canonAddr P proposer) hfits₁
  have hsupply₁ : supply b₁ = supply b + proposerShare.toNat := hpaid₁.supply_eq
  have hfits₂ : supply b₁ + pool.toNat < 2 ^ 128 := by omega
  obtain ⟨b₂, paid, credits, hb₂, hpaid₂, hpaid, hpool⟩ :=
    payValidators_spec (P := P) proposer hstakes hfits₂
  have hsupply₂ : supply b₂ = supply b₁ + paid.toNat := by rw [hpaid₂.supply_eq, hpaid]
  have hrest : (tipPool - proposerShare).toNat = tipPool.toNat - proposerShare.toNat :=
    toNat_sub_of_toNat_le (by omega)
  have hshare : (tipPool - proposerShare - paid).toNat =
      tipPool.toNat - proposerShare.toNat - paid.toNat := by
    rw [toNat_sub_of_toNat_le (by omega), hrest]
  have hfits₃ : supply b₂ + (tipPool - proposerShare - paid).toNat < 2 ^ 128 := by omega
  obtain ⟨b₃, hb₃, hpaid₃⟩ := payTo_paid treasury hfits₃
  refine ⟨b₃, _, ?_, (hpaid₁.trans hpaid₂).trans hpaid₃, ?_⟩
  · rw [hb₁, Option.bind_eq_bind, Option.bind_some, hb₂, Option.bind_eq_bind, Option.bind_some]
    dsimp only
    rw [checkedSub128_of_le (by omega), Option.bind_eq_bind, Option.bind_some,
      checkedSub128_of_le (by omega), Option.bind_some, hb₃]
  · rw [List.map_append, List.map_append, List.sum_append, List.sum_append, ← hpaid]
    simp only [List.map_cons, List.map_nil, List.sum_cons, List.sum_nil, hshare]
    omega

end Parts

/-- For all balances, fees, validators and proposers, where the sums fit their type: the distribution
    overflows nowhere; it burns half the base fees, but no more than was collected; the balances grow
    by the rest; and what the reserve pays to reach the floor is what the others get beyond it. -/
theorem distributeFees_conserves (b : Balances) (totalFees : U128) (proposer : String)
    (stakes : ExtTreeMap String U128) (baseFeePerTx : U128) (txCount : UInt64)
    (hsupply : supply b + totalFees.toNat < 2 ^ 128) (hstakes : stakeSum stakes < 2 ^ 128)
    (hbase : baseFeePerTx.toNat * txCount.toNat < 2 ^ 128) :
    ∃ burned b' credits,
      distributeFees P b totalFees proposer stakes baseFeePerTx txCount = some (burned, b') ∧
      burned.toNat = min totalFees.toNat (baseFeePerTx.toNat * txCount.toNat / 2) ∧
      supply b' = supply b + (totalFees.toNat - burned.toNat) ∧
      (credits.map Prod.snd).sum = totalFees.toNat - burned.toNat +
        subsidyOf b (totalFees.toNat - burned.toNat) ∧
      ∀ a, (balance b' a).toNat +
          (if a = stakingReserve then subsidyOf b (totalFees.toNat - burned.toNat) else 0) =
        (balance b a).toNat + paidTo a credits := by
  have hcount : (u64AsU128 txCount).toNat = txCount.toNat := by
    rw [u64AsU128, BitVec.toNat_ofNat, Nat.mod_eq_of_lt (txCount.toNat_lt.trans (by norm_num))]
  have hbaseVal : (saturatingMul128 baseFeePerTx (u64AsU128 txCount)).toNat =
      baseFeePerTx.toNat * txCount.toNat := by
    rw [toNat_saturatingMul128, hcount]
    omega
  have hone : (1 : U128).toNat = 1 := rfl
  have hhalf : (mulDiv (saturatingMul128 baseFeePerTx (u64AsU128 txCount)) 1 2).toNat =
      baseFeePerTx.toNat * txCount.toNat / 2 := by
    rw [mulDiv_of_lt (by decide) (by rw [hbaseVal, hone, Nat.mul_one]; exact hbase), hbaseVal, hone,
      Nat.mul_one]
    rfl
  rw [distributeFees]
  dsimp only
  generalize hburned : min128 (mulDiv (saturatingMul128 baseFeePerTx (u64AsU128 txCount)) 1 2)
    totalFees = burned
  have hburnedVal : burned.toNat = min totalFees.toNat
      (baseFeePerTx.toNat * txCount.toNat / 2) := by
    rw [← hburned, toNat_min128, hhalf, Nat.min_comm]
  have hle : burned.toNat ≤ totalFees.toNat := hburnedVal ▸ Nat.min_le_left _ _
  obtain ⟨b₁, tipPool, hb₁, htip, hsupply₁, hbalance₁⟩ := subsidise_spec b (totalFees - burned)
  rw [toNat_sub_of_toNat_le hle] at htip hsupply₁ hbalance₁
  rw [checkedSub128_of_le hle, Option.bind_eq_bind, Option.bind_some, hb₁, Option.bind_eq_bind,
    Option.bind_some]
  dsimp only
  by_cases hzero : tipPool = 0
  · -- nothing was left and nothing was added
    rw [if_pos hzero]
    have hnone : tipPool.toNat = 0 := by rw [hzero]; rfl
    refine ⟨burned, b₁, [], rfl, hburnedVal, by omega, by simp only [List.map_nil, List.sum_nil]; omega,
      fun a => ?_⟩
    exact hbalance₁ a
  · rw [if_neg hzero]
    have hfits : supply b₁ + tipPool.toNat < 2 ^ 128 := by omega
    obtain ⟨b₂, credits, hb₂, hpaid, hcredits⟩ := payOut_spec (P := P) proposer hstakes hfits
    refine ⟨burned, b₂, credits, ?_, hburnedVal, ?_, ?_, fun a => ?_⟩
    · rw [hb₂]
      rfl
    · rw [hpaid.supply_eq, hcredits]
      omega
    · rw [hcredits, htip]
    · have := hbalance₁ a
      rw [hpaid.balance_eq a]
      omega

/-- A block with one transaction, one validator and a reserve. -/
theorem distributeFees_small :
    let b : Balances := (∅ : Balances).insert stakingReserve 50
    let stakes : ExtTreeMap String U128 := (∅ : ExtTreeMap String U128).insert "v" 7
    supply b + (9 : U128).toNat < 2 ^ 128 ∧
      ∃ burned b', distributeFees localEnv.toPlatform b 9 stakingReserve stakes 6 1 =
          some (burned, b') ∧ burned.toNat = 3 ∧ supply b' = 56 := by
  have hsupply : supply ((∅ : Balances).insert stakingReserve 50) = 50 := by decide +kernel
  obtain ⟨burned, b', credits, hrun, hburned, hsupply', -⟩ := distributeFees_conserves
    localEnv.toPlatform ((∅ : Balances).insert stakingReserve 50) 9 stakingReserve
    ((∅ : ExtTreeMap String U128).insert "v" 7) 6 1 (by decide +kernel) (by decide +kernel)
    (by decide +kernel)
  have hthree : burned.toNat = 3 := hburned
  refine ⟨by decide +kernel, burned, b', hrun, hthree, ?_⟩
  rw [hsupply', hsupply, hthree]
  rfl

end RougeChain.Node
