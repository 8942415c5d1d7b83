import RougeChain.Consensus.Tombstones
import RougeChain.Library.Shares

/-!
# Rewards and signatures

The proposer of a block assembles the certificate of its parent and may leave
signatures out. What everybody is paid depends on who signed: the shares of the
signers, and the part of the proposer for the weight it included. Is there
anything to gain from withholding a signature?

* `payRewards_pays`: the payments of a block in closed form (`rewards`), and
  what the reserve gets back;
* `withholding_never_pays`: with fewer signers no account but the reserve is
  paid more, and what is paid, burned and returned is what came in.
-/

namespace RougeChain.Consensus

namespace Ledger

open Fallible (ofOption bind_eq_ok ofOption_eq_ok mapError_eq_ok ok_bind)
open Shares (share)

variable {l l' : Ledger} {fx fx' : Effects} {prev : ValidatorSet}

/-! ## Credits -/

/-- What a list of credits gives to `a`. -/
def creditOf (a : Account) (credits : List (Account × ℕ)) : ℕ :=
  (credits.map fun c => if c.1 = a then c.2 else 0).sum

/-- What a list of credits gives to all. -/
def creditSum (credits : List (Account × ℕ)) : ℕ := (credits.map Prod.snd).sum

theorem creditOf_cons (a : Account) (c : Account × ℕ) (credits : List (Account × ℕ)) :
    creditOf a (c :: credits) = (if c.1 = a then c.2 else 0) + creditOf a credits := by
  rw [creditOf, List.map_cons, List.sum_cons, ← creditOf]

theorem creditOf_append (a : Account) (credits credits' : List (Account × ℕ)) :
    creditOf a (credits ++ credits') = creditOf a credits + creditOf a credits' := by
  rw [creditOf, List.map_append, List.sum_append, ← creditOf, ← creditOf]

theorem creditSum_cons (c : Account × ℕ) (credits : List (Account × ℕ)) :
    creditSum (c :: credits) = c.2 + creditSum credits := by
  rw [creditSum, List.map_cons, List.sum_cons, ← creditSum]

theorem creditSum_append (credits credits' : List (Account × ℕ)) :
    creditSum (credits ++ credits') = creditSum credits + creditSum credits' := by
  rw [creditSum, List.map_append, List.sum_append, ← creditSum, ← creditSum]

theorem balance_insert (l : Ledger) (a b : Account) (x : ℕ) :
    ({ l with balances := l.balances.insert a x } : Ledger).balance b =
      if a = b then x else l.balance b := by
  rw [balance, getElem?_insert_eq]
  split <;> rfl

theorem credit_balance {a : Account} {x : ℕ} (hc : l.credit a x = .ok l') (b : Account) :
    l'.balance b = l.balance b + if a = b then x else 0 := by
  rw [credit_ok hc, balance_insert]
  split
  · next hab => rw [hab]
  · rfl

/-! ## The payments of a block -/

/-- What a block pays out of `pool`: a tenth to the treasury, a twentieth to the
    builder with its part for the weight it included, and the shares of the
    signers in the proportion of their weight to the whole. -/
def rewards (prev : ValidatorSet) (builder : KeyId) (signers : List KeyId) (pool : ℕ) :
    List (Account × ℕ) :=
  (.treasury, share pool 100 10) ::
  (.key builder, share pool 100 5 +
    share (share pool 100 15) prev.total (signers.map prev.weight).sum) ::
  signers.map fun k => (.key k, share (share pool 100 70) prev.total (prev.weight k))

theorem payShares_credits {votePool paid : ℕ} {keys : List KeyId}
    (hs : payShares votePool prev l fx keys = .ok (l', fx', paid)) :
    fx'.credits = fx.credits ++
        keys.map (fun k => (.key k, share votePool prev.total (prev.weight k))) ∧
      paid = wrap128 ((keys.map prev.weight).map (share votePool prev.total)).sum ∧
      ∀ a, l'.balance a = l.balance a + creditOf a
        (keys.map fun k => (.key k, share votePool prev.total (prev.weight k))) := by
  induction keys generalizing l l' fx fx' paid with
  | nil =>
    obtain ⟨rfl, rfl, rfl⟩ : l = l' ∧ fx = fx' ∧ 0 = paid := by simpa [payShares] using hs
    exact ⟨(List.append_nil _).symm, rfl, fun a => rfl⟩
  | cons k keys ih =>
    obtain ⟨s, hshare, hs⟩ := bind_eq_ok.1 hs
    obtain ⟨l₁, hcredit, hs⟩ := bind_eq_ok.1 hs
    obtain ⟨⟨l₂, fx₂, paid₂⟩, hrest, hs⟩ := bind_eq_ok.1 hs
    obtain ⟨rfl, hfx⟩ := Prod.mk.inj (Except.ok.inj hs)
    obtain ⟨rfl, rfl⟩ := Prod.mk.inj hfx
    obtain ⟨-, rfl⟩ := mulDivFloor_eq (total_lt_u128 prev) (ofOption_eq_ok.1 hshare)
    obtain ⟨hcredits, rfl, hbalance⟩ := ih hrest
    refine ⟨?_, ?_, fun a => ?_⟩
    · rw [hcredits, List.append_assoc]
      rfl
    · rw [List.map_cons, List.map_cons, List.sum_cons]
      exact Nat.add_mod_mod _ _ _
    · rw [hbalance, credit_balance hcredit, List.map_cons, creditOf_cons, Nat.add_assoc]
      rfl

/-- The pool fits into 128 bits. The crate is compiled with overflow checks, so a
    call in which it does not panics. The other sums of the function stay within
    the pool (`creditSum_rewards_le`). -/
def PoolFits (fx : Effects) : Prop := fx.fees - fx.burn + fx.subsidy < 2 ^ 128

instance (fx : Effects) : Decidable (PoolFits fx) :=
  inferInstanceAs (Decidable (fx.fees - fx.burn + fx.subsidy < 2 ^ 128))

/-- `pay_rewards` returns `l'` and `fx'`. -/
def Pays (l : Ledger) (fx : Effects) (builder : KeyId) (fees feeTxs dtMs : ℕ)
    (signers : List KeyId) (prev : ValidatorSet) (l' : Ledger) (fx' : Effects) : Prop :=
  l.payRewards fx builder fees feeTxs dtMs signers prev = .ok (l', fx') ∧ PoolFits fx'

variable {builder : KeyId} {fees feeTxs dtMs : ℕ} {signers : List KeyId}

theorem sum_weight_le_total {signers : List KeyId} (hnodup : signers.Nodup) :
    (signers.map prev.weight).sum ≤ prev.total := by
  rw [← List.sum_toFinset _ hnodup]
  exact prev.sum_weight_le _

theorem checkedMul_eq_some {a b c : ℕ} (h : checkedMul a b = some c) : c = a * b := by
  unfold checkedMul at h
  split at h
  · exact (Option.some.inj h).symm
  · cases h

theorem share_of_mulDivFloor {pool w total c : ℕ} (htotal : total < 2 ^ 128)
    (h : ofOption BlockError.arithmetic (mulDivFloor pool w total) = .ok c) :
    c = share pool total w :=
  (mulDivFloor_eq htotal (ofOption_eq_ok.1 h)).2

/-- Without weight there is nothing to include. -/
theorem share_of_inclusion {pool w c : ℕ}
    (h : (if prev.total = 0 then .ok 0
      else ofOption BlockError.arithmetic (mulDivFloor pool w prev.total)) = .ok c) :
    c = share pool prev.total w := by
  split at h
  · next htotal => rw [← Except.ok.inj h, share, htotal, Nat.div_zero]
  · exact share_of_mulDivFloor (total_lt_u128 prev) h

/-- What the payments add up to. -/
theorem creditSum_rewards (prev : ValidatorSet) (builder : KeyId) (signers : List KeyId)
    (pool : ℕ) :
    creditSum (rewards prev builder signers pool) =
      share pool 100 10 + (share pool 100 5 +
        share (share pool 100 15) prev.total (signers.map prev.weight).sum) +
      ((signers.map prev.weight).map (share (share pool 100 70) prev.total)).sum := by
  rw [rewards, creditSum_cons, creditSum_cons, creditSum, List.map_map, List.map_map]
  exact (Nat.add_assoc _ _ _).symm

/-- The payments stay within the pool: they are 10, 5, 15 and 70 hundredths. -/
theorem creditSum_rewards_le (builder : KeyId) {signers : List KeyId} (hnodup : signers.Nodup)
    (pool : ℕ) : creditSum (rewards prev builder signers pool) ≤ pool := by
  have hweight := @sum_weight_le_total prev signers hnodup
  have hincl : share (share pool 100 15) prev.total (signers.map prev.weight).sum ≤
      share pool 100 15 := Shares.share_le_pool hweight
  have hvote := @Shares.sum_share_le_pool (share pool 100 70) _ _ hweight
  have hparts : share pool 100 10 + share pool 100 5 + share pool 100 15 + share pool 100 70 ≤
      pool := by
    unfold share
    omega
  rw [creditSum_rewards]
  omega

/-- The payments in closed form, what the reserve gets back, and the balances. -/
theorem payRewards_pays {l₁ : Ledger} {fx₁ : Effects} (hnodup : signers.Nodup)
    (hp : Pays l fx builder fees feeTxs dtMs signers prev l₁ fx₁) :
    fx₁.fees = fees ∧ fx₁.burn = min fees (l.params.baseFee * feeTxs / 2) ∧
      fx₁.subsidy = min (l.balance .reserve)
        (l.params.subsidyRate * min dtMs l.params.heartbeatMs / 1000) ∧
      fx₁.credits = fx.credits ++ rewards prev builder signers (fees - fx₁.burn + fx₁.subsidy) ∧
      creditSum (rewards prev builder signers (fees - fx₁.burn + fx₁.subsidy)) + fx₁.unearned =
        fees - fx₁.burn + fx₁.subsidy ∧
      ∀ a, a ≠ .reserve → l₁.balance a = l.balance a +
        creditOf a (rewards prev builder signers (fees - fx₁.burn + fx₁.subsidy)) := by
  obtain ⟨hr, hfits⟩ := hp
  obtain ⟨base, hbase, hr⟩ := bind_eq_ok.1 hr
  obtain ⟨rate, hrate, hr⟩ := bind_eq_ok.1 hr
  obtain ⟨treasury, htreasury, hr⟩ := bind_eq_ok.1 hr
  obtain ⟨propBase, hpropBase, hr⟩ := bind_eq_ok.1 hr
  obtain ⟨inclPool, hinclPool, hr⟩ := bind_eq_ok.1 hr
  obtain ⟨votePool, hvotePool, hr⟩ := bind_eq_ok.1 hr
  obtain ⟨propIncl, hpropIncl, hr⟩ := bind_eq_ok.1 hr
  obtain ⟨m₁, hdebit, hr⟩ := bind_eq_ok.1 hr
  obtain ⟨m₂, hcredit₁, hr⟩ := bind_eq_ok.1 hr
  obtain ⟨m₃, hcredit₂, hr⟩ := bind_eq_ok.1 hr
  obtain ⟨⟨m₄, fx₄, shares⟩, hshares, hr⟩ := bind_eq_ok.1 hr
  obtain ⟨m₅, hcredit₃, hr⟩ := bind_eq_ok.1 hr
  obtain ⟨burnedFees, -, hr⟩ := bind_eq_ok.1 hr
  obtain ⟨rfl, rfl⟩ := Prod.mk.inj (Except.ok.inj hr)
  dsimp only [PoolFits] at hfits ⊢
  rw [wrap128_eq hfits] at htreasury hpropBase hinclPool hvotePool hcredit₃ ⊢
  obtain rfl := checkedMul_eq_some (ofOption_eq_ok.1 hbase)
  obtain rfl := share_of_mulDivFloor (by norm_num) hrate
  -- With a pool that fits, every part is the share that `rewards` says.
  obtain rfl := share_of_mulDivFloor (by norm_num) htreasury
  obtain rfl := share_of_mulDivFloor (by norm_num) hpropBase
  obtain rfl := share_of_mulDivFloor (by norm_num) hinclPool
  obtain rfl := share_of_mulDivFloor (by norm_num) hvotePool
  obtain rfl := share_of_inclusion hpropIncl
  obtain ⟨hcredits, rfl, hbalance⟩ := payShares_credits hshares
  obtain ⟨b, -, hm₁⟩ := debit_ok (mapError_eq_ok.1 hdebit)
  generalize fees - min fees (l.params.baseFee * feeTxs / 2) + min (l.balance .reserve)
    (share l.params.subsidyRate 1000 (min dtMs l.params.heartbeatMs)) = pool at *
  have hle := @creditSum_rewards_le prev builder signers hnodup pool
  have hsum := creditSum_rewards prev builder signers pool
  rw [wrap128_eq (by omega : share pool 100 5 +
    share (share pool 100 15) prev.total (signers.map prev.weight).sum < 2 ^ 128)] at hcredits hcredit₂
  refine ⟨rfl, rfl, rfl, ?_, ?_, fun a ha => ?_⟩
  · rw [hcredits, List.append_assoc]
    rfl
  · have hvote : ((signers.map prev.weight).map (share (share pool 100 70) prev.total)).sum <
        2 ^ 128 := by omega
    rw [wrap128_eq hvote, wrap128_eq (by omega)]
    omega
  · rw [rewards, creditOf_cons, creditOf_cons]
    dsimp only
    have h₁ : m₁.balance a = l.balance a := by rw [hm₁, balance_insert, if_neg ha.symm]
    have h₂ := credit_balance hcredit₁ a
    have h₃ := credit_balance hcredit₂ a
    have h₄ := hbalance a
    have h₅ := credit_balance hcredit₃ a
    rw [if_neg ha.symm] at h₅
    change m₅.balance a = _
    omega

/-! ## Fewer signers -/

/-- Nobody but the reserve is paid more when signers are left out. -/
theorem creditOf_rewards_le {S S' : List KeyId} (hS' : S'.Nodup) (hsub : S' ⊆ S) (pool : ℕ)
    (a : Account) :
    creditOf a (rewards prev builder S' pool) ≤ creditOf a (rewards prev builder S pool) := by
  have hweight : (S'.map prev.weight).sum ≤ (S.map prev.weight).sum :=
    Shares.sum_map_le_of_subset prev.weight hS' hsub
  have hincl := Shares.share_mono (share pool 100 15) prev.total hweight
  have hshares := Shares.sum_map_le_of_subset (fun k => if Account.key k = a then
    share (share pool 100 70) prev.total (prev.weight k) else 0) hS' hsub
  rw [rewards, rewards, creditOf_cons, creditOf_cons, creditOf_cons, creditOf_cons, creditOf,
    creditOf, List.map_map, List.map_map]
  refine Nat.add_le_add_left (Nat.add_le_add ?_ hshares) _
  dsimp only
  split
  · exact Nat.add_le_add_left hincl _
  · exact le_rfl

theorem creditSum_rewards_mono {S S' : List KeyId} (hS' : S'.Nodup) (hsub : S' ⊆ S) (pool : ℕ) :
    creditSum (rewards prev builder S' pool) ≤ creditSum (rewards prev builder S pool) := by
  have hweight : (S'.map prev.weight).sum ≤ (S.map prev.weight).sum :=
    Shares.sum_map_le_of_subset prev.weight hS' hsub
  have hincl := Shares.share_mono (share pool 100 15) prev.total hweight
  have hshares := Shares.sum_map_le_of_subset
    (share (share pool 100 70) prev.total ∘ prev.weight) hS' hsub
  rw [creditSum_rewards, creditSum_rewards, List.map_map, List.map_map]
  omega

/-- Withholding signatures never pays: let `S` be the signers and `S'` a part of
    them. With `S'` nobody is credited more, no balance but that of the reserve is
    higher, and the reserve gets back at least as much. With both, what is
    credited, returned and burned is what came in as fees and subsidy. -/
theorem withholding_never_pays {S S' : List KeyId} {l₁ l₂ : Ledger} {fx₁ fx₂ : Effects}
    (hS : S.Nodup) (hS' : S'.Nodup) (hsub : S' ⊆ S)
    (h₁ : Pays l fx builder fees feeTxs dtMs S prev l₁ fx₁)
    (h₂ : Pays l fx builder fees feeTxs dtMs S' prev l₂ fx₂) :
    (∀ a, creditOf a fx₂.credits ≤ creditOf a fx₁.credits) ∧
      (∀ a, a ≠ .reserve → l₂.balance a ≤ l₁.balance a) ∧ fx₁.unearned ≤ fx₂.unearned ∧
      creditSum fx₁.credits + fx₁.unearned + fx₁.burn =
        creditSum fx.credits + fees + fx₁.subsidy ∧
      creditSum fx₂.credits + fx₂.unearned + fx₂.burn =
        creditSum fx.credits + fees + fx₂.subsidy := by
  obtain ⟨-, hburn₁, hsubsidy₁, hcredits₁, hsum₁, hbalance₁⟩ := payRewards_pays hS h₁
  obtain ⟨-, hburn₂, hsubsidy₂, hcredits₂, hsum₂, hbalance₂⟩ := payRewards_pays hS' h₂
  -- The pool does not depend on the signers.
  have hpool : fees - fx₂.burn + fx₂.subsidy = fees - fx₁.burn + fx₁.subsidy := by
    rw [hburn₁, hburn₂, hsubsidy₁, hsubsidy₂]
  have hle₁ : fx₁.burn ≤ fees := by
    rw [hburn₁]
    exact min_le_left _ _
  have hle₂ : fx₂.burn ≤ fees := by
    rw [hburn₂]
    exact min_le_left _ _
  refine ⟨fun a => ?_, fun a ha => ?_, ?_, ?_, ?_⟩
  · rw [hcredits₁, hcredits₂, creditOf_append, creditOf_append, hpool]
    exact Nat.add_le_add_left (creditOf_rewards_le hS' hsub _ a) _
  · rw [hbalance₁ a ha, hbalance₂ a ha, hpool]
    exact Nat.add_le_add_left (creditOf_rewards_le hS' hsub _ a) _
  · rw [hpool] at hsum₂
    have hless := @creditSum_rewards_mono prev builder S S' hS' hsub
      (fees - fx₁.burn + fx₁.subsidy)
    omega
  · rw [hcredits₁, creditSum_append]
    omega
  · rw [hcredits₂, creditSum_append]
    omega

/-- A block of the pair, with both signatures and with the first one only. -/
theorem pair_rewards :
    (pairLedger.bind fun l =>
      (l.payRewards {} 0 1000000 1 1 [0, 1] l.activeSet).toOption.bind fun both =>
      (l.payRewards {} 0 1000000 1 1 [0] l.activeSet).toOption.map fun one =>
        decide (PoolFits both.2) && decide (PoolFits one.2) &&
        decide (creditOf (.key 1) one.2.credits < creditOf (.key 1) both.2.credits)) =
      some true := by
  decide +kernel

theorem withholding_never_pays_pair : ∃ l l₁ l₂ fx₁ fx₂, pairLedger = some l ∧
    Pays l {} 0 1000000 1 1 [0, 1] l.activeSet l₁ fx₁ ∧
    Pays l {} 0 1000000 1 1 [0] l.activeSet l₂ fx₂ ∧
    creditOf (.key 1) fx₂.credits < creditOf (.key 1) fx₁.credits ∧
    creditOf (.key 0) fx₂.credits ≤ creditOf (.key 0) fx₁.credits := by
  obtain ⟨l, hl, hrun⟩ := Option.bind_eq_some_iff.1 pair_rewards
  obtain ⟨⟨l₁, fx₁⟩, h₁, hrun⟩ := Option.bind_eq_some_iff.1 hrun
  obtain ⟨⟨l₂, fx₂⟩, h₂, hrun⟩ := Option.map_eq_some_iff.1 hrun
  simp only [Bool.and_eq_true, decide_eq_true_eq] at hrun
  obtain ⟨⟨hfits₁, hfits₂⟩, hless⟩ := hrun
  have hpays₁ := And.intro (toOption_eq_some h₁) hfits₁
  have hpays₂ := And.intro (toOption_eq_some h₂) hfits₂
  refine ⟨l, l₁, l₂, fx₁, fx₂, hl, hpays₁, hpays₂, hless, ?_⟩
  exact (withholding_never_pays (by decide) (by decide) (by decide) hpays₁ hpays₂).1 (.key 0)

end Ledger

end RougeChain.Consensus
