import RougeChain.Consensus.Ledger

/-!
# The total supply is conserved

Value moves between seven pots: balances, bonds, pending additions, unbonding
entries, two burn counters, and the fees that the transactions of a block have
paid but its rewards not yet spent. Every stage of `Ledger.applyBlock` says how
it changes the `supply`:

* transactions take their fees out of it (`applyTxs_supply`), rewards put them
  back (`payRewards_supply`): the shares of a pool never exceed the pool, as
  the signers of a certificate are distinct members of their set;
* slashing, downtime, release and epoch processing leave it as it is.

So does a block (`applyBlock_supply`), and a chain of blocks
(`totalSupply_applyBlock`): below `2^128` no unchecked addition wraps.
-/

namespace RougeChain.Consensus

namespace Ledger

open Fallible (ofOption bind_eq_ok ofOption_eq_ok mapError_eq_ok ok_bind)
open Std (ExtTreeMap ExtTreeSet)

variable {l l' : Ledger}

/-! ## Balances and bonds -/

/-- A credit writes one balance and nothing else. -/
theorem credit_ok {a : Account} {amount : ℕ} (h : l.credit a amount = .ok l') :
    l' = { l with balances := l.balances.insert a (l.balance a + amount) } := by
  obtain ⟨b, hb, hl⟩ := bind_eq_ok.1 h
  rw [checkedAdd_eq_some (ofOption_eq_ok.1 hb)] at hl
  exact (Except.ok.inj hl).symm

/-- A debit writes one balance, which covers it, and nothing else. -/
theorem debit_ok {a : Account} {amount : ℕ} (h : l.debit a amount = .ok l') :
    ∃ b, l.balance a = b + amount ∧ l' = { l with balances := l.balances.insert a b } := by
  obtain ⟨b, hb, hl⟩ := bind_eq_ok.1 h
  exact ⟨b, checkedSub_eq_some (ofOption_eq_ok.1 hb), (Except.ok.inj hl).symm⟩

theorem liquid_insert (m : ExtTreeMap Account ℕ) (a : Account) (b : ℕ) :
    valueSum (·) (m.insert a b) + m[a]?.getD 0 = valueSum (·) m + b := by
  have h := valueSum_insert (·) m a b
  rwa [Option.map_id_fun', id] at h

theorem bonds_insert (m : ExtTreeMap KeyId ValidatorRec) (key : KeyId) (r : ValidatorRec) :
    valueSum ValidatorRec.bond (m.insert key r) + (m[key]?.getD ({} : ValidatorRec)).bond =
      valueSum ValidatorRec.bond m + r.bond := by
  have h := valueSum_insert ValidatorRec.bond m key r
  cases hm : m[key]? with
  | none => simpa [hm] using h
  | some r' => simpa [hm] using h

/-- Rewriting a record without touching its bond. -/
theorem bonds_insert_of_eq {m : ExtTreeMap KeyId ValidatorRec} {key : KeyId} {r : ValidatorRec}
    (r' : ValidatorRec) (hm : m[key]? = some r) (hbond : r'.bond = r.bond) :
    valueSum ValidatorRec.bond (m.insert key r') = valueSum ValidatorRec.bond m := by
  have h := bonds_insert m key r'
  rw [hm, Option.getD_some] at h
  omega

theorem credit_supply {a : Account} {amount : ℕ} (h : l.credit a amount = .ok l') :
    l'.supply = l.supply + amount := by
  have hsum := liquid_insert l.balances a (l.balance a + amount)
  rw [credit_ok h]
  simp only [supply, balance] at hsum ⊢
  omega

theorem debit_supply {a : Account} {amount : ℕ} (h : l.debit a amount = .ok l') :
    l'.supply + amount = l.supply := by
  obtain ⟨b, hb, rfl⟩ := debit_ok h
  have hsum := liquid_insert l.balances a b
  simp only [supply, balance] at hb hsum ⊢
  omega

theorem balance_le_supply (a : Account) : l.balance a ≤ l.supply := by
  have hsum := liquid_insert l.balances a 0
  simp only [supply, balance] at hsum ⊢
  omega

/-! ## Transactions -/

theorem applyTransfer_supply {tx : Tx} {recipient : Account} {amount : ℕ}
    (h : l.applyTransfer tx recipient amount = .ok l') : l'.supply + tx.fee = l.supply := by
  unfold applyTransfer at h
  split at h
  · cases h
  · obtain ⟨total, htotal, h⟩ := bind_eq_ok.1 h
    obtain ⟨l₁, hdebit, h⟩ := bind_eq_ok.1 h
    have htotal := checkedAdd_eq_some (ofOption_eq_ok.1 htotal)
    have h₁ := debit_supply hdebit
    have h₂ := credit_supply (mapError_eq_ok.1 h)
    omega

theorem applyStake_supply {tx : Tx} {time amount : ℕ}
    (h : l.applyStake tx time amount = .ok l') : l'.supply + tx.fee = l.supply := by
  obtain ⟨key, -, h⟩ := bind_eq_ok.1 h
  split_ifs at h
  obtain ⟨total, htotal, h⟩ := bind_eq_ok.1 h
  obtain ⟨l₁, hdebit, h⟩ := bind_eq_ok.1 h
  have htotal := checkedAdd_eq_some (ofOption_eq_ok.1 htotal)
  have h₁ := debit_supply hdebit
  have hbond := bonds_insert l₁.validators key (l₁.validatorRec key)
  obtain rfl := Except.ok.inj h
  simp only [supply, validatorRec, List.map_append, List.sum_append, List.map_cons, List.map_nil,
    List.sum_cons, List.sum_nil] at h₁ hbond ⊢
  omega

theorem applyUnbond_supply {tx : Tx} {height time amount : ℕ}
    (h : l.applyUnbond tx height time amount = .ok l') : l'.supply + tx.fee = l.supply := by
  obtain ⟨key, -, h⟩ := bind_eq_ok.1 h
  split at h
  · cases h
  obtain ⟨r, hr, h⟩ := bind_eq_ok.1 h
  split at h
  · cases h
  · next hle =>
    obtain ⟨l₁, hdebit, h⟩ := bind_eq_ok.1 h
    have h₁ := debit_supply hdebit
    obtain ⟨b, -, rfl⟩ := debit_ok hdebit
    have hbond := bonds_insert l.validators key { r with bond := r.bond - amount }
    rw [ofOption_eq_ok.1 hr, Option.getD_some] at hbond
    obtain rfl := Except.ok.inj h
    simp only [supply, List.map_append, List.sum_append, List.map_cons, List.map_nil,
      List.sum_cons, List.sum_nil] at h₁ hbond ⊢
    omega

theorem applyUnjail_supply {tx : Tx} {time : ℕ} (h : l.applyUnjail tx time = .ok l') :
    l'.supply + tx.fee = l.supply := by
  obtain ⟨key, -, h⟩ := bind_eq_ok.1 h
  obtain ⟨r, hr, h⟩ := bind_eq_ok.1 h
  dsimp only at h
  split at h
  · cases h
  · obtain ⟨l₁, hdebit, h⟩ := bind_eq_ok.1 h
    have h₁ := debit_supply hdebit
    obtain ⟨b, -, rfl⟩ := debit_ok hdebit
    have hbond := bonds_insert_of_eq { r with unjailAt := some time } (ofOption_eq_ok.1 hr) rfl
    obtain rfl := Except.ok.inj h
    simp only [supply] at h₁ ⊢
    omega

theorem applyApprove_supply {tx : Tx} {time : ℕ} {candidate : KeyId}
    (h : l.applyApprove tx time candidate = .ok l') : l'.supply + tx.fee = l.supply := by
  obtain ⟨approver, -, h⟩ := bind_eq_ok.1 h
  obtain ⟨cand, hcand, h⟩ := bind_eq_ok.1 h
  split_ifs at h
  obtain ⟨l₁, hdebit, h⟩ := bind_eq_ok.1 h
  have h₁ := debit_supply hdebit
  obtain ⟨b, -, rfl⟩ := debit_ok hdebit
  dsimp only at h
  split at h
  · have hbond := bonds_insert_of_eq { cand with approvedAt := some time } (ofOption_eq_ok.1 hcand)
      rfl
    obtain rfl := Except.ok.inj h
    simp only [supply] at h₁ ⊢
    omega
  · obtain rfl := Except.ok.inj h
    exact h₁

/-- A transaction takes its fee out of the supply. -/
theorem applyTx_supply {tx : Tx} {height time fee : ℕ}
    (h : l.applyTx tx height time = .ok (fee, l')) : l'.supply + fee = l.supply := by
  unfold applyTx at h
  split_ifs at h
  obtain ⟨l₁, hkind, h⟩ := bind_eq_ok.1 h
  obtain ⟨rfl, rfl⟩ := Prod.mk.inj (Except.ok.inj h)
  change l₁.supply + tx.fee = l.supply
  unfold applyKind at hkind
  split at hkind
  · exact applyTransfer_supply hkind
  · exact applyStake_supply hkind
  · exact applyUnbond_supply hkind
  · exact applyUnjail_supply hkind
  · exact applyApprove_supply hkind

theorem applyTxs_supply {height time i fees feeTxs fees' feeTxs' : ℕ} {txs : List Tx}
    (h : applyTxs height time i l fees feeTxs txs = .ok (l', fees', feeTxs')) :
    l'.supply + fees' = l.supply + fees := by
  induction txs generalizing i l fees feeTxs with
  | nil =>
    obtain ⟨rfl, rfl, rfl⟩ : l = l' ∧ fees = fees' ∧ feeTxs = feeTxs' := by simpa [applyTxs] using h
    rfl
  | cons tx txs ih =>
    obtain ⟨⟨fee, l₁⟩, htx, h⟩ := bind_eq_ok.1 h
    obtain ⟨fees₁, hfees, h⟩ := bind_eq_ok.1 h
    have h₁ := applyTx_supply (mapError_eq_ok.1 htx)
    have hfees := checkedAdd_eq_some (ofOption_eq_ok.1 hfees)
    have := ih h
    omega

/-! ## Slashing -/

theorem cut_le {params : Params} {x c : ℕ} (h : cut params x = .ok c) : c ≤ x := by
  obtain ⟨-, hle⟩ := Option.filter_eq_some_iff.1 (ofOption_eq_ok.1 h)
  exact of_decide_eq_true hle

/-- What is cut from the unbonding entries is missing from them. -/
theorem cutUnbonding_sum {params : Params} {key : KeyId} {offenceHeight total : ℕ}
    {es es' : List UnbondingEntry} (hes : (es.map UnbondingEntry.amount).sum < 2 ^ 128)
    (h : cutUnbonding params key offenceHeight es = .ok (es', total)) :
    (es'.map UnbondingEntry.amount).sum + total = (es.map UnbondingEntry.amount).sum := by
  induction es generalizing es' total with
  | nil =>
    obtain ⟨rfl, rfl⟩ : [] = es' ∧ 0 = total := by simpa [cutUnbonding] using h
    rfl
  | cons e es ih =>
    obtain ⟨c, hc, h⟩ := bind_eq_ok.1 h
    obtain ⟨⟨es₁, total₁⟩, hes₁, h⟩ := bind_eq_ok.1 h
    have hle : c ≤ e.amount := by
      split at hc
      · exact cut_le hc
      · cases hc
        exact Nat.zero_le _
    rw [List.map_cons, List.sum_cons] at hes ⊢
    have hrest := ih (by omega) hes₁
    obtain ⟨rfl, rfl⟩ := Prod.mk.inj (Except.ok.inj h)
    rw [wrap128_eq (by omega), List.map_cons, List.sum_cons]
    dsimp only
    omega

/-- Entries of amount zero may be dropped. -/
theorem sum_filter_pos (es : List UnbondingEntry) :
    ((es.filter fun e => decide (0 < e.amount)).map UnbondingEntry.amount).sum =
      (es.map UnbondingEntry.amount).sum := by
  induction es with
  | nil => rfl
  | cons e es ih =>
    by_cases he : 0 < e.amount
    · simp [he, ih]
    · simp [ih, Nat.eq_zero_of_not_pos he]

/-- The pending additions of a key and those of the others. -/
theorem sum_filter_pending (ps : List PendingBond) (key : KeyId) :
    ((ps.filter fun p => p.key == key).map PendingBond.amount).sum +
      ((ps.filter fun p => p.key != key).map PendingBond.amount).sum =
      (ps.map PendingBond.amount).sum := by
  induction ps with
  | nil => rfl
  | cons p ps ih =>
    by_cases hp : p.key = key <;> simp [hp] <;> omega

theorem slash_supply {key : KeyId} {offenceHeight time : ℕ} {event : SlashEvent}
    (hl : l.supply < 2 ^ 128) (h : l.slash key offenceHeight time = .ok (event, l')) :
    l'.supply = l.supply := by
  obtain ⟨cutBond, hcut, h⟩ := bind_eq_ok.1 h
  obtain ⟨⟨unbonding, cutU⟩, hunb, h⟩ := bind_eq_ok.1 h
  obtain ⟨l₁, hcredit, h⟩ := bind_eq_ok.1 h
  obtain ⟨burned, hburned, h⟩ := bind_eq_ok.1 h
  have hcut := cut_le hcut
  have hcredit := credit_ok hcredit
  have hburned := checkedAdd_eq_some (ofOption_eq_ok.1 hburned)
  obtain ⟨-, rfl⟩ := Prod.mk.inj (Except.ok.inj h)
  have hpending := sum_filter_pending l.pending key
  have hbond := bonds_insert l.validators key ((l.validatorRec key).slashed offenceHeight)
  rw [show ((l.validatorRec key).slashed offenceHeight).bond = 0 from rfl] at hbond
  have hpos := sum_filter_pos unbonding
  simp only [supply] at hl
  have hunb := cutUnbonding_sum (by omega) hunb
  have hbond' : (l.validatorRec key).bond = (l.validators[key]?.getD ({} : ValidatorRec)).bond := rfl
  -- Neither the refund nor the sum of the cuts wraps.
  rw [wrap128_eq (by omega)] at hburned
  rw [wrap128_eq (by omega)] at hcredit
  subst hcredit
  have hliquid := liquid_insert l.balances (.key key)
    (l.balance (.key key) + ((l.pending.filter fun p => p.key == key).map PendingBond.amount).sum)
  simp only [supply, balance, hburned] at hliquid hbond' ⊢
  split
  · simp only [List.map_append, List.sum_append, List.map_cons, List.map_nil, List.sum_cons,
      List.sum_nil]
    omega
  · omega

theorem applyEvidence_supply {height time i : ℕ} {seen : ExtTreeSet (KeyId × ℕ)}
    {fx fx' : Effects} {evs : List Evidence} (hl : l.supply < 2 ^ 128)
    (h : applyEvidence height time i seen l fx evs = .ok (l', fx')) : l'.supply = l.supply := by
  induction evs generalizing i seen l fx with
  | nil =>
    obtain ⟨rfl, -⟩ : l = l' ∧ fx = fx' := by simpa [applyEvidence] using h
    rfl
  | cons ev evs ih =>
    unfold applyEvidence at h
    split at h
    · cases h
    · obtain ⟨-, -, h⟩ := bind_eq_ok.1 h
      obtain ⟨⟨event, l₁⟩, hslash, h⟩ := bind_eq_ok.1 h
      have h₁ := slash_supply hl hslash
      rw [ih (by omega) h, h₁]

/-! ## Rewards -/

theorem total_lt_u128 (set : ValidatorSet) : set.total < 2 ^ 128 :=
  set.total_lt.trans (by decide)

/-- A share of a pool in proportion to a part of the total is within the pool. -/
theorem mulDivFloor_le_pool {pool w total c : ℕ} (htotal : total < 2 ^ 128) (hw : w ≤ total)
    (h : mulDivFloor pool w total = some c) : c ≤ pool := by
  obtain ⟨hpos, rfl⟩ := mulDivFloor_eq htotal h
  exact Nat.div_le_of_le_mul (by rw [Nat.mul_comm]; exact Nat.mul_le_mul_right pool hw)

/-- The shares of the signers add up to at most what their weight has of the pool. -/
theorem payShares_supply {votePool : ℕ} {prev : ValidatorSet} {fx fx' : Effects} {paid : ℕ}
    {keys : List KeyId} (hpool : votePool < 2 ^ 128) (hw : (keys.map prev.weight).sum ≤ prev.total)
    (h : payShares votePool prev l fx keys = .ok (l', fx', paid)) :
    l'.supply = l.supply + paid ∧ paid * prev.total ≤ votePool * (keys.map prev.weight).sum := by
  induction keys generalizing l l' fx fx' paid with
  | nil =>
    obtain ⟨rfl, -, rfl⟩ : l = l' ∧ fx = fx' ∧ 0 = paid := by simpa [payShares] using h
    simp
  | cons key keys ih =>
    obtain ⟨share, hshare, h⟩ := bind_eq_ok.1 h
    obtain ⟨l₁, hcredit, h⟩ := bind_eq_ok.1 h
    obtain ⟨⟨l₂, fx₂, paid₂⟩, hrest, h⟩ := bind_eq_ok.1 h
    rw [List.map_cons, List.sum_cons] at hw ⊢
    obtain ⟨hsupply, hpaid⟩ := ih (by omega) hrest
    obtain ⟨htotal, hshare⟩ := mulDivFloor_eq (total_lt_u128 prev) (ofOption_eq_ok.1 hshare)
    have hshare : share * prev.total ≤ votePool * prev.weight key := by
      rw [hshare]
      exact Nat.div_mul_le_self _ _
    have hsum : (share + paid₂) * prev.total ≤
        votePool * (prev.weight key + (keys.map prev.weight).sum) := by
      rw [Nat.add_mul, Nat.mul_add]
      exact Nat.add_le_add hshare hpaid
    have hle : share + paid₂ ≤ votePool :=
      Nat.le_of_mul_le_mul_right (hsum.trans (Nat.mul_le_mul_left votePool hw)) htotal
    obtain ⟨rfl, hfx⟩ := Prod.mk.inj (Except.ok.inj h)
    obtain ⟨rfl, rfl⟩ := Prod.mk.inj hfx
    rw [wrap128_eq (by omega)]
    exact ⟨by rw [hsupply, credit_supply hcredit, Nat.add_assoc], hsum⟩

/-- The shares of the signers stay within the vote pool. -/
theorem payShares_le {votePool : ℕ} {prev : ValidatorSet} {fx fx' : Effects} {paid : ℕ}
    {keys : List KeyId} (hpool : votePool < 2 ^ 128) (hw : (keys.map prev.weight).sum ≤ prev.total)
    (h : payShares votePool prev l fx keys = .ok (l', fx', paid)) : paid ≤ votePool := by
  obtain ⟨-, hpaid⟩ := payShares_supply hpool hw h
  rcases Nat.eq_zero_or_pos prev.total with h0 | hpos
  · -- Without weight there is no share to compute.
    cases keys with
    | nil =>
      obtain ⟨-, -, rfl⟩ : l = l' ∧ fx = fx' ∧ 0 = paid := by simpa [payShares] using h
      exact Nat.zero_le _
    | cons key keys =>
      obtain ⟨share, hshare, -⟩ := bind_eq_ok.1 h
      have := (mulDivFloor_eq (total_lt_u128 prev) (ofOption_eq_ok.1 hshare)).1
      omega
  · exact Nat.le_of_mul_le_mul_right (hpaid.trans (Nat.mul_le_mul_left votePool hw)) hpos

/-- Rewards put the fees back into the supply: burned, paid out or returned to
    the reserve. -/
theorem payRewards_supply {fx fx' : Effects} {builder : KeyId} {fees feeTxs dtMs : ℕ}
    {signers : List KeyId} {prev : ValidatorSet} (hl : l.supply + fees < 2 ^ 128)
    (hw : (signers.map prev.weight).sum ≤ prev.total)
    (h : l.payRewards fx builder fees feeTxs dtMs signers prev = .ok (l', fx')) :
    l'.supply = l.supply + fees := by
  obtain ⟨base, -, h⟩ := bind_eq_ok.1 h
  obtain ⟨rate, -, h⟩ := bind_eq_ok.1 h
  have hburn : min fees (base / 2) ≤ fees := min_le_left _ _
  have hsubsidy : min (l.balance .reserve) rate ≤ l.supply :=
    (min_le_left _ _).trans (balance_le_supply _)
  dsimp only at h
  rw [wrap128_eq (by omega)] at h
  generalize min fees (base / 2) = burn at h hburn
  generalize min (l.balance .reserve) rate = subsidy at h hsubsidy
  generalize hpool : fees - burn + subsidy = pool at h
  obtain ⟨treasury, htreasury, h⟩ := bind_eq_ok.1 h
  obtain ⟨propBase, hpropBase, h⟩ := bind_eq_ok.1 h
  obtain ⟨inclPool, hinclPool, h⟩ := bind_eq_ok.1 h
  obtain ⟨votePool, hvotePool, h⟩ := bind_eq_ok.1 h
  obtain ⟨propIncl, hpropIncl, h⟩ := bind_eq_ok.1 h
  obtain ⟨l₁, hdebit, h⟩ := bind_eq_ok.1 h
  obtain ⟨l₂, hcredit₁, h⟩ := bind_eq_ok.1 h
  obtain ⟨l₃, hcredit₂, h⟩ := bind_eq_ok.1 h
  obtain ⟨⟨l₄, fx₄, shares⟩, hshares, h⟩ := bind_eq_ok.1 h
  dsimp only at h
  obtain ⟨l₅, hcredit₃, h⟩ := bind_eq_ok.1 h
  obtain ⟨burnedFees, hburned, h⟩ := bind_eq_ok.1 h
  -- The four pools are 10, 5, 15 and 70 hundredths of the whole.
  have htreasury := (mulDivFloor_eq (by norm_num) (ofOption_eq_ok.1 htreasury)).2
  have hpropBase := (mulDivFloor_eq (by norm_num) (ofOption_eq_ok.1 hpropBase)).2
  have hinclPool := (mulDivFloor_eq (by norm_num) (ofOption_eq_ok.1 hinclPool)).2
  have hvotePool := (mulDivFloor_eq (by norm_num) (ofOption_eq_ok.1 hvotePool)).2
  have hpropIncl : propIncl ≤ inclPool := by
    split at hpropIncl
    · cases hpropIncl
      exact Nat.zero_le _
    · exact mulDivFloor_le_pool (total_lt_u128 prev) hw (ofOption_eq_ok.1 hpropIncl)
  have hle := payShares_le (by omega) hw hshares
  have h₁ := debit_supply (mapError_eq_ok.1 hdebit)
  have h₂ := credit_supply hcredit₁
  have h₃ := credit_supply hcredit₂
  have h₄ := (payShares_supply (by omega) hw hshares).1
  have h₅ := credit_supply hcredit₃
  rw [wrap128_eq (by omega)] at h₃ h₅
  have hburned := checkedAdd_eq_some (ofOption_eq_ok.1 hburned)
  obtain ⟨rfl, -⟩ := Prod.mk.inj (Except.ok.inj h)
  have hfinal : ({ l₅ with burnedFees } : Ledger).supply = l₅.supply + burn := by
    simp only [supply, hburned]
    omega
  omega

/-! ## Downtime, release and epochs -/

theorem observeMember_bonds (params : Params) (assembler : KeyId) (signers : List KeyId)
    (state : ExtTreeMap KeyId ValidatorRec × List (KeyId × List KeyId)) (key : KeyId) :
    valueSum ValidatorRec.bond (observeMember params assembler signers state key).1 =
      valueSum ValidatorRec.bond state.1 := by
  obtain ⟨validators, candidates⟩ := state
  unfold observeMember
  dsimp only
  split
  · rfl
  · next r hr =>
    split_ifs
    · rfl
    · exact bonds_insert_of_eq _ hr rfl
    · exact bonds_insert_of_eq _ hr rfl

theorem jail_supply (height time : ℕ) (state : Ledger × Effects)
    (candidate : KeyId × List KeyId) : (jail height time state candidate).1.supply = state.1.supply := by
  obtain ⟨l, fx⟩ := state
  unfold jail
  dsimp only
  split
  · rfl
  · split
    · next r hr =>
      simp only [supply]
      rw [bonds_insert_of_eq (r.jailed _) hr rfl]
    · rfl

theorem observeDowntime_supply {fx : Effects} (height time : ℕ) (assembler : KeyId)
    (signers : List KeyId) (prev : ValidatorSet) :
    (l.observeDowntime fx height time assembler signers prev).1.supply = l.supply := by
  have hobserve : ∀ (keys : List KeyId) state,
      valueSum ValidatorRec.bond (keys.foldl (observeMember l.params assembler signers) state).1 =
        valueSum ValidatorRec.bond state.1 := by
    intro keys
    induction keys with
    | nil => exact fun _ => rfl
    | cons key keys ih => exact fun state => by rw [List.foldl_cons, ih, observeMember_bonds]
  have hjail : ∀ (cs : List (KeyId × List KeyId)) state,
      (cs.foldl (jail height time) state).1.supply = state.1.supply := by
    intro cs
    induction cs with
    | nil => exact fun _ => rfl
    | cons c cs ih => exact fun state => by rw [List.foldl_cons, ih, jail_supply]
  unfold observeDowntime
  dsimp only
  rw [hjail]
  simp only [supply, hobserve]

/-- The release moves matured entries to the balances, and keeps the others. -/
theorem release_ok {time : ℕ} {fx fx' : Effects} {es keep : List UnbondingEntry}
    (h : release time l fx es = .ok (l', fx', keep)) :
    (∃ balances, l' = { l with balances }) ∧
      l'.supply + (keep.map UnbondingEntry.amount).sum =
        l.supply + (es.map UnbondingEntry.amount).sum ∧
      keep = es.filter fun e => decide (time < e.releaseAt) := by
  induction es generalizing l fx keep with
  | nil =>
    obtain ⟨rfl, -, rfl⟩ : l = l' ∧ fx = fx' ∧ [] = keep := by simpa [release] using h
    exact ⟨⟨l.balances, rfl⟩, rfl, rfl⟩
  | cons e es ih =>
    rw [List.map_cons, List.sum_cons]
    unfold release at h
    split at h
    · next hrel =>
      obtain ⟨l₁, hcredit, h⟩ := bind_eq_ok.1 h
      obtain ⟨⟨balances, rfl⟩, hsum, hkeep⟩ := ih h
      have h₁ := credit_supply hcredit
      have h₂ := credit_ok hcredit
      refine ⟨⟨balances, by rw [h₂]⟩, by omega, ?_⟩
      rw [hkeep, List.filter_cons_of_neg (by simpa using hrel)]
    · next hrel =>
      obtain ⟨⟨l₁, fx₁, keep₁⟩, hrest, h⟩ := bind_eq_ok.1 h
      obtain ⟨rfl, hfx⟩ := Prod.mk.inj (Except.ok.inj h)
      obtain ⟨rfl, rfl⟩ := Prod.mk.inj hfx
      obtain ⟨hframe, hsum, hkeep⟩ := ih hrest
      refine ⟨hframe, by rw [List.map_cons, List.sum_cons]; omega, ?_⟩
      rw [List.filter_cons_of_pos (by simpa using hrel), ← hkeep]

theorem bondPending_sum {matured : ℕ → Bool} {validators validators' : ExtTreeMap KeyId ValidatorRec}
    {ps still : List PendingBond}
    (h : bondPending matured validators ps = .ok (validators', still)) :
    valueSum ValidatorRec.bond validators' + (still.map PendingBond.amount).sum =
      valueSum ValidatorRec.bond validators + (ps.map PendingBond.amount).sum := by
  induction ps generalizing validators still with
  | nil =>
    obtain ⟨rfl, rfl⟩ : validators = validators' ∧ [] = still := by simpa [bondPending] using h
    rfl
  | cons p ps ih =>
    rw [List.map_cons, List.sum_cons]
    unfold bondPending at h
    split at h
    · obtain ⟨bond, hbond, h⟩ := bind_eq_ok.1 h
      have hbond := checkedAdd_eq_some (ofOption_eq_ok.1 hbond)
      have hinsert := bonds_insert validators p.key
        { validators[p.key]?.getD ({} : ValidatorRec) with bond }
      have hrest := ih h
      dsimp only at hinsert
      omega
    · obtain ⟨⟨validators₁, still₁⟩, hrest, h⟩ := bind_eq_ok.1 h
      obtain ⟨rfl, rfl⟩ := Prod.mk.inj (Except.ok.inj h)
      have hrest := ih hrest
      rw [List.map_cons, List.sum_cons]
      omega

theorem setActive_bond (chosen : List KeyId) (key : KeyId) (r : ValidatorRec) :
    (setActive chosen key r).bond = r.bond := by
  unfold setActive
  split_ifs <;> rfl

theorem unjailMatured_bond (matured : ℕ → Bool) (r : ValidatorRec) :
    (unjailMatured matured r).bond = r.bond := by
  unfold unjailMatured
  split <;> rfl

theorem processEpoch_supply {fx fx' : Effects} {time : ℕ}
    (h : l.processEpoch fx time = .ok (l', fx')) : l'.supply = l.supply := by
  obtain ⟨⟨validators, pending⟩, hpending, h⟩ := bind_eq_ok.1 h
  have hsum := bondPending_sum hpending
  obtain ⟨rfl, -⟩ := Prod.mk.inj (Except.ok.inj h)
  simp only [supply]
  rw [valueSum_map _ _ _ _ (setActive_bond _)]
  split
  · rw [valueSum_map ValidatorRec.bond _ (fun _ r => r.withoutGrace) _ fun _ _ => rfl,
      valueSum_map _ _ _ _ fun _ r => unjailMatured_bond _ r]
    omega
  · rw [valueSum_map _ _ _ _ fun _ r => unjailMatured_bond _ r]
    omega

theorem crossEpoch_supply {fx fx' : Effects} {time : ℕ}
    (h : l.crossEpoch fx time = .ok (l', fx')) : l'.supply = l.supply := by
  unfold crossEpoch at h
  split at h
  · exact processEpoch_supply h
  · obtain ⟨rfl, -⟩ := Prod.mk.inj (Except.ok.inj h)
    rfl

theorem removeBelowMin_supply (l : Ledger) (fx : Effects) :
    (l.removeBelowMin fx).1.supply = l.supply := by
  simp only [removeBelowMin, supply]
  rw [valueSum_map ValidatorRec.bond ValidatorRec.bond]
  intro _ r
  split <;> rfl

theorem renewSet_supply {height time : ℕ} (h : l.renewSet height time = .ok l') :
    l'.supply = l.supply := by
  obtain ⟨set, -, h⟩ := bind_eq_ok.1 h
  obtain ⟨schedule, -, h⟩ := bind_eq_ok.1 h
  obtain rfl := Except.ok.inj h
  rfl

/-! ## Blocks -/

/-- The signers of an accepted parent certificate are distinct members. -/
theorem checkCert_weight {b : Block} {signers : List KeyId} (h : l.checkCert b = .ok signers) :
    (signers.map l.prevSet.weight).sum ≤ l.prevSet.total := by
  unfold checkCert at h
  split at h
  · split_ifs at h
    obtain rfl := Except.ok.inj h
    exact Nat.zero_le _
  · next cert _ =>
    split_ifs at h
    obtain ⟨stake, hverify, h⟩ := bind_eq_ok.1 h
    obtain ⟨-, hasc, -⟩ := CommitCert.verify_ok (mapError_eq_ok.1 hverify)
    obtain rfl := Except.ok.inj h
    have hnodup : cert.signers.Nodup := hasc.imp fun h => ne_of_lt h
    rw [← List.sum_toFinset _ hnodup]
    exact l.prevSet.sum_weight_le _

/-- An accepted block passed every stage. -/
theorem applyBlock_ok {b : Block} {fx : Effects} (h : l.applyBlock b = .ok (l', fx)) :
    ∃ signers proposer schedule l₁ fees feeTxs l₂ fx₂ l₃ fx₃ l₄ fx₄ l₅ fx₅ unbonding l₆ fx₆ l₈,
      l.checkHeader b = .ok () ∧ l.checkCert b = .ok signers ∧
      l.schedule.step = .ok (proposer, schedule) ∧
      applyTxs (l.height + 1) b.header.timeMs 0 { l with schedule } 0 0 b.txs =
        .ok (l₁, fees, feeTxs) ∧
      applyEvidence (l.height + 1) b.header.timeMs 0 ∅ l₁
        { height := l.height + 1, signers, round0Proposer := some proposer } b.evidence =
        .ok (l₂, fx₂) ∧
      l₂.payRewards fx₂ b.header.builder fees feeTxs (b.header.timeMs - l₂.tipTime) signers
        l.prevSet = .ok (l₃, fx₃) ∧
      (l₄, fx₄) = (if b.parentCert.isSome ∧ l₃.domainOf l₃.height = .V3 then
        l₃.observeDowntime fx₃ (l.height + 1) b.header.timeMs b.header.builder signers l.prevSet
        else (l₃, fx₃)) ∧
      release b.header.timeMs l₄ fx₄ l₄.unbonding = .ok (l₅, fx₅, unbonding) ∧
      ({ l₅ with unbonding } : Ledger).crossEpoch fx₅ b.header.timeMs = .ok (l₆, fx₆) ∧
      (l₆.removeBelowMin fx₆).1.renewSet (l.height + 1) b.header.timeMs = .ok l₈ ∧
      l' = { l₈ with
        height := l.height + 1, tip := b.id, tipTime := b.header.timeMs, tipRound := b.header.round } ∧
      fx = { (l₆.removeBelowMin fx₆).2 with supplyAfter := l'.totalSupply } := by
  obtain ⟨⟨⟩, hheader, h⟩ := bind_eq_ok.1 h
  obtain ⟨signers, hcert, h⟩ := bind_eq_ok.1 h
  obtain ⟨⟨proposer, schedule⟩, hstep, h⟩ := bind_eq_ok.1 h
  obtain ⟨⟨l₁, fees, feeTxs⟩, htxs, h⟩ := bind_eq_ok.1 h
  obtain ⟨⟨l₂, fx₂⟩, hev, h⟩ := bind_eq_ok.1 h
  obtain ⟨⟨l₃, fx₃⟩, hrewards, h⟩ := bind_eq_ok.1 h
  obtain ⟨⟨l₅, fx₅, unbonding⟩, hrelease, h⟩ := bind_eq_ok.1 h
  obtain ⟨⟨l₆, fx₆⟩, hepoch, h⟩ := bind_eq_ok.1 h
  obtain ⟨l₈, hrenew, h⟩ := bind_eq_ok.1 h
  obtain ⟨rfl, rfl⟩ := Prod.mk.inj (Except.ok.inj h)
  exact ⟨signers, proposer, schedule, l₁, fees, feeTxs, l₂, fx₂, l₃, fx₃, _, _, l₅, fx₅, unbonding,
    l₆, fx₆, l₈, hheader, hcert, mapError_eq_ok.1 hstep, htxs, hev, hrewards, rfl, hrelease, hepoch,
    hrenew, rfl, rfl⟩

/-- A block neither creates nor destroys value. -/
theorem applyBlock_supply {b : Block} {fx : Effects} (hl : l.supply < 2 ^ 128)
    (h : l.applyBlock b = .ok (l', fx)) : l'.supply = l.supply := by
  obtain ⟨signers, proposer, schedule, l₁, fees, feeTxs, l₂, fx₂, l₃, fx₃, l₄, fx₄, l₅, fx₅,
    unbonding, l₆, fx₆, l₈, -, hcert, -, htxs, hev, hrewards, hdown, hrelease, hepoch, hrenew, rfl,
    -⟩ := applyBlock_ok h
  have h₁ : l₁.supply + fees = l.supply := applyTxs_supply htxs
  have h₂ := applyEvidence_supply (by omega) hev
  have h₃ := payRewards_supply (by omega) (checkCert_weight hcert) hrewards
  have h₄ : l₄.supply = l₃.supply := by
    split at hdown
    · obtain rfl := congrArg Prod.fst hdown
      exact observeDowntime_supply _ _ _ _ _
    · obtain rfl := congrArg Prod.fst hdown
      rfl
  have h₅ : ({ l₅ with unbonding } : Ledger).supply = l₄.supply := by
    obtain ⟨⟨balances, rfl⟩, hsum, -⟩ := release_ok hrelease
    simp only [supply] at hsum ⊢
    omega
  have h₆ := crossEpoch_supply hepoch
  have h₇ := removeBelowMin_supply l₆ fx₆
  have h₈ := renewSet_supply hrenew
  change l₈.supply = l.supply
  omega

theorem Reaches.supply {l₀ : Ledger} (h : Reaches l₀ l) (h₀ : l₀.supply < 2 ^ 128) :
    l.supply = l₀.supply := by
  induction h with
  | refl => rfl
  | block _ hblock ih => rw [applyBlock_supply (by omega) hblock, ih]

/-- On a chain whose genesis holds less than `2^128`, every accepted block
    returns a ledger of the same total supply. -/
theorem totalSupply_applyBlock {params : Params} {g : Genesis} {b : Block} {fx : Effects}
    (htotal : ∀ l₀, genesis params g = .ok l₀ → l₀.supply < 2 ^ 128)
    (hreach : Reachable params g l) (h : l.applyBlock b = .ok (l', fx)) :
    l'.totalSupply = l.totalSupply := by
  obtain ⟨l₀, hgenesis, hreach⟩ := hreach
  have h₀ := htotal l₀ hgenesis
  have hl := hreach.supply h₀
  rw [totalSupply, totalSupply, applyBlock_supply (by omega) h]

/-- A chain of one validator and one funded user. -/
def soloGenesis : Genesis where
  tipHeight := 0
  tip := ⟨List.replicate 32 0, rfl⟩
  tipTime := 0
  validators := [(0, 200000 * quantaPerXrge)]
  balances := [(.user 1, 1000 * quantaPerXrge)]

/-- Its first block: a transfer that pays a fee. -/
def soloBlock : Block where
  header := ⟨1, 0, 0, 1, soloGenesis.tip⟩
  parentCert := none
  txs := [⟨7, .user 1, 1000000, .transfer (.user 2) 5⟩]
  evidence := []

theorem totalSupply_soloBlock :
    ∃ l l' fx, (∀ l₀, genesis (.decided "solo") soloGenesis = .ok l₀ → l₀.supply < 2 ^ 128) ∧
      Reachable (.decided "solo") soloGenesis l ∧ l.applyBlock soloBlock = .ok (l', fx) ∧
      l'.totalSupply = l.totalSupply := by
  cases hg : genesis (.decided "solo") soloGenesis with
  | error e =>
    have : (genesis (.decided "solo") soloGenesis).isOk = true := by decide +kernel
    rw [hg] at this
    cases this
  | ok l₀ =>
    have hrun : ((genesis (.decided "solo") soloGenesis).toOption.bind fun l =>
        (l.applyBlock soloBlock).toOption.map fun _ => decide (l.supply < 2 ^ 128)) = some true := by
      decide +kernel
    rw [hg] at hrun
    cases hb : l₀.applyBlock soloBlock with
    | error e => rw [Except.toOption, Option.bind_some, hb] at hrun; cases hrun
    | ok r =>
      rw [Except.toOption, Option.bind_some, hb] at hrun
      have hsupply : l₀.supply < 2 ^ 128 := of_decide_eq_true (Option.some.inj hrun)
      have htotal : ∀ l₁, genesis (.decided "solo") soloGenesis = .ok l₁ → l₁.supply < 2 ^ 128 := by
        intro l₁ h₁
        rw [hg] at h₁
        rwa [← Except.ok.inj h₁]
      rw [← hg]
      exact ⟨l₀, r.1, r.2, htotal, ⟨l₀, hg, .refl⟩, hb,
        totalSupply_applyBlock htotal ⟨l₀, hg, .refl⟩ hb⟩

end Ledger

end RougeChain.Consensus
