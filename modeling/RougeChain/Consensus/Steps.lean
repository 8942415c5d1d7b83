import RougeChain.Consensus.Supply

/-!
# What a block does to stakes

One inversion lemma for each stage of a block: all that a transaction, a
penalty and the rest of a block can do to the bonds, to the additions that wait
for an epoch and to the stake on its way out. What holds of whole chains is
derived from these, and not from the code of the stages.

* `TxStep`: the effects of one transaction, and `applyTxs_invariant`, what all
  transactions of a block keep;
* `slash_ok`: the effects of one penalty, and `applyEvidence_rec`, the induction
  over the penalties of a block;
* `SameStakes`: jailing, unjailing, activation and removal change flags and
  windows, and no stake;
* `Closes`: what a block does once its evidence is applied, and
  `applyBlock_stages`, the whole block.
-/

namespace RougeChain.Consensus

namespace Ledger

open Fallible (ofOption bind_eq_ok ofOption_eq_ok mapError_eq_ok ok_bind)
open Std (ExtTreeMap ExtTreeSet)

variable {l l' : Ledger} {key : KeyId}

theorem validatorRec_of_some {r : ValidatorRec} (hr : l.validators[key]? = some r) :
    l.validatorRec key = r := by
  rw [validatorRec, hr, Option.getD_some]

/-- The stages of a block up to the new set leave the history alone. -/
structure SameChain (l l' : Ledger) : Prop where
  params : l'.params = l.params
  height : l'.height = l.height
  tipTime : l'.tipTime = l.tipTime
  activationTime : l'.activationTime = l.activationTime
  activeSet : l'.activeSet = l.activeSet
  sets : l'.sets = l.sets
  times : l'.times = l.times

theorem SameChain.refl : SameChain l l := ⟨rfl, rfl, rfl, rfl, rfl, rfl, rfl⟩

theorem SameChain.trans {l'' : Ledger} (h : SameChain l l') (h' : SameChain l' l'') :
    SameChain l l'' :=
  ⟨h'.params.trans h.params, h'.height.trans h.height, h'.tipTime.trans h.tipTime,
    h'.activationTime.trans h.activationTime, h'.activeSet.trans h.activeSet,
    h'.sets.trans h.sets, h'.times.trans h.times⟩

theorem SameChain.of_schedule {schedule : Schedule} (h : SameChain { l with schedule } l') :
    SameChain l l' :=
  ⟨h.params, h.height, h.tipTime, h.activationTime, h.activeSet, h.sets, h.times⟩

/-! ## Transactions -/

/-- What a transaction of block `height` at header time `time` can do. Every one
    also pays a fee, and is seen. -/
inductive TxStep (height time : ℕ) (l : Ledger) : Ledger → Prop
  | transfer (balances : ExtTreeMap Account ℕ) (seenTx : ExtTreeSet ℕ) :
      TxStep height time l { l with balances, seenTx }
  | stake (balances : ExtTreeMap Account ℕ) (seenTx : ExtTreeSet ℕ) (key : KeyId) (amount : ℕ)
      (hlive : ∀ r, l.validators[key]? = some r → r.tombstoned = false) :
      TxStep height time l { l with
        balances, seenTx
        validators := l.validators.insert key (l.validatorRec key)
        pending := l.pending ++ [⟨key, amount, time⟩] }
  | unbond (balances : ExtTreeMap Account ℕ) (seenTx : ExtTreeSet ℕ) (key : KeyId) (amount : ℕ)
      (r : ValidatorRec) (hr : l.validators[key]? = some r) (hpos : 0 < amount)
      (hle : amount ≤ r.bond) :
      TxStep height time l { l with
        balances, seenTx
        validators := l.validators.insert key { r with bond := r.bond - amount }
        unbonding := l.unbonding ++
          [⟨key, amount, height, satAdd u64Max time l.params.unbondingMs⟩] }
  | unjail (balances : ExtTreeMap Account ℕ) (seenTx : ExtTreeSet ℕ) (key : KeyId)
      (r : ValidatorRec) (hr : l.validators[key]? = some r) :
      TxStep height time l { l with
        balances, seenTx
        validators := l.validators.insert key { r with unjailAt := some time } }
  | approve (balances : ExtTreeMap Account ℕ) (seenTx : ExtTreeSet ℕ)
      (approvals : ExtTreeMap KeyId (ExtTreeSet KeyId)) :
      TxStep height time l { l with balances, seenTx, approvals }
  | admission (balances : ExtTreeMap Account ℕ) (seenTx : ExtTreeSet ℕ)
      (approvals : ExtTreeMap KeyId (ExtTreeSet KeyId)) (key : KeyId) (r : ValidatorRec)
      (hr : l.validators[key]? = some r) :
      TxStep height time l { l with
        balances, seenTx, approvals
        validators := l.validators.insert key { r with approvedAt := some time } }

variable {height time : ℕ} {tx : Tx}

theorem applyTransfer_step {recipient : Account} {amount : ℕ}
    (ht : l.applyTransfer tx recipient amount = .ok l') : TxStep height time l l' := by
  unfold applyTransfer at ht
  split at ht
  · cases ht
  obtain ⟨total, -, ht⟩ := bind_eq_ok.1 ht
  obtain ⟨l₁, hdebit, ht⟩ := bind_eq_ok.1 ht
  obtain ⟨b, -, rfl⟩ := debit_ok hdebit
  rw [credit_ok (mapError_eq_ok.1 ht)]
  exact .transfer _ l.seenTx

theorem applyStake_step {amount : ℕ} (ht : l.applyStake tx time amount = .ok l') :
    TxStep height time l l' := by
  obtain ⟨k, -, ht⟩ := bind_eq_ok.1 ht
  split_ifs at ht with _ htomb
  obtain ⟨total, -, ht⟩ := bind_eq_ok.1 ht
  obtain ⟨l₁, hdebit, ht⟩ := bind_eq_ok.1 ht
  obtain ⟨b, -, rfl⟩ := debit_ok hdebit
  obtain rfl := Except.ok.inj ht
  refine .stake _ l.seenTx k amount fun r hr => ?_
  rwa [hr, Option.any_some, Bool.not_eq_true] at htomb

theorem applyUnbond_step {amount : ℕ} (ht : l.applyUnbond tx height time amount = .ok l') :
    TxStep height time l l' := by
  obtain ⟨k, -, ht⟩ := bind_eq_ok.1 ht
  split at ht
  · cases ht
  next hamount =>
  obtain ⟨r, hr, ht⟩ := bind_eq_ok.1 ht
  split at ht
  · cases ht
  next hbond =>
  obtain ⟨l₁, hdebit, ht⟩ := bind_eq_ok.1 ht
  obtain ⟨b, -, rfl⟩ := debit_ok hdebit
  obtain rfl := Except.ok.inj ht
  exact .unbond _ l.seenTx k amount r (ofOption_eq_ok.1 hr) (Nat.pos_of_ne_zero hamount)
    (not_lt.1 hbond)

theorem applyUnjail_step (ht : l.applyUnjail tx time = .ok l') : TxStep height time l l' := by
  obtain ⟨k, -, ht⟩ := bind_eq_ok.1 ht
  obtain ⟨r, hr, ht⟩ := bind_eq_ok.1 ht
  dsimp only at ht
  split at ht
  · cases ht
  obtain ⟨l₁, hdebit, ht⟩ := bind_eq_ok.1 ht
  obtain ⟨b, -, rfl⟩ := debit_ok hdebit
  obtain rfl := Except.ok.inj ht
  exact .unjail _ l.seenTx k r (ofOption_eq_ok.1 hr)

theorem applyApprove_step {candidate : KeyId} (ht : l.applyApprove tx time candidate = .ok l') :
    TxStep height time l l' := by
  obtain ⟨k, -, ht⟩ := bind_eq_ok.1 ht
  obtain ⟨r, hr, ht⟩ := bind_eq_ok.1 ht
  split_ifs at ht
  obtain ⟨l₁, hdebit, ht⟩ := bind_eq_ok.1 ht
  obtain ⟨b, -, rfl⟩ := debit_ok hdebit
  dsimp only at ht
  split at ht
  · obtain rfl := Except.ok.inj ht
    exact .admission _ l.seenTx _ candidate r (ofOption_eq_ok.1 hr)
  · obtain rfl := Except.ok.inj ht
    exact .approve _ l.seenTx _

/-- Whatever a transaction did, remembering its id is part of it. -/
theorem TxStep.seen (hs : TxStep height time l l') (seenTx : ExtTreeSet ℕ) :
    TxStep height time l { l' with seenTx } := by
  cases hs with
  | transfer balances => exact .transfer balances seenTx
  | stake balances _ key amount hlive => exact .stake balances seenTx key amount hlive
  | unbond balances _ key amount r hr hpos hle =>
    exact .unbond balances seenTx key amount r hr hpos hle
  | unjail balances _ key r hr => exact .unjail balances seenTx key r hr
  | approve balances _ approvals => exact .approve balances seenTx approvals
  | admission balances _ approvals key r hr => exact .admission balances seenTx approvals key r hr

theorem TxStep.sameChain (hs : TxStep height time l l') : SameChain l l' := by
  cases hs <;> exact ⟨rfl, rfl, rfl, rfl, rfl, rfl, rfl⟩

theorem applyTx_step {fee : ℕ} (ht : l.applyTx tx height time = .ok (fee, l')) :
    TxStep height time l l' := by
  unfold applyTx at ht
  split_ifs at ht
  obtain ⟨l₁, hkind, ht⟩ := bind_eq_ok.1 ht
  obtain ⟨-, rfl⟩ := Prod.mk.inj (Except.ok.inj ht)
  refine TxStep.seen ?_ _
  unfold applyKind at hkind
  split at hkind
  · exact applyTransfer_step hkind
  · exact applyStake_step hkind
  · exact applyUnbond_step hkind
  · exact applyUnjail_step hkind
  · exact applyApprove_step hkind

/-- What every transaction keeps, the transactions of a block keep. -/
theorem applyTxs_invariant (I : Ledger → Prop)
    (hstep : ∀ l l', TxStep height time l l' → I l → I l') {i fees feeTxs fees' feeTxs' : ℕ}
    {txs : List Tx} (ht : applyTxs height time i l fees feeTxs txs = .ok (l', fees', feeTxs'))
    (hl : I l) : I l' := by
  induction txs generalizing i l fees feeTxs with
  | nil =>
    obtain ⟨rfl, -, -⟩ : l = l' ∧ fees = fees' ∧ feeTxs = feeTxs' := by simpa [applyTxs] using ht
    exact hl
  | cons tx txs ih =>
    obtain ⟨⟨fee, l₁⟩, htx, ht⟩ := bind_eq_ok.1 ht
    obtain ⟨fees₁, -, ht⟩ := bind_eq_ok.1 ht
    exact ih ht (hstep l l₁ (applyTx_step (mapError_eq_ok.1 htx)) hl)

theorem applyTxs_sameChain {i fees feeTxs fees' feeTxs' : ℕ} {txs : List Tx}
    (ht : applyTxs height time i l fees feeTxs txs = .ok (l', fees', feeTxs')) : SameChain l l' :=
  applyTxs_invariant (SameChain l) (fun _ _ hs hm => hm.trans hs.sameChain) ht .refl

/-! ## Penalties -/

/-- The unbonding entries that a penalty of `key` at `h` cuts. -/
def exposed (l : Ledger) (key : KeyId) (h : ℕ) : List UnbondingEntry :=
  l.unbonding.filter fun e => decide (e.key = key ∧ h ≤ e.createdHeight)

/-- What a penalty does to the key, the queue and the counters. -/
theorem slash_ok {k : KeyId} {off time : ℕ} {event : SlashEvent}
    (hs : l.slash k off time = .ok (event, l')) :
    ∃ cutBond unbonding cutU,
      cut l.params (l.validatorRec k).bond = .ok cutBond ∧
      cutUnbonding l.params k off l.unbonding = .ok (unbonding, cutU) ∧
      event = ⟨k, off, (l.validatorRec k).bond, cutBond, cutU⟩ ∧
      l'.validators = l.validators.insert k ((l.validatorRec k).slashed off) ∧
      l'.pending = l.pending.filter (fun p => p.key != k) ∧
      l'.unbonding = (unbonding.filter fun e => decide (0 < e.amount)) ++
        (if 0 < (l.validatorRec k).bond - cutBond then
          [⟨k, (l.validatorRec k).bond - cutBond, l.height + 1,
            satAdd u64Max time l.params.unbondingMs⟩] else []) := by
  obtain ⟨cutBond, hcut, hs⟩ := bind_eq_ok.1 hs
  obtain ⟨⟨unbonding, cutU⟩, hunb, hs⟩ := bind_eq_ok.1 hs
  obtain ⟨l₁, hcredit, hs⟩ := bind_eq_ok.1 hs
  obtain ⟨burned, -, hs⟩ := bind_eq_ok.1 hs
  have hcredit := credit_ok hcredit
  obtain ⟨rfl, rfl⟩ := Prod.mk.inj (Except.ok.inj hs)
  subst hcredit
  refine ⟨cutBond, unbonding, cutU, hcut, hunb, rfl, rfl, rfl, ?_⟩
  dsimp only
  split
  · rfl
  · rw [List.append_nil]

/-- A penalty writes what `slash_ok` lists, balances, approvals and a counter. -/
theorem slash_frame {k : KeyId} {off time : ℕ} {event : SlashEvent}
    (hs : l.slash k off time = .ok (event, l')) :
    ∃ validators unbonding pending balances approvals burnedSlash,
      l' = { l with validators, unbonding, pending, balances, approvals, burnedSlash } := by
  obtain ⟨_, -, hs⟩ := bind_eq_ok.1 hs
  obtain ⟨_, -, hs⟩ := bind_eq_ok.1 hs
  obtain ⟨l₁, hcredit, hs⟩ := bind_eq_ok.1 hs
  obtain ⟨burned, -, hs⟩ := bind_eq_ok.1 hs
  obtain ⟨-, rfl⟩ := Prod.mk.inj (Except.ok.inj hs)
  rw [credit_ok hcredit]
  exact ⟨_, _, _, _, _, _, rfl⟩

/-- The penalties of a list of evidence, each with the ledger it is applied to. -/
def slashTrace (time : ℕ) (l : Ledger) : List Evidence → List (Ledger × SlashEvent)
  | [] => []
  | ev :: evs =>
    match l.slash ev.offender ev.height time with
    | .ok (event, l') => (l, event) :: slashTrace time l' evs
    | .error _ => []

/-- Induction over the penalties of a block: the evidence of each passed the
    check on the ledger it is applied to. -/
theorem applyEvidence_rec (R : Ledger → List (Ledger × SlashEvent) → Ledger → Prop)
    (hnil : ∀ l, R l [] l)
    (hcons : ∀ l l₁ l' ev event rest, l.checkEvidence ev height time = .ok () →
      l.slash ev.offender ev.height time = .ok (event, l₁) → R l₁ rest l' →
      R l ((l, event) :: rest) l')
    {i : ℕ} {seen : ExtTreeSet (KeyId × ℕ)} {fx fx' : Effects} {evs : List Evidence}
    (he : applyEvidence height time i seen l fx evs = .ok (l', fx')) :
    R l (slashTrace time l evs) l' := by
  induction evs generalizing i seen l fx with
  | nil =>
    obtain ⟨rfl, -⟩ : l = l' ∧ fx = fx' := by simpa [applyEvidence] using he
    exact hnil l
  | cons ev evs ih =>
    unfold applyEvidence at he
    split at he
    · cases he
    obtain ⟨⟨⟩, hcheck, he⟩ := bind_eq_ok.1 he
    obtain ⟨⟨event, l₁⟩, hslash, he⟩ := bind_eq_ok.1 he
    rw [slashTrace, hslash]
    exact hcons l l₁ l' ev event _ (mapError_eq_ok.1 hcheck) hslash (ih he)

/-- What every penalty keeps, the evidence of a block keeps. -/
theorem applyEvidence_invariant (I : Ledger → Prop)
    (hslash : ∀ l l' ev event, l.checkEvidence ev height time = .ok () →
      l.slash ev.offender ev.height time = .ok (event, l') → I l → I l')
    {i : ℕ} {seen : ExtTreeSet (KeyId × ℕ)} {fx fx' : Effects} {evs : List Evidence}
    (he : applyEvidence height time i seen l fx evs = .ok (l', fx')) (hl : I l) : I l' := by
  refine applyEvidence_rec (fun l _ l' => I l → I l') (fun _ hl => hl) ?_ he hl
  intro l l₁ l' ev event rest hcheck hs hrest hl
  exact hrest (hslash l l₁ ev event hcheck hs hl)

theorem applyEvidence_sameChain {i : ℕ} {seen : ExtTreeSet (KeyId × ℕ)} {fx fx' : Effects}
    {evs : List Evidence} (he : applyEvidence height time i seen l fx evs = .ok (l', fx')) :
    SameChain l l' := by
  refine applyEvidence_invariant (SameChain l) (fun m m' ev event _ hs hm => ?_) he .refl
  obtain ⟨_, _, _, _, _, _, rfl⟩ := slash_frame hs
  exact hm.trans ⟨rfl, rfl, rfl, rfl, rfl, rfl, rfl⟩

/-- The penalties of the trace are those the block reports. -/
theorem applyEvidence_slashes {height time i : ℕ} {seen : ExtTreeSet (KeyId × ℕ)}
    {fx fx' : Effects} {evs : List Evidence}
    (he : applyEvidence height time i seen l fx evs = .ok (l', fx')) :
    fx'.slashes = fx.slashes ++ (slashTrace time l evs).map Prod.snd ∧ fx'.jailed = fx.jailed := by
  induction evs generalizing i seen l fx with
  | nil =>
    obtain ⟨-, rfl⟩ : l = l' ∧ fx = fx' := by simpa [applyEvidence] using he
    rw [slashTrace, List.map_nil, List.append_nil]
    exact ⟨rfl, rfl⟩
  | cons ev evs ih =>
    unfold applyEvidence at he
    split at he
    · cases he
    obtain ⟨_, -, he⟩ := bind_eq_ok.1 he
    obtain ⟨⟨event, l₁⟩, hslash, he⟩ := bind_eq_ok.1 he
    obtain ⟨hslashes, hjailed⟩ := ih he
    rw [hslashes, slashTrace, hslash, List.map_cons, List.append_assoc]
    exact ⟨rfl, hjailed⟩

/-! ## Rewards -/

theorem payShares_frame {votePool : ℕ} {prev : ValidatorSet} {fx fx' : Effects} {paid : ℕ}
    {keys : List KeyId} (hs : payShares votePool prev l fx keys = .ok (l', fx', paid)) :
    (∃ balances, l' = { l with balances }) ∧ ∃ credits, fx' = { fx with credits } := by
  induction keys generalizing l l' fx fx' paid with
  | nil =>
    obtain ⟨rfl, rfl, -⟩ : l = l' ∧ fx = fx' ∧ 0 = paid := by simpa [payShares] using hs
    exact ⟨⟨l.balances, rfl⟩, fx.credits, rfl⟩
  | cons k keys ih =>
    obtain ⟨share, -, hs⟩ := bind_eq_ok.1 hs
    obtain ⟨l₁, hcredit, hs⟩ := bind_eq_ok.1 hs
    obtain ⟨⟨l₂, fx₂, paid₂⟩, hrest, hs⟩ := bind_eq_ok.1 hs
    obtain ⟨rfl, hfx⟩ := Prod.mk.inj (Except.ok.inj hs)
    obtain ⟨rfl, -⟩ := Prod.mk.inj hfx
    obtain ⟨⟨balances, rfl⟩, credits, rfl⟩ := ih hrest
    exact ⟨⟨balances, by rw [credit_ok hcredit]⟩, credits, rfl⟩

/-- Rewards change balances and the burn counter of fees, and nothing else. -/
theorem payRewards_frame {fx fx' : Effects} {builder : KeyId} {fees feeTxs dtMs : ℕ}
    {signers : List KeyId} {prev : ValidatorSet}
    (hr : l.payRewards fx builder fees feeTxs dtMs signers prev = .ok (l', fx')) :
    (∃ balances burnedFees, l' = { l with balances, burnedFees }) ∧
      fx'.slashes = fx.slashes ∧ fx'.jailed = fx.jailed := by
  obtain ⟨_, -, hr⟩ := bind_eq_ok.1 hr
  obtain ⟨_, -, hr⟩ := bind_eq_ok.1 hr
  obtain ⟨_, -, hr⟩ := bind_eq_ok.1 hr
  obtain ⟨_, -, hr⟩ := bind_eq_ok.1 hr
  obtain ⟨_, -, hr⟩ := bind_eq_ok.1 hr
  obtain ⟨_, -, hr⟩ := bind_eq_ok.1 hr
  obtain ⟨_, -, hr⟩ := bind_eq_ok.1 hr
  obtain ⟨l₁, hdebit, hr⟩ := bind_eq_ok.1 hr
  obtain ⟨l₂, hcredit₁, hr⟩ := bind_eq_ok.1 hr
  obtain ⟨l₃, hcredit₂, hr⟩ := bind_eq_ok.1 hr
  obtain ⟨⟨l₄, fx₄, shares⟩, hshares, hr⟩ := bind_eq_ok.1 hr
  obtain ⟨l₅, hcredit₃, hr⟩ := bind_eq_ok.1 hr
  obtain ⟨burnedFees, -, hr⟩ := bind_eq_ok.1 hr
  obtain ⟨rfl, rfl⟩ := Prod.mk.inj (Except.ok.inj hr)
  obtain ⟨b, -, rfl⟩ := debit_ok (mapError_eq_ok.1 hdebit)
  obtain ⟨⟨balances, rfl⟩, credits, rfl⟩ := payShares_frame hshares
  exact ⟨⟨_, burnedFees, by rw [credit_ok hcredit₃, credit_ok hcredit₂, credit_ok hcredit₁]⟩,
    rfl, rfl⟩

theorem payRewards_sameChain {fx fx' : Effects} {builder : KeyId} {fees feeTxs dtMs : ℕ}
    {signers : List KeyId} {prev : ValidatorSet}
    (hr : l.payRewards fx builder fees feeTxs dtMs signers prev = .ok (l', fx')) :
    SameChain l l' := by
  obtain ⟨⟨_, _, rfl⟩, -⟩ := payRewards_frame hr
  exact ⟨rfl, rfl, rfl, rfl, rfl, rfl, rfl⟩

/-! ## Stages that change no stake -/

/-- The part of a record that stake and penalties are about. -/
def stakeOf (r : ValidatorRec) : ℕ × Bool × Option ℕ := (r.bond, r.tombstoned, r.slashFloor)

/-- Two maps of validators with the same keys and the same stakes. -/
def SameStakes (v v' : ExtTreeMap KeyId ValidatorRec) : Prop :=
  ∀ k : KeyId, v'[k]?.map stakeOf = v[k]?.map stakeOf

namespace SameStakes

variable {v v' v'' : ExtTreeMap KeyId ValidatorRec}

theorem refl : SameStakes v v := fun _ => rfl

theorem trans (h : SameStakes v v') (h' : SameStakes v' v'') : SameStakes v v'' :=
  fun k => (h' k).trans (h k)

theorem insert {k : KeyId} {r r' : ValidatorRec} (hr : v[k]? = some r)
    (heq : stakeOf r' = stakeOf r) : SameStakes v (v.insert k r') := by
  intro a
  rw [getElem?_insert_eq]
  split
  · next hk => rw [← hk, hr, Option.map_some, Option.map_some, heq]
  · rfl

theorem map {g : KeyId → ValidatorRec → ValidatorRec} (hg : ∀ k r, stakeOf (g k r) = stakeOf r) :
    SameStakes v (v.map g) := by
  intro a
  rw [ExtTreeMap.getElem?_map]
  cases v[a]? with
  | none => rfl
  | some r => exact congrArg some (hg a r)

/-- The record of a key on the other side. -/
theorem exists_some (h : SameStakes v v') {r : ValidatorRec} (hr : v[key]? = some r) :
    ∃ r', v'[key]? = some r' ∧ stakeOf r' = stakeOf r := by
  have hk := h key
  rw [hr, Option.map_some] at hk
  exact Option.map_eq_some_iff.1 hk

theorem bond (h : SameStakes v v') (k : KeyId) :
    (v'[k]?.getD {}).bond = (v[k]?.getD {}).bond := by
  have hk := h k
  cases hv : v[k]? with
  | none =>
    rw [hv] at hk
    rw [Option.map_eq_none_iff.1 hk]
  | some r =>
    obtain ⟨r', hr', heq⟩ := h.exists_some hv
    rw [hr', Option.getD_some, Option.getD_some]
    exact congrArg Prod.fst heq

end SameStakes

theorem observeMember_stakes (params : Params) (assembler : KeyId) (signers : List KeyId)
    (state : ExtTreeMap KeyId ValidatorRec × List (KeyId × List KeyId)) (k : KeyId) :
    SameStakes state.1 (observeMember params assembler signers state k).1 := by
  obtain ⟨validators, candidates⟩ := state
  unfold observeMember
  dsimp only
  split
  · exact .refl
  next r hr =>
  split_ifs
  · exact .refl
  · exact .insert hr rfl
  · exact .insert hr rfl

theorem foldl_observeMember_stakes (params : Params) (assembler : KeyId) (signers keys : List KeyId)
    (state : ExtTreeMap KeyId ValidatorRec × List (KeyId × List KeyId)) :
    SameStakes state.1 (keys.foldl (observeMember params assembler signers) state).1 := by
  induction keys generalizing state with
  | nil => exact .refl
  | cons k keys ih => exact (observeMember_stakes _ _ _ _ _).trans (ih _)

/-- Jailing changes validators and the log of jailings, and no stake. -/
theorem jail_frame (height time : ℕ) (state : Ledger × Effects) (c : KeyId × List KeyId) :
    (∃ validators jailLog, SameStakes state.1.validators validators ∧
      (jail height time state c).1 = { state.1 with validators, jailLog }) ∧
      (jail height time state c).2.slashes = state.2.slashes := by
  obtain ⟨l, fx⟩ := state
  unfold jail
  dsimp only
  split
  · exact ⟨⟨l.validators, l.jailLog, .refl, rfl⟩, rfl⟩
  · refine ⟨⟨_, _, ?_, rfl⟩, rfl⟩
    split
    · next r hr => exact .insert hr rfl
    · exact .refl

theorem foldl_jail_frame (height time : ℕ) (cs : List (KeyId × List KeyId))
    (state : Ledger × Effects) :
    (∃ validators jailLog, SameStakes state.1.validators validators ∧
      (cs.foldl (jail height time) state).1 = { state.1 with validators, jailLog }) ∧
      (cs.foldl (jail height time) state).2.slashes = state.2.slashes := by
  induction cs generalizing state with
  | nil => exact ⟨⟨state.1.validators, state.1.jailLog, .refl, rfl⟩, rfl⟩
  | cons c cs ih =>
    obtain ⟨⟨v, j, hv, hframe⟩, hfx⟩ := jail_frame height time state c
    obtain ⟨⟨v', j', hv', hframe'⟩, hfx'⟩ := ih (jail height time state c)
    rw [hframe] at hv'
    exact ⟨⟨v', j', hv.trans hv', by rw [List.foldl_cons, hframe', hframe]⟩, hfx'.trans hfx⟩

theorem observeDowntime_frame (fx : Effects) (height time : ℕ) (assembler : KeyId)
    (signers : List KeyId) (prev : ValidatorSet) :
    (∃ validators jailLog, SameStakes l.validators validators ∧
      (l.observeDowntime fx height time assembler signers prev).1 =
        { l with validators, jailLog }) ∧
      (l.observeDowntime fx height time assembler signers prev).2.slashes = fx.slashes := by
  unfold observeDowntime
  dsimp only
  have hobserve := foldl_observeMember_stakes l.params assembler signers
    (prev.members.map Prod.fst) (l.validators, [])
  obtain ⟨⟨v, j, hv, hframe⟩, hfx⟩ := foldl_jail_frame height time _ _
  exact ⟨⟨v, j, hobserve.trans hv, hframe⟩, hfx⟩

/-- The downtime stage of a block: an observation, if the certificate was made
    under the new rules, and nothing otherwise. -/
theorem downtime_frame {c : Prop} [Decidable c] {fx fx' : Effects} {height time : ℕ}
    {assembler : KeyId} {signers : List KeyId} {prev : ValidatorSet}
    (hd : (l', fx') = if c then l.observeDowntime fx height time assembler signers prev
      else (l, fx)) :
    (∃ validators jailLog, SameStakes l.validators validators ∧
      l' = { l with validators, jailLog }) ∧ fx'.slashes = fx.slashes := by
  split at hd
  · have hframe := @observeDowntime_frame l fx height time assembler signers prev
    rwa [← hd] at hframe
  · obtain ⟨rfl, rfl⟩ := Prod.mk.inj hd
    exact ⟨⟨_, _, .refl, rfl⟩, rfl⟩

theorem stakeOf_setActive (chosen : List KeyId) (k : KeyId) (r : ValidatorRec) :
    stakeOf (setActive chosen k r) = stakeOf r := by
  unfold setActive
  split_ifs <;> rfl

theorem stakeOf_unjailMatured (matured : ℕ → Bool) (r : ValidatorRec) :
    stakeOf (unjailMatured matured r) = stakeOf r := by
  unfold unjailMatured
  split <;> rfl

/-- Where nothing has matured, nothing is bonded. -/
theorem bondPending_none (v : ExtTreeMap KeyId ValidatorRec) (ps : List PendingBond) :
    bondPending (fun _ => false) v ps = .ok (v, ps) := by
  induction ps with
  | nil => rfl
  | cons p ps ih =>
    rw [bondPending, if_neg Bool.false_ne_true, ih]
    rfl

/-- An epoch bonds what has matured, and then changes flags only. Between two
    boundaries nothing matures. -/
theorem crossEpoch_frame {fx fx' : Effects} (hr : l.crossEpoch fx time = .ok (l', fx')) :
    (∃ matured v validators pending, bondPending matured l.validators l.pending = .ok (v, pending) ∧
      SameStakes v validators ∧ l' = { l with validators, pending }) ∧
      fx'.slashes = fx.slashes ∧ fx'.jailed = fx.jailed := by
  unfold crossEpoch at hr
  split at hr
  · obtain ⟨⟨v, pending⟩, hpending, hr⟩ := bind_eq_ok.1 hr
    obtain ⟨rfl, rfl⟩ := Prod.mk.inj (Except.ok.inj hr)
    refine ⟨⟨_, v, _, pending, hpending, ?_, rfl⟩, rfl, rfl⟩
    refine SameStakes.trans ?_ (.map (stakeOf_setActive _))
    split
    · exact (SameStakes.map fun _ r => stakeOf_unjailMatured _ r).trans (.map fun _ _ => rfl)
    · exact .map fun _ r => stakeOf_unjailMatured _ r
  · obtain ⟨rfl, rfl⟩ := Prod.mk.inj (Except.ok.inj hr)
    exact ⟨⟨_, _, _, _, bondPending_none _ _, .refl, rfl⟩, rfl, rfl⟩

theorem removeBelowMin_frame (l : Ledger) (fx : Effects) :
    ∃ validators, SameStakes l.validators validators ∧
      (l.removeBelowMin fx).1 = { l with validators } := by
  refine ⟨_, .map fun _ r => ?_, rfl⟩
  split <;> rfl

theorem renewSet_frame {height time : ℕ} (hr : l.renewSet height time = .ok l') :
    ∃ schedule activeSet sets times, l' = { l with schedule, activeSet, sets, times } := by
  obtain ⟨set, -, hr⟩ := bind_eq_ok.1 hr
  obtain ⟨schedule, -, hr⟩ := bind_eq_ok.1 hr
  exact ⟨_, _, _, _, (Except.ok.inj hr).symm⟩

/-- Pruning forgets times and changes none. -/
theorem pruneHistory_times {horizon height : ℕ} {recorded : List (ℕ × ℕ)}
    {times : ExtTreeMap ℕ ℕ} {sets : ExtTreeMap ℕ ValidatorSet} {h t : ℕ}
    (ht : (pruneHistory horizon height recorded times sets).1[h]? = some t) :
    times[h]? = some t := by
  induction recorded generalizing times sets with
  | nil => exact ht
  | cons p recorded ih =>
    unfold pruneHistory at ht
    split at ht
    · have hkept := ih ht
      rw [getElem?_erase_eq] at hkept
      split at hkept
      · cases hkept
      · exact hkept
    · exact ht

theorem renewSet_times {height time : ℕ} (hr : l.renewSet height time = .ok l') {h t : ℕ}
    (ht : l'.times[h]? = some t) : (l.times.insert height time)[h]? = some t := by
  obtain ⟨set, -, hr⟩ := bind_eq_ok.1 hr
  obtain ⟨schedule, -, hr⟩ := bind_eq_ok.1 hr
  rw [← Except.ok.inj hr] at ht
  exact pruneHistory_times ht

theorem mem_eligible {validators : ExtTreeMap KeyId ValidatorRec} {m : KeyId × ℕ} :
    m ∈ eligible validators ↔
      ∃ r : ValidatorRec, validators[m.1]? = some r ∧ r.inSet = true ∧ m.2 = r.weight := by
  simp only [eligible, List.mem_map, List.mem_filter, Prod.exists,
    ExtTreeMap.mem_toList_iff_getElem?_eq_some]
  constructor
  · rintro ⟨k, r, ⟨hr, hin⟩, rfl⟩
    exact ⟨r, hr, hin, rfl⟩
  · rintro ⟨r, hr, hin, hw⟩
    exact ⟨m.1, r, ⟨hr, hin⟩, by rw [← hw]⟩

theorem renewSet_activeSet {height time : ℕ} (hr : l.renewSet height time = .ok l') :
    ValidatorSet.new (eligible l'.validators) = .ok l'.activeSet := by
  obtain ⟨set, hset, hr⟩ := bind_eq_ok.1 hr
  obtain ⟨schedule, -, hr⟩ := bind_eq_ok.1 hr
  rw [← Except.ok.inj hr]
  exact mapError_eq_ok.1 hset

theorem release_effects {fx fx' : Effects} {es keep : List UnbondingEntry}
    (hr : release time l fx es = .ok (l', fx', keep)) : ∃ released, fx' = { fx with released } := by
  induction es generalizing l fx keep with
  | nil =>
    obtain ⟨-, rfl, -⟩ : l = l' ∧ fx = fx' ∧ [] = keep := by simpa [release] using hr
    exact ⟨fx.released, rfl⟩
  | cons e es ih =>
    unfold release at hr
    split at hr
    · obtain ⟨l₁, -, hr⟩ := bind_eq_ok.1 hr
      obtain ⟨released, rfl⟩ := ih hr
      exact ⟨released, rfl⟩
    · obtain ⟨⟨l₁, fx₁, keep₁⟩, hrest, hr⟩ := bind_eq_ok.1 hr
      obtain ⟨rfl, hfx⟩ := Prod.mk.inj (Except.ok.inj hr)
      obtain ⟨rfl, -⟩ := Prod.mk.inj hfx
      exact ih hrest

/-! ## Blocks -/

/-- What a block at header time `time` does from `l` on, once its evidence is
    applied: entries that matured leave, and additions that matured are bonded. -/
structure Closes (time : ℕ) (l l' : Ledger) : Prop where
  params : l'.params = l.params
  unbonding : l'.unbonding = l.unbonding.filter fun e => decide (time < e.releaseAt)
  stakes : ∃ matured v v', SameStakes l.validators v ∧
    bondPending matured v l.pending = .ok (v', l'.pending) ∧ SameStakes v' l'.validators

/-- A block: its transactions, its evidence, and what closes it. -/
theorem applyBlock_stages {b : Block} {fx : Effects} (hb : l.applyBlock b = .ok (l', fx)) :
    ∃ signers proposer schedule l₁ fees feeTxs l₂ fx₂,
      l.schedule.step = .ok (proposer, schedule) ∧
      applyTxs (l.height + 1) b.header.timeMs 0 { l with schedule } 0 0 b.txs =
        .ok (l₁, fees, feeTxs) ∧
      applyEvidence (l.height + 1) b.header.timeMs 0 ∅ l₁
        { height := l.height + 1, signers, round0Proposer := some proposer } b.evidence =
        .ok (l₂, fx₂) ∧
      Closes b.header.timeMs l₂ l' ∧ fx.slashes = fx₂.slashes := by
  obtain ⟨signers, proposer, schedule, l₁, fees, feeTxs, l₂, fx₂, l₃, fx₃, l₄, fx₄, l₅, fx₅,
    unbonding, l₆, fx₆, l₈, -, -, hstep, htxs, hev, hrewards, hdown, hrelease, hepoch, hrenew, rfl,
    rfl⟩ := applyBlock_ok hb
  refine ⟨signers, proposer, schedule, l₁, fees, feeTxs, l₂, fx₂, hstep, htxs, hev, ?_⟩
  obtain ⟨⟨validators, jailLog, hsame, rfl⟩, hfx₄⟩ := downtime_frame hdown
  obtain ⟨⟨balances, burnedFees, rfl⟩, hfx₃, -⟩ := payRewards_frame hrewards
  obtain ⟨⟨balances', rfl⟩, -, rfl⟩ := release_ok hrelease
  obtain ⟨released, rfl⟩ := release_effects hrelease
  obtain ⟨⟨matured, v, validators', pending, hbond, hsame', rfl⟩, hfx₆, -⟩ := crossEpoch_frame hepoch
  obtain ⟨validators'', hsame'', hremove⟩ := removeBelowMin_frame _ fx₆
  rw [hremove] at hrenew
  obtain ⟨schedule', activeSet, sets, times, rfl⟩ := renewSet_frame hrenew
  refine ⟨⟨rfl, rfl, matured, validators, v, hsame, hbond, hsame'.trans hsame''⟩, ?_⟩
  exact hfx₆.trans (hfx₄.trans hfx₃)

/-- The header rules. -/
theorem checkHeader_ok {b : Block} (hh : l.checkHeader b = .ok ()) :
    l.height < u64Max ∧ b.header.height = l.height + 1 ∧ b.header.parent = l.tip ∧
      l.tipTime < b.header.timeMs ∧
      (l.nextProposers.get b.header.round).1 = some b.header.builder ∧
      b.txs.length ≤ l.params.maxTxsPerBlock ∧
      b.evidence.length ≤ l.params.maxEvidencePerBlock ∧
      (b.isEmpty = true → l.heartbeatDue b.header.timeMs = true) := by
  unfold checkHeader at hh
  dsimp only at hh
  split_ifs at hh with h₁ h₂ h₃ h₄ h₅ h₆ h₇
  refine ⟨not_le.1 h₁, not_ne_iff.1 h₂, not_ne_iff.1 h₃, not_le.1 h₄, not_ne_iff.1 h₅, ?_, ?_, ?_⟩
  · exact not_lt.1 fun hlt => h₆ (.inl hlt)
  · exact not_lt.1 fun hlt => h₆ (.inr hlt)
  · intro hempty
    rw [hempty, Bool.true_and, Bool.not_eq_true', Bool.not_eq_false] at h₇
    exact h₇

/-- A block adds its height and time to the history, and may forget others. -/
theorem applyBlock_history {b : Block} {fx : Effects} (hb : l.applyBlock b = .ok (l', fx)) :
    l'.height = l.height + 1 ∧ l'.tipTime = b.header.timeMs ∧ l.tipTime < b.header.timeMs ∧
      ∀ h t : ℕ, l'.times[h]? = some t →
        (l.times.insert (l.height + 1) b.header.timeMs)[h]? = some t := by
  obtain ⟨signers, proposer, schedule, l₁, fees, feeTxs, l₂, fx₂, l₃, fx₃, l₄, fx₄, l₅, fx₅,
    unbonding, l₆, fx₆, l₈, hheader, -, -, htxs, hev, hrewards, hdown, hrelease, hepoch, hrenew, rfl,
    -⟩ := applyBlock_ok hb
  obtain ⟨-, -, -, htime, -⟩ := checkHeader_ok hheader
  refine ⟨rfl, rfl, htime, fun h t ht => ?_⟩
  have hkept := renewSet_times hrenew ht
  have htimes := ((applyTxs_sameChain htxs).trans (applyEvidence_sameChain hev)).trans
    (payRewards_sameChain hrewards) |>.times
  obtain ⟨⟨validators, jailLog, -, rfl⟩, -⟩ := downtime_frame hdown
  obtain ⟨⟨balances, rfl⟩, -⟩ := release_ok hrelease
  obtain ⟨⟨_, _, _, _, -, -, rfl⟩, -⟩ := crossEpoch_frame hepoch
  rw [← htimes]
  exact hkept

theorem applyBlock_activeSet {b : Block} {fx : Effects} (hb : l.applyBlock b = .ok (l', fx)) :
    ValidatorSet.new (eligible l'.validators) = .ok l'.activeSet := by
  obtain ⟨signers, proposer, schedule, l₁, fees, feeTxs, l₂, fx₂, l₃, fx₃, l₄, fx₄, l₅, fx₅,
    unbonding, l₆, fx₆, l₈, -, -, -, -, -, -, -, -, -, hrenew, rfl, -⟩ := applyBlock_ok hb
  have hset := renewSet_activeSet hrenew
  exact hset

/-- The parameters of a chain are those of its genesis. -/
theorem applyBlock_params {b : Block} {fx : Effects} (hb : l.applyBlock b = .ok (l', fx)) :
    l'.params = l.params := by
  obtain ⟨signers, proposer, schedule, l₁, fees, feeTxs, l₂, fx₂, -, htxs, hev, hcloses, -⟩ :=
    applyBlock_stages hb
  have h₁ := (applyTxs_sameChain htxs).params
  have h₂ := (applyEvidence_sameChain hev).params
  exact hcloses.params.trans (h₂.trans h₁)

end Ledger

end RougeChain.Consensus
