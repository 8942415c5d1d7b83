import RougeChain.Finality.Verifier
import RougeChain.Node.Validators

/-!
# The validators that history says there are

The set of validators for a height is derived again from the accepted blocks and the outcomes of
their stakes and unstakes, by a second implementation of the node's validator state with fewer
fields. The node's store does not list the key `__meta`, so it counts no missed blocks for it; the
replay does.

* `Sim`: validator by validator, but for that key, the replay holds what the store holds;
* `sim_applyBlock`: one block keeps this;
* `replay_refines`: so after any blocks whose outcomes are those the node has recorded, the two
  agree on every other validator and on the stakes that count at the next height;
* `metaKey_diverges`: on `__meta` they need not agree.
-/

open Fallible

namespace RougeChain.Finality

open Node
open Std (ExtTreeMap)

structure VState where
  stake : U128 := 0
  slashCount : UInt32 := 0
  jailedUntil : UInt64 := 0
  missedBlocks : UInt64 := 0
  deriving DecidableEq

inductive ReplayError where
  | nonContiguous (expected got : UInt64)
  | outcomeUnavailable (height : UInt64) (txIndex : ℕ)
  deriving DecidableEq

/-- Whether a stake or unstake was executed with success, if that is known. -/
abbrev Outcome := UInt64 → ℕ → TxV1 → Option Bool

structure ValidatorReplay where
  height : UInt64
  vals : ExtTreeMap String VState
  missedFrozenFrom : Option UInt64
  retirement : Option (UInt64 × List String)

namespace ValidatorReplay

/-- The replay from the state `entries` after the block `baseHeight`. -/
def new (baseHeight : UInt64) (entries : ExtTreeMap String VState) : ValidatorReplay :=
  ⟨baseHeight, entries, none, none⟩

def withMissedBlockFreeze (r : ValidatorReplay) (height : Option UInt64) : ValidatorReplay :=
  { r with missedFrozenFrom := height }

def withRetirement (r : ValidatorReplay) (retirement : Option (UInt64 × List String)) :
    ValidatorReplay :=
  { r with retirement }

def persist (vals : ExtTreeMap String VState) (key : String) (st : VState) (height : UInt64) :
    ExtTreeMap String VState :=
  if 0 < st.stake ∨ 0 < st.slashCount ∨ height < st.jailedUntil then vals.insert key st
  else vals.erase key

/-- The amount of a stake or an unstake. -/
def amountOf (tx : TxV1) : U128 := .ofNat 128 (tx.payload.amount.getD 0).toNat

def stake (vals : ExtTreeMap String VState) (h : UInt64) (tx : TxV1) : ExtTreeMap String VState :=
  let st := vals[tx.fromPubKey]?.getD {}
  persist vals tx.fromPubKey { st with stake := st.stake + amountOf tx } h

def unstake (vals : ExtTreeMap String VState) (h : UInt64) (tx : TxV1) : ExtTreeMap String VState :=
  match vals[tx.fromPubKey]? with
  | some st => persist vals tx.fromPubKey
      { st with stake := U128.saturatingSub st.stake (amountOf tx) } h
  | none => vals

def slash (vals : ExtTreeMap String VState) (h : UInt64) (tx : TxV1) : ExtTreeMap String VState :=
  let target := tx.payload.targetPubKey.getD ""
  let st := vals[target]?.getD {}
  persist vals target
    { st with
      stake := U128.saturatingSub st.stake (slashAmount st.stake)
      slashCount := st.slashCount + 1
      jailedUntil := max st.jailedUntil (h + jailBlocks) } h

def applyTx (vals : ExtTreeMap String VState) (h : UInt64) (i : ℕ) (tx : TxV1) (outcome : Outcome) :
    Except ReplayError (ExtTreeMap String VState) :=
  if tx.txType = "stake" ∨ tx.txType = "unstake" then do
    let ok ← ofOption (.outcomeUnavailable h i) (outcome h i tx)
    if ok = false then return vals
    else if tx.txType = "stake" then return stake vals h tx
    else return unstake vals h tx
  else if tx.txType = "slash" then .ok (slash vals h tx)
  else .ok vals

def applyTxs (h : UInt64) (outcome : Outcome) : ℕ → List TxV1 → ExtTreeMap String VState →
    Except ReplayError (ExtTreeMap String VState)
  | _, [], vals => .ok vals
  | i, tx :: txs, vals => do
    let vals ← applyTx vals h i tx outcome
    applyTxs h outcome (i + 1) txs vals

def retire (vals : ExtTreeMap String VState) (h : UInt64) (k : String) : ExtTreeMap String VState :=
  match vals[k]? with
  | some st => persist vals k { st with stake := 0 } h
  | none => vals

/-- The one-time retirement, at its height. -/
def retireAll (retirement : Option (UInt64 × List String)) (vals : ExtTreeMap String VState)
    (h : UInt64) : ExtTreeMap String VState :=
  match retirement with
  | some (rh, keys) => if rh = h then keys.foldl (fun vals k => retire vals h k) vals else vals
  | none => vals

def missed (proposer : String) (h : UInt64) (k : String) (st : VState) : VState :=
  if st.stake = 0 then st
  else if k = proposer then { st with missedBlocks := 0 }
  else if st.jailedUntil ≤ h then
    if missedBlockSlashThreshold ≤ st.missedBlocks + 1 then
      { st with
        stake := U128.saturatingSub st.stake (slashAmount st.stake)
        slashCount := st.slashCount + 1
        jailedUntil := h + jailBlocks
        missedBlocks := 0 }
    else { st with missedBlocks := st.missedBlocks + 1 }
  else st

def applyBlock (r : ValidatorReplay) (block : BlockV1) (outcome : Outcome) :
    Except ReplayError ValidatorReplay := do
  let h := block.header.height
  require (h = r.height + 1) (.nonContiguous (r.height + 1) h)
  let vals ← applyTxs h outcome 0 block.txs r.vals
  let vals := retireAll r.retirement vals h
  if activeAt r.missedFrozenFrom h then return { r with height := h, vals }
  else return { r with height := h, vals := vals.map (missed block.header.proposerPubKey h) }

/-- The set for the height after the replay's. -/
def snapshotForNext (r : ValidatorReplay) : ValidatorSetSnapshot where
  height := r.height + 1
  stakes := r.vals.filterMap fun _ st =>
    if 0 < st.stake ∧ st.jailedUntil ≤ r.height then some st.stake else none
  stakes_ne_zero := by
    intro k s h
    rw [ExtTreeMap.getElem?_filterMap'] at h
    obtain ⟨st, -, h⟩ := Option.bind_eq_some_iff.1 h
    split at h
    next hst =>
      obtain rfl := Option.some.inj h
      exact (BitVec.pos_iff_ne_zero ..).1 hst.1
    · cases h

end ValidatorReplay

/-! ## One key at a time -/

open ValidatorReplay

/-- What the replay keeps of a validator's record. -/
def VState.of (state : ValidatorState) : VState :=
  ⟨state.stake, state.slashCount, state.jailedUntil, state.missedBlocks⟩

/-- The two hold the same, but for the key that the store does not list. -/
def Sim (vals : ExtTreeMap String VState) (store : ValidatorStore) : Prop :=
  ∀ k, k ≠ metaKey → vals[k]? = store[k]?.map VState.of

section Keys

variable {vals : ExtTreeMap String VState} {store : ValidatorStore} {h : UInt64}

theorem getElem?_persist (vals : ExtTreeMap String VState) (k : String) (st : VState) (h : UInt64)
    (k' : String) : (persist vals k st h)[k']? = if k = k' then
        if 0 < st.stake ∨ 0 < st.slashCount ∨ h < st.jailedUntil then some st else none
      else vals[k']? := by
  rw [persist]
  split
  · rw [getElem?_insert_eq]
  · rw [getElem?_erase_eq]

/-- Writing the same record on both sides. -/
theorem Sim.persist {key : String} {st : VState} {state : ValidatorState} (hsim : Sim vals store)
    (hst : key ≠ metaKey → st = VState.of state) :
    Sim (persist vals key st h) (persistValidatorState store key state h) := by
  intro k hk
  rw [getElem?_persist, getElem?_persistValidatorState]
  split
  next hkey =>
    rw [hst (hkey ▸ hk)]
    by_cases hkeep : 0 < state.stake ∨ 0 < state.slashCount ∨ h < state.jailedUntil
    · rw [if_pos hkeep]
      exact if_pos hkeep
    · rw [if_neg hkeep]
      exact if_neg hkeep
  · exact hsim k hk

/-- Writing on one side only, under the key that is not listed. -/
theorem Sim.persist_meta (hsim : Sim vals store) (st : VState) :
    Sim (ValidatorReplay.persist vals metaKey st h) store := by
  intro k hk
  rw [getElem?_persist, if_neg (Ne.symm hk)]
  exact hsim k hk

theorem Sim.store_meta (hsim : Sim vals store) (state : ValidatorState) :
    Sim vals (persistValidatorState store metaKey state h) := by
  intro k hk
  rw [getElem?_persistValidatorState, if_neg (Ne.symm hk)]
  exact hsim k hk

theorem Sim.getD {key : String} (hsim : Sim vals store) (hkey : key ≠ metaKey) :
    vals[key]?.getD {} = VState.of (store[key]?.getD {}) := by
  rw [hsim key hkey]
  cases store[key]? with
  | none => rfl
  | some state => rfl

/-- Changing a record that is there, on both sides. -/
theorem Sim.update {key : String} (hsim : Sim vals store) (f : VState → VState)
    (g : ValidatorState → ValidatorState) (hfg : ∀ state, f (VState.of state) = VState.of (g state)) :
    Sim (match vals[key]? with
      | some st => ValidatorReplay.persist vals key (f st) h
      | none => vals)
      (match store[key]? with
      | some state => persistValidatorState store key (g state) h
      | none => store) := by
  by_cases hkey : key = metaKey
  · subst hkey
    split <;> split
    · exact hsim.persist fun hne => absurd rfl hne
    · exact hsim.persist_meta _
    · exact hsim.store_meta _
    · exact hsim
  · rw [hsim key hkey]
    cases store[key]? with
    | none => exact hsim
    | some state => exact hsim.persist fun _ => hfg state

end Keys

/-! ## One block -/

/-- What the node reports of a transaction, and what is known of its outcome. -/
def AlignedTx (tx : TxV1) (result : Option ValidatorExecution) (outcome : Option Bool) : Prop :=
  if tx.txType = "stake" then
    (result = some (.stakeApplied tx.fromPubKey (amountOf tx)) ∧ outcome = some true) ∨
      ((result = none ∨ ∃ reason, result = some (.failed reason)) ∧ outcome = some false)
  else if tx.txType = "unstake" then
    (∃ releaseHeight, result = some (.unstakeApplied tx.fromPubKey (amountOf tx) releaseHeight) ∧
        outcome = some true) ∨
      ((result = none ∨ ∃ reason, result = some (.failed reason)) ∧ outcome = some false)
  else result = none ∨ ∃ reason, result = some (.failed reason)

/-- A block with the node's results, one for each transaction, and outcomes that agree with them. -/
structure Executed where
  block : BlockV1
  results : List (Option ValidatorExecution)
  outcome : Outcome
  length_eq : results.length = block.txs.length
  aligned : ∀ (i : ℕ) tx result, block.txs[i]? = some tx → results[i]? = some result →
    AlignedTx tx result (outcome block.header.height i tx)

section Block

variable {vals : ExtTreeMap String VState} {store : ValidatorStore} {h : UInt64}

theorem applyValidatorResult_of_failed {tx : TxV1} {result : Option ValidatorExecution}
    (hresult : result = none ∨ ∃ reason, result = some (.failed reason)) :
    applyValidatorResult store h tx result = applyValidatorTx store tx h := by
  rcases hresult with rfl | ⟨reason, rfl⟩ <;> rfl

theorem sim_applyTx {i : ℕ} {tx : TxV1} {result : Option ValidatorExecution} {outcome : Outcome}
    (hsim : Sim vals store) (hal : AlignedTx tx result (outcome h i tx)) :
    ∃ vals', applyTx vals h i tx outcome = .ok vals' ∧
      Sim vals' (applyValidatorResult store h tx result) := by
  rw [AlignedTx] at hal
  rw [applyTx]
  split at hal
  next hstake =>
    have hslash : tx.txType ≠ "slash" := by rw [hstake]; decide
    rw [if_pos (.inl hstake), if_pos hstake]
    obtain ⟨rfl, hout⟩ | ⟨hfailed, hout⟩ := hal
    · refine ⟨stake vals h tx, by rw [hout]; rfl, hsim.persist fun hkey => ?_⟩
      rw [hsim.getD hkey]
      rfl
    · refine ⟨vals, by rw [hout]; rfl, ?_⟩
      rw [applyValidatorResult_of_failed hfailed, applyValidatorTx, if_neg hslash]
      exact hsim
  · split at hal
    next hstake hunstake =>
      have hslash : tx.txType ≠ "slash" := by rw [hunstake]; decide
      rw [if_pos (.inr hunstake), if_neg hstake]
      obtain ⟨releaseHeight, rfl, hout⟩ | ⟨hfailed, hout⟩ := hal
      · exact ⟨unstake vals h tx, by rw [hout]; rfl, hsim.update _ _ fun _ => rfl⟩
      · refine ⟨vals, by rw [hout]; rfl, ?_⟩
        rw [applyValidatorResult_of_failed hfailed, applyValidatorTx, if_neg hslash]
        exact hsim
    next hstake hunstake =>
      rw [if_neg (not_or.2 ⟨hstake, hunstake⟩), applyValidatorResult_of_failed hal,
        applyValidatorTx]
      by_cases hslash : tx.txType = "slash"
      · rw [if_pos hslash, if_pos hslash]
        refine ⟨_, rfl, hsim.persist fun hkey => ?_⟩
        rw [hsim.getD hkey]
        rfl
      · rw [if_neg hslash, if_neg hslash]
        exact ⟨vals, rfl, hsim⟩

theorem sim_applyTxs {outcome : Outcome} {txs : List TxV1}
    {results : List (Option ValidatorExecution)} {n : ℕ} (hlen : results.length = txs.length)
    (hal : ∀ (i : ℕ) tx result, txs[i]? = some tx → results[i]? = some result →
      AlignedTx tx result (outcome h (n + i) tx)) (hsim : Sim vals store) :
    ∃ vals', applyTxs h outcome n txs vals = .ok vals' ∧
      Sim vals' ((txs.zip results).foldl (fun store p => applyValidatorResult store h p.1 p.2) store) := by
  induction txs generalizing results n vals store with
  | nil => exact ⟨vals, rfl, by simpa using hsim⟩
  | cons tx txs ih =>
    obtain _ | ⟨result, results⟩ := results
    · cases hlen
    obtain ⟨vals₁, hvals₁, hsim₁⟩ := sim_applyTx hsim (hal 0 tx result rfl rfl)
    obtain ⟨vals₂, hvals₂, hsim₂⟩ := ih (n := n + 1) (Nat.succ.inj hlen)
      (fun i tx' result' htx hresult => by
        rw [Nat.add_right_comm]
        exact hal (i + 1) tx' result' htx hresult) hsim₁
    refine ⟨vals₂, ?_, hsim₂⟩
    rw [applyTxs]
    exact bind_eq_ok.2 ⟨vals₁, hvals₁, hvals₂⟩

theorem sim_retire (sched : UpgradeSchedule) (h : UInt64) (hsim : Sim vals store) :
    Sim (retireAll (sched.validatorRetirement.map fun r => (r.height, r.validators)) vals h)
      (retireValidators sched store h) := by
  have hkeys (keys : List String) : Sim (keys.foldl (fun vals k => retire vals h k) vals)
      (keys.foldl (fun store k => retireValidator store h k) store) := by
    induction keys generalizing vals store with
    | nil => exact hsim
    | cons k keys ih => exact ih (hsim.update _ _ fun _ => rfl)
  rw [retireValidators]
  cases sched.validatorRetirement with
  | none => exact hsim
  | some ret =>
    by_cases hret : ret.height = h
    · simpa [retireAll, Option.filter, hret] using hkeys ret.validators
    · simpa [retireAll, Option.filter, hret] using hsim

/-- What the count of missed blocks makes of one record. -/
theorem missed_of (proposer k : String) (state : ValidatorState) :
    missed proposer h k (VState.of state) =
      VState.of ((missedBlock proposer h k state).getD state) := by
  rw [missed, missedBlock]
  by_cases hstake : state.stake = 0
  · have hstake' : (VState.of state).stake = 0 := hstake
    rw [if_pos hstake, if_pos hstake', Option.getD_none]
  have hstake' : ¬ (VState.of state).stake = 0 := hstake
  rw [if_neg hstake, if_neg hstake']
  by_cases hproposer : k = proposer
  · rw [if_pos hproposer, if_pos hproposer]
    rfl
  rw [if_neg hproposer, if_neg hproposer]
  by_cases hjailed : state.jailedUntil ≤ h
  · have hjailed' : (VState.of state).jailedUntil ≤ h := hjailed
    rw [if_pos hjailed, if_pos hjailed']
    dsimp only
    by_cases hslash : missedBlockSlashThreshold ≤ state.missedBlocks + 1
    · have hslash' : missedBlockSlashThreshold ≤ (VState.of state).missedBlocks + 1 := hslash
      rw [if_pos hslash, if_pos hslash']
      rfl
    · have hslash' : ¬ missedBlockSlashThreshold ≤ (VState.of state).missedBlocks + 1 := hslash
      rw [if_neg hslash, if_neg hslash']
      rfl
  · have hjailed' : ¬ (VState.of state).jailedUntil ≤ h := hjailed
    rw [if_neg hjailed, if_neg hjailed', Option.getD_none]

theorem sim_missed (sched : UpgradeSchedule) (header : BlockHeaderV1) (hsim : Sim vals store) :
    Sim (if activeAt sched.proposerSelection header.height then vals
      else vals.map (missed header.proposerPubKey header.height))
      (checkMissedBlocks sched store header) := by
  intro k hk
  rw [getElem?_checkMissedBlocks sched store header hk]
  split
  · rw [hsim k hk, Option.map_map]
    refine Option.map_congr fun state _ => ?_
    rw [Function.comp_apply]
    split <;> rfl
  · rw [ExtTreeMap.getElem?_map, hsim k hk]
    cases store[k]? with
    | none => rfl
    | some state =>
      rw [Option.map_some, Option.map_some, missed_of, Option.bind_some]
      cases missedBlock header.proposerPubKey header.height k state <;> rfl

/-- One block keeps the replay and the store in step. -/
theorem sim_applyBlock {sched : UpgradeSchedule} {r : ValidatorReplay} (e : Executed)
    (hsim : Sim r.vals store) (hheight : e.block.header.height = r.height + 1)
    (hfreeze : r.missedFrozenFrom = sched.proposerSelection)
    (hretire : r.retirement = sched.validatorRetirement.map fun r => (r.height, r.validators)) :
    ∃ vals' store', r.applyBlock e.block e.outcome =
        .ok { r with height := e.block.header.height, vals := vals' } ∧
      applyValidatorBlock sched store e.block e.results = .ok store' ∧ Sim vals' store' := by
  obtain ⟨vals₁, hvals₁, hsim₁⟩ := sim_applyTxs (n := 0) e.length_eq
    (fun i tx result htx hresult => by
      rw [Nat.zero_add]
      exact e.aligned i tx result htx hresult) hsim
  have hsim₂ := sim_missed sched e.block.header (sim_retire sched e.block.header.height hsim₁)
  refine ⟨_, _, ?_, ?_, hsim₂⟩
  · rw [ValidatorReplay.applyBlock, (require_eq_ok (u := ())).2 hheight, ok_bind, hvals₁,
      ok_bind, hfreeze, hretire]
    split <;> rfl
  · rw [applyValidatorBlock, (require_eq_ok (u := ())).2 e.length_eq]
    rfl

end Block

/-! ## All blocks -/

def replayBlocks : ValidatorReplay → List Executed → Except ReplayError ValidatorReplay
  | r, [] => .ok r
  | r, e :: es => do
    let r ← r.applyBlock e.block e.outcome
    replayBlocks r es

def applyValidatorBlocks (sched : UpgradeSchedule) :
    ValidatorStore → List Executed → Except String ValidatorStore
  | store, [] => .ok store
  | store, e :: es => do
    let store ← applyValidatorBlock sched store e.block e.results
    applyValidatorBlocks sched store es

/-- The blocks follow one another, from the height after `base` on. -/
def Contiguous : UInt64 → List Executed → Prop
  | _, [] => True
  | base, e :: es => e.block.header.height = base + 1 ∧ Contiguous (base + 1) es

/-- The height of the last block. -/
def tipAfter (base : UInt64) (es : List Executed) : UInt64 :=
  (es.getLast?.map (·.block.header.height)).getD base

theorem sim_blocks {sched : UpgradeSchedule} {r : ValidatorReplay} {store : ValidatorStore}
    {es : List Executed} (hsim : Sim r.vals store) (hes : Contiguous r.height es)
    (hfreeze : r.missedFrozenFrom = sched.proposerSelection)
    (hretire : r.retirement = sched.validatorRetirement.map fun r => (r.height, r.validators)) :
    ∃ r' store', replayBlocks r es = .ok r' ∧ applyValidatorBlocks sched store es = .ok store' ∧
      r'.height = tipAfter r.height es ∧ Sim r'.vals store' := by
  induction es generalizing r store with
  | nil => exact ⟨r, store, rfl, rfl, rfl, hsim⟩
  | cons e es ih =>
    obtain ⟨vals₁, store₁, hr₁, hstore₁, hsim₁⟩ := sim_applyBlock e hsim hes.1 hfreeze hretire
    obtain ⟨r₂, store₂, hr₂, hstore₂, htip, hsim₂⟩ := ih
      (r := { r with height := e.block.header.height, vals := vals₁ }) hsim₁ (hes.1 ▸ hes.2)
      hfreeze hretire
    refine ⟨r₂, store₂, bind_eq_ok.2 ⟨_, hr₁, hr₂⟩,
      bind_eq_ok.2 ⟨_, hstore₁, hstore₂⟩, ?_, hsim₂⟩
    rw [htip, tipAfter, tipAfter, List.getLast?_cons]
    cases es.getLast? <;> rfl

/-- The sets for the next height agree. -/
theorem Sim.stakeOf {r : ValidatorReplay} {store : ValidatorStore} {k : String}
    (hsim : Sim r.vals store) (hk : k ≠ metaKey) :
    r.snapshotForNext.stakeOf k = (getValidatorStakes store r.height)[k]? := by
  rw [getElem?_getValidatorStakes store r.height hk, ValidatorSetSnapshot.stakeOf, snapshotForNext,
    ExtTreeMap.getElem?_filterMap', hsim k hk]
  cases store[k]? with
  | none => rfl
  | some state =>
    simp only [Option.map_some, Option.bind_some, VState.of]
    by_cases hjailed : r.height < state.jailedUntil
    · rw [if_pos hjailed, if_neg fun h => absurd h.2 (UInt64.not_le.2 hjailed)]
    · rw [if_neg hjailed]
      by_cases hstake : 0 < state.stake
      · rw [if_pos hstake, if_pos ⟨hstake, UInt64.not_lt.1 hjailed⟩]
      · rw [if_neg hstake, if_neg fun h => hstake h.1]

/-- The replay from the store after any block, over any further blocks with the node's results:
    it succeeds where the node does, and for every key but the one that the store does not list
    both hold the same stake, slashes, jail and missed blocks, and count the same stake at the next
    height. -/
theorem replay_refines (sched : UpgradeSchedule) (base : UInt64) (store : ValidatorStore)
    (es : List Executed) (hes : Contiguous base es) :
    ∃ r store',
      replayBlocks (((ValidatorReplay.new base (store.map fun _ => VState.of)).withMissedBlockFreeze
        sched.proposerSelection).withRetirement
          (sched.validatorRetirement.map fun r => (r.height, r.validators))) es = .ok r ∧
      applyValidatorBlocks sched store es = .ok store' ∧
      r.snapshotForNext.height = tipAfter base es + 1 ∧
      ∀ k, k ≠ metaKey → r.vals[k]? = store'[k]?.map VState.of ∧
        r.snapshotForNext.stakeOf k = (getValidatorStakes store' (tipAfter base es))[k]? := by
  have hsim : Sim (store.map fun _ => VState.of) store := fun k _ => ExtTreeMap.getElem?_map
  obtain ⟨r, store', hr, hstore', htip, hsim'⟩ := sim_blocks
    (r := ((ValidatorReplay.new base (store.map fun _ => VState.of)).withMissedBlockFreeze
      sched.proposerSelection).withRetirement
        (sched.validatorRetirement.map fun r => (r.height, r.validators))) hsim hes rfl rfl
  refine ⟨r, store', hr, hstore', congrArg (· + 1) htip, fun k hk => ⟨hsim' k hk, ?_⟩⟩
  rw [hsim'.stakeOf hk, htip]
  rfl

/-- A block of a single stake by `k`, applied with success. -/
def stakeBlock (k : String) : Executed where
  block := {
    version := 1
    header := ⟨1, "rougechain-devnet-1", 1, 0, "", "", "cd", none, none⟩
    txs := [⟨1, "stake", k, 0, { amount := some 5 }, 0, "", none⟩]
    proposerSig := ""
    hash := "" }
  results := [some (.stakeApplied k 5)]
  outcome := fun _ _ _ => some true
  length_eq := rfl
  aligned := by
    intro i tx result htx hresult
    match i with
    | 0 =>
      obtain rfl := Option.some.inj htx
      obtain rfl := Option.some.inj hresult
      exact .inl ⟨rfl, rfl⟩
    | i + 1 => cases htx

theorem replay_refines_stake :
    ∃ r store', replayBlocks (((ValidatorReplay.new 0 ((∅ : ValidatorStore).map fun _ => VState.of)
        ).withMissedBlockFreeze mainnet.proposerSelection).withRetirement
          (mainnet.validatorRetirement.map fun r => (r.height, r.validators)))
        [stakeBlock "ab"] = .ok r ∧
      applyValidatorBlocks mainnet ∅ [stakeBlock "ab"] = .ok store' ∧
      r.vals["ab"]? = store'["ab"]?.map VState.of := by
  obtain ⟨r, store', hr, hstore', -, hkeys⟩ := replay_refines mainnet 0 ∅ [stakeBlock "ab"]
    ⟨rfl, trivial⟩
  exact ⟨r, store', hr, hstore', (hkeys "ab" (by decide)).1⟩

/-- A stake of the key that the store does not list: the replay counts a missed block and the
    stake, the node counts neither. -/
theorem metaKey_diverges :
    (replayBlocks (((ValidatorReplay.new 0 ((∅ : ValidatorStore).map fun _ => VState.of)
        ).withMissedBlockFreeze mainnet.proposerSelection).withRetirement
          (mainnet.validatorRetirement.map fun r => (r.height, r.validators)))
        [stakeBlock metaKey]).toOption.map (fun r =>
          (r.vals[metaKey]?, r.snapshotForNext.stakeOf metaKey)) =
        some (some ⟨5, 0, 0, 1⟩, some 5) ∧
      (applyValidatorBlocks mainnet ∅ [stakeBlock metaKey]).toOption.map (fun store =>
          (store[metaKey]?.map VState.of, (getValidatorStakes store 1)[metaKey]?)) =
        some (some ⟨5, 0, 0, 0⟩, none) := by
  constructor <;> decide +kernel

end RougeChain.Finality
