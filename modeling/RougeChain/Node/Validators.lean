import RougeChain.Node.Types

/-!
# The validator state

What a block does to the store of validators once its ledger effects are known: applied stakes and
unstakes, slash transactions, the one-time retirement, and the count of missed blocks with its
automatic slash. Without faults of the database the store is a map.

* `getElem?_checkMissedBlocks`: the count of missed blocks, validator by validator;
* `getElem?_getValidatorStakes`: the stakes that count at a tip.
-/

namespace RougeChain.Node

open Std (ExtTreeMap)

def U128.saturatingSub (a b : U128) : U128 := if a < b then 0 else a - b

def U128.max (a b : U128) : U128 := if a ≤ b then b else a

def jailBlocks : UInt64 := 20

def slashDivisor : U128 := 10

def missedBlockSlashThreshold : UInt64 := 50

structure ValidatorState where
  stake : U128 := 0
  slashCount : UInt32 := 0
  jailedUntil : UInt64 := 0
  entropyContributions : UInt64 := 0
  blocksProposed : UInt64 := 0
  /-- The name of the node. -/
  name : Option String := none
  missedBlocks : UInt64 := 0
  totalSlashed : U128 := 0

abbrev ValidatorStore := ExtTreeMap String ValidatorState

/-- The key that the store does not list. -/
def metaKey : String := "__meta"

def listValidators (store : ValidatorStore) : List (String × ValidatorState) :=
  store.toList.filter fun p => decide (p.1 ≠ metaKey)

/-- What became of a stake or an unstake. -/
inductive ValidatorExecution where
  | stakeApplied (validator : String) (amount : U128)
  | unstakeApplied (validator : String) (amount : U128) (releaseHeight : UInt64)
  | failed (reason : String)

/-- A record with nothing in it is deleted. -/
def persistValidatorState (store : ValidatorStore) (publicKey : String) (state : ValidatorState)
    (height : UInt64) : ValidatorStore :=
  if 0 < state.stake ∨ 0 < state.slashCount ∨ height < state.jailedUntil then
    store.insert publicKey state
  else store.erase publicKey

/-- What a slash takes. -/
def slashAmount (stake : U128) : U128 := U128.max (stake / slashDivisor) 1

/-- The effect of a slash transaction; other types have none here. -/
def applyValidatorTx (store : ValidatorStore) (tx : TxV1) (height : UInt64) : ValidatorStore :=
  if tx.txType = "slash" then
    let target := tx.payload.targetPubKey.getD ""
    let state := store[target]?.getD {}
    persistValidatorState store target
      { state with
        stake := U128.saturatingSub state.stake (slashAmount state.stake)
        slashCount := state.slashCount + 1
        jailedUntil := max state.jailedUntil (height + jailBlocks) } height
  else store

/-- The effect of one transaction, by what its execution has reported. -/
def applyValidatorResult (store : ValidatorStore) (height : UInt64) (tx : TxV1) :
    Option ValidatorExecution → ValidatorStore
  | some (.stakeApplied validator amount) =>
    let state := store[validator]?.getD {}
    persistValidatorState store validator { state with stake := state.stake + amount } height
  | some (.unstakeApplied validator amount _) =>
    match store[validator]? with
    | some state => persistValidatorState store validator
        { state with stake := U128.saturatingSub state.stake amount } height
    | none => store
  | some (.failed _) | none => applyValidatorTx store tx height

/-- The stake of a retired validator is gone. -/
def retireValidator (store : ValidatorStore) (height : UInt64) (k : String) : ValidatorStore :=
  match store[k]? with
  | some state => persistValidatorState store k { state with stake := 0 } height
  | none => store

/-- The one-time retirement, at its height. -/
def retireValidators (sched : UpgradeSchedule) (store : ValidatorStore) (height : UInt64) :
    ValidatorStore :=
  match sched.validatorRetirement.filter (·.height == height) with
  | some r => r.validators.foldl (fun store k => retireValidator store height k) store
  | none => store

/-- What the count of missed blocks makes of one validator, if it is written. -/
def missedBlock (proposer : String) (height : UInt64) (k : String) (state : ValidatorState) :
    Option ValidatorState :=
  if state.stake = 0 then none
  else if k = proposer then
    some { state with blocksProposed := state.blocksProposed + 1, missedBlocks := 0 }
  else if state.jailedUntil ≤ height then
    let missed := state.missedBlocks + 1
    if missedBlockSlashThreshold ≤ missed then
      let cut := slashAmount state.stake
      some { state with
        totalSlashed := state.totalSlashed + cut
        stake := U128.saturatingSub state.stake cut
        slashCount := state.slashCount + 1
        jailedUntil := height + jailBlocks
        missedBlocks := 0 }
    else some { state with missedBlocks := missed }
  else none

def checkMissedBlocks (sched : UpgradeSchedule) (store : ValidatorStore) (header : BlockHeaderV1) :
    ValidatorStore :=
  if activeAt sched.proposerSelection header.height then
    -- the counts are frozen; that the proposer has proposed is still noted
    match store[header.proposerPubKey]? with
    | some state =>
      store.insert header.proposerPubKey { state with blocksProposed := state.blocksProposed + 1 }
    | none => store
  else writeAll (missedBlock header.proposerPubKey header.height) (listValidators store) store

def applyValidatorBlock (sched : UpgradeSchedule) (store : ValidatorStore) (block : BlockV1)
    (validatorResults : List (Option ValidatorExecution)) : Except String ValidatorStore := do
  Fallible.require (validatorResults.length = block.txs.length)
    ("validator results (" ++ toString validatorResults.length ++ ") not aligned to block txs (" ++
      toString block.txs.length ++ ")")
  let height := block.header.height
  let store := (block.txs.zip validatorResults).foldl
    (fun store p => applyValidatorResult store height p.1 p.2) store
  return checkMissedBlocks sched (retireValidators sched store height) block.header

/-- The stakes of the validators that are not jailed at the tip. -/
def getValidatorStakes (store : ValidatorStore) (tip : UInt64) : ExtTreeMap String U128 :=
  writeAll (fun _ state => if tip < state.jailedUntil then none
    else if 0 < state.stake then some state.stake else none) (listValidators store) ∅

/-! ## Validator by validator -/

theorem getElem?_persistValidatorState (store : ValidatorStore) (k : String)
    (state : ValidatorState) (height : UInt64) (k' : String) :
    (persistValidatorState store k state height)[k']? =
      if k = k' then
        if 0 < state.stake ∨ 0 < state.slashCount ∨ height < state.jailedUntil then some state
        else none
      else store[k']? := by
  rw [persistValidatorState]
  split
  next h =>
    rw [getElem?_insert_eq]
  next h =>
    rw [getElem?_erase_eq]

theorem getElem?_checkMissedBlocks (sched : UpgradeSchedule) (store : ValidatorStore)
    (header : BlockHeaderV1) {k : String} (hk : k ≠ metaKey) :
    (checkMissedBlocks sched store header)[k]? =
      if activeAt sched.proposerSelection header.height then
        store[k]?.map fun state =>
          if k = header.proposerPubKey then { state with blocksProposed := state.blocksProposed + 1 }
          else state
      else (store[k]?.bind (missedBlock header.proposerPubKey header.height k)).or store[k]? := by
  rw [checkMissedBlocks]
  split
  · by_cases hproposer : k = header.proposerPubKey
    · subst hproposer
      split
      next state hstate => rw [getElem?_insert_eq, if_pos rfl, hstate, Option.map_some, if_pos rfl]
      next hnone => rw [hnone, Option.map_none]
    · split
      · rw [getElem?_insert_eq, if_neg (Ne.symm hproposer)]
        simp [hproposer]
      · simp [hproposer]
  · rw [listValidators, getElem?_writeAll_toList _ fun k => decide (k ≠ metaKey)]
    exact if_pos (decide_eq_true hk)

theorem getElem?_getValidatorStakes (store : ValidatorStore) (tip : UInt64) {k : String}
    (hk : k ≠ metaKey) : (getValidatorStakes store tip)[k]? = store[k]?.bind fun state =>
      if tip < state.jailedUntil then none else if 0 < state.stake then some state.stake else none := by
  rw [getValidatorStakes, listValidators, getElem?_writeAll_toList _ fun k => decide (k ≠ metaKey),
    if_pos (decide_eq_true hk)]
  simp

end RougeChain.Node
