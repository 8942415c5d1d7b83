import RougeChain.Consensus.Block
import RougeChain.Consensus.Schedule

/-!
# The ledger

The chain rules as pure functions over a ledger of integers: blocks and their
validation, epochs and validator-set changes, unbonding, evidence and slashing
with tombstones, downtime jailing, and rewards.

`Ledger.applyBlock` returns the next ledger and what the block did (`Effects`),
or the error that makes the block invalid. Its effects come in this order:
header and certificate checks, proposer-priority step, transactions, evidence,
rewards, downtime observation and jailing, unbonding release, epoch processing,
minimum-stake removals, new active set and re-weighting. Each is a function of
its own here.
-/

namespace RougeChain.Consensus

open Fallible (ofOption)
open Std (ExtTreeMap ExtTreeSet)

/-- The consensus parameters. -/
structure Params where
  chainId : String
  activationHeight : ℕ
  heartbeatMs : ℕ
  epochMs : ℕ
  activationDelayMs : ℕ
  unbondingMs : ℕ
  evidenceMaxAgeMs : ℕ
  maxActive : ℕ
  minSelfStake : ℕ
  graceMs : ℕ
  jailWindow : ℕ
  jailMissed : ℕ
  jailMinProposers : ℕ
  jailMs : ℕ
  slashNum : ℕ
  slashDen : ℕ
  subsidyRate : ℕ
  baseFee : ℕ
  driftMs : ℕ
  maxEvidencePerBlock : ℕ
  maxTxsPerBlock : ℕ
  deriving DecidableEq

def hourMs : ℕ := 3600000
def dayMs : ℕ := 24 * hourMs

/-- The values decided by the owner. -/
def Params.decided (chainId : String) : Params where
  chainId := chainId
  activationHeight := 1
  heartbeatMs := hourMs
  epochMs := dayMs
  activationDelayMs := dayMs
  unbondingMs := 21 * dayMs
  evidenceMaxAgeMs := 21 * dayMs
  maxActive := 32
  minSelfStake := 100000 * quantaPerXrge
  graceMs := 30 * dayMs
  jailWindow := 200
  jailMissed := 100
  jailMinProposers := 3
  jailMs := hourMs
  slashNum := 1
  slashDen := 1
  subsidyRate := 0
  baseFee := 1000000
  driftMs := 10000
  maxEvidencePerBlock := 8
  maxTxsPerBlock := 64

/-- The ledger record of a validator. `window` holds `(assembler, signed)` for
    the last certificates the validator was eligible for. -/
structure ValidatorRec where
  bond : ℕ := 0
  active : Bool := false
  legacy : Bool := false
  grace : Bool := false
  approvedAt : Option ℕ := none
  jailedUntil : Option ℕ := none
  unjailAt : Option ℕ := none
  tombstoned : Bool := false
  slashFloor : Option ℕ := none
  window : List (KeyId × Bool) := []
  deriving DecidableEq

namespace ValidatorRec

/-- The weight in whole XRGE. -/
def weight (r : ValidatorRec) : ℕ := r.bond / quantaPerXrge

def inSet (r : ValidatorRec) : Bool :=
  r.active && r.jailedUntil.isNone && !r.tombstoned && decide (0 < r.weight)

/-- The record after a penalty: tombstoned, with the floor raised. -/
def slashed (r : ValidatorRec) (offenceHeight : ℕ) : ValidatorRec :=
  { r with
    bond := 0
    active := false
    tombstoned := true
    slashFloor := some (r.slashFloor.elim offenceHeight fun f => max f offenceHeight)
    window := [] }

/-- The record of a validator jailed until `t`. -/
def jailed (r : ValidatorRec) (t : ℕ) : ValidatorRec :=
  { r with jailedUntil := some t, unjailAt := none, window := [] }

def withoutGrace (r : ValidatorRec) : ValidatorRec := { r with grace := false }

end ValidatorRec

/-- A bond addition waiting for its epoch boundary. -/
structure PendingBond where
  key : KeyId
  amount : ℕ
  includedAt : ℕ
  deriving DecidableEq

/-- Stake on its way out. -/
structure UnbondingEntry where
  key : KeyId
  amount : ℕ
  createdHeight : ℕ
  releaseAt : ℕ
  deriving DecidableEq

/-- One double-sign penalty. -/
structure SlashEvent where
  key : KeyId
  offenceHeight : ℕ
  bondBefore : ℕ
  cutBond : ℕ
  cutUnbonding : ℕ
  deriving DecidableEq

/-- Everything one block did. -/
structure Effects where
  height : ℕ := 0
  round0Proposer : Option KeyId := none
  fees : ℕ := 0
  burn : ℕ := 0
  subsidy : ℕ := 0
  credits : List (Account × ℕ) := []
  unearned : ℕ := 0
  signers : List KeyId := []
  slashes : List SlashEvent := []
  jailed : List (KeyId × List KeyId) := []
  removed : List KeyId := []
  activated : List KeyId := []
  released : List (KeyId × ℕ) := []
  epochBoundary : Bool := false
  supplyAfter : ℕ := 0
  deriving DecidableEq

inductive TxError
  | duplicate
  | feeTooLow
  | insufficientFunds
  | zeroAmount
  | notAKeyAccount
  | unknownValidator
  | tombstoned
  | bondTooSmall
  | unjailNotAllowed
  | approveNotAllowed
  deriving DecidableEq

inductive EvidenceError
  | notConflicting
  | heightOutOfRange
  | tooOld
  | notEligible
  | badSignature
  | alreadyPenalised
  | repeated
  deriving DecidableEq

inductive BlockError
  | wrongHeight
  | wrongParent
  | timeNotAfterParent
  | wrongProposer
  | emptyNotDue
  | certPresence
  | certMismatch
  | certRoundBelowHeader
  | cert (e : CertError)
  | tx (i : ℕ) (e : TxError)
  | evidence (i : ℕ) (e : EvidenceError)
  | tooLarge
  | arithmetic
  | schedule
  deriving DecidableEq

/-- The committed state. `activeSet` votes on the next block; `sets` and `times`
    keep the eligible sets and header times of recent heights. -/
structure Ledger where
  params : Params
  height : ℕ
  tip : BlockId
  tipTime : ℕ
  tipRound : ℕ
  activationTime : ℕ
  balances : ExtTreeMap Account ℕ
  validators : ExtTreeMap KeyId ValidatorRec
  pending : List PendingBond
  unbonding : List UnbondingEntry
  approvals : ExtTreeMap KeyId (ExtTreeSet KeyId)
  schedule : Schedule
  activeSet : ValidatorSet
  sets : ExtTreeMap ℕ ValidatorSet
  times : ExtTreeMap ℕ ℕ
  jailLog : List (ℕ × ℕ)
  seenTx : ExtTreeSet ℕ
  burnedFees : ℕ
  burnedSlash : ℕ

/-- The initial state of a chain. -/
structure Genesis where
  tipHeight : ℕ
  tip : BlockId
  tipTime : ℕ
  validators : List (KeyId × ℕ)
  balances : List (Account × ℕ)

namespace Ledger

/-- The members of the eligible set of a map of validators. -/
def eligible (validators : ExtTreeMap KeyId ValidatorRec) : List (KeyId × ℕ) :=
  (validators.toList.filter fun p => p.2.inSet).map fun p => (p.1, p.2.weight)

/-- The state at the activation boundary: the validators of the genesis are
    active, deemed approved, and under the grace rule. -/
def genesis (params : Params) (g : Genesis) : Except SetError Ledger := do
  let validators := g.validators.foldl (fun m (key, bond) =>
    m.insert key { bond, active := true, legacy := true, grace := true }) ∅
  let set ← ValidatorSet.new (eligible validators)
  .ok {
    params := { params with activationHeight := g.tipHeight + 1 }
    height := g.tipHeight
    tip := g.tip
    tipTime := g.tipTime
    tipRound := 0
    activationTime := g.tipTime
    balances := g.balances.foldl (fun m (a, b) => m.insert a b) ∅
    validators
    pending := []
    unbonding := []
    approvals := ∅
    schedule := .new set
    activeSet := set
    -- The same set certified the tip under the old rules.
    sets := ((∅ : ExtTreeMap ℕ ValidatorSet).insert g.tipHeight set).insert (g.tipHeight + 1) set
    times := (∅ : ExtTreeMap ℕ ℕ).insert g.tipHeight g.tipTime
    jailLog := []
    seenTx := ∅
    burnedFees := 0
    burnedSlash := 0 }

def balance (l : Ledger) (a : Account) : ℕ := l.balances[a]?.getD 0

/-- Everything that exists: burned, liquid, bonded, pending and unbonding. -/
def supply (l : Ledger) : ℕ :=
  l.burnedFees + l.burnedSlash + valueSum (·) l.balances + valueSum ValidatorRec.bond l.validators +
    (l.pending.map PendingBond.amount).sum + (l.unbonding.map UnbondingEntry.amount).sum

/-- The supply as the source adds it up. -/
def totalSupply (l : Ledger) : ℕ := wrap128 l.supply

/-- The proposers of the next height, round by round. -/
def nextProposers (l : Ledger) : RoundProposers := .new l.schedule

/-- The signing domain of certificates and votes for `height`. -/
def domainOf (l : Ledger) (height : ℕ) : Domain :=
  if height < l.params.activationHeight then .V2 else .V3

/-- Is a heartbeat block due at header time `time`? -/
def heartbeatDue (l : Ledger) (time : ℕ) : Bool :=
  decide (satAdd u64Max l.tipTime l.params.heartbeatMs ≤ time)

def credit (l : Ledger) (a : Account) (amount : ℕ) : Except BlockError Ledger := do
  let b ← ofOption .arithmetic (checkedAdd (l.balance a) amount)
  .ok { l with balances := l.balances.insert a b }

def debit (l : Ledger) (a : Account) (amount : ℕ) : Except TxError Ledger := do
  let b ← ofOption .insufficientFunds (checkedSub (l.balance a) amount)
  .ok { l with balances := l.balances.insert a b }

/-! ## Transactions -/

def validatorKey : Account → Except TxError KeyId
  | .key k => .ok k
  | _ => .error .notAKeyAccount

/-- The record of `key`, created if missing. -/
def validatorRec (l : Ledger) (key : KeyId) : ValidatorRec := l.validators[key]?.getD {}

def applyTransfer (l : Ledger) (tx : Tx) (recipient : Account) (amount : ℕ) :
    Except TxError Ledger :=
  if amount = 0 then .error .zeroAmount
  else do
    let total ← ofOption .insufficientFunds (checkedAdd amount tx.fee)
    let l ← l.debit tx.sender total
    (l.credit recipient amount).mapError fun _ => .insufficientFunds

/-- Bond stake to the sender's validator, created if new. The addition waits for
    an epoch boundary. -/
def applyStake (l : Ledger) (tx : Tx) (time amount : ℕ) : Except TxError Ledger := do
  let key ← validatorKey tx.sender
  if amount = 0 then .error .zeroAmount
  else if l.validators[key]?.any ValidatorRec.tombstoned then .error .tombstoned
  else do
    let total ← ofOption .insufficientFunds (checkedAdd amount tx.fee)
    let l ← l.debit tx.sender total
    .ok { l with
      validators := l.validators.insert key (l.validatorRec key)
      pending := l.pending ++ [⟨key, amount, time⟩] }

/-- Unbond stake: the weight drops at the next height, the funds are released
    after the unbonding period. -/
def applyUnbond (l : Ledger) (tx : Tx) (height time amount : ℕ) : Except TxError Ledger := do
  let key ← validatorKey tx.sender
  if amount = 0 then .error .zeroAmount
  else do
    let rec' ← ofOption .unknownValidator l.validators[key]?
    if rec'.bond < amount then .error .bondTooSmall
    else do
      let l ← l.debit tx.sender tx.fee
      .ok { l with
        validators := l.validators.insert key { rec' with bond := rec'.bond - amount }
        unbonding := l.unbonding ++
          [⟨key, amount, height, satAdd u64Max time l.params.unbondingMs⟩] }

def applyUnjail (l : Ledger) (tx : Tx) (time : ℕ) : Except TxError Ledger := do
  let key ← validatorKey tx.sender
  let rec' ← ofOption .unknownValidator l.validators[key]?
  let served := rec'.jailedUntil.any fun until' => decide (until' ≤ time)
  if rec'.tombstoned || !served || rec'.unjailAt.isSome then .error .unjailNotAllowed
  else do
    let l ← l.debit tx.sender tx.fee
    .ok { l with validators := l.validators.insert key { rec' with unjailAt := some time } }

/-- Approve `candidate`, who is admitted once approvers of a quorum of the
    current stake agree. -/
def applyApprove (l : Ledger) (tx : Tx) (time : ℕ) (candidate : KeyId) :
    Except TxError Ledger := do
  let approver ← validatorKey tx.sender
  let cand ← ofOption .unknownValidator l.validators[candidate]?
  if !l.activeSet.contains approver || cand.legacy || cand.approvedAt.isSome || cand.tombstoned then
    .error .approveNotAllowed
  else if l.approvals[candidate]?.any fun a => a.contains approver then .error .approveNotAllowed
  else do
    let l ← l.debit tx.sender tx.fee
    let approvers := (l.approvals[candidate]?.getD ∅).insert approver
    let weight := (approvers.toList.map l.activeSet.weight).sum
    if l.activeSet.quorum ≤ weight then
      .ok { l with
        approvals := l.approvals.erase candidate
        validators := l.validators.insert candidate { cand with approvedAt := some time } }
    else .ok { l with approvals := l.approvals.insert candidate approvers }

/-- The operation of a transaction. -/
def applyKind (l : Ledger) (tx : Tx) (height time : ℕ) : Except TxError Ledger :=
  match tx.kind with
  | .transfer recipient amount => l.applyTransfer tx recipient amount
  | .stake amount => l.applyStake tx time amount
  | .unbond amount => l.applyUnbond tx height time amount
  | .unjail => l.applyUnjail tx time
  | .approve candidate => l.applyApprove tx time candidate

/-- Apply one transaction at block `height` and header time `time`. Returns the
    fee collected. -/
def applyTx (l : Ledger) (tx : Tx) (height time : ℕ) : Except TxError (ℕ × Ledger) :=
  if l.seenTx.contains tx.id then .error .duplicate
  else if tx.fee < l.params.baseFee then .error .feeTooLow
  else do
    let l ← l.applyKind tx height time
    .ok (tx.fee, { l with seenTx := l.seenTx.insert tx.id })

/-- The transactions of a block, from index `i` on; `fees` are the fees
    collected so far and `feeTxs` the transactions that paid one. -/
def applyTxs (height time : ℕ) (i : ℕ) (l : Ledger) (fees feeTxs : ℕ) :
    List Tx → Except BlockError (Ledger × ℕ × ℕ)
  | [] => .ok (l, fees, feeTxs)
  | tx :: txs => do
    let (fee, l) ← (l.applyTx tx height time).mapError (.tx i)
    let fees ← ofOption .arithmetic (checkedAdd fees fee)
    applyTxs height time (i + 1) l fees (feeTxs + if 0 < fee then 1 else 0) txs

/-! ## Evidence and slashing -/

/-- Verify one evidence item for inclusion in block `height` at header time
    `time`: the window rule, eligibility, the signatures and the floor rule. -/
def checkEvidence (l : Ledger) (ev : Evidence) (height time : ℕ) : Except EvidenceError Unit :=
  if Evidence.fromVotes ev.a ev.b ≠ some ev then .error .notConflicting
  else
    let off := ev.height
    if height ≤ off then .error .heightOutOfRange
    else do
      let offTime ← ofOption .heightOutOfRange l.times[off]?
      if l.params.evidenceMaxAgeMs < time - offTime then .error .tooOld
      else do
        let set ← ofOption .heightOutOfRange l.sets[off]?
        let domain := l.domainOf off
        if !set.contains ev.offender then .error .notEligible
        -- The V2 bytes of a pre-fork height have round 0 only.
        else if domain = .V2 ∧ ev.a.round ≠ 0 then .error .badSignature
        else if !ev.a.verify domain l.params.chainId || !ev.b.verify domain l.params.chainId then
          .error .badSignature
        else if l.validators[ev.offender]?.any fun r => r.slashFloor.any fun floor =>
            decide (off ≤ floor) then
          .error .alreadyPenalised
        else .ok ()

/-- The part of `x` that a penalty burns. -/
def cut (params : Params) (x : ℕ) : Except BlockError ℕ :=
  ofOption .arithmetic ((mulDivFloor x params.slashNum params.slashDen).filter fun c => decide (c ≤ x))

/-- Cut the unbonding entries of `key` created at or after the offence. Returns
    the entries and what was cut from them. -/
def cutUnbonding (params : Params) (key : KeyId) (offenceHeight : ℕ) :
    List UnbondingEntry → Except BlockError (List UnbondingEntry × ℕ)
  | [] => .ok ([], 0)
  | e :: es => do
    let c ← (if e.key = key ∧ offenceHeight ≤ e.createdHeight then cut params e.amount else .ok 0)
    let (es, total) ← cutUnbonding params key offenceHeight es
    .ok ({ e with amount := e.amount - c } :: es, wrap128 (c + total))

/-- Slash and tombstone. The cut is burned, what is left of the bond unbonds, and
    pending additions, which cannot have signed, are refunded. -/
def slash (l : Ledger) (key : KeyId) (offenceHeight time : ℕ) :
    Except BlockError (SlashEvent × Ledger) := do
  let rec' := l.validatorRec key
  let bondBefore := rec'.bond
  let cutBond ← cut l.params bondBefore
  let remainder := bondBefore - cutBond
  let validators := l.validators.insert key (rec'.slashed offenceHeight)
  let (unbonding, cutUnbonding) ← cutUnbonding l.params key offenceHeight l.unbonding
  let unbonding := unbonding.filter fun e => decide (0 < e.amount)
  let unbonding := if 0 < remainder then
      unbonding ++ [⟨key, remainder, l.height + 1, satAdd u64Max time l.params.unbondingMs⟩]
    else unbonding
  let refund := wrap128 ((l.pending.filter fun p => p.key == key).map PendingBond.amount).sum
  let pending := l.pending.filter fun p => p.key != key
  let l ← ({ l with validators, unbonding, pending } : Ledger).credit (.key key) refund
  let burnedSlash ← ofOption .arithmetic (checkedAdd l.burnedSlash (wrap128 (cutBond + cutUnbonding)))
  .ok (⟨key, offenceHeight, bondBefore, cutBond, cutUnbonding⟩,
    { l with approvals := l.approvals.erase key, burnedSlash })

/-- The evidence of a block, from index `i` on; `seen` are the offences so far. -/
def applyEvidence (height time : ℕ) (i : ℕ) (seen : ExtTreeSet (KeyId × ℕ)) (l : Ledger)
    (fx : Effects) : List Evidence → Except BlockError (Ledger × Effects)
  | [] => .ok (l, fx)
  | ev :: evs =>
    if seen.contains (ev.offender, ev.height) then .error (.evidence i .repeated)
    else do
      (l.checkEvidence ev height time).mapError (.evidence i)
      let (event, l) ← l.slash ev.offender ev.height time
      applyEvidence height time (i + 1) (seen.insert (ev.offender, ev.height)) l
        { fx with removed := fx.removed ++ [event.key], slashes := fx.slashes ++ [event] } evs

/-! ## Rewards -/

/-- Pay every signer its share of the vote pool; returns what was paid. The
    denominator is the whole weight, not that of the signers. -/
def payShares (votePool : ℕ) (prev : ValidatorSet) (l : Ledger) (fx : Effects) :
    List KeyId → Except BlockError (Ledger × Effects × ℕ)
  | [] => .ok (l, fx, 0)
  | key :: keys => do
    let share ← ofOption .arithmetic (mulDivFloor votePool (prev.weight key) prev.total)
    let l ← l.credit (.key key) share
    let (l, fx, paid) ← payShares votePool prev l
      { fx with credits := fx.credits ++ [(.key key, share)] } keys
    .ok (l, fx, wrap128 (share + paid))

/-- The rewards of a block: `signers` signed the parent certificate, `prev` is
    the set they belong to. What rounding leaves returns to the reserve. -/
def payRewards (l : Ledger) (fx : Effects) (builder : KeyId) (fees feeTxs dtMs : ℕ)
    (signers : List KeyId) (prev : ValidatorSet) : Except BlockError (Ledger × Effects) := do
  let md := fun a b d => ofOption BlockError.arithmetic (mulDivFloor a b d)
  let base ← ofOption .arithmetic (checkedMul l.params.baseFee feeTxs)
  let burn := min fees (base / 2)
  let dt := min dtMs l.params.heartbeatMs
  let rate ← md l.params.subsidyRate dt 1000
  let subsidy := min (l.balance .reserve) rate
  let pool := wrap128 (fees - burn + subsidy)
  let treasury ← md pool 10 100
  let propBase ← md pool 5 100
  let inclPool ← md pool 15 100
  let votePool ← md pool 70 100
  let wS := (signers.map prev.weight).sum
  let propIncl ← (if prev.total = 0 then .ok 0 else md inclPool wS prev.total)
  let l ← (l.debit .reserve subsidy).mapError fun _ => .arithmetic
  let l ← l.credit .treasury treasury
  let prop := wrap128 (propBase + propIncl)
  let l ← l.credit (.key builder) prop
  let fx := { fx with credits := fx.credits ++ [(.treasury, treasury), (.key builder, prop)] }
  let (l, fx, shares) ← payShares votePool prev l fx signers
  let unearned := pool - wrap128 (treasury + propBase + propIncl + shares)
  let l ← l.credit .reserve unearned
  let burnedFees ← ofOption .arithmetic (checkedAdd l.burnedFees burn)
  .ok ({ l with burnedFees }, { fx with fees, burn, subsidy, unearned })

/-! ## Downtime -/

/-- Record in the window of `key` whether it signed, and blame it if it was
    absent from too many certificates of enough assemblers. -/
def observeMember (params : Params) (assembler : KeyId) (signers : List KeyId)
    (state : ExtTreeMap KeyId ValidatorRec × List (KeyId × List KeyId)) (key : KeyId) :
    ExtTreeMap KeyId ValidatorRec × List (KeyId × List KeyId) :=
  let (validators, candidates) := state
  match validators[key]? with
  | none => state
  | some r =>
    if !r.inSet then state
    else
      let window := r.window ++ [(assembler, signers.contains key)]
      let window := window.drop (window.length - params.jailWindow)
      let validators := validators.insert key { r with window }
      let absent := window.filter fun w => !w.2
      let blamed := ExtTreeSet.ofList (absent.map Prod.fst)
      if absent.length ≤ params.jailMissed ∨ blamed.size < params.jailMinProposers then
        (validators, candidates)
      else (validators, candidates ++ [(key, blamed.toList)])

/-- Jail one candidate, unless that concentrates the stake or jails too much of
    it within the window. -/
def jail (height time : ℕ) (state : Ledger × Effects) (candidate : KeyId × List KeyId) :
    Ledger × Effects :=
  let (l, fx) := state
  let key := candidate.1
  let members := eligible l.validators
  let total := (members.map Prod.snd).sum
  let w := (members.lookup key).getD 0
  let remaining := total - w
  let concentrates := members.any fun m => m.1 != key && decide (remaining ≤ m.2 * 3)
  let jailedRecently := (l.jailLog.map Prod.snd).sum
  let overCap := decide (total < (jailedRecently + w) * 3)
  if concentrates || overCap then state
  else
    let validators := match l.validators[key]? with
      | some r => l.validators.insert key (r.jailed (satAdd u64Max time l.params.jailMs))
      | none => l.validators
    ({ l with validators, jailLog := l.jailLog ++ [(height, w)] },
      { fx with jailed := fx.jailed ++ [candidate] })

/-- Record who signed the parent certificate and jail for downtime. -/
def observeDowntime (l : Ledger) (fx : Effects) (height time : ℕ) (assembler : KeyId)
    (signers : List KeyId) (prev : ValidatorSet) : Ledger × Effects :=
  let (validators, candidates) := (prev.members.map Prod.fst).foldl
    (observeMember l.params assembler signers) (l.validators, [])
  let jailLog := l.jailLog.dropWhile fun p =>
    decide (satAdd u64Max p.1 l.params.jailWindow ≤ height)
  candidates.foldl (jail height time) ({ l with validators, jailLog }, fx)

/-! ## Unbonding release and epochs -/

/-- Release the unbonding entries that matured; returns those that stay. -/
def release (time : ℕ) (l : Ledger) (fx : Effects) :
    List UnbondingEntry → Except BlockError (Ledger × Effects × List UnbondingEntry)
  | [] => .ok (l, fx, [])
  | e :: es =>
    if e.releaseAt ≤ time then do
      let l ← l.credit (.key e.key) e.amount
      release time l { fx with released := fx.released ++ [(e.key, e.amount)] } es
    else do
      let (l, fx, keep) ← release time l fx es
      .ok (l, fx, e :: keep)

/-- Bond the pending additions that matured; returns those that stay. -/
def bondPending (matured : ℕ → Bool) (validators : ExtTreeMap KeyId ValidatorRec) :
    List PendingBond → Except BlockError (ExtTreeMap KeyId ValidatorRec × List PendingBond)
  | [] => .ok (validators, [])
  | p :: ps =>
    if matured p.includedAt then do
      let r := validators[p.key]?.getD {}
      let bond ← ofOption .arithmetic (checkedAdd r.bond p.amount)
      bondPending matured (validators.insert p.key { r with bond }) ps
    else do
      let (validators, still) ← bondPending matured validators ps
      .ok (validators, p :: still)

/-- Rank by weight, ties to the lowest key. -/
def rankLE (a b : ℕ × KeyId) : Prop := b.1 < a.1 ∨ a.1 = b.1 ∧ a.2 ≤ b.2

instance : DecidableRel rankLE := fun a b =>
  inferInstanceAs (Decidable (b.1 < a.1 ∨ a.1 = b.1 ∧ a.2 ≤ b.2))

/-- May the validator be in the active set from an epoch boundary on? -/
def qualifies (min : ℕ) (matured : ℕ → Bool) (r : ValidatorRec) : Bool :=
  let stakeOk := decide (min ≤ r.bond) || r.grace
  let admitted := r.legacy || r.approvedAt.any matured
  stakeOk && admitted && !r.tombstoned && r.jailedUntil.isNone && decide (0 < r.weight)

/-- Lift the jail of who asked for it long enough ago. -/
def unjailMatured (matured : ℕ → Bool) (r : ValidatorRec) : ValidatorRec :=
  if r.jailedUntil.isSome && r.unjailAt.any matured then
    { r with jailedUntil := none, unjailAt := none, window := [] }
  else r

/-- Enter or leave the active set. A jailed validator keeps its flag. -/
def setActive (chosen : List KeyId) (key : KeyId) (r : ValidatorRec) : ValidatorRec :=
  if r.jailedUntil.isSome then r
  else if chosen.contains key && !r.active then { r with active := true, window := [] }
  else if !chosen.contains key && r.active then { r with active := false }
  else r

/-- Epoch boundary: additions take effect, then the cap is applied. -/
def processEpoch (l : Ledger) (fx : Effects) (time : ℕ) : Except BlockError (Ledger × Effects) := do
  let matured := fun since => decide (l.params.activationDelayMs ≤ time - since)
  let (validators, pending) ← bondPending matured l.validators l.pending
  let validators := validators.map fun _ r => unjailMatured matured r
  let validators :=
    if l.params.graceMs ≤ time - l.activationTime then
      validators.map fun _ r => r.withoutGrace
    else validators
  let ranked := (validators.toList.filter fun p => qualifies l.params.minSelfStake matured p.2).map
    fun p => (p.2.weight, p.1)
  let chosen := ((ranked.insertionSort rankLE).take l.params.maxActive).map Prod.snd
  let free := validators.toList.filter fun p => p.2.jailedUntil.isNone
  let activated := (free.filter fun p => chosen.contains p.1 && !p.2.active).map Prod.fst
  let removed := (free.filter fun p => !chosen.contains p.1 && p.2.active).map Prod.fst
  .ok ({ l with validators := validators.map (setActive chosen), pending },
    { fx with activated := fx.activated ++ activated, removed := fx.removed ++ removed })

/-! ## Blocks -/

/-- Below the minimum self-stake and out of the grace, or without weight. -/
def belowMin (min : ℕ) (r : ValidatorRec) : Bool :=
  r.active && ((!r.grace && decide (r.bond < min)) || decide (r.weight = 0))

/-- Minimum self-stake is an immediate removal. -/
def removeBelowMin (l : Ledger) (fx : Effects) : Ledger × Effects :=
  let below := belowMin l.params.minSelfStake
  ({ l with validators := l.validators.map fun _ r => if below r then { r with active := false } else r },
    { fx with removed := fx.removed ++ (l.validators.toList.filter fun p => below p.2).map Prod.fst })

/-- Forget heights older than the evidence window, oldest first. -/
def pruneHistory (horizon height : ℕ) :
    List (ℕ × ℕ) → ExtTreeMap ℕ ℕ → ExtTreeMap ℕ ValidatorSet →
      ExtTreeMap ℕ ℕ × ExtTreeMap ℕ ValidatorSet
  | [], times, sets => (times, sets)
  | (h, t) :: rest, times, sets =>
    if t < horizon ∧ h + 2 < height then
      pruneHistory horizon height rest (times.erase h) (sets.erase h)
    else (times, sets)

/-- The new active set, re-weighted priorities and history. -/
def renewSet (l : Ledger) (height time : ℕ) : Except BlockError Ledger := do
  let set ← (ValidatorSet.new (eligible l.validators)).mapError fun _ => .schedule
  let schedule ← (l.schedule.reweight set).mapError fun _ => .schedule
  let sets := l.sets.insert (height + 1) set
  let times := l.times.insert height time
  let (times, sets) :=
    pruneHistory (time - l.params.evidenceMaxAgeMs) height times.toList times sets
  .ok { l with schedule, activeSet := set, sets, times }

/-- `E(height)` of the tip. -/
def prevSet (l : Ledger) : ValidatorSet := l.sets[l.height]?.getD .empty

/-- The parent certificate, verified under the rules of the height it certifies.
    Returns its signers. -/
def checkCert (l : Ledger) (b : Block) : Except BlockError (List KeyId) :=
  match b.parentCert with
  | none => if l.height = 0 then .ok [] else .error .certPresence
  | some cert =>
    if l.height = 0 then .error .certPresence
    else if cert.height ≠ l.height ∨ cert.block ≠ l.tip then .error .certMismatch
    else if cert.round < l.tipRound then .error .certRoundBelowHeader
    else do
      let _ ← (cert.verify (l.domainOf l.height) l.params.chainId l.prevSet).mapError .cert
      .ok cert.signers

/-- The header rules. -/
def checkHeader (l : Ledger) (b : Block) : Except BlockError Unit :=
  let hd := b.header
  if u64Max ≤ l.height then .error .arithmetic
  else if hd.height ≠ l.height + 1 then .error .wrongHeight
  else if hd.parent ≠ l.tip then .error .wrongParent
  else if hd.timeMs ≤ l.tipTime then .error .timeNotAfterParent
  else if (l.nextProposers.get hd.round).1 ≠ some hd.builder then .error .wrongProposer
  else if l.params.maxTxsPerBlock < b.txs.length ∨
      l.params.maxEvidencePerBlock < b.evidence.length then .error .tooLarge
  else if b.isEmpty && !l.heartbeatDue hd.timeMs then .error .emptyNotDue
  else .ok ()

/-- The first block whose header time crosses a boundary processes the epoch. -/
def crossEpoch (l : Ledger) (fx : Effects) (time : ℕ) : Except BlockError (Ledger × Effects) :=
  if 0 < l.params.epochMs ∧ l.tipTime / l.params.epochMs < time / l.params.epochMs then
    l.processEpoch { fx with epochBoundary := true } time
  else .ok (l, fx)

/-- Validate and apply `b`: the next ledger and what happened. -/
def applyBlock (l : Ledger) (b : Block) : Except BlockError (Ledger × Effects) := do
  l.checkHeader b
  let hd := b.header
  let height := l.height + 1
  let prev := l.prevSet
  let signers ← l.checkCert b
  let (proposer, schedule) ← l.schedule.step.mapError fun _ => .schedule
  let fx : Effects := { height, signers, round0Proposer := some proposer }
  let l := { l with schedule }
  let (l, fees, feeTxs) ← applyTxs height hd.timeMs 0 l 0 0 b.txs
  -- Before the release, so that an entry maturing in this block is still slashable.
  let (l, fx) ← applyEvidence height hd.timeMs 0 ∅ l fx b.evidence
  let (l, fx) ← l.payRewards fx hd.builder fees feeTxs (hd.timeMs - l.tipTime) signers prev
  -- Only certificates made under the new rules list every signer.
  let (l, fx) :=
    if b.parentCert.isSome ∧ l.domainOf l.height = .V3 then
      l.observeDowntime fx height hd.timeMs hd.builder signers prev
    else (l, fx)
  let (l, fx, unbonding) ← release hd.timeMs l fx l.unbonding
  let (l, fx) ← ({ l with unbonding } : Ledger).crossEpoch fx hd.timeMs
  let (l, fx) := l.removeBelowMin fx
  let l ← l.renewSet height hd.timeMs
  let l := { l with height, tip := b.id, tipTime := hd.timeMs, tipRound := hd.round }
  .ok (l, { fx with supplyAfter := l.totalSupply })

/-- Could the next block, at header time `time`, carry this evidence item? -/
def evidenceAdmissible (l : Ledger) (ev : Evidence) (time : ℕ) : Bool :=
  (l.checkEvidence ev (l.height + 1) time).isOk

/-- The ledgers that accepted blocks lead to from `l`. -/
inductive Reaches : Ledger → Ledger → Prop
  | refl {l : Ledger} : Reaches l l
  | block {l l' l'' : Ledger} {b : Block} {fx : Effects} :
      Reaches l l' → l'.applyBlock b = .ok (l'', fx) → Reaches l l''

/-- The ledgers of a chain: those reached from its genesis. -/
def Reachable (params : Params) (g : Genesis) (l : Ledger) : Prop :=
  ∃ l₀, genesis params g = .ok l₀ ∧ Reaches l₀ l

end Ledger

end RougeChain.Consensus
