import RougeChain.Bridge.Withdrawals

/-!
# The relayer's polls on Base

The relayer takes a withdrawal from a list of the daemon and pays it on Base: qETH and qUSDC
through the RougeBridge contract (`EvmPhase.move`), XRGE through the vault (`XrgePhase.move`). A
poll of one withdrawal gives up control at every `await`; it then moves by the answer it gets.
Failures are reported to the daemon, which counts them, and once there are enough of them the
relayer asks for a refund.

`World` puts the polls together with the daemon, with the two contracts and with the
transactions that are submitted and not mined. What was submitted may be mined at any later time,
or never; a read, a receipt wait or a call of the daemon may fail at any time, and a call that
fails for the relayer may still run at the daemon.
-/

open Std (ExtTreeSet ExtTreeMap)

namespace RougeChain.Bridge

/-! ## Base -/

/-- The contracts that pay withdrawals. -/
inductive PayoutContract
  | rougeBridge
  | vault
  deriving DecidableEq

/-- A release transaction of the relayer, for the withdrawal `txId`. -/
structure Release where
  contract : PayoutContract
  txId : String
  recipient : String
  amount : ℕ
  deriving DecidableEq

/-- What the contracts and the network hold: the flags `processedL1Txs`, the releases that wait
    in the timelock, those that were paid, and the transactions that may still be mined. -/
structure Base where
  processed : List (PayoutContract × String) := []
  timelock : List Release := []
  released : List Release := []
  mempool : List Release := []

/-- What a contract does with a release that it has not processed: it pays, it queues it, or the
    call reverts (a pause, a cap, a missing balance). -/
inductive Mined
  | pays
  | queues
  | reverts

/-- The id that a contract keeps for a withdrawal: RougeBridge has the hash of the stored id, the
    vault the id itself. -/
def l1TxId (rougeBridgeId : String → String) : PayoutContract → String → String
  | .rougeBridge, txId => rougeBridgeId txId
  | .vault, txId => txId

namespace Base

variable (rougeBridgeId : String → String) (b : Base)

/-- The flag `processedL1Txs` of a withdrawal. -/
def flagged (contract : PayoutContract) (txId : String) : Bool :=
  decide ((contract, l1TxId rougeBridgeId contract txId) ∈ b.processed)

/-- Transaction `k` is mined. A release of an id that is processed reverts. -/
def mine (k : ℕ) (outcome : Mined) : Base :=
  match b.mempool[k]? with
  | none => b
  | some r =>
    let b' := { b with mempool := b.mempool.eraseIdx k }
    if b.flagged rougeBridgeId r.contract r.txId then b'
    else
      let processed := (r.contract, l1TxId rougeBridgeId r.contract r.txId) :: b.processed
      match outcome with
      | .pays => { b' with processed, released := b.released ++ [r] }
      | .queues => { b' with processed, timelock := b.timelock ++ [r] }
      | .reverts => b'

/-- Transaction `k` is replaced or dropped for good. -/
def drop (k : ℕ) : Base := { b with mempool := b.mempool.eraseIdx k }

/-- Request `k` of the timelock is executed. -/
def execute (k : ℕ) : Base :=
  match b.timelock[k]? with
  | none => b
  | some r => { b with timelock := b.timelock.eraseIdx k, released := b.released ++ [r] }

/-- Request `k` of the timelock is cancelled; its flag stays. -/
def cancel (k : ℕ) : Base := { b with timelock := b.timelock.eraseIdx k }

end Base

/-! ## Polls -/

structure RelayerConfig where
  bridgeAddress : Option String
  vaultAddress : Option String
  maxRetries : ℕ
  autoRefund : Bool

/-- A withdrawal as the relayer reads it from a list. -/
structure Item where
  txId : String
  evmAddress : String
  amountUnits : ℕ
  tokenSymbol : String
  deriving DecidableEq

def isHexDigit (c : Char) : Bool :=
  c.isDigit || ('a' ≤ c && c ≤ 'f') || ('A' ≤ c && c ≤ 'F')

/-- An address in any casing. -/
def isEvmAddress (a : String) : Bool :=
  match a.toList with
  | '0' :: 'x' :: digits => digits.length == 40 && digits.all isHexDigit
  | _ => false

/-- White space as JavaScript trims it. -/
def isJsWhitespace (c : Char) : Bool :=
  (Text.isWhitespace c && c.toNat != 0x85) || c.toNat == 0xFEFF

/-- The relayer's own reading of a symbol. -/
def relayerRoute (tokenSymbol : String) : PayoutRoute :=
  let t := Text.lower (Text.trim isJsWhitespace tokenSymbol)
  if t = "xrge" then .xrge
  else if t = "qeth" then .eth
  else if t = "qusdc" then .usdc
  else if t = "qbtc" then .btc
  else .unsupported

/-- What the relayer owes for an item of the EVM list. -/
def owedAmount (item : Item) : ℕ :=
  if relayerRoute item.tokenSymbol = .eth then item.amountUnits * 10 ^ 12 else item.amountUnits

/-- What is found on chain about an id that is processed. -/
inductive ProcessedClass
  | paid (txHash : String)
  | queued
  | cancelledRefundCandidate
  | ambiguous
  deriving DecidableEq

/-- What a successful receipt says. -/
inductive ReceiptClass
  | verified
  | queued
  | ambiguous
  deriving DecidableEq

/-- What the vault's release events say about an id that is processed. -/
inductive VaultHits
  | nothing
  | ambiguous
  | one (txHash : String)
  deriving DecidableEq

/-- How a submission ends: with a hash, or with an error after the transaction was broadcast or
    before. -/
inductive Sent
  | hash (h : String)
  | lost (error : String)
  | refused (error : String)

/-- How a call of the daemon ends for the relayer: it is made, it fails and runs later, or it
    fails. -/
inductive Called
  | made
  | late
  | failed

inductive Outcome
  | awaitingConfirmations
  | fulfilled
  | queued
  | reconciledPaid
  | reconciledQueued
  | reconciledFulfilled
  | cancelledRefundCandidate
  | ambiguous
  | processedNoReleaseFound
  | skippedUnsupported
  | skippedInvalid
  | skippedNoBridge
  | skippedQueued
  | skippedRpc
  | fulfillApiFailed
  | fulfillRejected
  | failed
  | refunded
  | threw
  deriving DecidableEq

/-- What a poll is told at an `await`. A flag that is read without error is read as it is; the
    scans and receipts say what they say. -/
structure Answer where
  readError : Option String := none
  scan : Option ProcessedClass := none
  deep : Bool := false
  sent : Sent := .refused ""
  receipt : Except String Bool := .error ""
  receiptClass : ReceiptClass := .ambiguous
  hits : Option VaultHits := none
  called : Called := .failed

/-- What the relayer remembers between polls. -/
structure Memory where
  queued : ExtTreeSet String := ∅
  processedTxIds : ExtTreeSet String := ∅
  pendingFulfill : ExtTreeMap String String := ∅

/-- A poll of the EVM list, by what it waits for. -/
inductive EvmPhase
  | check
  | reconcile
  | recheck (attempt : ℕ) (lastErr : String)
  | send (attempt : ℕ) (lastErr : String)
  | receipt (hash : String)
  | classify (hash : String)
  | depth (hash : String) (reconciled : Bool)
  | fulfill (hash : String) (reconciled : Bool)
  | fulfilling (call : ℕ) (reconciled : Bool)
  | failure (error : String)
  | report (error : String)
  | refundCheck
  | refundScan
  | refund
  | refunding (call : ℕ)
  | done (outcome : Outcome)

/-- A poll of the XRGE list. -/
inductive XrgePhase
  | check
  | scan
  | depth (hash : String) (reconciled : Bool)
  | fulfill (hash : String) (reconciled : Bool)
  | fulfilling (call : ℕ) (hash : String) (reconciled : Bool)
  | release
  | errorCheck (error : String)
  | receipt (hash : String)
  | revertCheck (hash : String)
  | report (error : String)
  | refund
  | refunding (call : ℕ)
  | done (outcome : Outcome)

inductive Poll
  | evm (item : Item) (phase : EvmPhase)
  | xrge (item : Item) (phase : XrgePhase)

namespace Poll

def item : Poll → Item
  | .evm item _ => item
  | .xrge item _ => item

def contract : Poll → PayoutContract
  | .evm _ _ => .rougeBridge
  | .xrge _ _ => .vault

/-- The withdrawal is in `inFlightTxIds`. -/
def inFlight : Poll → Bool
  | .evm _ (.done _) => false
  | .xrge _ (.done _) => false
  | _ => true

end Poll

/-- What a poll does when it gets an answer: where it goes on, the transaction it broadcasts, the
    request it makes to the daemon, a failure report that is answered at once, and what it
    remembers. -/
structure Move (P : Type) where
  phase : P
  broadcast : Option Release := none
  request : Option Request := none
  reported : Option String := none
  memory : Memory

/-- Enough failed attempts for a refund. -/
def withdrawalRefundThreshold : ℕ := 5

/-- The daemon's answer to a report: the attempts it has counted, if the record is known. -/
def reportedAttempts (l : List PendingWithdrawal) (txId error : String) : Option ℕ :=
  match WithdrawStore.recordAttempt l txId (some error) with
  | .ok l => (WithdrawStore.get l txId).map (·.attempts)
  | .error _ => none

/-- Whether the relayer asks for a refund after the report. -/
def shouldRefund (cfg : RelayerConfig) (l : List PendingWithdrawal) (txId error : String) : Bool :=
  cfg.autoRefund && (reportedAttempts l txId error).any (withdrawalRefundThreshold ≤ ·)

/-- The answer of request `call`, when the daemon is done with it. -/
def answered (tasks : List Task) (call : ℕ) : Option (Except String Unit) :=
  match tasks[call]? with
  | some (.done response) => some response
  | _ => none

/-- A JavaScript `||` of texts. -/
def orElse (s t : String) : String := if s = "" then t else s

section Moves

variable (cfg : RelayerConfig) (rougeBridgeId : String → String) (d : Daemon) (b : Base)
  (m : Memory) (item : Item) (a : Answer)

/-- The key of the map of queued withdrawals. -/
def queuedKey (txId : String) : String := Text.lower (rougeBridgeId txId)

/-- The id is kept from being released again. -/
def persistQueued : Memory :=
  { m with queued := m.queued.insert (queuedKey rougeBridgeId item.txId) }

def markProcessed : Memory := { m with processedTxIds := m.processedTxIds.insert item.txId }

/-- After a failed submission: again, as long as there are attempts left. -/
def nextAttempt (attempt : ℕ) (lastErr : String) : EvmPhase :=
  if attempt < max 1 cfg.maxRetries then .recheck (attempt + 1) lastErr
  else .failure (orElse lastErr "release submission failed")

/-- What is done about an id that is processed. -/
def applyReconciliation : Move EvmPhase :=
  match a.scan with
  | none => { phase := .done .skippedRpc, memory := m }
  | some (.paid txHash) => { phase := .depth txHash true, memory := m }
  | some .queued =>
    { phase := .done .reconciledQueued, memory := persistQueued rougeBridgeId m item }
  | some .cancelledRefundCandidate =>
    { phase := .done .cancelledRefundCandidate, memory := persistQueued rougeBridgeId m item }
  | some .ambiguous => { phase := .done .ambiguous, memory := persistQueued rougeBridgeId m item }

/-- A call of the daemon. When it is made, the poll waits for task `d.tasks.length`; otherwise it
    goes on with `otherwise`, whether the request runs later or not. -/
def call {P : Type} (req : Request) (waiting : ℕ → P) (otherwise : P) (memory : Memory) : Move P :=
  match a.called with
  | .made => { phase := waiting d.tasks.length, request := some req, memory }
  | .late => { phase := otherwise, request := some req, memory }
  | .failed => { phase := otherwise, memory }

/-- A failure report. A report that is answered at once is counted at once. -/
def reportFailure {P : Type} (error : String) (refund failed : P) : Move P :=
  match a.called with
  | .made =>
    { phase := if shouldRefund cfg d.stores.withdrawals item.txId error then refund else failed
      reported := some error
      memory := m }
  | .late =>
    { phase := failed, request := some (.reportFailure item.txId (some error)), memory := m }
  | .failed => { phase := failed, memory := m }

/-- One turn of `processEvmWithdrawal`. -/
def EvmPhase.move : EvmPhase → Move EvmPhase
  | .check =>
    match a.readError with
    | some _ => { phase := .done .skippedRpc, memory := m }
    | none =>
      if b.flagged rougeBridgeId .rougeBridge item.txId then { phase := .reconcile, memory := m }
      else { phase := .send 1 "", memory := m }
  | .reconcile => applyReconciliation rougeBridgeId m item a
  | .recheck attempt lastErr =>
    match a.readError with
    | some e => { phase := .failure ("processedL1Txs re-check failed: " ++ e), memory := m }
    | none =>
      -- the earlier attempt landed: no further one
      if b.flagged rougeBridgeId .rougeBridge item.txId then
        { phase := .failure (orElse lastErr "release submission failed"), memory := m }
      else { phase := .send attempt lastErr, memory := m }
  | .send attempt _ =>
    let release := ⟨.rougeBridge, item.txId, item.evmAddress, owedAmount item⟩
    match a.sent with
    | .hash h => { phase := .receipt h, broadcast := some release, memory := m }
    | .lost e => { phase := nextAttempt cfg attempt e, broadcast := some release, memory := m }
    | .refused e => { phase := nextAttempt cfg attempt e, memory := m }
  | .receipt hash =>
    match a.receipt with
    | .error e =>
      { phase := .failure ("receipt wait failed for " ++ hash ++ ": " ++ e), memory := m }
    | .ok false => { phase := .failure ("release tx reverted: " ++ hash), memory := m }
    | .ok true => { phase := .classify hash, memory := m }
  | .classify hash =>
    match a.receiptClass with
    | .verified => { phase := .depth hash false, memory := m }
    | .queued => { phase := .done .queued, memory := persistQueued rougeBridgeId m item }
    | .ambiguous => { phase := .done .ambiguous, memory := persistQueued rougeBridgeId m item }
  | .depth hash reconciled =>
    if a.deep then { phase := .fulfill hash reconciled, memory := m }
    else { phase := .done .awaitingConfirmations, memory := m }
  | .fulfill hash reconciled =>
    call d a (.fulfill .evm item.txId (some hash)) (.fulfilling · reconciled) (.done .threw) m
  | .fulfilling k reconciled =>
    match answered d.tasks k with
    | some (.ok ()) =>
      if reconciled then
        { phase := .done .reconciledPaid
          memory := { markProcessed m item with
            queued := m.queued.erase (queuedKey rougeBridgeId item.txId) } }
      else { phase := .done .fulfilled, memory := markProcessed m item }
    | some (.error _) => { phase := .done .fulfillApiFailed, memory := m }
    | none => { phase := .done .threw, memory := m }
  | .failure error =>
    match a.readError with
    | some _ => { phase := .done .skippedRpc, memory := m }
    | none =>
      if b.flagged rougeBridgeId .rougeBridge item.txId then { phase := .reconcile, memory := m }
      else { phase := .report error, memory := m }
  | .report error => reportFailure cfg d m item a error .refundCheck (.done .failed)
  | .refundCheck =>
    match a.readError with
    | some _ => { phase := .done .failed, memory := m }
    | none =>
      if b.flagged rougeBridgeId .rougeBridge item.txId then { phase := .refundScan, memory := m }
      else { phase := .refund, memory := m }
  | .refundScan => { phase := .done .failed, memory := m }
  | .refund => call d a (.refund item.txId) .refunding (.done .failed) m
  | .refunding k =>
    match answered d.tasks k with
    | some (.ok ()) => { phase := .done .refunded, memory := markProcessed m item }
    | _ => { phase := .done .failed, memory := m }
  | .done outcome => { phase := .done outcome, memory := m }

/-- One turn of `processXrgeWithdrawal`, with the failure handling that it is given. -/
def XrgePhase.move : XrgePhase → Move XrgePhase
  | .check =>
    match a.readError with
    | some _ => { phase := .done .skippedRpc, memory := m }
    | none =>
      if b.flagged rougeBridgeId .vault item.txId then
        match m.pendingFulfill[item.txId]? with
        | some hash => { phase := .depth hash true, memory := m }
        | none => { phase := .scan, memory := m }
      else { phase := .release, memory := m }
  | .scan =>
    match a.hits with
    | none => { phase := .done .skippedRpc, memory := m }
    | some .nothing => { phase := .done .processedNoReleaseFound, memory := m }
    | some .ambiguous => { phase := .done .ambiguous, memory := m }
    | some (.one hash) => { phase := .depth hash true, memory := m }
  | .depth hash reconciled =>
    if a.deep then { phase := .fulfill hash reconciled, memory := m }
    else
      { phase := .done .awaitingConfirmations
        memory := { m with pendingFulfill := m.pendingFulfill.insert item.txId hash } }
  | .fulfill hash reconciled =>
    call d a (.fulfill .xrge item.txId (some hash)) (.fulfilling · hash reconciled)
      (.done .fulfillRejected) { m with pendingFulfill := m.pendingFulfill.insert item.txId hash }
  | .fulfilling k hash reconciled =>
    let pending := { m with pendingFulfill := m.pendingFulfill.insert item.txId hash }
    match answered d.tasks k with
    | some (.ok ()) =>
      { phase := .done (if reconciled then .reconciledFulfilled else .fulfilled)
        memory := { markProcessed m item with
          pendingFulfill := m.pendingFulfill.erase item.txId } }
    | some (.error e) =>
      { phase := .done (if Text.mentions e "confirmation" then .awaitingConfirmations
          else .fulfillRejected)
        memory := pending }
    | none => { phase := .done .fulfillRejected, memory := pending }
  | .release =>
    let release := ⟨.vault, item.txId, item.evmAddress, item.amountUnits * 10 ^ 18⟩
    match a.sent with
    | .hash h => { phase := .receipt h, broadcast := some release, memory := m }
    | .lost e => { phase := .errorCheck e, broadcast := some release, memory := m }
    | .refused e => { phase := .errorCheck e, memory := m }
  | .errorCheck error =>
    match a.readError with
    | some _ => { phase := .done .skippedRpc, memory := m }
    | none =>
      if b.flagged rougeBridgeId .vault item.txId then
        { phase := .done .awaitingConfirmations, memory := m }
      else { phase := .report (orElse error "release failed"), memory := m }
  | .receipt hash =>
    match a.receipt with
    | .error _ => { phase := .done .awaitingConfirmations, memory := m }
    | .ok false => { phase := .revertCheck hash, memory := m }
    | .ok true => { phase := .depth hash false, memory := m }
  | .revertCheck hash =>
    match a.readError with
    | some _ => { phase := .done .skippedRpc, memory := m }
    | none =>
      if b.flagged rougeBridgeId .vault item.txId then
        { phase := .done .awaitingConfirmations, memory := m }
      else { phase := .report ("release tx reverted: " ++ hash), memory := m }
  | .report error => reportFailure cfg d m item a error .refund (.done .failed)
  | .refund => call d a (.refund item.txId) .refunding (.done .failed) m
  | .refunding k =>
    match answered d.tasks k with
    | some (.ok ()) => { phase := .done .failed, memory := markProcessed m item }
    | _ => { phase := .done .failed, memory := m }
  | .done outcome => { phase := .done outcome, memory := m }

/-- The first part of `processEvmWithdrawal`, up to its first `await`. -/
def startEvm : EvmPhase :=
  if relayerRoute item.tokenSymbol ≠ .eth ∧ relayerRoute item.tokenSymbol ≠ .usdc then
    .done .skippedUnsupported
  else if ¬ (0 < item.amountUnits ∧ item.amountUnits < 2 ^ 53) ∨ ¬ isEvmAddress item.evmAddress then
    .done .skippedInvalid
  else if queuedKey rougeBridgeId item.txId ∈ m.queued then .done .skippedQueued
  else if cfg.bridgeAddress = none then .done .skippedNoBridge
  else .check

def Poll.move : Poll → Move Poll
  | .evm item phase =>
    let mv := phase.move cfg rougeBridgeId d b m item a
    { mv with phase := .evm item mv.phase }
  | .xrge item phase =>
    let mv := phase.move cfg rougeBridgeId d b m item a
    { mv with phase := .xrge item mv.phase }

end Moves

/-! ## The whole system -/

structure World where
  daemon : Daemon := Daemon.init
  base : Base := {}
  polls : List Poll := []
  memory : Memory := {}

/-- What can happen. A poll begins with an item of some list, however old the list is; an open
    poll gets its answer; a task of the daemon runs its next segment; blocks and rebuilds add
    records; the daemon restarts and all its calls end; the relayer restarts with the memory of
    its files, or its memory changes otherwise; the network moves. -/
inductive Happening
  | poll (contract : PayoutContract) (item : Item)
  | turn (i : ℕ) (a : Answer)
  | daemon (i : ℕ) (r : Reply)
  | block (burns : List (Burn × Bool))
  | rebuild (burns : List (Burn × Bool))
  | daemonRestart
  | relayerRestart (m : Memory)
  | remember (m : Memory)
  | mine (k : ℕ) (outcome : Mined)
  | drop (k : ℕ)
  | execute (k : ℕ)
  | cancel (k : ℕ)

namespace World

variable (cfg : RelayerConfig) (s : Settings) (c : Chains) (w : World)

/-- The daemon after the requests of a move: a report that is answered runs at once, any other
    request becomes a task. -/
def requested {P : Type} (txId : String) (mv : Move P) : Daemon :=
  let stores := match mv.reported with
    | some error =>
      match WithdrawStore.recordAttempt w.daemon.stores.withdrawals txId (some error) with
      | .ok l => { w.daemon.stores with withdrawals := l }
      | .error _ => w.daemon.stores
    | none => w.daemon.stores
  ⟨stores, w.daemon.tasks ++ (mv.request.map Task.start).toList⟩

/-- Poll `i` makes the move `mv`. -/
def moved (i : ℕ) (txId : String) (mv : Move Poll) : World where
  daemon := w.requested txId mv
  base := { w.base with mempool := w.base.mempool ++ mv.broadcast.toList }
  polls := w.polls.set i mv.phase
  memory := mv.memory

/-- The withdrawal is being polled. -/
def inFlight (txId : String) : Bool := w.polls.any fun p => p.inFlight && p.item.txId == txId

/-- The poll that an item of a list begins, unless it is skipped. -/
def begins (contract : PayoutContract) (item : Item) : Option Poll :=
  if item.txId ∈ w.memory.processedTxIds ∨ w.inFlight item.txId then none
  else
    match contract with
    | .rougeBridge =>
      if item.txId = "" then none
      else some (.evm item (startEvm cfg c.rougeBridgeId w.memory item))
    | .vault => if cfg.vaultAddress = none then none else some (.xrge item .check)

/-- The daemon's look at the vault is true, or fails. -/
def reply (r : Reply) (txId : String) : Reply :=
  { r with vault := r.vault.map fun _ => w.base.flagged c.rougeBridgeId .vault txId }

/-- A task of the daemon runs its next segment. -/
def daemonTurn (i : ℕ) (r : Reply) : Daemon :=
  match w.daemon.tasks[i]? with
  | some (.vault txId v) =>
    ⟨(Task.run s c w.daemon.stores (w.reply c r txId) (.vault txId v)).1,
      w.daemon.tasks.set i (Task.run s c w.daemon.stores (w.reply c r txId) (.vault txId v)).2⟩
  | _ => Daemon.step s c w.daemon (.advance i r)

def step : Happening → World
  | .poll contract item =>
    match w.begins cfg c contract item with
    | some p => { w with polls := w.polls ++ [p] }
    | none => w
  | .turn i a =>
    match w.polls[i]? with
    | some p =>
      w.moved i p.item.txId (p.move cfg c.rougeBridgeId w.daemon w.base w.memory a)
    | none => w
  | .daemon i r => { w with daemon := w.daemonTurn s c i r }
  | .block burns => { w with daemon := Daemon.step s c w.daemon (.block burns) }
  | .rebuild burns => { w with daemon := Daemon.step s c w.daemon (.rebuild burns) }
  | .daemonRestart =>
    { w with daemon := { w.daemon with
        tasks := w.daemon.tasks.map fun _ => .done (.error "connection closed") } }
  | .relayerRestart m => { w with polls := [], memory := m }
  | .remember m => { w with memory := m }
  | .mine k outcome => { w with base := w.base.mine c.rougeBridgeId k outcome }
  | .drop k => { w with base := w.base.drop k }
  | .execute k => { w with base := w.base.execute k }
  | .cancel k => { w with base := w.base.cancel k }

end World

end RougeChain.Bridge
