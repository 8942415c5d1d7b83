import RougeChain.Bridge.BtcPayout

/-!
# Withdrawals and the handlers that settle them

The daemon keeps a record of every withdrawal (`BridgeWithdrawStore`) and serves the relayers:
the list of what is still to be paid, a report of a failed attempt, a refund, and one handler per
payout rail that marks a withdrawal fulfilled after it has verified the payout on its chain.

A handler gives up control at every `await`, so it is a task that moves in segments, and other
handlers run between two of them. Store writes complete before the next segment; a restart drops
the tasks and keeps the stores.
-/

open Std (ExtTreeSet)
open Fallible (require ofOption)

namespace RougeChain.Bridge

/-! ## The store of withdrawals -/

inductive WithdrawalStatus
  | pending
  | fulfilled
  | failed
  | refunded
  deriving DecidableEq

structure PendingWithdrawal where
  txId : String
  evmAddress : String
  amountUnits : ℕ
  ownerPubkey : String
  tokenSymbol : String
  status : WithdrawalStatus
  attempts : ℕ
  lastError : Option String
  payoutTxHash : Option String
  deriving DecidableEq

/-- A record the relayers are done with. -/
def WithdrawalStatus.terminal (s : WithdrawalStatus) : Bool := s = .fulfilled || s = .refunded

namespace WithdrawStore

def get (l : List PendingWithdrawal) (txId : String) : Option PendingWithdrawal :=
  l.find? (·.txId = txId)

/-- Changes the first record of `txId`. -/
def update (l : List PendingWithdrawal) (txId : String)
    (f : PendingWithdrawal → PendingWithdrawal) : List PendingWithdrawal :=
  match l with
  | [] => []
  | w :: l => if w.txId = txId then f w :: l else w :: update l txId f

/-- Adds a record, unless there is one of the same id. -/
def add (l : List PendingWithdrawal) (txId evmAddress : String) (amountUnits : ℕ)
    (ownerPubkey tokenSymbol : String) : List PendingWithdrawal :=
  if l.any (·.txId = txId) then l
  else l ++ [⟨txId, evmAddress, amountUnits, ownerPubkey, tokenSymbol, .pending, 0, none, none⟩]

/-- Counts a failed attempt and marks the record failed. -/
def recordAttempt (l : List PendingWithdrawal) (txId : String) (error : Option String) :
    Except String (List PendingWithdrawal) :=
  match get l txId with
  | none => .error "withdrawal not found"
  | some _ =>
    .ok (update l txId fun w =>
      { w with
        attempts := min (w.attempts + 1) (2 ^ 32 - 1), lastError := error, status := .failed })

def setStatus (l : List PendingWithdrawal) (txId : String) (s : WithdrawalStatus) :
    List PendingWithdrawal :=
  update l txId fun w => { w with status := s }

/-- The records the relayers still have to act on. -/
def listPending (l : List PendingWithdrawal) : List PendingWithdrawal :=
  l.filter fun w => ¬ w.status.terminal

/-- Marks a record fulfilled by a payout, unless it is unknown or settled: then nothing changes
    and the answer is `false`. -/
def markFulfilled (l : List PendingWithdrawal) (txId payout : String) :
    Bool × List PendingWithdrawal :=
  match get l txId with
  | some w =>
    if w.status.terminal then (false, l)
    else (true, update l txId fun w =>
      { w with status := .fulfilled, payoutTxHash := some payout })
  | none => (false, l)

/-- The same, for a payout that is recorded for no other withdrawal. -/
def markFulfilledUniquePayout (l : List PendingWithdrawal) (txId payoutTxHash : String) :
    Except String (Bool × List PendingWithdrawal) :=
  let payout := Text.lower (Text.trim Text.isWhitespace payoutTxHash)
  if payout = "" then .error "empty payout tx hash"
  else
    match l.find? fun w => w.txId ≠ txId ∧ w.payoutTxHash.any fun h =>
        Text.eqIgnoreCase (Text.trim Text.isWhitespace h) payout with
    | some other => .error ("payout " ++ payout ++ " already settled withdrawal " ++ other.txId)
    | none => .ok (markFulfilled l txId payout)

section

variable {l : List PendingWithdrawal} {i j : String} {f : PendingWithdrawal → PendingWithdrawal}

theorem get_update (hf : ∀ w, (f w).txId = w.txId) :
    get (update l j f) i = if j = i then (get l i).map f else get l i := by
  induction l with
  | nil => simp [update, get]
  | cons w l ih =>
    rw [update]
    by_cases hwj : w.txId = j
    · subst hwj
      by_cases hji : w.txId = i
      · simp [get, hf, hji]
      · simp [get, hf, hji]
    · by_cases hwi : w.txId = i
      · subst hwi
        simp [get, hwj, Ne.symm hwj]
      · simp only [hwj, if_false, get, List.find?_cons, hwi, decide_false] at ih ⊢
        exact ih

theorem nodup_update (hf : ∀ w, (f w).txId = w.txId)
    (hl : (l.map PendingWithdrawal.txId).Nodup) :
    ((update l j f).map PendingWithdrawal.txId).Nodup := by
  have hmap : (update l j f).map PendingWithdrawal.txId = l.map PendingWithdrawal.txId := by
    clear hl
    induction l with
    | nil => rfl
    | cons w l ih =>
      rw [update]
      split
      · rw [List.map_cons, List.map_cons, hf]
      · rw [List.map_cons, List.map_cons, ih]
  rw [hmap]
  exact hl

theorem forall_mem_update {P : PendingWithdrawal → Prop} (h : ∀ w ∈ l, P w)
    (hf : ∀ w, P w → P (f w)) : ∀ w ∈ update l j f, P w := by
  induction l with
  | nil => exact h
  | cons v l ih =>
    have hv := h v List.mem_cons_self
    have hl : ∀ w ∈ l, P w := fun w hw => h w (List.mem_cons_of_mem _ hw)
    rw [update]
    split
    · exact List.forall_mem_cons.2 ⟨hf v hv, hl⟩
    · exact List.forall_mem_cons.2 ⟨hv, ih hl⟩

theorem txId_of_get {w : PendingWithdrawal} (h : get l i = some w) : w.txId = i := by
  simpa using List.find?_some h

/-- In a store with one record per id, a record is the one of its id. -/
theorem get_of_mem (hl : (l.map PendingWithdrawal.txId).Nodup) {w : PendingWithdrawal}
    (hw : w ∈ l) : get l w.txId = some w := by
  induction l with
  | nil => cases hw
  | cons v l ih =>
    rw [List.map_cons, List.nodup_cons] at hl
    rcases List.mem_cons.1 hw with rfl | hw
    · simp [get]
    · have hne : v.txId ≠ w.txId := fun h => hl.1 (h ▸ List.mem_map_of_mem hw)
      rw [get, List.find?_cons, decide_eq_false hne]
      exact ih hl.2 hw

variable {evmAddress ownerPubkey tokenSymbol : String} {amountUnits : ℕ}

theorem nodup_add (hl : (l.map PendingWithdrawal.txId).Nodup) :
    ((add l j evmAddress amountUnits ownerPubkey tokenSymbol).map
      PendingWithdrawal.txId).Nodup := by
  rw [add]
  split
  · exact hl
  · next hj =>
    rw [List.map_append, List.nodup_append]
    refine ⟨hl, List.nodup_singleton _, ?_⟩
    rintro a ha b hb rfl
    obtain ⟨w, hw, rfl⟩ := List.mem_map.1 ha
    rw [List.map_singleton, List.mem_singleton] at hb
    exact hj (List.any_eq_true.2 ⟨w, hw, by simpa using hb⟩)

/-- A record stays what it is when others are added. -/
theorem get_add {w : PendingWithdrawal} (h : get l i = some w) :
    get (add l j evmAddress amountUnits ownerPubkey tokenSymbol) i = some w := by
  rw [add]
  split
  · exact h
  · rw [get] at h ⊢
    rw [List.find?_append, h, Option.some_or]

end

end WithdrawStore

/-! ## Records of accepted blocks -/

/-- The rail a token is paid out on. -/
inductive PayoutRoute
  | xrge
  | eth
  | usdc
  | btc
  | unsupported
  deriving DecidableEq

def payoutRoute (canonicalToken : String) : PayoutRoute :=
  let t := Text.trim Text.isWhitespace canonicalToken
  if Text.eqIgnoreCase t "XRGE" then .xrge
  else if Text.eqIgnoreCase t "qETH" then .eth
  else if Text.eqIgnoreCase t "qUSDC" then .usdc
  else if Text.eqIgnoreCase t "qBTC" then .btc
  else .unsupported

/-- A burn with a destination, as an accepted block leaves it: the token, the amount, where to
    pay, the hash of the transaction and its sender. -/
structure Burn where
  canonicalToken : String
  amount : ℕ
  destination : String
  rougechainTxId : List UInt8
  owner : String

/-- The text of a byte. -/
def byteToHex (b : UInt8) : List Char :=
  [Nat.digitChar (b.toNat / 16), Nat.digitChar (b.toNat % 16)]

def bytesToHex (bytes : List UInt8) : String := String.ofList (bytes.flatMap byteToHex)

/-- The id of the record of a burn. -/
def Burn.txId (b : Burn) : String :=
  (if b.canonicalToken = "XRGE" then "xrge:" else "") ++ bytesToHex b.rougechainTxId

/-- Only a burn of a token with a payout rail gets a record. -/
def Burn.record (b : Burn) (l : List PendingWithdrawal) : List PendingWithdrawal :=
  if payoutRoute b.canonicalToken = .unsupported then l
  else WithdrawStore.add l b.txId b.destination b.amount b.owner b.canonicalToken

/-! ## Payouts on Base -/

/-- An event of a Base transaction, by the contract that emitted it. -/
inductive Log
  | bridgeReleaseEth (emitter recipient : String) (amount : ℕ) (l1TxId : String)
  | bridgeReleaseErc20 (emitter recipient token : String) (amount : ℕ) (l1TxId : String)
  | transfer (emitter sender recipient : String) (amount : ℕ)
  deriving DecidableEq

/-- A mined transaction of Base, with its receipt. -/
structure BaseTx where
  hash : String
  target : String
  success : Bool
  block : ℕ
  logs : List Log
  deriving DecidableEq

/-- The settings of the bridge. -/
structure Settings where
  rougeBridge : Option String
  usdc : Option String
  xrgeVault : Option String
  xrgeToken : String
  btcCustody : Option String
  minConfirmations : ℕ
  btcMinConfirmations : ℕ
  btcMaxNetworkFee : ℕ

/-- The two payout chains, and the hash of a withdrawal id. A Base transaction is asked for by a
    text, and two texts that lead to one hash lead to one transaction. -/
structure Chains where
  base : String → Option BaseTx
  bitcoin : String → Option EsploraTx
  rougeBridgeId : String → String
  base_hash : ∀ s t p q, base s = some p → base t = some q → p.hash = q.hash → p = q
  rougeBridgeId_injective : Function.Injective rougeBridgeId

structure RougeBridgeRelease where
  recipient : String
  token : Option String
  amount : ℕ
  l1TxId : String
  deriving DecidableEq

/-- The releases of the RougeBridge contract among the events. -/
def decodeRougeBridgeReleases (logs : List Log) (rougeBridge : String) :
    List RougeBridgeRelease :=
  logs.filterMap fun log =>
    match log with
    | .bridgeReleaseEth emitter recipient amount l1TxId =>
      if emitter = rougeBridge ∧ amount < u128Limit then some ⟨recipient, none, amount, l1TxId⟩
      else none
    | .bridgeReleaseErc20 emitter recipient token amount l1TxId =>
      if emitter = rougeBridge ∧ amount < u128Limit then
        some ⟨recipient, some token, amount, l1TxId⟩
      else none
    | .transfer _ _ _ _ => none

structure Erc20Deposit where
  amount : ℕ
  sender : String
  block : ℕ

/-- The transfers of `token` to `recipient` among the events, each with its sender. -/
def transfersTo (logs : List Log) (token recipient : String) : List (String × ℕ) :=
  logs.filterMap fun log =>
    match log with
    | .transfer emitter sender dest amount =>
      if emitter = token ∧ dest = recipient ∧ amount ≠ 0 ∧ amount < u128Limit then
        some (sender, amount)
      else none
    | _ => none

/-- What one segment of a handler is told from outside: the error of a Base request, the height
    of the Base chain, the data of the Bitcoin provider, whether the vault has processed a
    withdrawal, and whether the node took the refund mint. -/
structure Reply where
  baseError : Option String
  latest : Option ℕ
  btcTip : Except String ℕ
  btcError : Option String
  vault : Except String Bool
  mint : Except String Unit

def Reply.baseTx (r : Reply) (c : Chains) (hash : String) (missing : String) :
    Except String BaseTx :=
  match r.baseError with
  | some e => .error e
  | none => ofOption missing (c.base hash)

def parseErc20TransferTo (c : Chains) (r : Reply) (txHash token dest : String) :
    Except String Erc20Deposit := do
  let tx ← r.baseTx c txHash "Transaction not found or not yet mined"
  require tx.success "Transaction failed (status != 0x1)"
  let token := Text.lower token
  let dest := Text.lower dest
  match transfersTo tx.logs token dest with
  | [] =>
    throw ("No ERC-20 Transfer to " ++ dest ++ " from token " ++ token ++ " found in transaction")
  | t :: ts => return ⟨saturatingSum u128Limit ((t :: ts).map Prod.snd), t.1, tx.block⟩

/-- Enough blocks on top of `block`. -/
def confirmed (s : Settings) (r : Reply) (block : ℕ) : Except String Unit :=
  match r.latest with
  | some latest =>
    if latest < block + s.minConfirmations then
      .error ("payout needs " ++ toString s.minConfirmations ++ " confirmations (block " ++
        toString block ++ ", latest " ++ toString latest ++ ")")
    else .ok ()
  | none =>
    .error "could not verify confirmations (Base RPC unavailable) — refusing to fulfill"

/-- The hash as a Base request spells it. -/
def with0x (hash : String) : String :=
  if ['0', 'x'] <+: hash.toList then hash else "0x" ++ hash

/-- The token transfer that goes with a release, when it is of a token. -/
def releaseTransfer (c : Chains) (r : Reply) (txHash rougeBridge recipient : String)
    (minAmount : ℕ) : Option String → Except String Unit
  | none => .ok ()
  | some usdc => do
    let dep ← (parseErc20TransferTo c r (with0x txHash) usdc recipient).mapError
      fun e => "USDC Transfer to recipient not found: " ++ e
    require (dep.sender = rougeBridge) ("USDC Transfer source " ++ dep.sender ++
      " is not the RougeBridge " ++ rougeBridge)
    require (minAmount ≤ dep.amount) ("USDC Transfer " ++ toString dep.amount ++
      " is less than the " ++ toString minAmount ++ " base units owed")

/-- Verifies a release of the RougeBridge contract by its event, and returns the transaction. -/
def verifyRougeBridgeRelease (s : Settings) (c : Chains) (r : Reply)
    (txHash rougeBridge recipient : String) (token : Option String) (minAmount : ℕ)
    (canonicalId : String) : Except String BaseTx := do
  let recipient := Text.lower recipient
  let tx ← r.baseTx c (with0x txHash) "payout tx not found or not yet mined"
  require (tx.target = rougeBridge) ("payout tx destination " ++ tx.target ++
    " is not the configured RougeBridge " ++ rougeBridge)
  require tx.success "payout transaction reverted"
  let matched := (decodeRougeBridgeReleases tx.logs rougeBridge).any fun e =>
    e.recipient = recipient ∧ e.token = token.map Text.lower ∧ minAmount ≤ e.amount ∧
      e.l1TxId = canonicalId
  require matched ("no matching " ++
    (if token.isSome then "BridgeReleaseERC20" else "BridgeReleaseETH") ++
    " event from RougeBridge for recipient " ++ recipient ++ " / l1TxId " ++ canonicalId ++
    " (amount >= " ++ toString minAmount ++ ")")
  releaseTransfer c r txHash rougeBridge recipient minAmount token
  confirmed s r tx.block
  return tx

/-- A payout transaction, by its chain. -/
inductive External
  | base (hash : String)
  | bitcoin (txid : String)
  deriving DecidableEq

/-- The handlers that mark a withdrawal fulfilled. -/
inductive Rail
  | evm
  | xrge
  | btc
  deriving DecidableEq

def isXrgeWithdrawal (w : PendingWithdrawal) : Bool :=
  Text.eqIgnoreCase w.tokenSymbol "XRGE" || decide ("xrge:".toList <+: w.txId.toList)

def isBtcWithdrawal (w : PendingWithdrawal) : Bool :=
  Text.eqIgnoreCase w.tokenSymbol "qBTC" || decide ("btc:".toList <+: w.txId.toList)

/-- The check of `bridge_withdrawal_fulfill`: a release of the RougeBridge contract that carries
    the id of the record, in the asset of the record. -/
def verifyEvm (s : Settings) (c : Chains) (r : Reply) (record : PendingWithdrawal)
    (payout : String) : Except String External := do
  let id := c.rougeBridgeId record.txId
  match payoutRoute record.tokenSymbol with
  | .eth =>
    match s.rougeBridge with
    | some rb =>
      let tx ← verifyRougeBridgeRelease s c r payout rb record.evmAddress none
        (min (record.amountUnits * 10 ^ 12) (u128Limit - 1)) id
      return .base tx.hash
    | none =>
      throw "RougeBridge address not configured — refusing to verify qETH payout (fail closed)"
  | .usdc =>
    match s.rougeBridge, s.usdc with
    | some rb, some usdc =>
      let tx ← verifyRougeBridgeRelease s c r payout rb record.evmAddress (some usdc)
        record.amountUnits id
      return .base tx.hash
    | none, _ =>
      throw "RougeBridge address not configured — refusing to verify qUSDC payout (fail closed)"
    | _, none =>
      throw "Base USDC address not configured — refusing to verify qUSDC payout (fail closed)"
  | _ =>
    throw ("asset " ++ record.tokenSymbol ++ " is not fulfillable on the EVM bridge endpoint")

/-- The check of `xrge_bridge_fulfill`: a transfer of the XRGE token from the vault. -/
def verifyXrge (s : Settings) (c : Chains) (r : Reply) (record : PendingWithdrawal)
    (vault payout : String) : Except String External := do
  let deposit ← (parseErc20TransferTo c r payout s.xrgeToken record.evmAddress).mapError
    fun e => "payout not verified: " ++ e
  require (deposit.sender = vault) ("payout sender " ++ deposit.sender ++
    " is not the XRGE vault " ++ vault)
  let minAmount := min (record.amountUnits * 10 ^ 18) (u128Limit - 1)
  require (minAmount ≤ deposit.amount) ("payout " ++ toString deposit.amount ++
    " is less than the " ++ toString minAmount ++ " owed")
  confirmed s r deposit.block
  let tx ← r.baseTx c payout "Transaction not found or not yet mined"
  return .base tx.hash

/-- The check of `bridge_btc_withdrawal_fulfill`. -/
def verifyBtc (s : Settings) (c : Chains) (r : Reply) (record : PendingWithdrawal)
    (custody payout : String) : Except String External := do
  let tx := match r.btcError with
    | some e => .error e
    | none => ofOption "transaction not yet seen (not broadcast/indexed?)"
        (c.bitcoin (btcTxid payout))
  let _ ← verifyBtcPayout ⟨s.btcMinConfirmations, s.btcMaxNetworkFee, r.btcTip, tx⟩ payout custody
    record.evmAddress record.amountUnits
  return .bitcoin (btcTxid payout)

/-! ## Tasks -/

/-- An authorised request. A fulfil request carries the payout hash of its body, if any. -/
inductive Request
  | reportFailure (txId : String) (error : Option String)
  | refund (txId : String)
  | fulfill (rail : Rail) (txId : String) (payout : Option String)

/-- A handler, by the segment it runs next. -/
inductive Task
  | start (req : Request)
  | verify (rail : Rail) (txId payout wallet : String) (record : PendingWithdrawal)
  | vault (txId : String) (w : PendingWithdrawal)
  | check (txId : String) (w : PendingWithdrawal)
  | insert (txId : String) (w : PendingWithdrawal)
  | mint (txId : String) (w : PendingWithdrawal)
  | rollback (txId error : String)
  | done (response : Except String Unit)

/-- What happened to a withdrawal: a payout was recorded for it by a rail, the refund handler
    marked it fulfilled, or a refund mint was submitted. -/
inductive Event
  | paid (rail : Rail) (txId : String) (tx : External)
  | settled (txId : String)
  | minted (txId : String)
  deriving DecidableEq

/-- The stores of the daemon: the withdrawals, the claimed keys, whether a record is known to be
    missing, and the events so far. -/
structure Stores where
  withdrawals : List PendingWithdrawal
  claims : ExtTreeSet String
  degraded : Bool
  events : List Event

def refundKey (txId : String) : String := "refund:" ++ txId

/-- The payout hash of a request. -/
def payoutHash (payout : Option String) : Option String :=
  (payout.map (Text.trim Text.isWhitespace)).filter (· ≠ "")

/-- The first segment of a fulfil handler: reads the record. The wallet is the address its rail
    pays from, as far as it is read before the verification. -/
def startFulfill (s : Settings) (x : Stores) (rail : Rail) (txId : String)
    (payout : Option String) : Task :=
  match payoutHash payout with
  | none =>
    .done (.error (if rail = .btc then "missing btcTxid (Bitcoin payout txid) in body"
      else "missing evmTxHash (Base payout tx) in body"))
  | some payout =>
    match WithdrawStore.get x.withdrawals txId with
    | none => .done (.error "Withdrawal not found")
    | some record =>
      match rail with
      | .evm => .verify .evm txId payout "" record
      | .xrge =>
        match s.xrgeVault.filter (· ≠ "") with
        | some vault => .verify .xrge txId payout (Text.lower vault) record
        | none => .done (.error "XRGE vault not configured")
      | .btc =>
        if ¬ isBtcWithdrawal record then .done (.error "not a qBTC withdrawal")
        else
          match s.btcCustody with
          | some custody => .verify .btc txId payout custody record
          | none => .done (.error "BTC bridge custody not configured")

/-- The verification of a rail, with the transaction it verified. -/
def verifyPayout (s : Settings) (c : Chains) (r : Reply) (rail : Rail) (payout wallet : String)
    (record : PendingWithdrawal) : Except String External :=
  match rail with
  | .evm => (verifyEvm s c r record payout).mapError fun e => "payout not verified: " ++ e
  | .xrge => verifyXrge s c r record wallet payout
  | .btc => (verifyBtc s c r record wallet payout).mapError fun e => "payout not verified: " ++ e

/-- The write of a rail: only Bitcoin looks for the payout in the other records. -/
def markPaid (l : List PendingWithdrawal) (rail : Rail) (txId payout : String) :
    Except String (Bool × List PendingWithdrawal) :=
  match rail with
  | .btc => WithdrawStore.markFulfilledUniquePayout l txId payout
  | _ => .ok (WithdrawStore.markFulfilled l txId payout)

/-- The payout as a rail writes it into the record. -/
def recordedPayout (rail : Rail) (payout : String) : String :=
  if rail = .btc then Text.lower (Text.trim Text.isWhitespace payout) else payout

theorem WithdrawStore.markFulfilled_eq {l l' : List PendingWithdrawal} {txId p : String}
    (h : WithdrawStore.markFulfilled l txId p = (true, l')) :
    ∃ w, WithdrawStore.get l txId = some w ∧ w.status.terminal = false ∧
      l' = WithdrawStore.update l txId fun w =>
        { w with status := .fulfilled, payoutTxHash := some p } := by
  rw [WithdrawStore.markFulfilled] at h
  split at h
  · next w hw =>
    split at h
    · cases h
    · next hopen =>
      cases h
      exact ⟨w, hw, by simpa using hopen, rfl⟩
  · cases h

/-- A payout that is recorded changes the record of its withdrawal, which was open. -/
theorem markPaid_eq_ok {l l' : List PendingWithdrawal} {rail : Rail} {txId payout : String}
    (h : markPaid l rail txId payout = .ok (true, l')) :
    ∃ w, WithdrawStore.get l txId = some w ∧ w.status.terminal = false ∧
      l' = WithdrawStore.update l txId fun w =>
        { w with status := .fulfilled, payoutTxHash := some (recordedPayout rail payout) } := by
  cases rail with
  | btc =>
    rw [markPaid, WithdrawStore.markFulfilledUniquePayout] at h
    split at h
    · cases h
    · split at h
      · cases h
      · exact WithdrawStore.markFulfilled_eq (Except.ok.inj h)
  | evm => exact WithdrawStore.markFulfilled_eq (Except.ok.inj h)
  | xrge => exact WithdrawStore.markFulfilled_eq (Except.ok.inj h)

/-- A Bitcoin payout that is recorded is in no other record. -/
theorem markPaid_btc_unique {l l' : List PendingWithdrawal} {txId payout : String}
    (h : markPaid l .btc txId payout = .ok (true, l')) {w : PendingWithdrawal} (hw : w ∈ l)
    (hne : w.txId ≠ txId) {p : String} (hp : w.payoutTxHash = some p) :
    Text.eqIgnoreCase (Text.trim Text.isWhitespace p) (recordedPayout .btc payout) = false := by
  rw [markPaid, WithdrawStore.markFulfilledUniquePayout] at h
  split at h
  · cases h
  · split at h
    · cases h
    · next hnone =>
      have := List.find?_eq_none.1 hnone w hw
      rw [decide_eq_true_eq, hp, Option.any_some, not_and, Bool.not_eq_true] at this
      exact this hne

/-- The last segment of a fulfil handler. -/
def finishFulfill (x : Stores) (rail : Rail) (txId payout : String) (tx : External) :
    Stores × Task :=
  match markPaid x.withdrawals rail txId payout with
  | .error e => (x, .done (.error e))
  | .ok (false, _) => (x, .done (.error "Withdrawal not found or already fulfilled"))
  | .ok (true, l) =>
    ({ x with withdrawals := l, events := x.events ++ [.paid rail txId tx] }, .done (.ok ()))

/-- The first segment of the refund handler. -/
def startRefund (s : Settings) (x : Stores) (txId : String) : Task :=
  match WithdrawStore.get x.withdrawals txId with
  | none => .done (.error "Withdrawal not found or already settled")
  | some w =>
    if w.ownerPubkey = "" then
      .done (.error "Withdrawal predates owner tracking; refund manually via admin reclaim")
    else if Text.eqIgnoreCase w.tokenSymbol "XRGE" then
      match s.xrgeVault.filter (· ≠ "") with
      | some _ => .vault txId w
      | none => .done (.error
          "Refund refused: XRGE vault not configured; cannot verify release state.")
    else .check txId w

/-- One segment of a task. -/
def Task.run (s : Settings) (c : Chains) (x : Stores) (r : Reply) : Task → Stores × Task
  | .start (.reportFailure txId error) =>
    match WithdrawStore.recordAttempt x.withdrawals txId error with
    | .error e => (x, .done (.error e))
    | .ok l => ({ x with withdrawals := l }, .done (.ok ()))
  | .start (.refund txId) => (x, startRefund s x txId)
  | .start (.fulfill rail txId payout) => (x, startFulfill s x rail txId payout)
  | .verify rail txId payout wallet record =>
    match verifyPayout s c r rail payout wallet record with
    | .error e => (x, .done (.error e))
    | .ok tx => finishFulfill x rail txId payout tx
  | .vault txId w =>
    match r.vault with
    | .ok true =>
      ({ x with
          withdrawals := WithdrawStore.setStatus x.withdrawals txId .fulfilled
          events := x.events ++
            if (WithdrawStore.get x.withdrawals txId).isSome then [.settled txId] else [] },
        .done (.error ("Refund refused: the vault already released this withdrawal on Base " ++
          "(processedL1Txs=true). Marked fulfilled.")))
    | .ok false => (x, .check txId w)
    | .error e => (x, .done (.error
        ("Refund refused: could not verify vault release state (" ++ e ++ "). Not minting.")))
  | .check txId w =>
    if refundKey txId ∈ x.claims then (x, .done (.error "Withdrawal already refunded"))
    else (x, .insert txId w)
  | .insert txId w => ({ x with claims := x.claims.insert (refundKey txId) }, .mint txId w)
  | .mint txId _ =>
    match r.mint with
    | .ok () =>
      ({ x with
          withdrawals := WithdrawStore.setStatus x.withdrawals txId .refunded
          events := x.events ++ [.minted txId] },
        .done (.ok ()))
    | .error e => (x, .rollback txId e)
  | .rollback txId e =>
    ({ x with claims := x.claims.erase (refundKey txId) }, .done (.error e))
  | .done response => (x, .done response)

/-! ## The daemon -/

structure Daemon where
  stores : Stores
  tasks : List Task

/-- A request arrives, a task runs its next segment, an accepted block adds the records of its
    burns (each write succeeds or fails), the store is rebuilt from the burns of the chain, or
    the daemon restarts. -/
inductive Action
  | request (req : Request)
  | advance (i : ℕ) (r : Reply)
  | block (burns : List (Burn × Bool))
  | rebuild (burns : List (Burn × Bool))
  | restart

/-- Records the burns whose write succeeds. -/
def recordBurns (l : List PendingWithdrawal) (burns : List (Burn × Bool)) :
    List PendingWithdrawal :=
  burns.foldl (fun l b => if b.2 then b.1.record l else l) l

def Daemon.step (s : Settings) (c : Chains) (d : Daemon) : Action → Daemon
  | .request req => { d with tasks := d.tasks ++ [.start req] }
  | .advance i r =>
    match d.tasks[i]? with
    | none => d
    | some t => ⟨(t.run s c d.stores r).1, d.tasks.set i (t.run s c d.stores r).2⟩
  | .block burns =>
    { d with stores := { d.stores with
        withdrawals := recordBurns d.stores.withdrawals burns
        degraded := d.stores.degraded || burns.any fun b => !b.2 } }
  | .rebuild burns =>
    { d with stores := { d.stores with
        withdrawals := recordBurns d.stores.withdrawals burns
        degraded := d.stores.degraded && burns.any fun b => !b.2 } }
  | .restart => { d with tasks := [] }

/-- New records leave the records there are. -/
theorem recordBurns_keeps {l : List PendingWithdrawal} (burns : List (Burn × Bool))
    (hl : (l.map PendingWithdrawal.txId).Nodup) :
    ((recordBurns l burns).map PendingWithdrawal.txId).Nodup ∧
      ∀ j w, WithdrawStore.get l j = some w →
        WithdrawStore.get (recordBurns l burns) j = some w := by
  induction burns generalizing l with
  | nil => exact ⟨hl, fun _ _ h => h⟩
  | cons b burns ih =>
    have hb : ((if b.2 then b.1.record l else l).map PendingWithdrawal.txId).Nodup ∧
        ∀ j w, WithdrawStore.get l j = some w →
          WithdrawStore.get (if b.2 then b.1.record l else l) j = some w := by
      split
      · rw [Burn.record]
        split
        · exact ⟨hl, fun _ _ h => h⟩
        · exact ⟨WithdrawStore.nodup_add hl, fun _ _ h => WithdrawStore.get_add h⟩
      · exact ⟨hl, fun _ _ h => h⟩
    obtain ⟨hnodup, hget⟩ := ih hb.1
    exact ⟨hnodup, fun j w h => hget j w (hb.2 j w h)⟩

/-- The daemon with empty stores. -/
def Daemon.init : Daemon := ⟨⟨[], ∅, false, []⟩, []⟩

/-- The withdrawals a relayer may act on: nothing while a record is missing, and nothing that was
    refunded. -/
def relayerPayableWithdrawals (x : Stores) : Except String (List PendingWithdrawal) :=
  if x.degraded then .error "bridge derived state DEGRADED"
  else .ok ((WithdrawStore.listPending x.withdrawals).filter fun w => refundKey w.txId ∉ x.claims)

end RougeChain.Bridge
