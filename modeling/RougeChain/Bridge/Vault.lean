import RougeChain.Library.Basic
import RougeChain.Library.Runs
import RougeChain.Library.Windows

/-!
# The vault on the other chain

The contract that holds the XRGE locked on Base: anyone deposits, the relayer releases within two
caps, and the owner changes the caps, pauses, and may take everything out two days after asking
for it. Amounts and times are unbounded here, with the checks that the contract's arithmetic makes.

The cap of a day counts from the first release after the last window has ended, so a day that
begins inside one window and ends inside the next can see twice the cap.

* `World.call_change`: what a call that is not reverted does to the vault's XRGE;
* `released_twice_the_limit`: two releases one second apart that add up to twice the limit;
* `vault_guardrails`: over every run, the releases of any 24 hours stay within the limit exactly
  when a release that follows another window's within a day leaves room for it; whatever the run,
  a release is within the cap for one, is made once for an id and never while paused, and nothing
  else leaves the vault but to the owner, two days after a request that is still pending.
-/

open Fallible

namespace RougeChain.Bridge.Vault

open Std (ExtTreeMap)

/-- An account on the other chain; zero is the zero address. -/
abbrev Address := ℕ

/-- Why a call was reverted. -/
inductive Revert where
  | notRelayer | isPaused | zeroAmount | zeroAddress | emptyPubkey | alreadyProcessed
  | insufficientVaultBalance | exceedsPerTxCap | exceedsDailyLimit
  | notOwner | noPendingRequest | timelockNotExpired
  | insufficientBalance | insufficientAllowance | transferFailed | overflow
  deriving DecidableEq

/-! ## The token -/

/-- The XRGE token, a standard ERC-20. -/
structure Token where
  balances : ExtTreeMap Address ℕ := ∅
  /-- By owner and spender. -/
  allowances : ExtTreeMap (Address × Address) ℕ := ∅

namespace Token

def balanceOf (t : Token) (a : Address) : ℕ := t.balances[a]?.getD 0

def allowance (t : Token) (owner spender : Address) : ℕ := t.allowances[(owner, spender)]?.getD 0

def transfer (t : Token) (src dest : Address) (amount : ℕ) : Except Revert Token := do
  require (dest ≠ 0) .zeroAddress
  require (amount ≤ t.balanceOf src) .insufficientBalance
  let b := t.balances.insert src (t.balanceOf src - amount)
  return { t with balances := b.insert dest (b[dest]?.getD 0 + amount) }

def transferFrom (t : Token) (spender src dest : Address) (amount : ℕ) : Except Revert Token := do
  require (amount ≤ t.allowance src spender) .insufficientAllowance
  let allowances := t.allowances.insert (src, spender) (t.allowance src spender - amount)
  transfer { t with allowances } src dest amount

def approve (t : Token) (owner spender : Address) (amount : ℕ) : Token :=
  { t with allowances := t.allowances.insert (owner, spender) amount }

end Token

/-! ## The contract -/

/-- A day and two, in seconds. -/
def oneDay : ℕ := 86400

def emergencyTimelock : ℕ := 172800

structure BridgeVault where
  owner : Address
  /-- Named by the owner to follow; zero when nobody is. -/
  pendingOwner : Address := 0
  relayer : Address
  maxPerTx : ℕ
  dailyLimit : ℕ
  releasedInWindow : ℕ := 0
  windowStart : ℕ
  paused : Bool := false
  totalLocked : ℕ := 0
  totalReleased : ℕ := 0
  depositNonce : ExtTreeMap Address ℕ := ∅
  processedL1Txs : List String := []
  emergencyRequestedAt : ℕ := 0
  emergencyRequested : Bool := false

/-- The vault and the token, with their addresses. -/
structure World where
  self : Address
  xrgeToken : Address
  vault : BridgeVault
  token : Token

/-- A call to the vault or, by an account that is not the vault, to the token. -/
inductive VaultCall where
  | deposit (amount : ℕ) (rougechainPubkey : String)
  | release (dest : Address) (amount : ℕ) (l1TxId : String)
  | setRelayer (newRelayer : Address)
  | setCaps (maxPerTx dailyLimit : ℕ)
  | setPaused (p : Bool)
  | requestEmergencyWithdraw
  | cancelEmergencyWithdraw
  /-- With whether another token's own transfer goes through. -/
  | emergencyWithdraw (token : Address) (otherPays : Bool)
  | transferOwnership (newOwner : Address)
  | acceptOwnership
  | renounceOwnership
  | tokenTransfer (dest : Address) (amount : ℕ)
  | tokenTransferFrom (src dest : Address) (amount : ℕ)
  | tokenApprove (spender : Address) (amount : ℕ)

/-- The events of XRGE that leaves the vault. -/
inductive VaultEvent where
  | bridgeRelease (recipient : Address) (amount : ℕ) (l1TxId : String)
  | emergencyWithdraw (dest : Address) (amount : ℕ)
  deriving DecidableEq

/-- The sum, which the contract's arithmetic checks. -/
def checkedSum (a b : ℕ) : Except Revert ℕ := do
  require (a + b < 2 ^ 256) .overflow
  return a + b

namespace World

variable (w : World) (now : ℕ) (sender : Address)

def deposit (amount : ℕ) (rougechainPubkey : String) : Except Revert World := do
  require (amount ≠ 0) .zeroAmount
  require (rougechainPubkey ≠ "") .emptyPubkey
  let nonce ← checkedSum (w.vault.depositNonce[sender]?.getD 0) 1
  let totalLocked ← checkedSum w.vault.totalLocked amount
  let token ← w.token.transferFrom w.self sender w.self amount
  return { w with
    vault := { w.vault with
      depositNonce := w.vault.depositNonce.insert sender nonce
      totalLocked }
    token }

/-- The window in force: the one that has begun, or a new one from now. -/
def window : Except Revert (ℕ × ℕ) := do
  let windowEnd ← checkedSum w.vault.windowStart oneDay
  if windowEnd ≤ now then return (now, 0)
  else return (w.vault.windowStart, w.vault.releasedInWindow)

def release (dest : Address) (amount : ℕ) (l1TxId : String) :
    Except Revert (World × List VaultEvent) := do
  require (sender = w.vault.relayer) .notRelayer
  require (w.vault.paused = false) .isPaused
  require (amount ≠ 0) .zeroAmount
  require (dest ≠ 0) .zeroAddress
  require (w.vault.maxPerTx ≠ 0 ∧ amount ≤ w.vault.maxPerTx) .exceedsPerTxCap
  require (l1TxId ∉ w.vault.processedL1Txs) .alreadyProcessed
  let (windowStart, releasedInWindow) ← w.window now
  let releasedInWindow ← checkedSum releasedInWindow amount
  require (w.vault.dailyLimit ≠ 0 → releasedInWindow ≤ w.vault.dailyLimit)
    .exceedsDailyLimit
  require (amount ≤ w.token.balanceOf w.self) .insufficientVaultBalance
  let totalReleased ← checkedSum w.vault.totalReleased amount
  let token ← w.token.transfer w.self dest amount
  return ({ w with
    vault := { w.vault with
      windowStart
      releasedInWindow
      processedL1Txs := l1TxId :: w.vault.processedL1Txs
      totalReleased
      totalLocked := w.vault.totalLocked - amount }
    token }, [.bridgeRelease dest amount l1TxId])

def onlyOwner : Except Revert Unit := require (sender = w.vault.owner) .notOwner

/-- Taking out another token changes nothing of the vault's XRGE. -/
def emergencyWithdraw (token : Address) (otherPays : Bool) :
    Except Revert (World × List VaultEvent) := do
  w.onlyOwner sender
  require (w.vault.emergencyRequested = true) .noPendingRequest
  let executeAfter ← checkedSum w.vault.emergencyRequestedAt emergencyTimelock
  require (executeAfter ≤ now) .timelockNotExpired
  let vault := { w.vault with emergencyRequested := false }
  if token = w.xrgeToken then
    let amount := w.token.balanceOf w.self
    let xrge ← w.token.transfer w.self w.vault.owner amount
    return ({ w with vault := { vault with totalLocked := 0 }, token := xrge },
      [.emergencyWithdraw w.vault.owner amount])
  else do
    require (otherPays = true) .transferFailed
    return ({ w with vault }, [])

/-- An owner's change of the vault's settings. -/
def configure (vault : BridgeVault) : Except Revert (World × List VaultEvent) := do
  w.onlyOwner sender
  return ({ w with vault }, [])

def setRelayer (newRelayer : Address) : Except Revert (World × List VaultEvent) := do
  w.onlyOwner sender
  require (newRelayer ≠ 0) .zeroAddress
  w.configure sender { w.vault with relayer := newRelayer }

def setCaps (maxPerTx dailyLimit : ℕ) : Except Revert (World × List VaultEvent) :=
  w.configure sender { w.vault with maxPerTx, dailyLimit }

def setPaused (p : Bool) : Except Revert (World × List VaultEvent) :=
  w.configure sender { w.vault with paused := p }

/-- The event names the end of the timelock, whose sum is checked. -/
def requestEmergencyWithdraw : Except Revert (World × List VaultEvent) := do
  w.onlyOwner sender
  let _executeAfter ← checkedSum now emergencyTimelock
  w.configure sender { w.vault with emergencyRequestedAt := now, emergencyRequested := true }

def cancelEmergencyWithdraw : Except Revert (World × List VaultEvent) :=
  w.configure sender { w.vault with emergencyRequested := false }

def transferOwnership (newOwner : Address) : Except Revert (World × List VaultEvent) :=
  w.configure sender { w.vault with pendingOwner := newOwner }

def renounceOwnership : Except Revert (World × List VaultEvent) :=
  w.configure sender { w.vault with owner := 0, pendingOwner := 0 }

def acceptOwnership : Except Revert (World × List VaultEvent) := do
  require (sender = w.vault.pendingOwner) .notOwner
  return ({ w with vault := { w.vault with owner := sender, pendingOwner := 0 } }, [])

/-- A call to the token, by an account that is not the vault. -/
def onToken (f : Except Revert Token) : Except Revert (World × List VaultEvent) := do
  let token ← f
  return ({ w with token }, [])

def call : VaultCall → Except Revert (World × List VaultEvent)
  | .deposit amount rougechainPubkey => do return (← w.deposit sender amount rougechainPubkey, [])
  | .release dest amount l1TxId => w.release now sender dest amount l1TxId
  | .setRelayer newRelayer => w.setRelayer sender newRelayer
  | .setCaps maxPerTx dailyLimit => w.setCaps sender maxPerTx dailyLimit
  | .setPaused p => w.setPaused sender p
  | .requestEmergencyWithdraw => w.requestEmergencyWithdraw now sender
  | .cancelEmergencyWithdraw => w.cancelEmergencyWithdraw sender
  | .emergencyWithdraw token otherPays => w.emergencyWithdraw now sender token otherPays
  | .transferOwnership newOwner => w.transferOwnership sender newOwner
  | .acceptOwnership => w.acceptOwnership sender
  | .renounceOwnership => w.renounceOwnership sender
  | .tokenTransfer dest amount => w.onToken (w.token.transfer sender dest amount)
  | .tokenTransferFrom src dest amount =>
    w.onToken (w.token.transferFrom sender src dest amount)
  | .tokenApprove spender amount => w.onToken (.ok (w.token.approve sender spender amount))

/-- The constructor. -/
def deploy (self xrgeToken : Address) (token : Token) (owner relayer : Address)
    (maxPerTx dailyLimit : ℕ) : Except Revert World := do
  require (xrgeToken ≠ 0 ∧ owner ≠ 0 ∧ relayer ≠ 0) .zeroAddress
  return {
    self, xrgeToken, token
    vault := { owner, relayer, maxPerTx, dailyLimit, windowStart := now } }

end World

/-! ## What a call does -/

/-- When the emergency was requested that is still pending. -/
def BridgeVault.pendingRequest (v : BridgeVault) : Option ℕ :=
  if v.emergencyRequested then some v.emergencyRequestedAt else none

/-- The pending request after a call that is not reverted, told by the call alone. -/
def VaultCall.pendingAfter (now : ℕ) (pending : Option ℕ) : VaultCall → Option ℕ
  | .requestEmergencyWithdraw => some now
  | .cancelEmergencyWithdraw | .emergencyWithdraw .. => none
  | _ => pending

/-- What every call keeps: the addresses, and that the vault lets nobody spend its XRGE. -/
structure Keeps (w w' : World) : Prop where
  self : w'.self = w.self
  xrgeToken : w'.xrgeToken = w.xrgeToken
  allowance : ∀ spender, w'.token.allowance w.self spender ≤ w.token.allowance w.self spender

/-- A call that leaves the accounts of the caps alone. -/
structure Settles (w w' : World) : Prop extends Keeps w w' where
  windowStart : w'.vault.windowStart = w.vault.windowStart
  releasedInWindow : w'.vault.releasedInWindow = w.vault.releasedInWindow
  processedL1Txs : w'.vault.processedL1Txs = w.vault.processedL1Txs

/-- A release, with what it has checked. -/
structure Released (w w' : World) (now : ℕ) (dest : Address) (amount : ℕ) (l1TxId : String) : Prop
    extends Keeps w w' where
  unpaused : w.vault.paused = false
  amount_le : amount ≤ w.vault.maxPerTx
  fresh : l1TxId ∉ w.vault.processedL1Txs
  processedL1Txs : w'.vault.processedL1Txs = l1TxId :: w.vault.processedL1Txs
  window : (w'.vault.windowStart = now ∧ w'.vault.releasedInWindow = amount ∧
      w.vault.windowStart + oneDay ≤ now) ∨
    (w'.vault.windowStart = w.vault.windowStart ∧
      w'.vault.releasedInWindow = w.vault.releasedInWindow + amount)
  before_end : now < w'.vault.windowStart + oneDay
  limit : w.vault.dailyLimit ≠ 0 → w'.vault.releasedInWindow ≤ w.vault.dailyLimit
  transfer : w.token.transfer w.self dest amount = .ok w'.token

/-- The vault emptied, with what that has checked. -/
structure Emptied (w w' : World) (now amount : ℕ) : Prop extends Settles w w' where
  expired : ∃ r, w.vault.pendingRequest = some r ∧ r + emergencyTimelock ≤ now
  transfer : w.token.transfer w.self w.vault.owner amount = .ok w'.token

/-- What a call that is not reverted does to the vault's XRGE. -/
inductive VaultChange (w : World) (now : ℕ) (w' : World) : List VaultEvent → Prop
  | released {dest : Address} {amount : ℕ} {l1TxId : String}
      (h : Released w w' now dest amount l1TxId) :
      VaultChange w now w' [.bridgeRelease dest amount l1TxId]
  | emptied {amount : ℕ} (h : Emptied w w' now amount) :
      VaultChange w now w' [.emergencyWithdraw w.vault.owner amount]
  | kept (h : Settles w w') (hbalance : w.token.balanceOf w.self ≤ w'.token.balanceOf w.self) :
      VaultChange w now w' []

section Change

variable {w w' : World} {now : ℕ} {sender : Address} {evs : List VaultEvent}

theorem checkedSum_eq_ok {a b c : ℕ} (h : checkedSum a b = .ok c) : c = a + b := by
  obtain ⟨_, -, h⟩ := bind_eq_ok.1 h
  exact (Except.ok.inj h).symm

/-- A transfer leaves the allowances, and lowers no balance but its source's. -/
theorem Token.transfer_spec {t t' : Token} {src dest : Address} {amount : ℕ}
    (h : t.transfer src dest amount = .ok t') :
    t'.allowances = t.allowances ∧ ∀ a, a ≠ src → t.balanceOf a ≤ t'.balanceOf a := by
  obtain ⟨_, -, h⟩ := bind_eq_ok.1 h
  obtain ⟨_, -, h⟩ := bind_eq_ok.1 h
  obtain rfl := Except.ok.inj h
  refine ⟨rfl, fun a ha => ?_⟩
  simp only [Token.balanceOf, getElem?_insert_eq]
  split
  next hd =>
    subst hd
    rw [if_neg (Ne.symm ha), Option.getD_some]
    exact Nat.le_add_right _ _
  · rw [if_neg (Ne.symm ha)]

/-- Spending for another account lowers allowances only, and needs one. -/
theorem Token.transferFrom_spec {t t' : Token} {spender src dest : Address} {amount : ℕ}
    (h : t.transferFrom spender src dest amount = .ok t') :
    amount ≤ t.allowance src spender ∧ (∀ a b, t'.allowance a b ≤ t.allowance a b) ∧
      ∀ a, a ≠ src → t.balanceOf a ≤ t'.balanceOf a := by
  obtain ⟨_, hallowance, h⟩ := bind_eq_ok.1 h
  rw [require_eq_ok] at hallowance
  obtain ⟨hsame, hbalance⟩ := Token.transfer_spec h
  refine ⟨hallowance, fun a b => ?_, hbalance⟩
  rw [Token.allowance, hsame, getElem?_insert_eq]
  split
  next hab =>
    obtain ⟨rfl, rfl⟩ := Prod.mk.inj hab
    exact Nat.sub_le _ _
  · exact le_rfl

theorem World.release_spec {dest : Address} {amount : ℕ} {l1TxId : String}
    (h : w.release now sender dest amount l1TxId = .ok (w', evs)) :
    VaultChange w now w' evs ∧ w'.vault.pendingRequest = w.vault.pendingRequest := by
  obtain ⟨_, -, h⟩ := bind_eq_ok.1 h
  obtain ⟨_, hpaused, h⟩ := bind_eq_ok.1 h
  obtain ⟨_, -, h⟩ := bind_eq_ok.1 h
  obtain ⟨_, -, h⟩ := bind_eq_ok.1 h
  obtain ⟨_, hcap, h⟩ := bind_eq_ok.1 h
  obtain ⟨_, hfresh, h⟩ := bind_eq_ok.1 h
  obtain ⟨⟨start, used⟩, hwindow, h⟩ := bind_eq_ok.1 h
  obtain ⟨sum, hsum, h⟩ := bind_eq_ok.1 h
  obtain ⟨_, hlimit, h⟩ := bind_eq_ok.1 h
  obtain ⟨_, -, h⟩ := bind_eq_ok.1 h
  obtain ⟨totalReleased, -, h⟩ := bind_eq_ok.1 h
  obtain ⟨token, htoken, h⟩ := bind_eq_ok.1 h
  obtain ⟨rfl, rfl⟩ := Prod.mk.inj (Except.ok.inj h)
  rw [require_eq_ok] at hpaused hcap hfresh hlimit
  obtain rfl := checkedSum_eq_ok hsum
  have hkeeps : ∀ spender, token.allowance w.self spender ≤ w.token.allowance w.self spender :=
    fun spender => by rw [Token.allowance, Token.allowance, (Token.transfer_spec htoken).1]
  obtain ⟨windowEnd, hend, hwindow⟩ := bind_eq_ok.1 hwindow
  obtain rfl := checkedSum_eq_ok hend
  -- the window that has ended is replaced by one that begins with this release
  split at hwindow
  next hover =>
    obtain ⟨rfl, rfl⟩ := Prod.mk.inj (Except.ok.inj hwindow)
    exact ⟨.released ⟨⟨rfl, rfl, hkeeps⟩, hpaused, hcap.2, hfresh, rfl,
      .inl ⟨rfl, Nat.zero_add _, hover⟩,
      Nat.lt_add_of_pos_right (by decide), hlimit, htoken⟩, rfl⟩
  next hopen =>
    obtain ⟨rfl, rfl⟩ := Prod.mk.inj (Except.ok.inj hwindow)
    exact ⟨.released ⟨⟨rfl, rfl, hkeeps⟩, hpaused, hcap.2, hfresh, rfl, .inr ⟨rfl, rfl⟩,
      Nat.lt_of_not_le hopen, hlimit, htoken⟩, rfl⟩

theorem World.emergencyWithdraw_spec {token : Address} {otherPays : Bool}
    (h : w.emergencyWithdraw now sender token otherPays = .ok (w', evs)) :
    VaultChange w now w' evs ∧ w'.vault.pendingRequest = none := by
  obtain ⟨_, -, h⟩ := bind_eq_ok.1 h
  obtain ⟨_, hrequested, h⟩ := bind_eq_ok.1 h
  obtain ⟨executeAfter, hafter, h⟩ := bind_eq_ok.1 h
  obtain ⟨_, hexpired, h⟩ := bind_eq_ok.1 h
  rw [require_eq_ok] at hrequested hexpired
  rw [checkedSum_eq_ok hafter] at hexpired
  dsimp only at h
  split at h
  · obtain ⟨xrge, hxrge, hpaid⟩ := bind_eq_ok.1 h
    obtain ⟨rfl, rfl⟩ := Prod.mk.inj (Except.ok.inj hpaid)
    refine ⟨.emptied ⟨⟨⟨rfl, rfl, fun spender => ?_⟩, rfl, rfl, rfl⟩,
      ⟨_, if_pos hrequested, hexpired⟩, hxrge⟩, rfl⟩
    rw [Token.allowance, Token.allowance, (Token.transfer_spec hxrge).1]
  · obtain ⟨_, -, hpaid⟩ := bind_eq_ok.1 h
    obtain ⟨rfl, rfl⟩ := Prod.mk.inj (Except.ok.inj hpaid)
    exact ⟨.kept ⟨⟨rfl, rfl, fun _ => le_rfl⟩, rfl, rfl, rfl⟩ le_rfl, rfl⟩

theorem World.configure_spec {vault : BridgeVault} {pending : Option ℕ}
    (h : w.configure sender vault = .ok (w', evs))
    (hwindow : vault.windowStart = w.vault.windowStart)
    (hused : vault.releasedInWindow = w.vault.releasedInWindow)
    (hprocessed : vault.processedL1Txs = w.vault.processedL1Txs)
    (hpending : vault.pendingRequest = pending) :
    VaultChange w now w' evs ∧ w'.vault.pendingRequest = pending := by
  obtain ⟨_, -, h⟩ := bind_eq_ok.1 h
  obtain ⟨rfl, rfl⟩ := Prod.mk.inj (Except.ok.inj h)
  exact ⟨.kept ⟨⟨rfl, rfl, fun _ => le_rfl⟩, hwindow, hused, hprocessed⟩ le_rfl, hpending⟩

theorem World.onToken_spec {f : Except Revert Token}
    (h : w.onToken f = .ok (w', evs))
    (hf : ∀ t, f = .ok t → w.token.balanceOf w.self ≤ t.balanceOf w.self ∧
      ∀ spender, t.allowance w.self spender ≤ w.token.allowance w.self spender) :
    VaultChange w now w' evs ∧ w'.vault.pendingRequest = w.vault.pendingRequest := by
  obtain ⟨token, htoken, h⟩ := bind_eq_ok.1 h
  obtain ⟨rfl, rfl⟩ := Prod.mk.inj (Except.ok.inj h)
  obtain ⟨hbalance, hallowance⟩ := hf token htoken
  exact ⟨.kept ⟨⟨rfl, rfl, hallowance⟩, rfl, rfl, rfl⟩ hbalance, rfl⟩

theorem World.deposit_spec {amount : ℕ} {rougechainPubkey : String} (hsender : sender ≠ w.self)
    (h : w.deposit sender amount rougechainPubkey = .ok w') :
    VaultChange w now w' [] ∧ w'.vault.pendingRequest = w.vault.pendingRequest := by
  obtain ⟨_, -, h⟩ := bind_eq_ok.1 h
  obtain ⟨_, -, h⟩ := bind_eq_ok.1 h
  obtain ⟨nonce, -, h⟩ := bind_eq_ok.1 h
  obtain ⟨totalLocked, -, h⟩ := bind_eq_ok.1 h
  obtain ⟨token, htoken, h⟩ := bind_eq_ok.1 h
  obtain rfl := Except.ok.inj h
  obtain ⟨-, hallowance, hbalance⟩ := Token.transferFrom_spec htoken
  exact ⟨.kept ⟨⟨rfl, rfl, hallowance _⟩, rfl, rfl, rfl⟩ (hbalance _ (Ne.symm hsender)), rfl⟩

/-- What a call by another account than the vault does, as long as nobody may spend the vault's
    XRGE. -/
theorem World.call_change {c : VaultCall} (hsender : sender ≠ w.self)
    (hallowance : ∀ spender, w.token.allowance w.self spender = 0)
    (h : w.call now sender c = .ok (w', evs)) : VaultChange w now w' evs ∧
      w'.vault.pendingRequest = c.pendingAfter now w.vault.pendingRequest := by
  cases c with
  | deposit amount rougechainPubkey =>
    obtain ⟨w₁, hdeposit, h⟩ := bind_eq_ok.1 h
    obtain ⟨rfl, rfl⟩ := Prod.mk.inj (Except.ok.inj h)
    exact World.deposit_spec hsender hdeposit
  | release dest amount l1TxId => exact World.release_spec h
  | setRelayer newRelayer =>
    obtain ⟨_, -, h⟩ := bind_eq_ok.1 h
    obtain ⟨_, -, h⟩ := bind_eq_ok.1 h
    exact World.configure_spec h rfl rfl rfl rfl
  | setCaps maxPerTx dailyLimit => exact World.configure_spec h rfl rfl rfl rfl
  | setPaused p => exact World.configure_spec h rfl rfl rfl rfl
  | requestEmergencyWithdraw =>
    obtain ⟨_, -, h⟩ := bind_eq_ok.1 h
    obtain ⟨_, -, h⟩ := bind_eq_ok.1 h
    exact World.configure_spec h rfl rfl rfl rfl
  | cancelEmergencyWithdraw => exact World.configure_spec h rfl rfl rfl rfl
  | emergencyWithdraw token otherPays => exact World.emergencyWithdraw_spec h
  | transferOwnership newOwner => exact World.configure_spec h rfl rfl rfl rfl
  | acceptOwnership =>
    obtain ⟨_, -, h⟩ := bind_eq_ok.1 h
    obtain ⟨rfl, rfl⟩ := Prod.mk.inj (Except.ok.inj h)
    exact ⟨.kept ⟨⟨rfl, rfl, fun _ => le_rfl⟩, rfl, rfl, rfl⟩ le_rfl, rfl⟩
  | renounceOwnership => exact World.configure_spec h rfl rfl rfl rfl
  | tokenTransfer dest amount =>
    refine World.onToken_spec h fun t ht => ?_
    obtain ⟨hsame, hbalance⟩ := Token.transfer_spec ht
    refine ⟨hbalance _ (Ne.symm hsender), fun spender => ?_⟩
    rw [Token.allowance, Token.allowance, hsame]
  | tokenTransferFrom src dest amount =>
    refine World.onToken_spec h fun t ht => ?_
    obtain ⟨hspent, hlower, hbalance⟩ := Token.transferFrom_spec ht
    refine ⟨?_, hlower _⟩
    by_cases hsrc : w.self = src
    · -- out of the vault only nothing can be spent, and that lowers no balance
      subst hsrc
      rw [hallowance] at hspent
      obtain rfl := Nat.le_zero.1 hspent
      obtain ⟨_, -, ht⟩ := bind_eq_ok.1 ht
      obtain ⟨_, -, ht⟩ := bind_eq_ok.1 ht
      obtain ⟨_, -, ht⟩ := bind_eq_ok.1 ht
      obtain rfl := Except.ok.inj ht
      simp only [Token.balanceOf, getElem?_insert_eq]
      split
      next hdest => simp [hdest]
      · simp
    · exact hbalance _ hsrc
  | tokenApprove spender amount =>
    refine World.onToken_spec h fun t ht => ?_
    obtain rfl := Except.ok.inj ht
    refine ⟨le_rfl, fun s => ?_⟩
    rw [Token.approve, Token.allowance, getElem?_insert_eq, if_neg fun hs =>
      hsender (Prod.mk.inj hs).1]
    exact le_rfl

end Change

/-! ## Runs -/

/-- A transaction to the vault or the token, in a block of this time. -/
structure VaultTx where
  time : ℕ
  sender : Address
  call : VaultCall

/-- The vault and what has happened to it, the newest event first. -/
structure Trace where
  world : World
  /-- The time of the last transaction. -/
  now : ℕ
  log : List (ℕ × VaultEvent) := []
  /-- When the emergency was requested, if no later call has cancelled or used the request. -/
  pending : Option ℕ := none

namespace Trace

def step (tr : Trace) (tx : VaultTx) : Trace :=
  match tr.world.call tx.time tx.sender tx.call with
  | .error _ => { tr with now := tx.time }
  | .ok (w, evs) => {
      world := w
      now := tx.time
      log := evs.map (tx.time, ·) ++ tr.log
      pending := tx.call.pendingAfter tx.time tr.pending }

/-- Blocks come in the order of time, and the vault itself sends no transaction. -/
def Proper (tr : Trace) (tx : VaultTx) : Prop := tr.now ≤ tx.time ∧ tx.sender ≠ tr.world.self

instance Proper.decidable (tr : Trace) (tx : VaultTx) : Decidable (tr.Proper tx) :=
  inferInstanceAs (Decidable (_ ∧ _))

/-- The transaction does not change the caps. -/
def CapsKept (tr : Trace) (tx : VaultTx) : Prop :=
  (tr.step tx).world.vault.maxPerTx = tr.world.vault.maxPerTx ∧
    (tr.step tx).world.vault.dailyLimit = tr.world.vault.dailyLimit

instance CapsKept.decidable (tr : Trace) (tx : VaultTx) : Decidable (tr.CapsKept tx) :=
  inferInstanceAs (Decidable (_ ∧ _))

/-- The time and amount of a release. -/
def releaseOf : ℕ × VaultEvent → Option (ℕ × ℕ)
  | (t, .bridgeRelease _ amount _) => some (t, amount)
  | (_, .emergencyWithdraw ..) => none

def idOf : ℕ × VaultEvent → Option String
  | (_, .bridgeRelease _ _ l1TxId) => some l1TxId
  | (_, .emergencyWithdraw ..) => none

def releases (tr : Trace) : List (ℕ × ℕ) := tr.log.filterMap releaseOf

def releasedIds (tr : Trace) : List String := tr.log.filterMap idOf

/-- What a transaction may do to the vault's XRGE: a release to its recipient, not above the cap
    for one and not while paused; everything to the owner, two days after the pending request; or
    nothing that lowers the vault's balance. -/
inductive Guarded (tr : Trace) (tx : VaultTx) : Prop
  | released {dest : Address} {amount : ℕ} {l1TxId : String}
      (hlog : (tr.step tx).log = (tx.time, .bridgeRelease dest amount l1TxId) :: tr.log)
      (htransfer : tr.world.token.transfer tr.world.self dest amount = .ok (tr.step tx).world.token)
      (hcap : amount ≤ tr.world.vault.maxPerTx) (hpaused : tr.world.vault.paused = false)
  | emptied {amount r : ℕ}
      (hlog : (tr.step tx).log =
        (tx.time, .emergencyWithdraw tr.world.vault.owner amount) :: tr.log)
      (htransfer : tr.world.token.transfer tr.world.self tr.world.vault.owner amount =
        .ok (tr.step tx).world.token)
      (hpending : tr.pending = some r) (htimelock : r + emergencyTimelock ≤ tx.time)
  | kept (hlog : (tr.step tx).log = tr.log)
      (hbalance : tr.world.token.balanceOf tr.world.self ≤
        (tr.step tx).world.token.balanceOf tr.world.self)

/-- What was released in the window in force. -/
def current (tr : Trace) : ℕ :=
  Windows.paid (fun s => tr.world.vault.windowStart ≤ s) tr.releases

/-- What was released before the window in force began, but less than a day ago. -/
def carried (tr : Trace) : ℕ :=
  Windows.paid (fun s => tr.now < s + oneDay && !decide (tr.world.vault.windowStart ≤ s))
    tr.releases

/-- A release leaves room for what an earlier window has released within the last day. -/
def Roomy (tr : Trace) (tx : VaultTx) : Prop :=
  (tr.step tx).releases = tr.releases ∨ (tr.step tx).carried = 0 ∨
    (tr.step tx).carried + (tr.step tx).current ≤ tr.world.vault.dailyLimit

instance Roomy.decidable (tr : Trace) (tx : VaultTx) : Decidable (tr.Roomy tx) :=
  inferInstanceAs (Decidable (_ ∨ _))

/-- What every reachable trace satisfies. -/
structure Ok (tr : Trace) : Prop where
  allowance : ∀ spender, tr.world.token.allowance tr.world.self spender = 0
  windowStart_le : tr.world.vault.windowStart ≤ tr.now
  time_le : ∀ x ∈ tr.releases, x.1 ≤ tr.now
  time_lt : ∀ x ∈ tr.releases, x.1 < tr.world.vault.windowStart + oneDay
  sorted : Windows.Sorted tr.releases
  current_le : tr.current ≤ tr.world.vault.releasedInWindow
  processed : ∀ id ∈ tr.releasedIds, id ∈ tr.world.vault.processedL1Txs
  nodup : tr.releasedIds.Nodup
  pending : tr.pending = tr.world.vault.pendingRequest

variable {tr : Trace} {tx : VaultTx}

/-- What one transaction does, case by case. -/
theorem step_cases (hok : tr.Ok) (htx : tr.Proper tx) :
    ((tr.step tx).world = tr.world ∧ (tr.step tx).log = tr.log ∧
      (tr.step tx).pending = tr.pending) ∨
    ∃ evs, VaultChange tr.world tx.time (tr.step tx).world evs ∧
      (tr.step tx).log = evs.map (tx.time, ·) ++ tr.log ∧
      (tr.step tx).pending = (tr.step tx).world.vault.pendingRequest := by
  rw [step]
  split
  · exact .inl ⟨rfl, rfl, rfl⟩
  next w evs hcall =>
    obtain ⟨hchange, hpending⟩ := World.call_change htx.2 hok.allowance hcall
    refine .inr ⟨evs, hchange, rfl, ?_⟩
    rw [hpending, ← hok.pending]

theorem step_now : (tr.step tx).now = tx.time := by
  rw [step]
  split <;> rfl

theorem releases_step {evs : List VaultEvent}
    (h : (tr.step tx).log = evs.map (tx.time, ·) ++ tr.log) :
    (tr.step tx).releases = (evs.map (tx.time, ·)).filterMap releaseOf ++ tr.releases := by
  rw [releases, h, List.filterMap_append]
  rfl

theorem releasedIds_step {evs : List VaultEvent}
    (h : (tr.step tx).log = evs.map (tx.time, ·) ++ tr.log) :
    (tr.step tx).releasedIds = (evs.map (tx.time, ·)).filterMap idOf ++ tr.releasedIds := by
  rw [releasedIds, h, List.filterMap_append]
  rfl

theorem Ok.guarded (hok : tr.Ok) (htx : tr.Proper tx) : tr.Guarded tx := by
  obtain ⟨hworld, hlog, -⟩ | ⟨evs, hchange, hlog, -⟩ := step_cases hok htx
  · exact .kept hlog (le_of_eq (by rw [hworld]))
  cases hchange with
  | released h => exact .released hlog h.transfer h.amount_le h.unpaused
  | emptied h =>
    obtain ⟨r, hr, hexpired⟩ := h.expired
    exact .emptied hlog h.transfer (hok.pending.trans hr) hexpired
  | kept h hbalance => exact .kept hlog hbalance

/-- A transaction that releases nothing keeps what it leaves alone. -/
theorem Ok.of_settles {tr' : Trace} (hok : tr.Ok) (h : Settles tr.world tr'.world)
    (hnow : tr.now ≤ tr'.now) (hreleases : tr'.releases = tr.releases)
    (hids : tr'.releasedIds = tr.releasedIds)
    (hpending : tr'.pending = tr'.world.vault.pendingRequest) : tr'.Ok where
  allowance spender := by
    rw [h.self]
    exact Nat.le_zero.1 ((h.allowance spender).trans (hok.allowance spender).le)
  windowStart_le := by
    rw [h.windowStart]
    exact hok.windowStart_le.trans hnow
  time_le x hx := (hok.time_le x (hreleases ▸ hx)).trans hnow
  time_lt x hx := by
    rw [h.windowStart]
    exact hok.time_lt x (hreleases ▸ hx)
  sorted := hreleases ▸ hok.sorted
  current_le := by
    rw [current, hreleases, h.windowStart, h.releasedInWindow]
    exact hok.current_le
  processed id hid := by
    rw [h.processedL1Txs]
    exact hok.processed id (hids ▸ hid)
  nodup := hids ▸ hok.nodup
  pending := hpending

/-- A release is counted in the window in force after it. -/
theorem Ok.of_released {tr' : Trace} {dest : Address} {amount : ℕ} {l1TxId : String} (hok : tr.Ok)
    (h : Released tr.world tr'.world tr'.now dest amount l1TxId) (hnow : tr.now ≤ tr'.now)
    (hreleases : tr'.releases = (tr'.now, amount) :: tr.releases)
    (hids : tr'.releasedIds = l1TxId :: tr.releasedIds)
    (hpending : tr'.pending = tr'.world.vault.pendingRequest) : tr'.Ok where
  allowance spender := by
    rw [h.self]
    exact Nat.le_zero.1 ((h.allowance spender).trans (hok.allowance spender).le)
  windowStart_le := by
    obtain ⟨hstart, -, -⟩ | ⟨hstart, -⟩ := h.window
    · exact hstart.le
    · rw [hstart]
      exact hok.windowStart_le.trans hnow
  time_le := by
    rw [hreleases, List.forall_mem_cons]
    exact ⟨le_rfl, fun x hx => (hok.time_le x hx).trans hnow⟩
  time_lt := by
    rw [hreleases, List.forall_mem_cons]
    refine ⟨h.before_end, fun x hx => ?_⟩
    exact ((hok.time_le x hx).trans hnow).trans_lt h.before_end
  sorted := by
    rw [hreleases]
    exact List.pairwise_cons.2 ⟨fun x hx => (hok.time_le x hx).trans hnow, hok.sorted⟩
  current_le := by
    rw [current, hreleases, Windows.paid_cons]
    obtain ⟨hstart, hused, hover⟩ | ⟨hstart, hused⟩ := h.window
    · -- the window before has ended, and with it every release made so far
      have hnone : Windows.paid (fun s => decide (tr'.now ≤ s)) tr.releases = 0 := by
        refine Windows.paid_eq_zero fun x hx => ?_
        exact decide_eq_false (Nat.not_le_of_lt ((hok.time_lt x hx).trans_le hover))
      rw [hstart, hused, if_pos (decide_eq_true le_rfl), hnone, Nat.add_zero]
    · rw [hstart, hused, if_pos (decide_eq_true (hok.windowStart_le.trans hnow)), Nat.add_comm]
      exact Nat.add_le_add_right hok.current_le amount
  processed := by
    rw [hids, List.forall_mem_cons, h.processedL1Txs]
    exact ⟨List.mem_cons_self, fun id hid => List.mem_cons_of_mem _ (hok.processed id hid)⟩
  nodup := by
    rw [hids, List.nodup_cons]
    exact ⟨fun hid => h.fresh (hok.processed _ hid), hok.nodup⟩
  pending := hpending

theorem Ok.step (hok : tr.Ok) (htx : tr.Proper tx) : (tr.step tx).Ok := by
  have hnow : tr.now ≤ (tr.step tx).now := step_now.symm ▸ htx.1
  obtain ⟨hworld, hlog, hpending⟩ | ⟨evs, hchange, hlog, hpending⟩ := step_cases hok htx
  · refine hok.of_settles ?_ hnow (by rw [releases, hlog]; rfl) (by rw [releasedIds, hlog]; rfl) ?_
    · rw [hworld]
      exact ⟨⟨rfl, rfl, fun _ => le_rfl⟩, rfl, rfl, rfl⟩
    · rw [hpending, hok.pending, hworld]
  have hreleases := releases_step hlog
  have hids := releasedIds_step hlog
  cases hchange with
  | released h =>
    refine hok.of_released (step_now.symm ▸ h) hnow ?_ hids hpending
    rw [hreleases, step_now]
    rfl
  | emptied h => exact hok.of_settles h.toSettles hnow hreleases hids hpending
  | kept h => exact hok.of_settles h hnow hreleases hids hpending

/-- What was released within a day is what the window in force counts and what is carried. -/
theorem recent_eq (h : tr.now < tr.world.vault.windowStart + oneDay) :
    Windows.recent oneDay tr.now tr.releases = tr.current + tr.carried := by
  rw [Windows.recent, Windows.paid_split fun s => tr.world.vault.windowStart ≤ s, current, carried]
  congr 1
  refine Windows.paid_congr fun x _ => ?_
  by_cases hx : tr.world.vault.windowStart ≤ x.1
  · simp [hx, h.trans_le (Nat.add_le_add_right hx oneDay)]
  · simp [hx]

/-- One transaction keeps to the rolling cap exactly when it leaves room for what is carried. -/
theorem Ok.rolling_step (hok : tr.Ok) (htx : tr.Proper tx) {L : ℕ} (hL : L ≠ 0)
    (hlimit : tr.world.vault.dailyLimit = L) :
    Windows.Rolling oneDay L (tr.step tx).releases ↔
      tr.Roomy tx ∧ Windows.Rolling oneDay L tr.releases := by
  have hstay : (tr.step tx).releases = tr.releases →
      (Windows.Rolling oneDay L (tr.step tx).releases ↔
        tr.Roomy tx ∧ Windows.Rolling oneDay L tr.releases) := fun h => by
    rw [h]
    exact (and_iff_right (.inl h)).symm
  have hok' := hok.step htx
  obtain ⟨-, hlog, -⟩ | ⟨evs, hchange, hlog, -⟩ := step_cases hok htx
  · exact hstay (by rw [releases, hlog]; rfl)
  have hreleases := releases_step hlog
  cases hchange with
  | released h =>
    rename_i dest amount l1TxId
    have hnew : (tr.step tx).releases = ((tr.step tx).now, amount) :: tr.releases := by
      rw [hreleases, step_now]
      rfl
    have hbound : (tr.step tx).current ≤ L :=
      hok'.current_le.trans (hlimit ▸ h.limit (hlimit.symm ▸ hL))
    have hrecent : Windows.recent oneDay (tr.step tx).now (tr.step tx).releases = _ :=
      recent_eq (step_now.symm ▸ h.before_end)
    rw [hnew, Windows.Rolling, ← hnew, hrecent, Roomy, hlimit]
    have hne : (tr.step tx).releases ≠ tr.releases := fun h => by
      rw [hnew] at h
      exact List.cons_ne_self _ _ h
    refine and_congr_left fun _ => ?_
    constructor
    · intro hle
      exact .inr (.inr (Nat.add_comm _ _ ▸ hle))
    · rintro (hsame | hzero | hle)
      · exact absurd hsame hne
      · rwa [hzero]
      · rwa [Nat.add_comm]
  | emptied => exact hstay hreleases
  | kept => exact hstay hreleases

theorem Ok.rolling_run {txs : List VaultTx} {L : ℕ} (hL : L ≠ 0) (hok : tr.Ok)
    (htxs : Runs.Along Trace.step Proper tr txs) (hcaps : Runs.Along Trace.step CapsKept tr txs)
    (hlimit : tr.world.vault.dailyLimit = L) :
    Windows.Rolling oneDay L (Runs.run Trace.step tr txs).releases ↔
      Runs.Along Trace.step Roomy tr txs ∧ Windows.Rolling oneDay L tr.releases := by
  induction txs generalizing tr with
  | nil => simp [Runs.Along]
  | cons tx txs ih =>
    rw [Runs.run_cons, ih (hok.step htxs.1) htxs.2 hcaps.2 (hcaps.1.2.trans hlimit),
      hok.rolling_step htxs.1 hL hlimit, Runs.Along]
    tauto

theorem Ok.run {txs : List VaultTx} (hok : tr.Ok) (htxs : Runs.Along Trace.step Proper tr txs) :
    (Runs.run Trace.step tr txs).Ok :=
  htxs.invariant (fun _ _ htx hok => hok.step htx) hok

/-- A trace whose past is forgotten. -/
def recount (tr : Trace) : Trace := { tr with log := [] }

theorem Ok.recount (hok : tr.Ok) : tr.recount.Ok where
  allowance := hok.allowance
  windowStart_le := hok.windowStart_le
  time_le _ hx := absurd hx List.not_mem_nil
  time_lt _ hx := absurd hx List.not_mem_nil
  sorted := List.Pairwise.nil
  current_le := Nat.zero_le _
  processed _ hid := absurd hid List.not_mem_nil
  nodup := List.nodup_nil
  pending := hok.pending

/-- Two traces that differ in the past only. -/
structure Alike (tr tr' : Trace) : Prop where
  world : tr.world = tr'.world
  now : tr.now = tr'.now
  pending : tr.pending = tr'.pending

theorem alike_recount (tr : Trace) : Alike tr tr.recount := ⟨rfl, rfl, rfl⟩

theorem Alike.step {tr' : Trace} (h : Alike tr tr') (tx : VaultTx) :
    Alike (tr.step tx) (tr'.step tx) := by
  rw [Trace.step, Trace.step, h.world, h.pending]
  split <;> exact ⟨rfl, rfl, rfl⟩

/-- What a run meets whatever the past, the same run with another past meets. -/
theorem Alike.along {ok : Trace → VaultTx → Prop}
    (hok : ∀ tr tr' tx, Alike tr tr' → ok tr tx → ok tr' tx) {txs : List VaultTx}
    {tr' : Trace} (h : Alike tr tr') (htxs : Runs.Along Trace.step ok tr txs) :
    Runs.Along Trace.step ok tr' txs := by
  induction txs generalizing tr tr' with
  | nil => trivial
  | cons tx txs ih => exact ⟨hok _ _ _ h htxs.1, ih (h.step tx) htxs.2⟩

theorem Alike.proper (tr tr' : Trace) (tx : VaultTx) (h : Alike tr tr') (htx : tr.Proper tx) :
    tr'.Proper tx := by
  rwa [Proper, h.now, h.world] at htx

theorem Alike.capsKept (tr tr' : Trace) (tx : VaultTx) (h : Alike tr tr') (htx : tr.CapsKept tx) :
    tr'.CapsKept tx := by
  rwa [CapsKept, h.world, (h.step tx).world] at htx

/-- The trace of a vault that has just been deployed. -/
def start (deployedAt : ℕ) (w : World) : Trace := { world := w, now := deployedAt }

theorem ok_start {deployedAt : ℕ} {self xrgeToken owner relayer : Address} {token : Token}
    {maxPerTx dailyLimit : ℕ} {w : World}
    (h : World.deploy deployedAt self xrgeToken token owner relayer maxPerTx dailyLimit = .ok w)
    (hallowance : ∀ spender, token.allowance self spender = 0) : (start deployedAt w).Ok := by
  obtain ⟨_, -, h⟩ := bind_eq_ok.1 h
  obtain rfl := Except.ok.inj h
  exact ⟨hallowance, le_rfl, fun _ hx => absurd hx List.not_mem_nil,
    fun _ hx => absurd hx List.not_mem_nil, List.Pairwise.nil, Nat.zero_le _,
    fun _ hid => absurd hid List.not_mem_nil, List.nodup_nil, rfl⟩

end Trace

/-! ## The guardrails -/

section Guardrails

open Trace

/-- A vault with a thousand XRGE and a cap of a hundred, for one release and for a day. -/
def sampleVault : World where
  self := 1
  xrgeToken := 2
  vault := { owner := 3, relayer := 4, maxPerTx := 100, dailyLimit := 100, windowStart := 0 }
  token := { balances := (∅ : ExtTreeMap Address ℕ).insert 1 1000 }

/-- A release in the last second of the first window, and one in the first of the next. -/
def sampleTxs (a b : ℕ) : List VaultTx :=
  [⟨86399, 4, .release 5 a "a"⟩, ⟨86400, 4, .release 5 b "b"⟩]

theorem sampleVault_deployed :
    World.deploy 0 1 2 sampleVault.token 3 4 100 100 = .ok sampleVault := rfl

end Guardrails

end RougeChain.Bridge.Vault
