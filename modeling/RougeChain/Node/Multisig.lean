import RougeChain.Library.Runs
import RougeChain.Node.Binding

/-!
# Multisig wallets

A wallet names its signers and how many of them must approve. A proposal is submitted by a signer,
approved by others, and executed in the block in which the last approval comes: a transfer then
moves XRGE from the creator of the wallet to the recipient that the proposal names in free text.

* `multisigApprove_ok_iff`: what an approval panics at;
* `multisig_completes_iff`: a history of multisig transactions is executed to its end exactly if
  each transfer on the way goes to a text that can be cut after sixteen bytes.
-/

namespace RougeChain.Node

open Std (ExtTreeMap)
open Accounts

/-- A wallet of `threshold` out of its signers. -/
structure MultisigWallet where
  walletId : String
  creator : String
  signers : List String
  threshold : UInt32
  createdAtHeight : UInt64
  label : Option String

structure MultisigProposal where
  proposalId : String
  walletId : String
  txType : String
  proposer : String
  payload : Json.Value
  fee : Float
  approvals : List String
  signatures : List String
  executed : Bool
  createdAtHeight : UInt64
  executedAtHeight : Option UInt64

/-- The wallets and the proposals that can be read back, by their ids. -/
structure MultisigStore where
  wallets : ExtTreeMap String MultisigWallet
  proposals : ExtTreeMap String MultisigProposal

namespace MultisigStore

def createWallet (s : MultisigStore) (wallet : MultisigWallet) : MultisigStore :=
  { s with wallets := s.wallets.insert wallet.walletId wallet }

/-- Also the source's `update_proposal`: what is there is overwritten. -/
def createProposal (s : MultisigStore) (proposal : MultisigProposal) : MultisigStore :=
  { s with proposals := s.proposals.insert proposal.proposalId proposal }

end MultisigStore

section Execute

variable (P : Platform)

def multisigCreate (s : MultisigStore) (tx : TxV1) (height : UInt64) : MultisigStore :=
  let signers := tx.payload.multisigSigners.getD []
  let threshold := tx.payload.multisigThreshold.getD 2
  if signers.length < 2 ∨ threshold < 1 ∨ UInt32.ofNat signers.length < threshold then s
  else
    s.createWallet
      { walletId := tx.payload.multisigWalletId.getD ("ms-" ++ shortTxHash P tx)
        creator := tx.fromPubKey, signers, threshold, createdAtHeight := height
        label := tx.payload.multisigLabel }

def multisigSubmit (s : MultisigStore) (tx : TxV1) (height : UInt64) : MultisigStore :=
  match tx.payload.multisigWalletId with
  | none => s
  | some walletId =>
    match s.wallets[walletId]? with
    | none => s
    | some wallet =>
      if tx.fromPubKey ∉ wallet.signers then s
      else
        s.createProposal
          { proposalId := tx.payload.multisigProposalId.getD ("mp-" ++ shortTxHash P tx)
            walletId, txType := tx.payload.multisigProposalTxType.getD "transfer"
            proposer := tx.fromPubKey
            payload := tx.payload.multisigProposalPayload.getD (.object [])
            fee := tx.payload.multisigProposalFee.getD 0.1
            approvals := [tx.fromPubKey], signatures := [tx.sig], executed := false
            createdAtHeight := height, executedAtHeight := none }

/-- The transfer of a proposal, from the creator of the wallet. The line for the log cuts the
    recipient after sixteen bytes. -/
def multisigTransfer (b : Balances) (wallet : MultisigWallet) (payload : Json.Value) :
    Except Fault Balances :=
  match (payload.get "to_pub_key_hex").bind Json.Value.asStr,
    (payload.get "amount").bind Json.Value.asU64 with
  | some recipient, some amount =>
    let creator := canonAddr P wallet.creator
    let quanta := xrgeF64ToQuanta (natAsF64 amount.toNat)
    let b := b.insertIfNew creator 0
    if balance b creator < quanta then return b
    else do
      let b := credit (debit b creator quanta) (canonAddr P recipient) quanta
      let _ ← sliceTo 16 recipient
      return b
  | _, _ => return b

def multisigApprove (s : MultisigStore) (b : Balances) (tx : TxV1) (height : UInt64) :
    Except Fault (MultisigStore × Balances) :=
  match tx.payload.multisigProposalId.bind (s.proposals[·]?) with
  | none => return (s, b)
  | some proposal =>
    match s.wallets[proposal.walletId]? with
    | none => return (s, b)
    | some wallet =>
      if proposal.executed ∨ tx.fromPubKey ∉ wallet.signers ∨ tx.fromPubKey ∈ proposal.approvals then
        return (s, b)
      else
        let proposal := { proposal with
          approvals := proposal.approvals ++ [tx.fromPubKey]
          signatures := proposal.signatures ++ [tx.payload.multisigApprovalSig.getD tx.sig] }
        if proposal.approvals.length < wallet.threshold.toNat then
          return (s.createProposal proposal, b)
        else do
          let b ← if proposal.txType = "transfer" then multisigTransfer P b wallet proposal.payload
            else .ok b
          return (s.createProposal
            { proposal with executed := true, executedAtHeight := some height }, b)

/-- A transaction in a block, with the balances as the transactions before it have left them. -/
structure MultisigCall where
  tx : TxV1
  height : UInt64
  balances : Balances

/-- The multisig part of executing a transaction. -/
def applyMultisig (s : MultisigStore) (c : MultisigCall) : Except Fault (MultisigStore × Balances) :=
  match c.tx.kind with
  | .multisigCreate => return (multisigCreate P s c.tx c.height, c.balances)
  | .multisigSubmit => return (multisigSubmit P s c.tx c.height, c.balances)
  | .multisigApprove => multisigApprove P s c.balances c.tx c.height
  | _ => return (s, c.balances)

/-- A history of transactions, over any number of blocks. -/
def applyMultisigs (s : MultisigStore) : List MultisigCall → Except Fault MultisigStore
  | [] => return s
  | c :: cs => do
    let (s, _) ← applyMultisig P s c
    applyMultisigs s cs

end Execute

/-! ## What can panic -/

/-- The text has sixteen bytes, and a character ends behind them. -/
def CutsAt16 (s : String) : Prop := (Text.takeBytes 16 s).isSome
  deriving Decidable

section Panics

variable {P : Platform} {s : MultisigStore} {b : Balances} {tx : TxV1} {height : UInt64}

/-- An approval that executes a transfer which the creator of the wallet can pay. -/
structure PaysTo (P : Platform) (s : MultisigStore) (c : MultisigCall) (recipient : String) :
    Prop where
  kind : c.tx.kind = .multisigApprove
  pays : ∃ proposal wallet amount,
    c.tx.payload.multisigProposalId.bind (s.proposals[·]?) = some proposal ∧
    s.wallets[proposal.walletId]? = some wallet ∧ ¬ proposal.executed ∧
    c.tx.fromPubKey ∈ wallet.signers ∧ c.tx.fromPubKey ∉ proposal.approvals ∧
    wallet.threshold.toNat ≤ proposal.approvals.length + 1 ∧ proposal.txType = "transfer" ∧
    (proposal.payload.get "to_pub_key_hex").bind Json.Value.asStr = some recipient ∧
    (proposal.payload.get "amount").bind Json.Value.asU64 = some amount ∧
    xrgeF64ToQuanta (natAsF64 amount.toNat) ≤ balance c.balances (canonAddr P wallet.creator)

theorem sliceTo_ok_iff {n : ℕ} {t : String} :
    (∃ r, sliceTo n t = .ok r) ↔ (Text.takeBytes n t).isSome := by
  rw [sliceTo, Option.isSome_iff_exists]
  exact exists_congr fun r => Fallible.ofOption_eq_ok

theorem balance_insertIfNew_zero (b : Balances) (k : String) :
    balance (b.insertIfNew k 0) k = balance b k := by
  rw [balance, balance, ExtTreeMap.getElem?_insertIfNew]
  by_cases hk : k ∈ b
  · rw [if_neg fun h => h.2 hk]
  · rw [if_pos ⟨Std.ReflOrd.compare_self, hk⟩, ExtTreeMap.getElem?_eq_none hk]
    rfl

/-- What follows a step without failing does not change whether the step succeeds. -/
theorem exists_bind_ok_iff {α β : Type} {x : Except Fault α} {f : α → β} :
    (∃ r, (x >>= fun a => (pure (f a) : Except Fault β)) = .ok r) ↔ ∃ a, x = .ok a := by
  cases x with
  | error e => exact ⟨fun ⟨_, h⟩ => (nomatch h), fun ⟨_, h⟩ => (nomatch h)⟩
  | ok a => exact ⟨fun _ => ⟨a, rfl⟩, fun _ => ⟨f a, rfl⟩⟩

theorem multisigTransfer_ok_iff {wallet : MultisigWallet} {payload : Json.Value} :
    (∃ r, multisigTransfer P b wallet payload = .ok r) ↔
      ∀ recipient amount, (payload.get "to_pub_key_hex").bind Json.Value.asStr = some recipient →
        (payload.get "amount").bind Json.Value.asU64 = some amount →
        xrgeF64ToQuanta (natAsF64 amount.toNat) ≤ balance b (canonAddr P wallet.creator) →
        CutsAt16 recipient := by
  rw [multisigTransfer]
  split
  · next recipient amount hto hamount =>
    simp only [balance_insertIfNew_zero]
    split
    · next hlt =>
      refine iff_of_true ⟨_, rfl⟩ fun _ amount' _ hamount' hle => absurd hle ?_
      rw [hamount, Option.some.injEq] at hamount'
      rw [← hamount']
      exact BitVec.not_le.2 hlt
    · next hle =>
      constructor
      · rintro ⟨r, hr⟩ recipient' _ hto' - -
        obtain ⟨t, ht, -⟩ := Fallible.bind_eq_ok.1 hr
        rw [hto, Option.some.injEq] at hto'
        rw [← hto']
        exact sliceTo_ok_iff.1 ⟨t, ht⟩
      · intro h
        obtain ⟨t, ht⟩ := sliceTo_ok_iff.2 (h recipient amount hto hamount (BitVec.not_lt.1 hle))
        exact ⟨_, Fallible.bind_eq_ok.2 ⟨t, ht, rfl⟩⟩
  · next hnone =>
    exact iff_of_true ⟨_, rfl⟩ fun recipient amount hto hamount => absurd hamount (hnone recipient amount hto)

/-- An approval panics exactly at a transfer that it executes and whose recipient cannot be cut. -/
theorem multisigApprove_ok_iff {c : MultisigCall} (hkind : c.tx.kind = .multisigApprove) :
    (∃ r, multisigApprove P s c.balances c.tx c.height = .ok r) ↔
      ∀ recipient, PaysTo P s c recipient → CutsAt16 recipient := by
  rw [multisigApprove]
  split
  · next hnone =>
    refine iff_of_true ⟨_, rfl⟩ ?_
    rintro recipient ⟨_, proposal, _, _, hproposal, _⟩
    rw [hnone] at hproposal
    cases hproposal
  · next proposal hproposal =>
    split
    · next hnone =>
      refine iff_of_true ⟨_, rfl⟩ ?_
      rintro recipient ⟨_, _, _, _, hproposal', hwallet, _⟩
      rw [hproposal, Option.some.injEq] at hproposal'
      rw [← hproposal', hnone] at hwallet
      cases hwallet
    · next wallet hwallet =>
      -- the proposal and the wallet that are paid from are these
      have hpays (recipient : String) : PaysTo P s c recipient ↔ ∃ amount,
          ¬ proposal.executed ∧ c.tx.fromPubKey ∈ wallet.signers ∧
          c.tx.fromPubKey ∉ proposal.approvals ∧
          wallet.threshold.toNat ≤ proposal.approvals.length + 1 ∧
          proposal.txType = "transfer" ∧
          (proposal.payload.get "to_pub_key_hex").bind Json.Value.asStr = some recipient ∧
          (proposal.payload.get "amount").bind Json.Value.asU64 = some amount ∧
          xrgeF64ToQuanta (natAsF64 amount.toNat) ≤
            balance c.balances (canonAddr P wallet.creator) := by
        constructor
        · rintro ⟨-, proposal', wallet', amount, hproposal', hwallet', h⟩
          rw [hproposal, Option.some.injEq] at hproposal'
          subst hproposal'
          rw [hwallet, Option.some.injEq] at hwallet'
          subst hwallet'
          exact ⟨amount, h⟩
        · rintro ⟨amount, h⟩
          exact ⟨hkind, proposal, wallet, amount, hproposal, hwallet, h⟩
      simp only [hpays]
      split
      · next hrefused =>
        refine iff_of_true ⟨_, rfl⟩ ?_
        rintro recipient ⟨_, hexecuted, hsigner, hnew, _⟩
        rcases hrefused with h | h | h
        · exact absurd h hexecuted
        · exact absurd hsigner h
        · exact absurd h hnew
      · next hpassed =>
        push Not at hpassed
        rw [List.length_append, List.length_singleton]
        split
        · next hfew =>
          refine iff_of_true ⟨_, rfl⟩ ?_
          rintro recipient ⟨_, _, _, _, henough, _⟩
          exact absurd henough (not_le.2 hfew)
        · next henough =>
          split
          · next htransfer =>
            rw [exists_bind_ok_iff, multisigTransfer_ok_iff]
            constructor
            · rintro h recipient ⟨amount, -, -, -, -, -, hto, hamount, hle⟩
              exact h recipient amount hto hamount hle
            · intro h recipient amount hto hamount hle
              exact h recipient ⟨amount, by simpa using hpassed.1, hpassed.2.1, hpassed.2.2,
                not_lt.1 henough, htransfer, hto, hamount, hle⟩
          · next htransfer =>
            refine iff_of_true ⟨_, rfl⟩ ?_
            rintro recipient ⟨_, _, _, _, _, h, _⟩
            exact absurd h htransfer

theorem applyMultisig_ok_iff {c : MultisigCall} :
    (∃ r, applyMultisig P s c = .ok r) ↔
      ∀ recipient, PaysTo P s c recipient → CutsAt16 recipient := by
  rw [applyMultisig]
  split
  · next hkind =>
    exact iff_of_true ⟨_, rfl⟩ fun _ h => absurd (hkind.symm.trans h.kind) (by decide)
  · next hkind =>
    exact iff_of_true ⟨_, rfl⟩ fun _ h => absurd (hkind.symm.trans h.kind) (by decide)
  · next hkind => exact multisigApprove_ok_iff hkind
  · next hother => exact iff_of_true ⟨_, rfl⟩ fun _ h => absurd h.kind hother

end Panics

/-- The store after a transaction. -/
def nextStore (P : Platform) (s : MultisigStore) (c : MultisigCall) : MultisigStore :=
  match applyMultisig P s c with
  | .ok (s', _) => s'
  | .error _ => s

/-- A history of multisig transactions is executed to its end, whatever else its blocks do to the
    balances, exactly if each transfer that an approval executes on the way goes to a text of at
    least sixteen bytes with a character boundary behind the sixteenth. -/
theorem multisig_completes_iff (P : Platform) (s : MultisigStore) (calls : List MultisigCall) :
    (∃ r, applyMultisigs P s calls = .ok r) ↔
      Runs.Along (nextStore P)
        (fun s c => ∀ recipient, PaysTo P s c recipient → CutsAt16 recipient) s calls := by
  induction calls generalizing s with
  | nil => exact iff_of_true ⟨s, rfl⟩ trivial
  | cons c calls ih =>
    rw [applyMultisigs, Runs.Along, ← applyMultisig_ok_iff, ← ih, nextStore]
    cases applyMultisig P s c with
    | error e =>
      refine iff_of_false ?_ ?_
      · rintro ⟨_, ⟨⟩⟩
      · rintro ⟨⟨_, ⟨⟩⟩, _⟩
    | ok r => exact ⟨fun h => ⟨⟨r, rfl⟩, h⟩, fun h => h.2⟩

def isPanic {α : Type} : Except Fault α → Bool
  | .error .panic => true
  | _ => false

theorem eq_panic_of_isPanic {α : Type} {r : Except Fault α} (h : isPanic r = true) :
    r = .error .panic := by
  rcases r with (_ | _) | _
  · cases h
  · rfl
  · cases h

def multisigCallOf (kind : TxKind) (sender : String) (payload : TxPayload) : MultisigCall where
  tx := localTx kind sender payload
  height := 7
  balances := (∅ : Balances).insert "alice" (10 * quantaPerXrge)

/-- Two of two: a proposal to pay `bob`, three bytes, stops the node that executes its approval. -/
theorem short_recipient_panics :
    let create := multisigCallOf .multisigCreate "alice"
      { multisigSigners := some ["alice", "bob"], multisigWalletId := some "w" }
    let submit := multisigCallOf .multisigSubmit "alice"
      { multisigWalletId := some "w", multisigProposalId := some "p"
        multisigProposalPayload := some (.object
          [("to_pub_key_hex", .string "bob"), ("amount", .number (.posInt 1))]) }
    let approve := multisigCallOf .multisigApprove "bob" { multisigProposalId := some "p" }
    applyMultisigs localEnv.toPlatform ⟨∅, ∅⟩ [create, submit, approve] = .error .panic :=
  eq_panic_of_isPanic (by decide +kernel)

end RougeChain.Node
