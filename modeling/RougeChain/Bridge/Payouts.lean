import RougeChain.Library.Runs
import RougeChain.Bridge.Withdrawals

/-!
# One payout settles one withdrawal

Three handlers mark a withdrawal fulfilled by a payout. The RougeBridge release carries the id of
its withdrawal; a Bitcoin payment carries none, and the store refuses one that is recorded for
another withdrawal; an XRGE transfer carries none either and nothing is looked up.

* `transfer_reused`: one XRGE transfer settles two equal withdrawals to one address;
* `one_payout`: when the XRGE handler is asked about XRGE withdrawals and a transfer that is not
  recorded yet, a release is not a recorded XRGE payout, and a Bitcoin txid is given without
  `0x`, no payout is recorded for two withdrawals and each is recorded by the handler of its
  asset.
-/

open Fallible

namespace RougeChain.Bridge

/-- The assets a rail pays out. -/
def Rail.serves : Rail → PayoutRoute → Bool
  | .evm, .eth => true
  | .evm, .usdc => true
  | .xrge, .xrge => true
  | .btc, .btc => true
  | _, _ => false

/-- No payout is recorded for two withdrawals, and each by a handler of its asset. -/
structure OnePayout (x : Stores) : Prop where
  tx : ∀ r i r' j t, .paid r i t ∈ x.events → .paid r' j t ∈ x.events → i = j
  asset : ∀ r i t, .paid r i t ∈ x.events → ∀ w ∈ WithdrawStore.get x.withdrawals i,
    r.serves (payoutRoute w.tokenSymbol)

/-- Runs in which only the fulfil handlers are called. -/
def Action.Fulfills : Action → Prop
  | .request (.reportFailure _ _) => False
  | .request (.refund _) => False
  | _ => True

instance : ∀ a : Action, Decidable a.Fulfills
  | .request (.reportFailure _ _) => inferInstanceAs (Decidable False)
  | .request (.refund _) => inferInstanceAs (Decidable False)
  | .request (.fulfill _ _ _) => inferInstanceAs (Decidable True)
  | .advance _ _ => inferInstanceAs (Decidable True)
  | .block _ => inferInstanceAs (Decidable True)
  | .rebuild _ => inferInstanceAs (Decidable True)
  | .restart => inferInstanceAs (Decidable True)

/-! ## One transfer, two withdrawals -/

def vaultSettings : Settings :=
  ⟨some "0xbridge", none, some "0xvault", "0xtoken", none, 1, 1, 10000⟩

/-- One transfer of 5 XRGE from the vault. -/
def vaultTransfer : BaseTx :=
  ⟨"0xpay", "0xvault", true, 1, [.transfer "0xtoken" "0xvault" "0xa11ce" (5 * 10 ^ 18)]⟩

def vaultChains : Chains where
  base s := if s = "0xpay" then some vaultTransfer else none
  bitcoin _ := none
  rougeBridgeId := id
  base_hash s t p q hp hq _ := by
    split at hp <;> split at hq <;> simp_all
  rougeBridgeId_injective := fun _ _ h => h

def vaultReply : Reply := ⟨none, some 9, .ok 0, none, .ok false, .ok ()⟩

/-- A withdrawal of 5 XRGE. -/
def xrgeBurn (txId : List UInt8) : Burn := ⟨"XRGE", 5, "0xa11ce", txId, "alice"⟩

/-- Both withdrawals are reported with the same transfer. -/
def reusedTransfer : List Action :=
  [.block [(xrgeBurn [1], true), (xrgeBurn [2], true)],
    .request (.fulfill .xrge "xrge:01" (some "0xpay")),
    .request (.fulfill .xrge "xrge:02" (some "0xpay")),
    .advance 0 vaultReply, .advance 1 vaultReply, .advance 0 vaultReply, .advance 1 vaultReply]

theorem transfer_reused :
    ¬ ∀ (s : Settings) (c : Chains) (as : List Action), (∀ a ∈ as, a.Fulfills) →
      OnePayout (Runs.run (Daemon.step s c) Daemon.init as).stores := by
  intro h
  have htx := (h vaultSettings vaultChains reusedTransfer (by decide)).tx .xrge "xrge:01" .xrge
    "xrge:02" (.base "0xpay") (by decide +kernel) (by decide +kernel)
  exact absurd htx (by decide)

/-! ## The condition -/

/-- What a payout must not be, by the rail that is about to record it: an XRGE payout that is
    recorded for another withdrawal, or a release that is recorded as an XRGE payout. -/
def Rail.Fresh (rail : Rail) (id : String) (tx : External) : Event → Prop
  | .paid r i t => t = tx → i ≠ id → rail ≠ .xrge ∧ (rail = .evm → r ≠ .xrge)
  | _ => True

instance (rail : Rail) (id : String) (tx : External) : ∀ e, Decidable (rail.Fresh id tx e)
  | .paid r i t =>
    inferInstanceAs (Decidable (t = tx → i ≠ id → rail ≠ .xrge ∧ (rail = .evm → r ≠ .xrge)))
  | .settled _ => inferInstanceAs (Decidable True)
  | .minted _ => inferInstanceAs (Decidable True)

/-- What the last segment of a fulfil handler needs. -/
def Task.Distinct (s : Settings) (c : Chains) (x : Stores) (r : Reply) : Task → Prop
  | .verify rail id payout wallet record =>
    (rail = .xrge → payoutRoute record.tokenSymbol = .xrge) ∧
    (rail = .btc → ¬ ['0', 'x'] <+: (Text.trim Text.isWhitespace payout).toList) ∧
    ∀ tx ∈ (verifyPayout s c r rail payout wallet record).toOption,
      ∀ e ∈ x.events, rail.Fresh id tx e
  | _ => True

instance (s : Settings) (c : Chains) (x : Stores) (r : Reply) :
    ∀ t : Task, Decidable (t.Distinct s c x r)
  | .start _ => inferInstanceAs (Decidable True)
  | .verify rail id payout wallet record => inferInstanceAs (Decidable (
      (rail = .xrge → payoutRoute record.tokenSymbol = .xrge) ∧
      (rail = .btc → ¬ ['0', 'x'] <+: (Text.trim Text.isWhitespace payout).toList) ∧
      ∀ tx ∈ (verifyPayout s c r rail payout wallet record).toOption,
        ∀ e ∈ x.events, rail.Fresh id tx e))
  | .vault _ _ => inferInstanceAs (Decidable True)
  | .check _ _ => inferInstanceAs (Decidable True)
  | .insert _ _ => inferInstanceAs (Decidable True)
  | .mint _ _ => inferInstanceAs (Decidable True)
  | .rollback _ _ => inferInstanceAs (Decidable True)
  | .done _ => inferInstanceAs (Decidable True)

/-- The payouts that are reported are distinct, and XRGE payouts are for XRGE withdrawals. -/
def Action.Distinct (s : Settings) (c : Chains) (d : Daemon) : Action → Prop
  | .advance i r => ∀ t ∈ d.tasks[i]?, t.Distinct s c d.stores r
  | _ => True

instance (s : Settings) (c : Chains) (d : Daemon) : ∀ a : Action, Decidable (a.Distinct s c d)
  | .advance i r => inferInstanceAs (Decidable (∀ t ∈ d.tasks[i]?, t.Distinct s c d.stores r))
  | .request _ => inferInstanceAs (Decidable True)
  | .block _ => inferInstanceAs (Decidable True)
  | .rebuild _ => inferInstanceAs (Decidable True)
  | .restart => inferInstanceAs (Decidable True)

/-- A transaction that is sent to the RougeBridge contract releases for one withdrawal: every
    release is a call of the contract of its own, which no other call can enter. -/
def OneRelease (s : Settings) (c : Chains) : Prop :=
  ∀ rb ∈ s.rougeBridge, ∀ key, ∀ p ∈ c.base key, p.target = rb →
    ∀ e ∈ decodeRougeBridgeReleases p.logs rb, ∀ e' ∈ decodeRougeBridgeReleases p.logs rb,
      e.l1TxId = e'.l1TxId

/-! ## What the verifications say -/

/-- A release of the withdrawal `id` in the transaction `hash`. -/
def Released (s : Settings) (c : Chains) (id hash : String) : Prop :=
  ∃ rb key p, s.rougeBridge = some rb ∧ c.base key = some p ∧ p.hash = hash ∧ p.target = rb ∧
    ∃ e ∈ decodeRougeBridgeReleases p.logs rb, e.l1TxId = c.rougeBridgeId id

section Verify

variable {s : Settings} {c : Chains} {r : Reply}

theorem Reply.baseTx_eq_ok {hash missing : String} {tx : BaseTx}
    (h : r.baseTx c hash missing = .ok tx) : c.base hash = some tx := by
  rw [Reply.baseTx] at h
  split at h
  · cases h
  · exact ofOption_eq_ok.1 h

theorem verifyRougeBridgeRelease_eq_ok {txHash rb recipient id : String} {token : Option String}
    {minAmount : ℕ} {tx : BaseTx}
    (h : verifyRougeBridgeRelease s c r txHash rb recipient token minAmount
      (c.rougeBridgeId id) = .ok tx) (hrb : s.rougeBridge = some rb) :
    Released s c id tx.hash := by
  rw [verifyRougeBridgeRelease] at h
  obtain ⟨p, hp, h⟩ := bind_eq_ok.1 h
  obtain ⟨_, htarget, h⟩ := bind_eq_ok.1 h
  obtain ⟨_, -, h⟩ := bind_eq_ok.1 h
  obtain ⟨_, hmatched, h⟩ := bind_eq_ok.1 h
  obtain ⟨_, -, h⟩ := bind_eq_ok.1 h
  obtain ⟨_, -, h⟩ := bind_eq_ok.1 h
  cases h
  obtain ⟨e, he, hmatch⟩ := List.any_eq_true.1 (require_eq_ok.1 hmatched)
  rw [decide_eq_true_eq] at hmatch
  exact ⟨rb, _, tx, hrb, Reply.baseTx_eq_ok hp, rfl, require_eq_ok.1 htarget, e, he,
    hmatch.2.2.2⟩

/-- Two releases of one transaction are of one withdrawal. -/
theorem Released.unique {i j hash : String} (hone : OneRelease s c) (hi : Released s c i hash)
    (hj : Released s c j hash) : i = j := by
  obtain ⟨rb, key, p, hrb, hp, hph, htarget, e, he, hei⟩ := hi
  obtain ⟨rb', key', q, hrb', hq, hqh, -, e', he', hej⟩ := hj
  cases hrb.symm.trans hrb'
  cases c.base_hash key key' p q hp hq (hph.trans hqh.symm)
  refine c.rougeBridgeId_injective ?_
  rw [← hei, ← hej]
  exact hone rb hrb key p hp htarget e he e' he'

variable {record : PendingWithdrawal} {payout wallet : String} {tx : External}

theorem verifyPayout_evm (h : verifyPayout s c r .evm payout wallet record = .ok tx) :
    (∃ hash, tx = .base hash ∧ Released s c record.txId hash) ∧
      Rail.evm.serves (payoutRoute record.tokenSymbol) := by
  rw [verifyPayout, mapError_eq_ok, verifyEvm] at h
  split at h
  · next hroute =>
    rw [hroute]
    split at h
    · next rb hrb =>
      obtain ⟨p, hp, h⟩ := bind_eq_ok.1 h
      cases h
      exact ⟨⟨_, rfl, verifyRougeBridgeRelease_eq_ok hp hrb⟩, rfl⟩
    · cases h
  · next hroute =>
    rw [hroute]
    split at h
    · next rb usdc hrb _ =>
      obtain ⟨p, hp, h⟩ := bind_eq_ok.1 h
      cases h
      exact ⟨⟨_, rfl, verifyRougeBridgeRelease_eq_ok hp hrb⟩, rfl⟩
    · cases h
    · cases h
  · cases h

theorem verifyPayout_xrge (h : verifyPayout s c r .xrge payout wallet record = .ok tx) :
    ∃ hash, tx = .base hash := by
  rw [verifyPayout, verifyXrge] at h
  obtain ⟨_, -, h⟩ := bind_eq_ok.1 h
  obtain ⟨_, -, h⟩ := bind_eq_ok.1 h
  obtain ⟨_, -, h⟩ := bind_eq_ok.1 h
  obtain ⟨_, -, h⟩ := bind_eq_ok.1 h
  obtain ⟨p, -, h⟩ := bind_eq_ok.1 h
  cases h
  exact ⟨_, rfl⟩

theorem verifyPayout_btc (h : verifyPayout s c r .btc payout wallet record = .ok tx) :
    tx = .bitcoin (btcTxid payout) ∧ validTxid (btcTxid payout) := by
  rw [verifyPayout, mapError_eq_ok, verifyBtc] at h
  obtain ⟨v, hv, h⟩ := bind_eq_ok.1 h
  cases h
  rw [verifyBtcPayout] at hv
  obtain ⟨_, hvalid, -⟩ := bind_eq_ok.1 hv
  exact ⟨rfl, require_eq_ok.1 hvalid⟩

/-- Without a leading `0x` the txid of a Bitcoin payout is the text that is recorded. -/
theorem btcTxid_eq_recordedPayout
    (h : ¬ ['0', 'x'] <+: (Text.trim Text.isWhitespace payout).toList) :
    btcTxid payout = recordedPayout .btc payout := by
  have hstart : trimStart0x (Text.trim Text.isWhitespace payout).toList =
      (Text.trim Text.isWhitespace payout).toList := by
    generalize (Text.trim Text.isWhitespace payout).toList = l at h
    unfold trimStart0x
    split
    · exact absurd (by simp) h
    · rfl
  rw [btcTxid, hstart, String.ofList_toList, recordedPayout, if_pos rfl]

end Verify

/-- A qBTC record is paid out on Bitcoin. -/
theorem payoutRoute_of_isBtcWithdrawal {w : PendingWithdrawal} (h : isBtcWithdrawal w = true)
    (hid : ¬ "btc:".toList <+: w.txId.toList) : payoutRoute w.tokenSymbol = .btc := by
  rw [isBtcWithdrawal, Bool.or_eq_true, decide_eq_true_eq] at h
  have hlower : Text.lower w.tokenSymbol = "qbtc" := by
    rw [h.resolve_right hid |> beq_iff_eq.1]
    decide +kernel
  have htrim : Text.trim Text.isWhitespace w.tokenSymbol = w.tokenSymbol :=
    Text.trim_of_lower hlower (by decide +kernel)
  rw [payoutRoute, htrim]
  simp only [Text.eqIgnoreCase, hlower]
  decide +kernel

/-- The id of a record is a hash, with `xrge:` in front for XRGE. -/
theorem Burn.txId_not_btc (b : Burn) : ¬ "btc:".toList <+: b.txId.toList := by
  have hdigit (n : Fin 16) : Nat.digitChar n ≠ 't' := by
    revert n
    decide
  have hbtc : "btc:".toList = ['b', 't', 'c', ':'] := by decide +kernel
  rw [Burn.txId, String.toList_append, hbtc]
  split
  · have hxrge : "xrge:".toList = ['x', 'r', 'g', 'e', ':'] := by decide +kernel
    simp [hxrge]
  · rw [String.toList_empty, List.nil_append, bytesToHex, String.toList_ofList]
    cases b.rougechainTxId with
    | nil => simp
    | cons n l =>
      intro h
      rw [List.flatMap_cons, byteToHex] at h
      have hsecond := (List.cons_prefix_cons.1 (List.cons_prefix_cons.1 h).2).1
      exact hdigit ⟨n.toNat % 16, Nat.mod_lt _ (by decide)⟩ hsecond.symm

/-! ## The invariant -/

/-- What a task of a fulfil handler has read. -/
def Task.Reads (l : List PendingWithdrawal) : Task → Prop
  | .start (.fulfill _ _ _) => True
  | .verify rail txId _ _ record => record.txId = txId ∧
      (rail = .btc → isBtcWithdrawal record) ∧
      ∃ w, WithdrawStore.get l txId = some w ∧ w.tokenSymbol = record.tokenSymbol
  | .done _ => True
  | _ => False

structure PayoutInv (s : Settings) (c : Chains) (d : Daemon) : Prop where
  nodup : (d.stores.withdrawals.map PendingWithdrawal.txId).Nodup
  ids : ∀ w ∈ d.stores.withdrawals, ¬ "btc:".toList <+: w.txId.toList
  reads : ∀ t ∈ d.tasks, t.Reads d.stores.withdrawals
  record : ∀ r i t, .paid r i t ∈ d.stores.events →
    ∃ w, WithdrawStore.get d.stores.withdrawals i = some w
  one : OnePayout d.stores
  evm : ∀ i t, .paid .evm i t ∈ d.stores.events → ∃ hash, t = .base hash ∧ Released s c i hash
  xrge : ∀ i t, .paid .xrge i t ∈ d.stores.events → ∃ hash, t = .base hash
  btc : ∀ i t, .paid .btc i t ∈ d.stores.events → ∃ txid w, t = .bitcoin txid ∧
    validTxid txid ∧ WithdrawStore.get d.stores.withdrawals i = some w ∧
      w.status = .fulfilled ∧ w.payoutTxHash = some txid

section Step

variable {s : Settings} {c : Chains} {d : Daemon} {i : ℕ} {t : Task}

/-- A change of a record that keeps its id and its token keeps what the tasks have read. -/
theorem Task.Reads.update {l : List PendingWithdrawal} {txId : String}
    {f : PendingWithdrawal → PendingWithdrawal} (hf : ∀ w, (f w).txId = w.txId)
    (hsym : ∀ w, (f w).tokenSymbol = w.tokenSymbol) (h : t.Reads l) :
    t.Reads (WithdrawStore.update l txId f) := by
  cases t with
  | verify rail j payout wallet record =>
    obtain ⟨hid, hbtc, w, hw, hsymbol⟩ := h
    refine ⟨hid, hbtc, ?_⟩
    rw [WithdrawStore.get_update hf, hw]
    split
    · exact ⟨f w, rfl, (hsym w).trans hsymbol⟩
    · exact ⟨w, rfl, hsymbol⟩
  | start req =>
    cases req with
    | fulfill => trivial
    | reportFailure => cases h
    | refund => cases h
  | done => trivial
  | _ => cases h

theorem startFulfill_reads (s : Settings) (x : Stores) (rail : Rail) (txId : String)
    (payout : Option String) : (startFulfill s x rail txId payout).Reads x.withdrawals := by
  rw [startFulfill]
  split
  · trivial
  · split
    · trivial
    · next record hrecord =>
      have hread : ∃ w, WithdrawStore.get x.withdrawals txId = some w ∧
          w.tokenSymbol = record.tokenSymbol := ⟨record, hrecord, rfl⟩
      have hid := WithdrawStore.txId_of_get hrecord
      cases rail with
      | evm => exact ⟨hid, nofun, hread⟩
      | xrge =>
        dsimp only
        split
        · exact ⟨hid, nofun, hread⟩
        · trivial
      | btc =>
        dsimp only
        split
        · trivial
        · next hbtc =>
          split
          · exact ⟨hid, fun _ => by simpa using hbtc, hread⟩
          · trivial

/-- A segment that leaves the stores. -/
theorem PayoutInv.quiet (hd : PayoutInv s c d) {t' : Task} (ht' : t'.Reads d.stores.withdrawals) :
    PayoutInv s c ⟨d.stores, d.tasks.set i t'⟩ :=
  ⟨hd.nodup, hd.ids, Runs.forall_mem_set hd.reads ht', hd.record, hd.one, hd.evm, hd.xrge,
    hd.btc⟩

/-- A payout that a rail has verified is the payout of no other withdrawal. -/
theorem PayoutInv.unique (hd : PayoutInv s c d) (hone : OneRelease s c) {r : Reply} {rail : Rail}
    {txId payout wallet : String} {record : PendingWithdrawal} {tx : External}
    {l : List PendingWithdrawal} (hid : record.txId = txId)
    (hok : Task.Distinct s c d.stores r (.verify rail txId payout wallet record))
    (htx : verifyPayout s c r rail payout wallet record = .ok tx)
    (hl : markPaid d.stores.withdrawals rail txId payout = .ok (true, l)) {r' : Rail}
    {j : String} (hj : .paid r' j tx ∈ d.stores.events) : j = txId := by
  by_contra hne
  obtain ⟨-, h0x, hfresh⟩ := hok
  have hnew := hfresh tx (by rw [htx]; rfl) _ hj rfl hne
  cases rail with
  | xrge => exact hnew.1 rfl
  | evm =>
    obtain ⟨hash, rfl, hrel⟩ := (verifyPayout_evm htx).1
    cases r' with
    | evm =>
      obtain ⟨hash', hhash, hrel'⟩ := hd.evm j _ hj
      cases hhash
      exact hne ((hrel'.unique hone hrel).trans hid)
    | xrge => exact hnew.2 rfl rfl
    | btc =>
      obtain ⟨txid, w, hbtc, -⟩ := hd.btc j _ hj
      cases hbtc
  | btc =>
    obtain ⟨rfl, hvalid⟩ := verifyPayout_btc htx
    cases r' with
    | evm => obtain ⟨hash, h, -⟩ := hd.evm j _ hj; cases h
    | xrge => obtain ⟨hash, h⟩ := hd.xrge j _ hj; cases h
    | btc =>
      obtain ⟨txid, w, htxid, -, hw, -, hp⟩ := hd.btc j _ hj
      rw [← External.bitcoin.inj htxid] at hp
      -- the store has just looked for this text in the record of `j`
      have hfound := markPaid_btc_unique hl (List.mem_of_find?_eq_some hw)
        (by rw [WithdrawStore.txId_of_get hw]; exact hne) hp
      rw [Text.trim_of_isHex hvalid, btcTxid_eq_recordedPayout (h0x rfl)] at hfound
      simp [Text.eqIgnoreCase] at hfound

/-- The rail of a payout serves the asset of its record. -/
theorem PayoutInv.serves (hd : PayoutInv s c d) {r : Reply} {rail : Rail}
    {txId payout wallet : String} {record : PendingWithdrawal} {tx : External}
    (hreads : Task.Reads d.stores.withdrawals (.verify rail txId payout wallet record))
    (hok : Task.Distinct s c d.stores r (.verify rail txId payout wallet record))
    (htx : verifyPayout s c r rail payout wallet record = .ok tx) :
    rail.serves (payoutRoute record.tokenSymbol) := by
  obtain ⟨hid, hbtc, w, hw, -⟩ := hreads
  cases rail with
  | evm => exact (verifyPayout_evm htx).2
  | xrge => rw [hok.1 rfl]; rfl
  | btc =>
    have hids := hd.ids w (List.mem_of_find?_eq_some hw)
    rw [WithdrawStore.txId_of_get hw, ← hid] at hids
    rw [payoutRoute_of_isBtcWithdrawal (hbtc rfl) hids]
    rfl

theorem PayoutInv.paid (hd : PayoutInv s c d) (hone : OneRelease s c) {r : Reply} {rail : Rail}
    {txId payout wallet : String} {record : PendingWithdrawal} {tx : External}
    {l : List PendingWithdrawal}
    (hreads : Task.Reads d.stores.withdrawals (.verify rail txId payout wallet record))
    (hok : Task.Distinct s c d.stores r (.verify rail txId payout wallet record))
    (htx : verifyPayout s c r rail payout wallet record = .ok tx)
    (hl : markPaid d.stores.withdrawals rail txId payout = .ok (true, l)) :
    PayoutInv s c ⟨{ d.stores with
      withdrawals := l, events := d.stores.events ++ [.paid rail txId tx] },
      d.tasks.set i (.done (.ok ()))⟩ := by
  have hunique {r' : Rail} {j : String} (hj : .paid r' j tx ∈ d.stores.events) : j = txId :=
    hd.unique hone hreads.1 hok htx hl hj
  have hserves := hd.serves hreads hok htx
  obtain ⟨w, hw, hopen, rfl⟩ := markPaid_eq_ok hl
  have hget (j : String) : WithdrawStore.get (WithdrawStore.update d.stores.withdrawals txId
      fun w => { w with status := .fulfilled, payoutTxHash := some (recordedPayout rail payout) })
      j = _ := WithdrawStore.get_update fun _ => rfl
  refine ⟨WithdrawStore.nodup_update (fun _ => rfl) hd.nodup, ?_, ?_, ?_, ⟨?_, ?_⟩, ?_, ?_, ?_⟩
  · exact WithdrawStore.forall_mem_update hd.ids fun _ h => h
  · exact Runs.forall_mem_set (fun u hu => (hd.reads u hu).update (fun _ => rfl) fun _ => rfl)
      trivial
  · intro r' j t hj
    have hex : ∃ u, WithdrawStore.get d.stores.withdrawals j = some u := by
      rw [List.mem_append, List.mem_singleton] at hj
      rcases hj with hj | hj
      · exact hd.record r' j t hj
      · cases hj
        exact ⟨w, hw⟩
    obtain ⟨u, hu⟩ := hex
    rw [hget j, hu]
    split
    · exact ⟨_, rfl⟩
    · exact ⟨u, rfl⟩
  · intro r₁ j r₂ k t hj hk
    rw [List.mem_append, List.mem_singleton] at hj hk
    rcases hj with hj | hj <;> rcases hk with hk | hk
    · exact hd.one.tx r₁ j r₂ k t hj hk
    · cases hk
      exact hunique hj
    · cases hj
      exact (hunique hk).symm
    · cases hj
      cases hk
      rfl
  · intro r' j t hj v hv
    rw [Option.mem_def, hget j] at hv
    rw [List.mem_append, List.mem_singleton] at hj
    rcases hj with hj | hj
    · split at hv
      · obtain ⟨u, hu, rfl⟩ := Option.map_eq_some_iff.1 hv
        exact hd.one.asset r' j t hj u hu
      · exact hd.one.asset r' j t hj v hv
    · cases hj
      obtain ⟨-, -, u, hu, hsymbol⟩ := hreads
      rw [if_pos rfl, hu] at hv
      cases hv
      rwa [hsymbol]
  · intro j t hj
    rw [List.mem_append, List.mem_singleton] at hj
    rcases hj with hj | hj
    · exact hd.evm j t hj
    · cases hj
      rw [← hreads.1]
      exact (verifyPayout_evm htx).1
  · intro j t hj
    rw [List.mem_append, List.mem_singleton] at hj
    rcases hj with hj | hj
    · exact hd.xrge j t hj
    · cases hj
      exact verifyPayout_xrge htx
  · intro j t hj
    rw [List.mem_append, List.mem_singleton] at hj
    rcases hj with hj | hj
    · -- the record of `j` is settled, so it is not the one that changes
      obtain ⟨txid, u, htxid, hvalid, hu, hst, hp⟩ := hd.btc j t hj
      refine ⟨txid, u, htxid, hvalid, ?_, hst, hp⟩
      rw [hget j, if_neg ?_, hu]
      rintro rfl
      cases hw.symm.trans hu
      simp [WithdrawalStatus.terminal, hst] at hopen
    · cases hj
      obtain ⟨rfl, hvalid⟩ := verifyPayout_btc htx
      let settled : PendingWithdrawal :=
        { w with status := .fulfilled, payoutTxHash := some (recordedPayout .btc payout) }
      refine ⟨btcTxid payout, settled, rfl, hvalid, ?_, rfl, ?_⟩
      · rw [hget, if_pos rfl, hw, Option.map_some]
      · rw [btcTxid_eq_recordedPayout (hok.2.1 rfl)]

theorem PayoutInv.advance (hd : PayoutInv s c d) (hone : OneRelease s c) (r : Reply)
    (hi : d.tasks[i]? = some t) (hok : t.Distinct s c d.stores r) :
    PayoutInv s c ⟨(t.run s c d.stores r).1, d.tasks.set i (t.run s c d.stores r).2⟩ := by
  have hreads := hd.reads t (List.mem_of_getElem? hi)
  cases t with
  | start req =>
    cases req with
    | fulfill rail txId payout => exact hd.quiet (startFulfill_reads s d.stores rail txId payout)
    | reportFailure => cases hreads
    | refund => cases hreads
  | verify rail txId payout wallet record =>
    rw [Task.run]
    split
    · exact hd.quiet trivial
    · next tx htx =>
      rw [finishFulfill]
      split
      · exact hd.quiet trivial
      · exact hd.quiet trivial
      · next l hl => exact hd.paid hone hreads hok htx hl
  | done => exact hd.quiet trivial
  | _ => cases hreads

/-- New records have ids of their own kind and leave what the tasks have read. -/
theorem recordBurns_ids {l : List PendingWithdrawal} (burns : List (Burn × Bool))
    (hl : ∀ w ∈ l, ¬ "btc:".toList <+: w.txId.toList) :
    ∀ w ∈ recordBurns l burns, ¬ "btc:".toList <+: w.txId.toList := by
  induction burns generalizing l with
  | nil => exact hl
  | cons b burns ih =>
    refine ih ?_
    dsimp only
    split
    · rw [Burn.record]
      split
      · exact hl
      · rw [WithdrawStore.add]
        split
        · exact hl
        · intro w hw
          rcases List.mem_append.1 hw with hw | hw
          · exact hl w hw
          · rw [List.mem_singleton] at hw
            subst hw
            exact b.1.txId_not_btc
    · exact hl

theorem PayoutInv.records (hd : PayoutInv s c d) (burns : List (Burn × Bool)) (degraded : Bool) :
    PayoutInv s c { d with stores := { d.stores with
      withdrawals := recordBurns d.stores.withdrawals burns, degraded := degraded } } := by
  obtain ⟨hnodup, hget⟩ := recordBurns_keeps burns hd.nodup
  refine ⟨hnodup, recordBurns_ids burns hd.ids, ?_, ?_, ⟨hd.one.tx, ?_⟩, hd.evm, hd.xrge, ?_⟩
  · intro t ht
    have hreads := hd.reads t ht
    cases t with
    | verify rail j payout wallet record =>
      obtain ⟨hid, hbtc, w, hw, hsymbol⟩ := hreads
      exact ⟨hid, hbtc, w, hget j w hw, hsymbol⟩
    | start req => cases req <;> exact hreads
    | _ => exact hreads
  · intro r i t hi
    obtain ⟨w, hw⟩ := hd.record r i t hi
    exact ⟨w, hget i w hw⟩
  · intro r i t hi v hv
    obtain ⟨w, hw⟩ := hd.record r i t hi
    cases (hget i w hw).symm.trans hv
    exact hd.one.asset r i t hi v hw
  · intro i t hi
    obtain ⟨txid, w, htxid, hvalid, hw, hst, hp⟩ := hd.btc i t hi
    exact ⟨txid, w, htxid, hvalid, hget i w hw, hst, hp⟩

theorem PayoutInv.step (hone : OneRelease s c) (d : Daemon) (a : Action)
    (ha : a.Distinct s c d ∧ a.Fulfills) (hd : PayoutInv s c d) :
    PayoutInv s c (d.step s c a) := by
  cases a with
  | request req =>
    refine ⟨hd.nodup, hd.ids, fun t ht => ?_, hd.record, hd.one, hd.evm, hd.xrge, hd.btc⟩
    rcases List.mem_append.1 ht with ht | ht
    · exact hd.reads t ht
    · rw [List.mem_singleton] at ht
      subst ht
      cases req with
      | fulfill => trivial
      | reportFailure => cases ha.2
      | refund => cases ha.2
  | advance i r =>
    rw [Daemon.step]
    split
    · exact hd
    · next t hi => exact hd.advance hone r hi (ha.1 t hi)
  | block burns => exact hd.records burns _
  | rebuild burns => exact hd.records burns _
  | restart => exact ⟨hd.nodup, hd.ids, nofun, hd.record, hd.one, hd.evm, hd.xrge, hd.btc⟩

theorem PayoutInv.init (s : Settings) (c : Chains) : PayoutInv s c Daemon.init :=
  ⟨List.nodup_nil, nofun, nofun, nofun, ⟨nofun, nofun⟩, nofun, nofun, nofun⟩

end Step

/-- Every run of the fulfil handlers with distinct payouts records each payout once. -/
theorem one_payout (s : Settings) (c : Chains) (hone : OneRelease s c) (as : List Action)
    (has : ∀ a ∈ as, a.Fulfills)
    (hdistinct : Runs.Along (Daemon.step s c) (fun d a => a.Distinct s c d) Daemon.init as) :
    OnePayout (Runs.run (Daemon.step s c) Daemon.init as).stores := by
  have hinv : PayoutInv s c (Runs.run (Daemon.step s c) Daemon.init as) :=
    (hdistinct.and has).invariant (PayoutInv.step hone) (.init s c)
  exact hinv.one

/-- One transfer reported for its withdrawal, twice, while another one is open. -/
theorem one_payout_transfer :
    let as : List Action := [.block [(xrgeBurn [1], true), (xrgeBurn [2], true)],
      .request (.fulfill .xrge "xrge:01" (some "0xpay")),
      .request (.fulfill .xrge "xrge:01" (some " 0xpay ")),
      .advance 0 vaultReply, .advance 1 vaultReply, .advance 0 vaultReply, .restart]
    OneRelease vaultSettings vaultChains ∧ (∀ a ∈ as, a.Fulfills) ∧
      Runs.Along (Daemon.step vaultSettings vaultChains)
        (fun d a => a.Distinct vaultSettings vaultChains d) Daemon.init as ∧
      OnePayout (Runs.run (Daemon.step vaultSettings vaultChains) Daemon.init as).stores := by
  intro as
  have hone : OneRelease vaultSettings vaultChains := by
    intro rb hrb key p hp htarget
    have hvault : p = vaultTransfer := by
      simp only [vaultChains, Option.mem_def] at hp
      split at hp
      · exact (Option.some.inj hp).symm
      · cases hp
    subst hvault
    cases hrb
    exact absurd htarget (by decide)
  have has : ∀ a ∈ as, a.Fulfills := by decide
  have hdistinct : Runs.Along (Daemon.step vaultSettings vaultChains)
      (fun d a => a.Distinct vaultSettings vaultChains d) Daemon.init as := by decide +kernel
  exact ⟨hone, has, hdistinct, one_payout vaultSettings vaultChains hone as has hdistinct⟩

end RougeChain.Bridge
