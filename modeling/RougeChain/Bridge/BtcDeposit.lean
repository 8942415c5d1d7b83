import RougeChain.Bridge.BtcPayout
import RougeChain.Library.JsonRead

/-!
# Bitcoin deposits as two providers show them

`bridge_btc.rs` credits a Bitcoin deposit on the word of two Esplora providers. There are two ways
in: the scan of a watched deposit address, which returns the outputs that both list, and the check
of one transaction that pays custody and names its recipient in an `OP_RETURN` output.

The check of one transaction asks both providers for the depth. The scan asks only the first: of
the second it keeps the transaction id, the output and the value, and drops the confirmations.

* `mem_addressDepositsFrom`, `scanBtcAddressDeposits_eq_ok`, `verifyBtcDeposit_eq_ok`: what a
  listed output and an answer of each entry point rest on;
* `twoProviderRule_iff`: both providers show every credited deposit at the required depth exactly
  when no output that the first shows that deep is shallower at the second;
* `shallow_at_second`: an output of one confirmation that a scan for two returns.
-/

open Fallible

namespace RougeChain.Bridge.Esplora

/-! ## Answers of a provider -/

structure EsploraVout where
  scriptpubkey : String
  scriptpubkeyAddress : Option String
  scriptpubkeyType : Option String
  value : ℕ

/-- A transaction as a provider reports it, with its status. -/
structure EsploraTx where
  txid : String
  vout : List EsploraVout
  confirmed : Bool
  blockHeight : Option ℕ

/-- What a provider answers: the height of its tip, the transactions of an address, and one
    transaction. -/
structure Provider where
  tip : Except String ℕ
  addressTxs : String → Except String (List EsploraTx)
  tx : String → Except String EsploraTx

/-- The depth of a block below the tip; a block above the tip counts as the tip. -/
def confirmations (tip blockHeight : ℕ) : ℕ := min (tip - blockHeight + 1) (u64Limit - 1)

/-! ## The scan of an address -/

structure AddressDeposit where
  txid : String
  vout : ℕ
  sats : ℕ
  confirmations : ℕ
  deriving DecidableEq

/-- What the second provider is asked about. -/
def AddressDeposit.key (d : AddressDeposit) : String × ℕ × ℕ := (d.txid, d.vout, d.sats)

/-- Output `i` of a confirmed transaction, if it pays `address`. The index is kept as a `u32`. -/
def depositOf (address : String) (tx : EsploraTx) (confs : ℕ) (v : EsploraVout) (i : ℕ) :
    Option AddressDeposit :=
  if v.scriptpubkeyAddress = some address ∧ 0 < v.value then
    some ⟨tx.txid, i % 2 ^ 32, v.value, confs⟩
  else none

/-- The confirmed outputs of one provider's transactions that pay `address`. -/
def addressDepositsFrom (txs : List EsploraTx) (address : String) (tip : ℕ) :
    List AddressDeposit :=
  txs.flatMap fun tx =>
    match tx.confirmed, tx.blockHeight with
    | true, some blockHeight =>
      tx.vout.zipIdx.filterMap fun p =>
        depositOf address tx (confirmations tip blockHeight) p.1 p.2
    | _, _ => []

def Provider.addressDeposits (p : Provider) (address : String) :
    Except String (List AddressDeposit) := do
  let tip ← p.tip
  let txs ← p.addressTxs address
  return addressDepositsFrom txs address tip

/-- What the second provider confirms. -/
def agreedKeys (allowSingle : Bool) (q : Provider) (address : String)
    (primary : List AddressDeposit) : Except String (List (String × ℕ × ℕ)) :=
  match q.addressDeposits address with
  | .ok second => .ok (second.map AddressDeposit.key)
  | .error _ =>
    if allowSingle then .ok (primary.map AddressDeposit.key)
    else .error "second Esplora provider unavailable for address scan"

/-- The deposits to `address` that both providers list. There are always two providers, so the
    source's case of a single one does not arise. -/
def scanBtcAddressDeposits (minConf : ℕ) (allowSingle : Bool) (p q : Provider)
    (address : String) : Except String (List AddressDeposit) := do
  let primary ← p.addressDeposits address
  if primary = [] then .ok []
  else do
    let agreed ← agreedKeys allowSingle q address primary
    return primary.filter fun d => minConf ≤ d.confirmations ∧ d.key ∈ agreed

/-! ## The recipient in a script -/

/-- Two characters as a byte; the first may be a plus sign. -/
def hexByte (a b : Char) : Option UInt8 :=
  if a = '+' then (Json.hexDigit b).map UInt8.ofNat
  else do return UInt8.ofNat ((← Json.hexDigit a) * 16 + (← Json.hexDigit b))

def hexPairs : List Char → Option (List UInt8)
  | [] => some []
  | a :: b :: rest => do return (← hexByte a b) :: (← hexPairs rest)
  | _ => none

def hexToBytes (s : String) : Option (List UInt8) :=
  hexPairs (trimStart0x (Text.trim Text.isWhitespace s).toList)

/-- The data that an `OP_RETURN` script pushes: directly, or after a length of one or two
    bytes. -/
def parseOpReturn (script : String) : Option (List UInt8) := do
  let bytes ← hexToBytes script
  if bytes[0]? ≠ some 0x6a then none
  let op ← bytes[1]?
  let (i, len) ←
    if op ≤ 0x4b then some (2, op.toNat)
    else if op = 0x4c then bytes[2]?.map fun len => (3, len.toNat)
    else if op = 0x4d then
      bytes[2]?.bind fun lo => bytes[3]?.map fun hi => (4, lo.toNat + hi.toNat * 256)
    else none
  if i + len ≤ bytes.length then some ((bytes.drop i).take len) else none

section Recipient

/-! The standard library decodes UTF-8: `fromUtf8`. -/

variable (fromUtf8 : List UInt8 → Option String)

/-- The text of an `OP_RETURN` output, if it is not blank. -/
def opReturnText (v : EsploraVout) : Option String :=
  if v.scriptpubkeyType = some "op_return" ∨ ['6', 'a'].isPrefixOf v.scriptpubkey.toList then
    (((parseOpReturn v.scriptpubkey).bind fromUtf8).map (Text.trim Text.isWhitespace)).filter
      (· ≠ "")
  else none

structure BtcDeposit where
  sats : ℕ
  recipient : String
  confirmations : ℕ
  deriving DecidableEq

/-- What a transaction pays to custody, and to whose credit. -/
def parseDeposit (tx : EsploraTx) (custody : String) (tip : ℕ) : Except String BtcDeposit := do
  require tx.confirmed "deposit is still unconfirmed (0 confirmations)"
  let blockHeight ← ofOption "confirmed deposit is missing a block height" tx.blockHeight
  let sats := saturatingSum u64Limit
    ((tx.vout.filter fun v => v.scriptpubkeyAddress = some custody).map EsploraVout.value)
  require (sats ≠ 0) ("no output pays the custody address " ++ custody)
  let recipient ← ofOption "deposit has no OP_RETURN carrying a RougeChain recipient address"
    (tx.vout.findSome? (opReturnText fromUtf8))
  return ⟨sats, recipient, confirmations tip blockHeight⟩

def Provider.deposit (p : Provider) (txid custody : String) : Except String BtcDeposit := do
  let tip ← p.tip
  let tx ← p.tx txid
  parseDeposit fromUtf8 tx custody tip

/-- The check of one deposit at both providers. -/
def verifyBtcDeposit (minConf : ℕ) (allowSingle : Bool) (p q : Provider)
    (text custody : String) : Except String BtcDeposit := do
  let txid := btcTxid text
  require (validTxid txid) "invalid BTC txid (expected 64 hex chars)"
  let dep1 ← p.deposit fromUtf8 txid custody
  require (minConf ≤ dep1.confirmations) ("deposit has " ++ toString dep1.confirmations ++
    " confirmation(s); " ++ toString minConf ++ " required")
  match q.deposit fromUtf8 txid custody with
  | .ok dep2 =>
    require (dep2.sats = dep1.sats) ("provider disagreement on amount (" ++
      toString dep1.sats ++ " vs " ++ toString dep2.sats ++ " sats) — refusing to mint")
    require (Text.trim Text.isWhitespace dep2.recipient =
      Text.trim Text.isWhitespace dep1.recipient)
      "provider disagreement on recipient — refusing to mint"
    require (minConf ≤ dep2.confirmations) ("second provider shows only " ++
      toString dep2.confirmations ++ " confirmation(s); " ++ toString minConf ++ " required")
    return dep1
  | .error e =>
    require allowSingle ("second Esplora provider could not confirm the deposit (" ++ e ++
      "). Refusing to mint on a single source — retry shortly, or set " ++
      "QV_BTC_ALLOW_SINGLE_PROVIDER=true to accept one provider.")
    return dep1

/-! ## What a provider shows -/

/-- The provider lists output `vout` of `txid` as confirmed, paying `sats` to `address`, `depth`
    deep by its own tip. -/
def Provider.ShowsOutput (p : Provider) (address txid : String) (vout sats depth : ℕ) : Prop :=
  ∃ tip txs tx blockHeight i v, p.tip = .ok tip ∧ p.addressTxs address = .ok txs ∧ tx ∈ txs ∧
    tx.txid = txid ∧ tx.confirmed = true ∧ tx.blockHeight = some blockHeight ∧
    depth = confirmations tip blockHeight ∧ tx.vout[i]? = some v ∧ vout = i % 2 ^ 32 ∧
    v.scriptpubkeyAddress = some address ∧ v.value = sats ∧ 0 < sats

/-- The provider shows `txid` as a transaction that pays `sats` to custody for `recipient`,
    `depth` deep by its own tip. -/
def Provider.ShowsDeposit (p : Provider) (txid custody : String) (sats : ℕ) (recipient : String)
    (depth : ℕ) : Prop :=
  ∃ tip tx, p.tip = .ok tip ∧ p.tx txid = .ok tx ∧
    parseDeposit fromUtf8 tx custody tip = .ok ⟨sats, recipient, depth⟩

theorem mem_addressDepositsFrom {txs : List EsploraTx} {address : String} {tip : ℕ}
    {d : AddressDeposit} :
    d ∈ addressDepositsFrom txs address tip ↔
      ∃ tx ∈ txs, ∃ blockHeight i v, tx.confirmed = true ∧ tx.blockHeight = some blockHeight ∧
        tx.vout[i]? = some v ∧ v.scriptpubkeyAddress = some address ∧ 0 < v.value ∧
        d = ⟨tx.txid, i % 2 ^ 32, v.value, confirmations tip blockHeight⟩ := by
  rw [addressDepositsFrom, List.mem_flatMap]
  refine exists_congr fun tx => and_congr_right fun _ => ?_
  cases hc : tx.confirmed with
  | false => simp
  | true =>
    cases hb : tx.blockHeight with
    | none => simp
    | some blockHeight =>
      simp only [List.mem_filterMap, Prod.exists, List.mem_zipIdx_iff_getElem?, depositOf,
        Option.ite_none_right_eq_some, Option.some.injEq]
      constructor
      · rintro ⟨v, i, hv, ⟨haddr, hpos⟩, rfl⟩
        exact ⟨blockHeight, i, v, trivial, rfl, hv, haddr, hpos, rfl⟩
      · rintro ⟨_, i, v, -, rfl, hv, haddr, hpos, rfl⟩
        exact ⟨v, i, hv, ⟨haddr, hpos⟩, rfl⟩

variable {fromUtf8} {minConf : ℕ} {p q : Provider} {address : String}

/-- A provider's list has exactly the outputs that it shows. -/
theorem Provider.showsOutput_iff {ds : List AddressDeposit} (h : p.addressDeposits address = .ok ds)
    {txid : String} {vout sats depth : ℕ} :
    p.ShowsOutput address txid vout sats depth ↔ ⟨txid, vout, sats, depth⟩ ∈ ds := by
  obtain ⟨tip, htip, h⟩ := bind_eq_ok.1 h
  obtain ⟨txs, htxs, h⟩ := bind_eq_ok.1 h
  rw [← Except.ok.inj h, mem_addressDepositsFrom]
  constructor
  · rintro ⟨tip', txs', tx, b, i, v, htip', htxs', hmem, rfl, hc, hb, rfl, hv, rfl, ha, rfl, hpos⟩
    obtain rfl := Except.ok.inj (htip.symm.trans htip')
    obtain rfl := Except.ok.inj (htxs.symm.trans htxs')
    exact ⟨tx, hmem, b, i, v, hc, hb, hv, ha, hpos, rfl⟩
  · rintro ⟨tx, hmem, b, i, v, hc, hb, hv, ha, hpos, heq⟩
    obtain ⟨rfl, rfl, rfl, rfl⟩ := AddressDeposit.mk.inj heq
    exact ⟨tip, txs, tx, b, i, v, htip, htxs, hmem, rfl, hc, hb, rfl, hv, rfl, ha, rfl, hpos⟩

theorem Provider.exists_addressDeposits {txid : String} {vout sats depth : ℕ}
    (h : p.ShowsOutput address txid vout sats depth) : ∃ ds, p.addressDeposits address = .ok ds := by
  obtain ⟨tip, txs, -, -, -, -, htip, htxs, -⟩ := h
  exact ⟨_, by rw [addressDeposits, htip, htxs]; rfl⟩

/-- An output is returned by the scan if the first provider shows it deep enough and the second
    shows it at all. -/
theorem scanBtcAddressDeposits_eq_ok {ds : List AddressDeposit} (d : AddressDeposit)
    (h : scanBtcAddressDeposits minConf false p q address = .ok ds) :
    d ∈ ds ↔ p.ShowsOutput address d.txid d.vout d.sats d.confirmations ∧
      minConf ≤ d.confirmations ∧ ∃ depth, q.ShowsOutput address d.txid d.vout d.sats depth := by
  obtain ⟨primary, hp, h⟩ := bind_eq_ok.1 h
  rw [Provider.showsOutput_iff hp]
  split_ifs at h with hnil
  · rw [← Except.ok.inj h, hnil]
    simp
  obtain ⟨agreed, hagreed, h⟩ := bind_eq_ok.1 h
  rw [agreedKeys] at hagreed
  cases hq : q.addressDeposits address with
  | error e =>
    rw [hq] at hagreed
    cases hagreed
  | ok second =>
    rw [hq] at hagreed
    rw [← Except.ok.inj h, ← Except.ok.inj hagreed, List.mem_filter, decide_eq_true_eq,
      List.mem_map]
    refine and_congr_right fun _ => and_congr_right fun _ => ⟨?_, ?_⟩
    · rintro ⟨d', hd', hkey⟩
      obtain ⟨htxid, hkey⟩ := Prod.mk.inj hkey
      obtain ⟨hvout, hsats⟩ := Prod.mk.inj hkey
      refine ⟨d'.confirmations, (Provider.showsOutput_iff hq).2 ?_⟩
      rw [← htxid, ← hvout, ← hsats]
      exact hd'
    · rintro ⟨depth, hd'⟩
      exact ⟨_, (Provider.showsOutput_iff hq).1 hd', rfl⟩

/-- The scan answers when both providers do. -/
theorem exists_scan {ds second : List AddressDeposit} (hp : p.addressDeposits address = .ok ds)
    (hq : q.addressDeposits address = .ok second) :
    ∃ ds, scanBtcAddressDeposits minConf false p q address = .ok ds := by
  rw [scanBtcAddressDeposits, hp, ok_bind, agreedKeys, hq]
  by_cases hnil : ds = []
  · exact ⟨_, if_pos hnil⟩
  · exact ⟨_, if_neg hnil⟩

/-- A recipient has no white space around it. -/
theorem trim_recipient {tx : EsploraTx} {custody : String} {tip : ℕ} {d : BtcDeposit}
    (h : parseDeposit fromUtf8 tx custody tip = .ok d) :
    Text.trim Text.isWhitespace d.recipient = d.recipient := by
  obtain ⟨-, -, h⟩ := bind_eq_ok.1 h
  obtain ⟨_, -, h⟩ := bind_eq_ok.1 h
  obtain ⟨-, -, h⟩ := bind_eq_ok.1 h
  obtain ⟨recipient, hr, h⟩ := bind_eq_ok.1 h
  obtain ⟨v, -, hv⟩ := List.exists_of_findSome?_eq_some (ofOption_eq_ok.1 hr)
  rw [← Except.ok.inj h]
  rw [opReturnText, Option.ite_none_right_eq_some, Option.filter_eq_some_iff,
    Option.map_eq_some_iff] at hv
  obtain ⟨-, ⟨s, -, hs⟩, -⟩ := hv
  rw [← hs, Text.trim_trim]

theorem Provider.deposit_eq_ok {txid custody : String} {d : BtcDeposit}
    (h : p.deposit fromUtf8 txid custody = .ok d) :
    p.ShowsDeposit fromUtf8 txid custody d.sats d.recipient d.confirmations ∧
      Text.trim Text.isWhitespace d.recipient = d.recipient := by
  obtain ⟨tip, htip, h⟩ := bind_eq_ok.1 h
  obtain ⟨tx, htx, h⟩ := bind_eq_ok.1 h
  exact ⟨⟨tip, tx, htip, htx, h⟩, trim_recipient h⟩

/-- A verified deposit is shown by both providers, at the required depth. -/
theorem verifyBtcDeposit_eq_ok {text custody : String} {d : BtcDeposit}
    (h : verifyBtcDeposit fromUtf8 minConf false p q text custody = .ok d) :
    ∀ r ∈ [p, q], ∃ depth ≥ minConf,
      r.ShowsDeposit fromUtf8 (btcTxid text) custody d.sats d.recipient depth := by
  obtain ⟨-, -, h⟩ := bind_eq_ok.1 h
  obtain ⟨dep1, hp, h⟩ := bind_eq_ok.1 h
  obtain ⟨_, hdepth1, h⟩ := bind_eq_ok.1 h
  obtain ⟨hp, htrim1⟩ := Provider.deposit_eq_ok hp
  cases hq : q.deposit fromUtf8 (btcTxid text) custody with
  | error e =>
    simp only [hq] at h
    obtain ⟨_, hsingle, -⟩ := bind_eq_ok.1 h
    exact absurd (require_eq_ok.1 hsingle) Bool.false_ne_true
  | ok dep2 =>
    simp only [hq] at h
    obtain ⟨_, hsats, h⟩ := bind_eq_ok.1 h
    obtain ⟨_, hrecipient, h⟩ := bind_eq_ok.1 h
    obtain ⟨_, hdepth2, h⟩ := bind_eq_ok.1 h
    obtain ⟨hq, htrim2⟩ := Provider.deposit_eq_ok hq
    have hrec := require_eq_ok.1 hrecipient
    rw [htrim1, htrim2] at hrec
    obtain rfl := Except.ok.inj h
    refine List.forall_mem_cons.2 ⟨⟨_, require_eq_ok.1 hdepth1, hp⟩,
      List.forall_mem_singleton.2 ⟨_, require_eq_ok.1 hdepth2, ?_⟩⟩
    rw [← require_eq_ok.1 hsats, ← hrec]
    exact hq

/-! ## The two-provider rule -/

/-- What is so on the Bitcoin chain: outputs that pay an address, and deposits to custody, with
    their depth. -/
structure Facts where
  output : (address txid : String) → (vout sats depth : ℕ) → Prop
  deposit : (txid custody : String) → (sats : ℕ) → (recipient : String) → (depth : ℕ) → Prop

/-- The provider shows nothing but what is so. -/
structure Provider.Truthful (fromUtf8 : List UInt8 → Option String) (p : Provider)
    (facts : Facts) : Prop where
  output : ∀ address txid vout sats depth,
    p.ShowsOutput address txid vout sats depth → facts.output address txid vout sats depth
  deposit : ∀ txid custody sats recipient depth,
    p.ShowsDeposit fromUtf8 txid custody sats recipient depth →
      facts.deposit txid custody sats recipient depth

/-- No single provider credits a deposit: with single-provider mode off, both show what is
    credited, deep enough, and it is so if one of them is truthful. -/
structure TwoProviderRule (fromUtf8 : List UInt8 → Option String) (minConf : ℕ)
    (p q : Provider) : Prop where
  scan : ∀ address ds, scanBtcAddressDeposits minConf false p q address = .ok ds →
    ∀ d ∈ ds, ∀ r ∈ [p, q], ∃ depth ≥ minConf, r.ShowsOutput address d.txid d.vout d.sats depth
  verify : ∀ text custody d, verifyBtcDeposit fromUtf8 minConf false p q text custody = .ok d →
    ∀ r ∈ [p, q], ∃ depth ≥ minConf,
      r.ShowsDeposit fromUtf8 (btcTxid text) custody d.sats d.recipient depth
  scan_so : ∀ facts, (∃ r ∈ [p, q], r.Truthful fromUtf8 facts) →
    ∀ address ds, scanBtcAddressDeposits minConf false p q address = .ok ds →
      ∀ d ∈ ds, ∃ depth ≥ minConf, facts.output address d.txid d.vout d.sats depth
  verify_so : ∀ facts, (∃ r ∈ [p, q], r.Truthful fromUtf8 facts) →
    ∀ text custody d, verifyBtcDeposit fromUtf8 minConf false p q text custody = .ok d →
      ∃ depth ≥ minConf, facts.deposit (btcTxid text) custody d.sats d.recipient depth

/-- What the second provider shows of the outputs that are deep enough at the first is deep enough
    there. -/
def SecondAsDeep (minConf : ℕ) (p q : Provider) : Prop :=
  ∀ address txid vout sats, (∃ depth ≥ minConf, p.ShowsOutput address txid vout sats depth) →
    (∃ depth, q.ShowsOutput address txid vout sats depth) →
    ∃ depth ≥ minConf, q.ShowsOutput address txid vout sats depth

variable (fromUtf8 minConf p q)

theorem twoProviderRule_iff :
    TwoProviderRule fromUtf8 minConf p q ↔ SecondAsDeep minConf p q := by
  constructor
  · rintro hrule address txid vout sats ⟨depth, hdepth, hp⟩ ⟨_, hq⟩
    obtain ⟨_, hds⟩ := Provider.exists_addressDeposits hp
    obtain ⟨_, hsecond⟩ := Provider.exists_addressDeposits hq
    obtain ⟨ds, hscan⟩ : ∃ ds, scanBtcAddressDeposits minConf false p q address = .ok ds :=
      exists_scan hds hsecond
    refine hrule.scan address ds hscan ⟨txid, vout, sats, depth⟩ ?_ q (by simp)
    exact (scanBtcAddressDeposits_eq_ok _ hscan).2 ⟨hp, hdepth, _, hq⟩
  · intro hdeep
    have hscan : ∀ address ds, scanBtcAddressDeposits minConf false p q address = .ok ds →
        ∀ d ∈ ds, ∀ r ∈ [p, q], ∃ depth ≥ minConf,
          r.ShowsOutput address d.txid d.vout d.sats depth := by
      intro address ds h d hd
      obtain ⟨hp, hdepth, hq⟩ := (scanBtcAddressDeposits_eq_ok d h).1 hd
      have hboth : ∃ depth ≥ minConf, p.ShowsOutput address d.txid d.vout d.sats depth :=
        ⟨_, hdepth, hp⟩
      exact List.forall_mem_cons.2
        ⟨hboth, List.forall_mem_singleton.2 (hdeep address d.txid d.vout d.sats hboth hq)⟩
    refine ⟨hscan, fun _ _ _ => verifyBtcDeposit_eq_ok, ?_, ?_⟩
    · rintro facts ⟨r, hr, htruth⟩ address ds h d hd
      obtain ⟨depth, hdepth, hshow⟩ := hscan address ds h d hd r hr
      exact ⟨depth, hdepth, htruth.output _ _ _ _ _ hshow⟩
    · rintro facts ⟨r, hr, htruth⟩ text custody d h
      obtain ⟨depth, hdepth, hshow⟩ := verifyBtcDeposit_eq_ok h r hr
      exact ⟨depth, hdepth, htruth.deposit _ _ _ _ _ hshow⟩

/-- A provider that lists one output of 5000 satoshis in block 100, with its tip at `tip`. -/
def oneOutput (tip : ℕ) : Provider where
  tip := .ok tip
  addressTxs _ := .ok [⟨"t", [⟨"", some "bc1q", none, 5000⟩], true, some 100⟩]
  tx _ := .error "not asked"

/-- The first provider's tip makes an output 7 deep that the second shows with one confirmation;
    a scan that asks for two returns it. -/
theorem shallow_at_second :
    scanBtcAddressDeposits 2 false (oneOutput 106) (oneOutput 100) "bc1q" =
      .ok [⟨"t", 0, 5000, 7⟩] ∧
    (∀ depth, (oneOutput 100).ShowsOutput "bc1q" "t" 0 5000 depth → depth = 1) ∧
    ¬ TwoProviderRule (fun _ => none) 2 (oneOutput 106) (oneOutput 100) := by
  have hscan : scanBtcAddressDeposits 2 false (oneOutput 106) (oneOutput 100) "bc1q" =
      .ok [⟨"t", 0, 5000, 7⟩] := by
    rfl
  have hone : ∀ depth, (oneOutput 100).ShowsOutput "bc1q" "t" 0 5000 depth → depth = 1 := by
    intro depth h
    have hlist : (oneOutput 100).addressDeposits "bc1q" = .ok [⟨"t", 0, 5000, 1⟩] := by rfl
    have hmem := (Provider.showsOutput_iff hlist).1 h
    exact (AddressDeposit.mk.inj (List.mem_singleton.1 hmem)).2.2.2
  refine ⟨hscan, hone, fun hrule => ?_⟩
  obtain ⟨depth, hdepth, hshow⟩ := hrule.scan _ _ hscan _ List.mem_cons_self (oneOutput 100)
    (by simp)
  rw [hone depth hshow] at hdepth
  exact absurd hdepth (by decide)

end Recipient

end RougeChain.Bridge.Esplora
