import RougeChain.Library.Basic
import RougeChain.Library.Runs
import RougeChain.Library.Text

/-!
# The Bitcoin relayer

`btc-relayer-core.ts` decides what to do with one pending qBTC withdrawal: a payout is signed
once, saved before it is broadcast, and from then on only the same bytes are sent again. A call
(`processBtcWithdrawal`) is a function of the state and of the answers it gets; it returns the
state it leaves and its effects in order. A crash keeps some first part of the effects, and the
relayer starts again from the last state it saved.

* `paid_twice`: a broadcast whose outcome is unknown, then a definite rejection of the same bytes
  and a payout from other coins leave two transactions of one withdrawal that can both be mined;
* `paid_once`: when a definite rejection only hits a transaction no broadcast of which was
  accepted or unknown, and a new payout is not a transaction built or recorded before for
  another withdrawal, a withdrawal has at most one transaction that can be mined and no
  transaction is the payout of two withdrawals, whatever the answers and the crashes.
-/

open Std (ExtTreeMap)

namespace RougeChain.Bridge.BtcRelayer

/-! ## Data -/

/-- A signed payout. The txid is the hash of the transaction, so it is not empty. -/
structure BuiltPayout where
  txid : String
  rawHex : String
  inputs : List String
  pay : Option String
  fee : Option String
  txid_ne : txid ≠ ""
  deriving DecidableEq

/-- What `build` produced: a signed payout, or a refusal of the fee policy. -/
inductive BuildResult
  | built (p : BuiltPayout)
  | feeTooHigh (fee maxFee : ℤ)
  | belowMinimumAfterFee (fee pay : ℤ)

/-- An entry of the state file. -/
structure BtcStateEntry where
  dest : String
  sats : String
  attempts : ℕ
  btcTxid : Option String
  planned : Option BuiltPayout
  needsReview : Option String
  broadcasting : Bool
  deriving DecidableEq

abbrev BtcState := ExtTreeMap String BtcStateEntry

/-- A withdrawal the daemon reports. The amount is `none` when it is not a whole number. -/
structure PendingBtcWithdrawal where
  txId : String
  evmAddress : String
  amountUnits : Option ℤ

inductive BroadcastResult
  | accepted (txid : String)
  | rejected (reason : String) (inputsSpent : Bool)
  | unknown (reason : String)
  deriving DecidableEq

inductive BtcOutcome
  | skippedInvalid
  | skippedCap
  | needsReview
  | readFailed
  | awaitingConfirmations
  | fulfilled
  | fulfillRefused
  | adopted
  | healthBlocked
  | gaveUp
  | wouldPay
  | buildFailed
  | broadcast
  | broadcastUnknown
  | broadcastRejected
  | feeTooHigh
  | belowMinimumAfterFee
  deriving DecidableEq

/-- A text that is present and not empty. -/
def truthy (o : Option String) : Option String := o.filter (· ≠ "")

theorem truthy_some {s : String} (h : s ≠ "") : truthy (some s) = some s := by
  simp [truthy, Option.filter, h]

/-! ## The history of the custody address -/

structure Prevout where
  scriptpubkeyAddress : Option String
  value : Option ℤ

structure TxOut where
  scriptpubkeyAddress : Option String
  value : ℤ

/-- A transaction as Esplora reports it. -/
structure EsploraTx where
  txid : String
  fee : Option ℤ
  vin : List (Option Prevout)
  vout : List TxOut

/-- The fee of a transaction, `none` when it cannot be told. -/
def esploraTxFee (tx : EsploraTx) : Option ℤ :=
  if tx.vin = [] then none
  else
    match tx.vin.mapM fun v => v.bind Prevout.value with
    | none => none
    | some values =>
      let tin := values.sum
      let tout := (tx.vout.map TxOut.value).sum
      if tin < tout then none
      else if tx.fee.any (· ≠ tin - tout) then none
      else some (tin - tout)

/-- Whether `tx` is a payout of custody that settles `sats` owed to `dest`. -/
def payoutSettles (tx : EsploraTx) (custody dest : String) (sats maxFee : ℤ) : Bool :=
  -- only a transaction that spends custody is a payout
  if ¬ tx.vin.any fun v => v.bind Prevout.scriptpubkeyAddress = some custody then false
  else
    let paid := ((tx.vout.filter fun v => v.scriptpubkeyAddress = some dest).map TxOut.value).sum
    if paid ≤ 0 then false
    else if sats ≤ paid then true
    else
      match esploraTxFee tx with
      | none => false
      | some fee => if maxFee < fee then false else decide (sats ≤ paid + fee)

/-! ## One call -/

/-- The settings of the relayer. -/
structure Config where
  live : Bool
  minConfirmations : ℤ
  maxSats : ℤ
  maxRetries : ℕ
  dust : ℤ
  maxNetworkFee : ℤ
  custody : String
  isValidDest : String → Bool

/-- What the network and the daemon answer to one call. A broadcast is answered by the status of
    the response, `none` when there was none, and its text. -/
structure Answers where
  healthOk : Bool
  confirmations : Option ℤ
  txKnown : Option Bool
  history : Except String (List EsploraTx)
  build : List String → Except String BuildResult
  broadcast : Option ℕ × String
  fulfill : Bool

/-- What a call does that outlives it. -/
inductive Effect
  | save (s : BtcState)
  | built (txId : String) (p : BuiltPayout)
  | broadcast (txId : String) (p : BuiltPayout) (r : BroadcastResult)
  | fulfill (txId btcTxid : String)

/-- How a call ends: its outcome, the state in memory, and its effects in order. -/
structure Result where
  outcome : BtcOutcome
  state : BtcState
  effects : List Effect

/-- The transactions the state attributes to some withdrawal. -/
def knownPayoutTxids (s : BtcState) : List String :=
  s.toList.flatMap fun e => (truthy e.2.btcTxid).toList ++ (e.2.planned.map BuiltPayout.txid).toList

/-- The inputs of the signed payouts of the other withdrawals that are not settled. -/
def reservedInputs (s : BtcState) (exceptTxId : String) : List String :=
  s.toList.flatMap fun e =>
    if e.1 = exceptTxId then [] else (e.2.planned.map BuiltPayout.inputs).getD []

/-- The words of an answer that the network has these bytes already. -/
def alreadyKnown : List String :=
  ["already in mempool", "already in-mempool", "already-in mempool", "already-in-mempool",
    "already known", "already-known", "already have", "already-have",
    "txn-already-in-mempool", "txn-already-known", "transaction already in block chain"]

/-- The words of a rejection because of the inputs. -/
def spentInputs : List String :=
  ["missingorspent", "missing-inputs", "missing inputs", "txn-mempool-conflict", "conflict",
    "bad-txns-inputs"]

def classifyBroadcastResponse (status : Option ℕ) (body expectedTxid : String) :
    BroadcastResult :=
  let text := Text.trim Text.isJsWhitespace body
  match status with
  | none => .unknown (if text = "" then "no response" else text)
  | some status =>
    if 200 ≤ status ∧ status < 300 then
      if Text.isHex 64 text then .accepted (Text.lower text)
      else .unknown ("unexpected success body: " ++ Text.slice 120 text)
    else if alreadyKnown.any (Text.mentions text) then .accepted expectedTxid
    else if 400 ≤ status ∧ status < 500 then
      let reason := Text.slice 200 text
      .rejected (if reason = "" then "HTTP " ++ toString status else reason)
        (spentInputs.any (Text.mentions text))
    else .unknown ("HTTP " ++ toString status ++ ": " ++ Text.slice 120 text)

/-- The first transaction of the custody history that settles the withdrawal and that the state
    attributes to no withdrawal. -/
def findExistingPayout (c : Config) (a : Answers) (dest : String) (sats : ℤ)
    (known : List String) : Except String (Option String) :=
  match a.history with
  | .error e => .error ("custody history scan failed: " ++ e)
  | .ok txs =>
    .ok ((txs.find? fun tx =>
      tx.txid ∉ known ∧ payoutSettles tx c.custody dest sats c.maxNetworkFee).map EsploraTx.txid)

/-- Writes the entry of `txId` and saves the state. -/
def put (s : BtcState) (txId : String) (e : BtcStateEntry) (outcome : BtcOutcome) : Result :=
  ⟨outcome, s.insert txId e, [.save (s.insert txId e)]⟩

/-- What the outcome of a broadcast of the saved payout does to its entry. -/
def settleBroadcast (s : BtcState) (txId : String) (entry : BtcStateEntry) (planned : BuiltPayout) :
    BroadcastResult → Result
  | .accepted txid =>
    if txid ≠ planned.txid then
      put s txId { entry with
        needsReview := some ("broadcast returned txid " ++ txid ++ ", expected " ++ planned.txid) }
        .needsReview
    else put s txId { entry with btcTxid := some planned.txid, planned := none } .broadcast
  -- the plan is kept: the next cycle looks for it and sends the same bytes again
  | .unknown _ => ⟨.broadcastUnknown, s, [.save s]⟩
  | .rejected reason inputsSpent =>
    if inputsSpent then
      put s txId { entry with
        needsReview := some ("broadcast rejected, inputs already spent (" ++ reason ++
          ") — check custody history for a payout to " ++ entry.dest) } .needsReview
    -- a definite rejection: the plan is dropped, a later call builds another one
    else put s txId { entry with planned := none } .broadcastRejected

/-- Sends the saved payout and settles its entry. -/
def sendPlanned (s : BtcState) (txId : String) (entry : BtcStateEntry) (p : BuiltPayout)
    (a : Answers) : Result :=
  let r := classifyBroadcastResponse a.broadcast.1 a.broadcast.2 p.txid
  let done := settleBroadcast s txId entry p r
  { done with effects := .broadcast txId p r :: done.effects }

/-- An entry whose payout the network has. -/
def awaitPayout (c : Config) (s : BtcState) (txId btcTxid : String) (a : Answers) : Result :=
  match a.confirmations with
  | none => ⟨.readFailed, s, []⟩
  | some confs =>
    if confs < c.minConfirmations then ⟨.awaitingConfirmations, s, []⟩
    else if a.fulfill then ⟨.fulfilled, s, [.fulfill txId btcTxid]⟩
    else ⟨.fulfillRefused, s, []⟩

/-- An entry with a signed payout whose broadcast is not settled: only the same bytes go out. -/
def resumePlanned (c : Config) (s : BtcState) (txId : String) (entry : BtcStateEntry)
    (p : BuiltPayout) (a : Answers) : Result :=
  match a.txKnown with
  | none => ⟨.readFailed, s, []⟩
  | some true => put s txId { entry with btcTxid := some p.txid, planned := none } .broadcast
  | some false => if ¬ c.live then ⟨.wouldPay, s, []⟩ else sendPlanned s txId entry p a

/-- An entry with the crash mark of the old relayer. -/
def resumeLegacy (c : Config) (s : BtcState) (txId dest : String) (sats : ℤ)
    (entry : BtcStateEntry) (a : Answers) : Result :=
  match findExistingPayout c a dest sats (knownPayoutTxids s) with
  | .error _ => ⟨.readFailed, s, []⟩
  | .ok found =>
    match truthy found with
    | some txid => put s txId { entry with btcTxid := some txid, broadcasting := false } .adopted
    | none =>
      put s txId { entry with
        needsReview := some ("legacy relayer stopped mid-broadcast and no matching payout was " ++
          "found — check custody history before paying") } .needsReview

/-- A withdrawal without a payout: adopt one of the custody history, or build one. -/
def newPayout (c : Config) (s : BtcState) (txId dest : String) (sats : ℤ)
    (entry : BtcStateEntry) (a : Answers) : Result :=
  if ¬ a.healthOk then ⟨.healthBlocked, s, []⟩
  else
    match findExistingPayout c a dest sats (knownPayoutTxids s) with
    | .error _ => ⟨.readFailed, s, []⟩
    | .ok found =>
      match truthy found with
      | some txid => put s txId { entry with btcTxid := some txid } .adopted
      | none =>
        if c.maxRetries ≤ entry.attempts then ⟨.gaveUp, s, []⟩
        else
          match a.build (reservedInputs s txId) with
          | .error _ => ⟨.buildFailed, s, []⟩
          | .ok (.feeTooHigh _ _) => ⟨.feeTooHigh, s, []⟩
          | .ok (.belowMinimumAfterFee fee pay) =>
            if c.live then
              put s txId { entry with
                needsReview := some (toString sats ++ " sats owed minus " ++ toString fee ++
                  " sats network fee leaves " ++ toString pay ++ " sats (at or below dust " ++
                  toString c.dust ++ ") — not paid; needs manual handling") }
                .belowMinimumAfterFee
            else ⟨.belowMinimumAfterFee, s, []⟩
          | .ok (.built p) =>
            if ¬ c.live then ⟨.wouldPay, s, [.built txId p]⟩
            else
              -- the signed bytes are saved before they leave the machine
              let entry := { entry with planned := some p, attempts := entry.attempts + 1 }
              let s := s.insert txId entry
              let sent := sendPlanned s txId entry p a
              { sent with effects := .built txId p :: .save s :: sent.effects }

/-- A call on an entry that agrees with the record of the daemon. -/
def processEntry (c : Config) (s : BtcState) (txId dest : String) (sats : ℤ)
    (entry : BtcStateEntry) (a : Answers) : Result :=
  if (truthy entry.needsReview).isSome then ⟨.needsReview, s, []⟩
  else
    match truthy entry.btcTxid with
    | some btcTxid => awaitPayout c s txId btcTxid a
    | none =>
      match entry.planned with
      | some p => resumePlanned c s txId entry p a
      | none =>
        if entry.broadcasting then resumeLegacy c s txId dest sats entry a
        else newPayout c s txId dest sats entry a

/-- Decides and acts on one pending withdrawal. -/
def processBtcWithdrawal (c : Config) (w : PendingBtcWithdrawal) (s : BtcState) (a : Answers) :
    Result :=
  let dest := Text.trim Text.isJsWhitespace w.evmAddress
  match w.amountUnits with
  | none => ⟨.skippedInvalid, s, []⟩
  | some sats =>
    if sats ≤ c.dust then ⟨.skippedInvalid, s, []⟩
    else if ¬ c.isValidDest dest then ⟨.skippedInvalid, s, []⟩
    else if 0 < c.maxSats ∧ c.maxSats < sats then ⟨.skippedCap, s, []⟩
    else
      match s[w.txId]? with
      | none =>
        processEntry c s w.txId dest sats ⟨dest, toString sats, 0, none, none, none, false⟩ a
      | some entry =>
        if entry.dest ≠ dest ∨ entry.sats ≠ toString sats then
          put s w.txId { entry with
            needsReview := some ("daemon record changed: state has " ++ entry.sats ++ " → " ++
              entry.dest ++ ", daemon now " ++ toString sats ++ " → " ++ dest) } .needsReview
        else processEntry c s w.txId dest sats entry a

/-! ## Runs with crashes -/

/-- What outlives the process: the state file, and the effects so far. -/
structure Record where
  file : BtcState
  history : List Effect

def Record.apply (d : Record) (e : Effect) : Record where
  file := match e with
    | .save s => s
    | _ => d.file
  history := d.history ++ [e]

/-- The relayer: its state in memory and what outlives it. -/
structure Relayer where
  state : BtcState
  record : Record

/-- One call, with the answers it gets. When it crashes, only its first `n` effects happen and
    the relayer starts again from the file. -/
structure Call where
  withdrawal : PendingBtcWithdrawal
  answers : Answers
  crash : Option ℕ

def Relayer.step (c : Config) (x : Relayer) (call : Call) : Relayer :=
  let r := processBtcWithdrawal c call.withdrawal x.state call.answers
  match call.crash with
  | none => ⟨r.state, Runs.run Record.apply x.record r.effects⟩
  | some n =>
    let d := Runs.run Record.apply x.record (r.effects.take n)
    ⟨d.file, d⟩

/-- The relayer at its start, with the state file it finds. -/
def start (s : BtcState) : Relayer := ⟨s, s, []⟩

/-! ## The network -/

/-- The payouts built so far, each with its withdrawal. -/
def builtPayouts (h : List Effect) : List (String × BuiltPayout) :=
  h.filterMap fun e =>
    match e with
    | .built i p => some (i, p)
    | _ => none

/-- The broadcasts so far, each with its withdrawal, its transaction and how it ended. -/
def broadcasts (h : List Effect) : List (String × BuiltPayout × BroadcastResult) :=
  h.filterMap fun e =>
    match e with
    | .broadcast i p r => some (i, p, r)
    | _ => none

/-- The outcomes of a broadcast after which the network may have the transaction. -/
def BroadcastResult.mayHave : BroadcastResult → Bool
  | .accepted _ => true
  | .unknown _ => true
  | .rejected _ _ => false

/-- A transaction one of whose broadcasts ended accepted or unknown. -/
def MayBeMined (h : List Effect) (txid : String) : Prop :=
  ∃ b ∈ broadcasts h, b.2.1.txid = txid ∧ b.2.2.mayHave

instance (h : List Effect) (txid : String) : Decidable (MayBeMined h txid) :=
  inferInstanceAs (Decidable (∃ b ∈ broadcasts h, b.2.1.txid = txid ∧ b.2.2.mayHave))

/-- Transactions that can be in one chain: each may be mined, and no two spend one input. -/
structure Mineable (h : List Effect) (m : List BuiltPayout) : Prop where
  mayBeMined : ∀ p ∈ m, MayBeMined h p.txid
  disjoint : ∀ p ∈ m, ∀ q ∈ m, p.txid ≠ q.txid → ∀ x ∈ p.inputs, x ∉ q.inputs

/-- Of the transactions built for one withdrawal at most one is ever mined, and no transaction is
    recorded as the payout of two withdrawals. -/
structure PaidOnce (d : Record) : Prop where
  mined : ∀ m, Mineable d.history m → ∀ i, ∀ p ∈ m, ∀ q ∈ m,
    (i, p) ∈ builtPayouts d.history → (i, q) ∈ builtPayouts d.history → p.txid = q.txid
  recorded : ∀ (i j : String) (e e' : BtcStateEntry) (t : String),
    d.file[i]? = some e → d.file[j]? = some e' →
    truthy e.btcTxid = some t → truthy e'.btcTxid = some t → i = j

/-- Settings of a live relayer. -/
def liveConfig : Config where
  live := true
  minConfirmations := 1
  maxSats := 0
  maxRetries := 3
  dust := 546
  maxNetworkFee := 10000
  custody := "bc1qcustody"
  isValidDest dest := dest != ""

def withdrawal : PendingBtcWithdrawal := ⟨"w", "bc1qalice", some 50000⟩

/-- The payout of `withdrawal` from the coin `coin`. -/
def payoutFrom (txid coin : String) (h : txid ≠ "") : BuiltPayout :=
  ⟨txid, "00", [coin], some "49000", some "1000", h⟩

def firstPayout : BuiltPayout := payoutFrom "t1" "c1:0" (by decide)

def secondPayout : BuiltPayout := payoutFrom "t2" "c2:0" (by decide)

/-- A call on `withdrawal` in which the network does not know the plan and the custody history is
    empty, with the payout that would be built and the answer to a broadcast. -/
def poll (p : BuiltPayout) (status : Option ℕ) (body : String) : Call where
  withdrawal := withdrawal
  answers := ⟨true, some 0, some false, .ok [], fun _ => .ok (.built p), (status, body), false⟩
  crash := none

/-- The first broadcast gets no response, the second one of the same bytes is rejected, and the
    third call pays from another coin. -/
def rejectedLater : List Call :=
  [poll firstPayout none "socket hang up", poll firstPayout (some 400) "min relay fee not met",
    poll secondPayout none "socket hang up"]

/-- Two transactions of one withdrawal that spend different coins can both be mined. -/
theorem paid_twice :
    ¬ ∀ (c : Config) (calls : List Call),
      PaidOnce (Runs.run (Relayer.step c) (start ∅) calls).record := by
  intro h
  have hmined := (h liveConfig rejectedLater).mined [firstPayout, secondPayout]
    ⟨by decide +kernel, by decide +kernel⟩ "w"
  exact absurd (hmined firstPayout (by decide) secondPayout (by decide) (by decide +kernel)
    (by decide +kernel)) (by decide)

/-- What the answers of a call have to tell the truth about, for each of its effects: a definite
    rejection hits a transaction the network cannot have, and a payout that is built is not a
    transaction of another withdrawal. -/
def Effect.Sound (x : Relayer) : Effect → Prop
  | .broadcast _ p (.rejected _ false) => ¬ MayBeMined x.record.history p.txid
  | .built i p => p.txid ∉ knownPayoutTxids x.state ∧
      ∀ b ∈ builtPayouts x.record.history, b.2.txid = p.txid → b.1 = i
  | _ => True

instance (x : Relayer) : ∀ e : Effect, Decidable (e.Sound x)
  | .save _ => inferInstanceAs (Decidable True)
  | .built i p => inferInstanceAs (Decidable (p.txid ∉ knownPayoutTxids x.state ∧
      ∀ b ∈ builtPayouts x.record.history, b.2.txid = p.txid → b.1 = i))
  | .broadcast _ p (.rejected _ false) =>
    inferInstanceAs (Decidable (¬ MayBeMined x.record.history p.txid))
  | .broadcast _ _ (.rejected _ true) => inferInstanceAs (Decidable True)
  | .broadcast _ _ (.accepted _) => inferInstanceAs (Decidable True)
  | .broadcast _ _ (.unknown _) => inferInstanceAs (Decidable True)
  | .fulfill _ _ => inferInstanceAs (Decidable True)

/-- The answers of a call are sound. -/
def Call.Sound (c : Config) (x : Relayer) (call : Call) : Prop :=
  ∀ e ∈ (processBtcWithdrawal c call.withdrawal x.state call.answers).effects, e.Sound x

instance (c : Config) (x : Relayer) (call : Call) : Decidable (call.Sound c x) :=
  inferInstanceAs (Decidable (∀ e ∈ _, Effect.Sound x e))

/-- A state file of the relayer before payouts were planned: no entry has a plan, and no
    transaction is the payout of two withdrawals. -/
structure Unplanned (s : BtcState) : Prop where
  planned : ∀ (i : String) (e : BtcStateEntry), s[i]? = some e → e.planned = none
  recorded : ∀ (i j : String) (e e' : BtcStateEntry) (t : String),
    s[i]? = some e → s[j]? = some e' →
    truthy e.btcTxid = some t → truthy e'.btcTxid = some t → i = j

theorem Unplanned.empty : Unplanned ∅ where
  planned i e h := by simp at h
  recorded i j e e' t h := by simp at h

/-! ## The transaction of a withdrawal -/

/-- The transaction an entry stands for: its payout, or else its plan. -/
def BtcStateEntry.tx (e : BtcStateEntry) : Option String :=
  (truthy e.btcTxid).or (e.planned.map BuiltPayout.txid)

/-- The transaction the state attributes to a withdrawal. -/
def txOf (s : BtcState) (i : String) : Option String := s[i]?.bind BtcStateEntry.tx

theorem txOf_insert (s : BtcState) (i j : String) (e : BtcStateEntry) :
    txOf (s.insert i e) j = if i = j then e.tx else txOf s j := by
  rw [txOf, getElem?_insert_eq]
  split
  · rfl
  · rfl

theorem mem_knownPayoutTxids {s : BtcState} {i t : String} (h : txOf s i = some t) :
    t ∈ knownPayoutTxids s := by
  obtain ⟨e, he, ht⟩ := Option.bind_eq_some_iff.1 h
  rw [knownPayoutTxids, List.mem_flatMap]
  refine ⟨(i, e), ExtTreeMap.mem_toList_iff_getElem?_eq_some.2 he, ?_⟩
  rw [List.mem_append, Option.mem_toList, Option.mem_toList]
  rcases Option.or_eq_some_iff.1 ht with hp | ⟨_, hp⟩
  · exact .inl hp
  · exact .inr hp

/-- The ways a save may change the transaction of a withdrawal. -/
inductive Moves (d : Record) (i : String) : Option String → Prop
  | keep : Moves d i (txOf d.file i)
  | take {t : String} (hnone : txOf d.file i = none) (hnew : t ∉ knownPayoutTxids d.file) :
    Moves d i (some t)
  | drop {t : String} (hsome : txOf d.file i = some t) (hdead : ¬ MayBeMined d.history t) :
    Moves d i none

/-- What a call may do, one effect at a time. -/
inductive Allowed (d : Record) : Effect → Prop
  | same : Allowed d (.save d.file)
  | save {i : String} {e : BtcStateEntry}
    (hplan : ∀ p, e.planned = some p → (i, p) ∈ builtPayouts d.history ∧ truthy e.btcTxid = none)
    (hmove : Moves d i e.tx) : Allowed d (.save (d.file.insert i e))
  | built {i : String} {p : BuiltPayout} (hnone : txOf d.file i = none)
    (hnew : ∀ b ∈ builtPayouts d.history, b.2.txid = p.txid → b.1 = i) : Allowed d (.built i p)
  | broadcast {i : String} {e : BtcStateEntry} {p : BuiltPayout} {r : BroadcastResult}
    (he : d.file[i]? = some e) (hp : e.planned = some p) : Allowed d (.broadcast i p r)
  | fulfill {i t : String} : Allowed d (.fulfill i t)

/-- The invariant: a transaction that may be mined is the one its withdrawal stands for, and no
    two withdrawals stand for one transaction. -/
structure Inv (d : Record) : Prop where
  planned : ∀ (i : String) (e : BtcStateEntry) (p : BuiltPayout), d.file[i]? = some e →
    e.planned = some p → (i, p) ∈ builtPayouts d.history ∧ truthy e.btcTxid = none
  unique : ∀ i j t, txOf d.file i = some t → txOf d.file j = some t → i = j
  mined : ∀ i p, (i, p) ∈ builtPayouts d.history → MayBeMined d.history p.txid →
    txOf d.file i = some p.txid
  built_unique : ∀ i j p q, (i, p) ∈ builtPayouts d.history → (j, q) ∈ builtPayouts d.history →
    p.txid = q.txid → i = j
  sent_built : ∀ i p r, (i, p, r) ∈ broadcasts d.history → (i, p) ∈ builtPayouts d.history

theorem Inv.start {s : BtcState} (h : Unplanned s) : Inv ⟨s, []⟩ where
  planned i e p he hp := by rw [h.planned i e he] at hp; cases hp
  unique i j t hi hj := by
    obtain ⟨e, he, hte⟩ := Option.bind_eq_some_iff.1 hi
    obtain ⟨e', he', hte'⟩ := Option.bind_eq_some_iff.1 hj
    rw [BtcStateEntry.tx, h.planned _ _ he, Option.map_none, Option.or_none] at hte
    rw [BtcStateEntry.tx, h.planned _ _ he', Option.map_none, Option.or_none] at hte'
    exact h.recorded i j e e' t he he' hte hte'
  mined i p hb := by cases hb
  built_unique i j p q hb := by cases hb
  sent_built i p r hs := by cases hs

/-! ## One effect keeps the invariant -/

theorem broadcasts_append (h : List Effect) (e : Effect) :
    broadcasts (h ++ [e]) = broadcasts h ++ broadcasts [e] := List.filterMap_append

/-- What may be mined after one more effect. -/
theorem mayBeMined_append {h : List Effect} {e : Effect} {t : String} :
    MayBeMined (h ++ [e]) t ↔ MayBeMined h t ∨ MayBeMined [e] t := by
  simp only [MayBeMined, broadcasts_append, List.mem_append, or_and_right, exists_or]

/-- The transactions after a save, by how it moves the one of its withdrawal. -/
theorem Moves.unique {d : Record} {i : String} {e : BtcStateEntry} (h : Moves d i e.tx)
    (hd : ∀ j k t, txOf d.file j = some t → txOf d.file k = some t → j = k) :
    ∀ j k t, txOf (d.file.insert i e) j = some t → txOf (d.file.insert i e) k = some t →
      j = k := by
  intro j k t hj hk
  rw [txOf_insert] at hj hk
  generalize e.tx = o at h hj hk
  cases h with
  | keep => exact hd j k t (by split at hj <;> simp_all) (by split at hk <;> simp_all)
  | @take t' hnone hnew =>
    -- the new transaction is attributed to no withdrawal, so only `i` has it
    have hne (l : String) (hl : txOf d.file l = some t) (ht : some t' = some t) : False := by
      cases ht
      exact hnew (mem_knownPayoutTxids hl)
    split at hj <;> split at hk
    · simp_all
    · exact (hne k hk hj).elim
    · exact (hne j hj hk).elim
    · exact hd j k t hj hk
  | drop hsome hdead =>
    split at hj <;> split at hk
    · cases hj
    · cases hj
    · cases hk
    · exact hd j k t hj hk

/-- A transaction that may be mined stays the one of its withdrawal. -/
theorem Moves.mined {d : Record} {i : String} {e : BtcStateEntry} (h : Moves d i e.tx)
    {j t : String} (hj : txOf d.file j = some t) (ht : MayBeMined d.history t) :
    txOf (d.file.insert i e) j = some t := by
  rw [txOf_insert]
  split
  · next hij =>
    subst hij
    generalize e.tx = o at h
    cases h with
    | keep => exact hj
    | take hnone hnew => rw [hnone] at hj; cases hj
    | drop hsome hdead =>
      rw [hsome] at hj
      cases hj
      exact (hdead ht).elim
  · exact hj

theorem Inv.save {d : Record} (hd : Inv d) {i : String} {e : BtcStateEntry}
    (hplan : ∀ p, e.planned = some p → (i, p) ∈ builtPayouts d.history ∧ truthy e.btcTxid = none)
    (hmove : Moves d i e.tx) : Inv (d.apply (.save (d.file.insert i e))) := by
  have hb : builtPayouts (d.apply (.save (d.file.insert i e))).history =
      builtPayouts d.history := by simp [Record.apply, builtPayouts]
  have hs : broadcasts (d.apply (.save (d.file.insert i e))).history =
      broadcasts d.history := by simp [Record.apply, broadcasts]
  refine ⟨?_, hmove.unique hd.unique, ?_, ?_, ?_⟩
  · intro j e' p hj hp
    rw [hb]
    simp only [Record.apply, getElem?_insert_eq] at hj
    split at hj
    · next hij =>
      subst hij
      cases hj
      exact hplan p hp
    · exact hd.planned j e' p hj hp
  · intro j p hj hm
    rw [hb] at hj
    rw [MayBeMined, hs] at hm
    exact hmove.mined (hd.mined j p hj hm) hm
  · rw [hb]
    exact hd.built_unique
  · rw [hb, hs]
    exact hd.sent_built

theorem Inv.built {d : Record} (hd : Inv d) {i : String} {p : BuiltPayout}
    (hnone : txOf d.file i = none)
    (hnew : ∀ b ∈ builtPayouts d.history, b.2.txid = p.txid → b.1 = i) :
    Inv (d.apply (.built i p)) := by
  have hb : builtPayouts (d.apply (.built i p)).history =
      builtPayouts d.history ++ [(i, p)] := by simp [Record.apply, builtPayouts]
  have hs : broadcasts (d.apply (.built i p)).history = broadcasts d.history := by
    simp [Record.apply, broadcasts]
  -- the transaction cannot be on the network: it would be the one `i` stands for already
  have hdead : ¬ MayBeMined d.history p.txid := by
    rintro ⟨⟨j, q, r⟩, hq, htx, hr⟩
    have hbq := hd.sent_built j q r hq
    have hji : j = i := hnew (j, q) hbq htx
    have := hd.mined j q hbq ⟨(j, q, r), hq, rfl, hr⟩
    rw [hji, hnone] at this
    cases this
  constructor
  · intro j e q hj hq
    rw [hb]
    have := hd.planned j e q hj hq
    exact ⟨List.mem_append_left _ this.1, this.2⟩
  · exact hd.unique
  · intro j q hj hm
    rw [MayBeMined, hs] at hm
    rw [hb, List.mem_append, List.mem_singleton] at hj
    rcases hj with hj | hj
    · exact hd.mined j q hj hm
    · cases hj
      exact (hdead hm).elim
  · intro j k q q' hj hk hqq
    rw [hb, List.mem_append, List.mem_singleton] at hj hk
    rcases hj with hj | hj <;> rcases hk with hk | hk
    · exact hd.built_unique j k q q' hj hk hqq
    · cases hk
      exact hnew (j, q) hj hqq
    · cases hj
      exact (hnew (k, q') hk hqq.symm).symm
    · cases hj
      cases hk
      rfl
  · intro j q r hr
    rw [hs] at hr
    rw [hb]
    exact List.mem_append_left _ (hd.sent_built j q r hr)

theorem Inv.broadcast {d : Record} (hd : Inv d) {i : String} {e : BtcStateEntry}
    {p : BuiltPayout} {r : BroadcastResult} (he : d.file[i]? = some e)
    (hp : e.planned = some p) : Inv (d.apply (.broadcast i p r)) := by
  obtain ⟨hbp, hnone⟩ := hd.planned i e p he hp
  have hb : builtPayouts (d.apply (.broadcast i p r)).history = builtPayouts d.history := by
    simp [Record.apply, builtPayouts]
  have hs : broadcasts (d.apply (.broadcast i p r)).history =
      broadcasts d.history ++ [(i, p, r)] := by simp [Record.apply, broadcasts]
  have htx : txOf d.file i = some p.txid := by
    rw [txOf, he, Option.bind_some, BtcStateEntry.tx, hnone, hp]
    rfl
  refine ⟨?_, hd.unique, ?_, ?_, ?_⟩
  · rw [hb]
    exact hd.planned
  · intro j q hj hm
    rw [hb] at hj
    obtain ⟨b, hbm, hbt, hbr⟩ := hm
    rw [hs, List.mem_append, List.mem_singleton] at hbm
    rcases hbm with hbm | rfl
    · exact hd.mined j q hj ⟨b, hbm, hbt, hbr⟩
    · -- what was just sent is the plan of `i`, and only `i` had it built
      have hji : j = i := hd.built_unique j i q p hj hbp hbt.symm
      rw [hji, ← hbt]
      exact htx
  · rw [hb]
    exact hd.built_unique
  · intro j q r' hr
    rw [hs, List.mem_append, List.mem_singleton] at hr
    rw [hb]
    rcases hr with hr | hr
    · exact hd.sent_built j q r' hr
    · cases hr
      exact hbp

/-- An effect that writes no new state, builds nothing and sends nothing. -/
theorem Inv.quiet {d : Record} (hd : Inv d) {e : Effect} (hf : (d.apply e).file = d.file)
    (hb : builtPayouts (d.apply e).history = builtPayouts d.history)
    (hs : broadcasts (d.apply e).history = broadcasts d.history) : Inv (d.apply e) := by
  refine ⟨?_, ?_, ?_, ?_, ?_⟩
  · rw [hf, hb]
    exact hd.planned
  · rw [hf]
    exact hd.unique
  · intro i p hi hm
    rw [hb] at hi
    rw [MayBeMined, hs] at hm
    rw [hf]
    exact hd.mined i p hi hm
  · rw [hb]
    exact hd.built_unique
  · rw [hb, hs]
    exact hd.sent_built

theorem Inv.apply {d : Record} {e : Effect} (he : Allowed d e) (hd : Inv d) :
    Inv (d.apply e) := by
  cases he with
  | same =>
    exact Inv.quiet (e := .save d.file) hd rfl (by simp [Record.apply, builtPayouts])
      (by simp [Record.apply, broadcasts])
  | save hplan hmove => exact hd.save hplan hmove
  | built hnone hnew => exact hd.built hnone hnew
  | broadcast he hp => exact hd.broadcast he hp
  | @fulfill i t =>
    exact Inv.quiet (e := .fulfill i t) hd rfl (by simp [Record.apply, builtPayouts])
      (by simp [Record.apply, broadcasts])

/-! ## What a call does -/

/-- A call that does only what is allowed, and leaves in memory what it saved last. -/
structure Result.Fits (d : Record) (r : Result) : Prop where
  state : (Runs.run Record.apply d r.effects).file = r.state
  allowed : Runs.Along Record.apply Allowed d r.effects

/-- The entry a call works on: the one of the file, or a new one that stands for nothing. -/
structure Current (d : Record) (i : String) (e : BtcStateEntry) : Prop where
  tx : txOf d.file i = e.tx
  planned : ∀ p, e.planned = some p → d.file[i]? = some e

theorem Current.of_getElem? {d : Record} {i : String} {e : BtcStateEntry}
    (h : d.file[i]? = some e) : Current d i e :=
  ⟨by rw [txOf, h]; rfl, fun _ _ => h⟩

variable {d : Record} {i : String} {e : BtcStateEntry}

theorem fits_idle (o : BtcOutcome) : Result.Fits d ⟨o, d.file, []⟩ := ⟨rfl, trivial⟩

theorem fits_put {o : BtcOutcome}
    (hplan : ∀ p, e.planned = some p → (i, p) ∈ builtPayouts d.history ∧ truthy e.btcTxid = none)
    (hmove : Moves d i e.tx) : Result.Fits d (put d.file i e o) :=
  ⟨rfl, .save hplan hmove, trivial⟩

/-- Setting the review mark of an entry. -/
theorem fits_review {o : BtcOutcome} (hd : Inv d) (he : Current d i e) (text : Option String) :
    Result.Fits d (put d.file i { e with needsReview := text } o) := by
  refine fits_put (fun p hp => hd.planned i e p (he.planned p hp) hp) ?_
  have hkeep := Moves.keep (d := d) (i := i)
  rwa [he.tx] at hkeep

/-- Recording the plan of an entry as its payout. -/
theorem fits_record {o : BtcOutcome} {p : BuiltPayout} (hd : Inv d) (he : Current d i e)
    (hp : e.planned = some p) :
    Result.Fits d (put d.file i { e with btcTxid := some p.txid, planned := none } o) := by
  refine fits_put (fun q hq => by cases hq) ?_
  have hkeep := Moves.keep (d := d) (i := i)
  have hnone := (hd.planned i e p (he.planned p hp) hp).2
  rw [he.tx, BtcStateEntry.tx, hnone, hp, Option.none_or, Option.map_some] at hkeep
  rwa [BtcStateEntry.tx, truthy_some p.txid_ne, Option.map_none, Option.or_none]

/-- Adopting a transaction of the custody history. -/
theorem fits_adopt {o : BtcOutcome} {t : String} {e' : BtcStateEntry} (hnone : txOf d.file i = none)
    (hplan : e'.planned = none) (htx : truthy e'.btcTxid = some t)
    (ht : t ∉ knownPayoutTxids d.file) : Result.Fits d (put d.file i e' o) := by
  refine fits_put (fun q hq => by rw [hplan] at hq; cases hq) ?_
  rw [BtcStateEntry.tx, htx, Option.some_or]
  exact .take hnone ht

theorem settleBroadcast_fits {p : BuiltPayout} (hd : Inv d) (he : d.file[i]? = some e)
    (hp : e.planned = some p) {r : BroadcastResult}
    (hrej : ∀ reason, r = .rejected reason false → ¬ MayBeMined d.history p.txid) :
    Result.Fits d (settleBroadcast d.file i e p r) := by
  have hcur := Current.of_getElem? he
  cases r with
  | accepted txid =>
    rw [settleBroadcast]
    split
    · exact fits_review hd hcur _
    · exact fits_record hd hcur hp
  | unknown reason => exact ⟨rfl, .same, trivial⟩
  | rejected reason inputsSpent =>
    cases inputsSpent with
    | true => exact fits_review hd hcur _
    | false =>
      refine fits_put (fun q hq => by cases hq) ?_
      have hnone := (hd.planned i e p he hp).2
      have htx : txOf d.file i = some p.txid := by
        rw [hcur.tx, BtcStateEntry.tx, hnone, hp]
        rfl
      have hdrop := Moves.drop htx (hrej reason rfl)
      rwa [BtcStateEntry.tx, hnone]

theorem sendPlanned_fits {p : BuiltPayout} (hd : Inv d) (he : d.file[i]? = some e)
    (hp : e.planned = some p) (a : Answers)
    (hrej : ∀ reason, classifyBroadcastResponse a.broadcast.1 a.broadcast.2 p.txid =
      .rejected reason false → ¬ MayBeMined d.history p.txid) :
    Result.Fits d (sendPlanned d.file i e p a) := by
  rw [sendPlanned]
  generalize classifyBroadcastResponse a.broadcast.1 a.broadcast.2 p.txid = r at hrej
  have hsettle : Result.Fits (d.apply (.broadcast i p r))
      (settleBroadcast (d.apply (.broadcast i p r)).file i e p r) := by
    refine settleBroadcast_fits (hd.broadcast he hp) he hp fun reason hr hm => ?_
    rcases mayBeMined_append.1 hm with hm | ⟨b, hb, -, hbr⟩
    · exact hrej reason hr hm
    · subst hr
      simp only [broadcasts, List.filterMap_cons, List.filterMap_nil, List.mem_singleton] at hb
      subst hb
      cases hbr
  exact ⟨hsettle.state, .broadcast he hp, hsettle.allowed⟩

theorem resumePlanned_fits {p : BuiltPayout} (c : Config) (hd : Inv d) (he : d.file[i]? = some e)
    (hp : e.planned = some p) (a : Answers) :
    (∀ f ∈ (resumePlanned c d.file i e p a).effects, f.Sound ⟨d.file, d⟩) →
      Result.Fits d (resumePlanned c d.file i e p a) := by
  rw [resumePlanned]
  split
  · exact fun _ => fits_idle _
  · exact fun _ => fits_record hd (.of_getElem? he) hp
  · split
    · exact fun _ => fits_idle _
    · intro hs
      refine sendPlanned_fits hd he hp a fun reason hr => ?_
      have := hs _ List.mem_cons_self
      rwa [hr] at this

/-- The scan of the custody history returns no transaction the state knows. -/
theorem findExistingPayout_notMem {c : Config} {a : Answers} {dest : String} {sats : ℤ}
    {known : List String} {found : Option String} {t : String}
    (h : findExistingPayout c a dest sats known = .ok found) (ht : truthy found = some t) :
    t ∉ known := by
  rw [findExistingPayout] at h
  split at h
  · cases h
  · cases h
    have hf := (Option.filter_eq_some_iff.1 ht).1
    obtain ⟨tx, htx, rfl⟩ := Option.map_eq_some_iff.1 hf
    have := List.find?_some htx
    simp only [Bool.decide_and, Bool.and_eq_true, decide_eq_true_eq] at this
    exact this.1

theorem truthy_truthy {o : Option String} {t : String} (h : truthy o = some t) :
    truthy (some t) = some t :=
  truthy_some (by simpa using (Option.filter_eq_some_iff.1 h).2)

theorem resumeLegacy_fits (c : Config) (dest : String) (sats : ℤ) (hd : Inv d)
    (he : Current d i e) (hnone : e.tx = none) (hplan : e.planned = none) (a : Answers) :
    Result.Fits d (resumeLegacy c d.file i dest sats e a) := by
  rw [resumeLegacy]
  split
  · exact fits_idle _
  · next found hfound =>
    split
    · next t ht =>
      exact fits_adopt (he.tx.trans hnone) hplan (truthy_truthy ht)
        (findExistingPayout_notMem hfound ht)
    · exact fits_review hd he _

/-- A new payout: built, saved, sent. -/
theorem sendNew_fits {p : BuiltPayout} (hd : Inv d) (he : Current d i e) (hnone : e.tx = none)
    (htxid : truthy e.btcTxid = none) (hknown : p.txid ∉ knownPayoutTxids d.file)
    (hnew : ∀ b ∈ builtPayouts d.history, b.2.txid = p.txid → b.1 = i) (a : Answers)
    (hrej : ∀ reason, classifyBroadcastResponse a.broadcast.1 a.broadcast.2 p.txid =
      .rejected reason false → ¬ MayBeMined d.history p.txid) (n : ℕ) :
    let e' := { e with planned := some p, attempts := n }
    let r := sendPlanned (d.file.insert i e') i e' p a
    Result.Fits d { r with effects := .built i p :: .save (d.file.insert i e') :: r.effects } := by
  intro e' r
  have hnone' : txOf d.file i = none := he.tx.trans hnone
  let d₁ := d.apply (.built i p)
  have hd₁ : Inv d₁ := hd.built hnone' hnew
  have hsave : Allowed d₁ (.save (d₁.file.insert i e')) := by
    refine .save (fun q hq => ?_) ?_
    · cases hq
      exact ⟨by simp [d₁, Record.apply, builtPayouts], htxid⟩
    · rw [BtcStateEntry.tx, htxid, Option.none_or]
      exact .take hnone' hknown
  let d₂ := d₁.apply (.save (d₁.file.insert i e'))
  have hd₂ : Inv d₂ := hd₁.apply hsave
  have hsend : Result.Fits d₂ (sendPlanned d₂.file i e' p a) := by
    refine sendPlanned_fits hd₂ ExtTreeMap.getElem?_insert_self rfl a fun reason hr hm => ?_
    refine hrej reason hr ?_
    -- building and saving send nothing
    have hs : broadcasts d₂.history = broadcasts d.history := by
      simp [d₂, d₁, Record.apply, broadcasts]
    rwa [MayBeMined, hs] at hm
  exact ⟨hsend.state, .built hnone' hnew, hsave, hsend.allowed⟩

theorem newPayout_fits (c : Config) (dest : String) (sats : ℤ) (hd : Inv d) (he : Current d i e)
    (htxid : truthy e.btcTxid = none) (hplan : e.planned = none) (a : Answers) :
    (∀ f ∈ (newPayout c d.file i dest sats e a).effects, f.Sound ⟨d.file, d⟩) →
      Result.Fits d (newPayout c d.file i dest sats e a) := by
  have hnone : e.tx = none := by
    rw [BtcStateEntry.tx, htxid, hplan]
    rfl
  rw [newPayout]
  split
  · exact fun _ => fits_idle _
  split
  · exact fun _ => fits_idle _
  · next found hfound =>
    split
    · next t ht =>
      exact fun _ => fits_adopt (he.tx.trans hnone) hplan (truthy_truthy ht)
        (findExistingPayout_notMem hfound ht)
    · split
      · exact fun _ => fits_idle _
      split
      · exact fun _ => fits_idle _
      · exact fun _ => fits_idle _
      · split
        · exact fun _ => fits_review hd he _
        · exact fun _ => fits_idle _
      · next p hp =>
        split
        · intro hs
          have hb := hs _ List.mem_cons_self
          exact ⟨rfl, .built (he.tx.trans hnone) hb.2, trivial⟩
        · intro hs
          have hb := hs _ List.mem_cons_self
          refine sendNew_fits hd he hnone htxid hb.1 hb.2 a (fun reason hr => ?_) _
          have := hs _ (List.mem_cons_of_mem _ (List.mem_cons_of_mem _ List.mem_cons_self))
          rwa [hr] at this

theorem processEntry_fits (c : Config) (dest : String) (sats : ℤ) (hd : Inv d)
    (he : Current d i e) (a : Answers) :
    (∀ f ∈ (processEntry c d.file i dest sats e a).effects, f.Sound ⟨d.file, d⟩) →
      Result.Fits d (processEntry c d.file i dest sats e a) := by
  rw [processEntry]
  split
  · exact fun _ => fits_idle _
  split
  · next t ht =>
    intro _
    rw [awaitPayout]
    split
    · exact fits_idle _
    split
    · exact fits_idle _
    split
    · exact ⟨rfl, .fulfill, trivial⟩
    · exact fits_idle _
  · next htxid =>
    split
    · next p hp => exact resumePlanned_fits c hd (he.planned p hp) hp a
    · next hplan =>
      split
      · intro _
        refine resumeLegacy_fits c dest sats hd he ?_ hplan a
        rw [BtcStateEntry.tx, htxid, hplan]
        rfl
      · exact newPayout_fits c dest sats hd he htxid hplan a

theorem processBtcWithdrawal_fits (c : Config) (w : PendingBtcWithdrawal) (hd : Inv d)
    (a : Answers) :
    (∀ f ∈ (processBtcWithdrawal c w d.file a).effects, f.Sound ⟨d.file, d⟩) →
      Result.Fits d (processBtcWithdrawal c w d.file a) := by
  rw [processBtcWithdrawal]
  split
  · exact fun _ => fits_idle _
  split
  · exact fun _ => fits_idle _
  split
  · exact fun _ => fits_idle _
  split
  · exact fun _ => fits_idle _
  split
  · next hget =>
    refine processEntry_fits c _ _ hd ⟨?_, fun p hp => by cases hp⟩ a
    rw [txOf, hget]
    rfl
  · next entry hget =>
    split
    · exact fun _ => fits_review hd (.of_getElem? hget) _
    · exact processEntry_fits c _ _ hd (.of_getElem? hget) a

/-! ## Whole runs -/

/-- The relayer between two calls: memory and file agree, and the invariant holds. -/
structure Relayer.Ok (x : Relayer) : Prop where
  state : x.state = x.record.file
  inv : Inv x.record

theorem Relayer.Ok.step (c : Config) (x : Relayer) (call : Call) (hs : call.Sound c x)
    (hx : x.Ok) : (x.step c call).Ok := by
  obtain ⟨s, d⟩ := x
  obtain ⟨hstate, hd⟩ := hx
  change s = d.file at hstate
  subst hstate
  have hfits := processBtcWithdrawal_fits c call.withdrawal hd call.answers hs
  rw [Relayer.step]
  split
  · exact ⟨hfits.state.symm, hfits.allowed.invariant (fun _ _ => Inv.apply) hd⟩
  · next n hn => exact ⟨rfl, (hfits.allowed.take n).invariant (fun _ _ => Inv.apply) hd⟩

theorem Inv.paidOnce (hd : Inv d) : PaidOnce d where
  mined m hm i p hp q hq hbp hbq := by
    have hip := hd.mined i p hbp (hm.mayBeMined p hp)
    have hiq := hd.mined i q hbq (hm.mayBeMined q hq)
    exact Option.some.inj (hip.symm.trans hiq)
  recorded i j e e' t hi hj hte hte' := by
    refine hd.unique i j t ?_ ?_
    · rw [txOf, hi, Option.bind_some, BtcStateEntry.tx, hte, Option.some_or]
    · rw [txOf, hj, Option.bind_some, BtcStateEntry.tx, hte', Option.some_or]

/-- The relayer pays once, over every run of calls with sound answers, with crashes anywhere. -/
theorem paid_once (c : Config) (s : BtcState) (hs : Unplanned s) (calls : List Call)
    (hcalls : Runs.Along (Relayer.step c) (fun x call => call.Sound c x) (start s) calls) :
    PaidOnce (Runs.run (Relayer.step c) (start s) calls).record := by
  have hok : (start s).Ok := ⟨rfl, .start hs⟩
  exact (hcalls.invariant (fun x call h hx => hx.step c x call h) hok).inv.paidOnce

/-- A broadcast without a response, a crash before the next one is settled, and the call that
    finds the transaction. -/
theorem paid_once_resent :
    let calls := [poll firstPayout none "socket hang up",
      { poll firstPayout none "" with crash := some 1 },
      poll firstPayout (some 400) "txn-already-in-mempool"]
    Runs.Along (Relayer.step liveConfig) (fun x call => call.Sound liveConfig x) (start ∅) calls ∧
      PaidOnce (Runs.run (Relayer.step liveConfig) (start ∅) calls).record := by
  intro calls
  have hcalls : Runs.Along (Relayer.step liveConfig) (fun x call => call.Sound liveConfig x)
      (start ∅) calls := by decide +kernel
  exact ⟨hcalls, paid_once liveConfig ∅ .empty calls hcalls⟩

end RougeChain.Bridge.BtcRelayer
