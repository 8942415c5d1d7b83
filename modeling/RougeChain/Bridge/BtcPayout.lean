import RougeChain.Library.Basic
import RougeChain.Library.Text

/-!
# Bitcoin payouts as the node verifies them

`bridge_btc.rs` checks a payout of a qBTC withdrawal against the data of an Esplora provider: it
spends custody, it pays the destination, and either it pays all that is owed or it pays what is
owed minus its own fee (`evaluatePayout`), with enough confirmations (`verifyBtcPayout`).
-/

open Fallible (require ofOption)

namespace RougeChain.Bridge

/-- The values of a `u64`. -/
def u64Limit : ℕ := 2 ^ 64

/-- The values of a `u128`. -/
def u128Limit : ℕ := 2 ^ 128

/-- The sum of the values as a `u64`, or the error when it does not fit. -/
def checkedSum (e : String) (values : List ℕ) : Except String ℕ :=
  values.foldlM (fun a v => if a + v < u64Limit then .ok (a + v) else .error e) 0

/-- The sum of the values as a `u64` that stops at the greatest value. -/
def saturatingSum (limit : ℕ) (values : List ℕ) : ℕ :=
  values.foldl (fun a v => min (a + v) (limit - 1)) 0

structure EsploraPrevout where
  scriptpubkeyAddress : Option String
  value : Option ℕ

structure EsploraVout where
  scriptpubkeyAddress : Option String
  value : ℕ

/-- A transaction as the provider reports it, with its status. -/
structure EsploraTx where
  vin : List (Option EsploraPrevout)
  vout : List EsploraVout
  fee : Option ℕ
  confirmed : Bool
  blockHeight : Option ℕ

inductive PayoutRule
  | fullAmount
  | feeDeducted
  deriving DecidableEq

structure PayoutVerdict where
  paidSats : ℕ
  feeSats : Option ℕ
  rule : PayoutRule
  deriving DecidableEq

/-- The fee of a transaction, from the data of the provider: inputs minus outputs. -/
def txFeeSats (tx : EsploraTx) : Except String ℕ := do
  require (tx.vin ≠ []) "payout has no inputs"
  let values ← tx.vin.mapM fun v =>
    ofOption "payout input is missing its prevout value; cannot compute the network fee"
      (v.bind EsploraPrevout.value)
  let totalIn ← checkedSum "input sum overflow" values
  let totalOut ← checkedSum "output sum overflow" (tx.vout.map EsploraVout.value)
  require (totalOut ≤ totalIn) "payout outputs exceed inputs (inconsistent provider data)"
  let computed := totalIn - totalOut
  match tx.fee with
  | some reported =>
    require (reported = computed) ("provider fee " ++ toString reported ++
      " sats disagrees with inputs − outputs " ++ toString computed ++
      " sats — refusing to verify")
    return computed
  | none => return computed

/-- Whether `tx` settles `owedSats` to `dest`. -/
def evaluatePayout (tx : EsploraTx) (custody dest : String) (owedSats maxFeeSats : ℕ) :
    Except String PayoutVerdict := do
  require (tx.vin.any fun v => v.bind EsploraPrevout.scriptpubkeyAddress = some custody)
    "payout was not funded by the custody address"
  let paid := saturatingSum u64Limit
    ((tx.vout.filter fun v => v.scriptpubkeyAddress = some dest).map EsploraVout.value)
  require (paid ≠ 0) ("payout pays nothing to " ++ dest)
  if owedSats ≤ paid then return ⟨paid, none, .fullAmount⟩
  else
    let fee ← txFeeSats tx
    require (fee ≤ maxFeeSats) ("payout network fee " ++ toString fee ++ " sats exceeds the " ++
      toString maxFeeSats ++ " sat cap (QV_BRIDGE_BTC_MAX_NETWORK_FEE_SATS)")
    require (owedSats ≤ min (paid + fee) (u64Limit - 1)) ("payout paid " ++ toString paid ++
      " sats to " ++ dest ++ " plus " ++ toString fee ++ " sats network fee, less than the " ++
      toString owedSats ++ " owed")
    return ⟨paid, some fee, .feeDeducted⟩

/-- The text without the `0x` it starts with, however often. -/
def trimStart0x : List Char → List Char
  | '0' :: 'x' :: l => trimStart0x l
  | l => l

/-- The txid a payout text stands for. -/
def btcTxid (text : String) : String :=
  Text.lower (String.ofList (trimStart0x (Text.trim Text.isWhitespace text).toList))

def validTxid (txid : String) : Bool := Text.isHex 64 txid

/-- What the verification of a Bitcoin payout reads: the height of the tip, and the transaction. -/
structure BtcView where
  minConf : ℕ
  maxNetworkFee : ℕ
  tip : Except String ℕ
  tx : Except String EsploraTx

def verifyBtcPayout (v : BtcView) (text custody dest : String) (owedSats : ℕ) :
    Except String PayoutVerdict := do
  require (validTxid (btcTxid text)) "invalid BTC payout txid (expected 64 hex chars)"
  let tip ← v.tip
  let tx ← v.tx
  require tx.confirmed "payout is still unconfirmed"
  let blockHeight ← ofOption "payout is missing a block height" tx.blockHeight
  let confs := min (tip - blockHeight + 1) (u64Limit - 1)
  require (v.minConf ≤ confs) ("payout has " ++ toString confs ++ " confirmation(s); " ++
    toString v.minConf ++ " required")
  evaluatePayout tx custody dest owedSats v.maxNetworkFee

end RougeChain.Bridge
