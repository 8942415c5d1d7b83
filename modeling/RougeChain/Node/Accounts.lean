import RougeChain.Library.Accounts
import RougeChain.Library.JsonText
import RougeChain.Node.Types

/-!
# Addresses, quanta and balances

What every transaction of a block is made of: the account a key stands for
(`canonAddr`), the whole XRGE and the floats of the wire in quanta
(`xrgeF64ToQuanta`), and the maps of balances with their wrapping credits and
debits.

The library functions the node calls are the fields of a `Platform`; what is
proved holds for every choice of them, unless a hypothesis says otherwise.
-/

namespace RougeChain.Node

open Std (ExtTreeMap)

/-- The library functions the node calls. -/
structure Platform where
  sha256 : List UInt8 → List UInt8
  /-- Whether a text is valid bech32. -/
  bech32Decodes : String → Bool
  /-- The Bech32m text of a payload for the human-readable part `rouge`. -/
  bech32Encode : List UInt8 → String
  /-- The upper-case mapping of Unicode. -/
  toUppercase : String → String
  /-- The decimal text of a finite float. -/
  floatText : Float → List Char

/-- The node's settings, and the library functions. -/
structure Env extends Platform where
  upgrades : UpgradeSchedule
  chainId : String
  /-- The keys that may mint bridged tokens; without any, the node's own key may. -/
  bridgeAuthorityKeys : List String
  /-- The node's own key. -/
  nodePubKey : String

/-- A node of a local chain, where every key is its own account. -/
def localEnv : Env where
  sha256 := fun bytes => bytes
  bech32Decodes := fun _ => false
  bech32Encode := fun _ => ""
  toUppercase := fun s => String.ofList (s.toList.map Char.toUpper)
  floatText := Json.bitsText
  upgrades := mainnet
  chainId := "rougechain-local"
  bridgeAuthorityKeys := []
  nodePubKey := ""

/-- A transaction without a fee. -/
def localTx (kind : TxKind) (sender : String) (payload : TxPayload) : TxV1 where
  version := 1
  txType := kind.name
  fromPubKey := sender
  nonce := 0
  payload := payload
  fee := 0
  sig := ""
  signedPayload := none

/-- Why a call did not return a value: it returned an error, or it panicked. -/
inductive Fault where
  | err (message : String)
  | panic
  deriving DecidableEq

/-- The value of an optional field, or the error that it is missing. -/
def required {α : Type} (message : String) (x : Option α) : Except Fault α :=
  Fallible.ofOption (.err message) x

theorem required_eq_ok {α : Type} {message : String} {x : Option α} {a : α} :
    required message x = .ok a ↔ x = some a := Fallible.ofOption_eq_ok

/-- The source's `&s[..n]`, which panics unless a character ends there. -/
def sliceTo (n : ℕ) (s : String) : Except Fault String := Fallible.ofOption .panic (Text.takeBytes n s)

/-! ## Addresses -/

def hexValue (c : Char) : Option ℕ :=
  if c.isDigit then some (c.toNat - '0'.toNat)
  else if 'a' ≤ c ∧ c ≤ 'f' then some (c.toNat - 'a'.toNat + 10)
  else if 'A' ≤ c ∧ c ≤ 'F' then some (c.toNat - 'A'.toNat + 10)
  else none

def hexDecodeList : List Char → Option (List UInt8)
  | [] => some []
  | [_] => none
  | a :: b :: rest => do
    let hi ← hexValue a
    let lo ← hexValue b
    let bytes ← hexDecodeList rest
    return UInt8.ofNat (16 * hi + lo) :: bytes

def hexDecode (s : String) : Option (List UInt8) := hexDecodeList s.toList

/-- The length of an ML-DSA-65 public key in bytes. -/
def pkLen : ℕ := 1952

variable (P : Platform)

def isRougeAddress (input : String) : Bool :=
  "rouge1".toList.isPrefixOf input.toList && 10 < input.utf8ByteSize && P.bech32Decodes input

def addressFromHash (hash : List UInt8) : Option String :=
  if hash.length = 32 then some (P.bech32Encode hash) else none

def pubKeyToAddress (publicKeyHex : String) : Option String := do
  let bytes ← hexDecode publicKeyHex
  guard (bytes.length = pkLen)
  addressFromHash P (P.sha256 bytes)

/-- The key of the balance maps for a wallet: its `rouge1` address, whether it is given by the
    public key or by the address. Every other text stands for itself. -/
def canonAddr (key : String) : String :=
  if isRougeAddress P key then key else (pubKeyToAddress P key).getD key

/-! ## Checked arithmetic -/

def checkedAdd64 (a b : UInt64) : Option UInt64 :=
  if a.toNat + b.toNat < 2 ^ 64 then some (a + b) else none

def checkedSub64 (a b : UInt64) : Option UInt64 := if b ≤ a then some (a - b) else none

def checkedAdd128 (a b : U128) : Option U128 :=
  if a.toNat + b.toNat < 2 ^ 128 then some (a + b) else none

def checkedSub128 (a b : U128) : Option U128 := if b ≤ a then some (a - b) else none

theorem checkedAdd64_eq_some {a b c : UInt64} (h : checkedAdd64 a b = some c) :
    c.toNat = a.toNat + b.toNat := by
  rw [checkedAdd64] at h
  split at h
  · next hlt =>
    obtain rfl := Option.some.inj h
    rw [UInt64.toNat_add, Nat.mod_eq_of_lt hlt]
  · cases h

theorem checkedSub64_eq_some {a b c : UInt64} (h : checkedSub64 a b = some c) :
    c.toNat + b.toNat = a.toNat := by
  rw [checkedSub64] at h
  split at h
  · next hle =>
    obtain rfl := Option.some.inj h
    rw [UInt64.toNat_sub_of_le _ _ hle]
    exact Nat.sub_add_cancel (UInt64.le_iff_toNat_le.1 hle)
  · cases h

/-! ## Quanta -/

/-- The source's `x as u128`: towards zero, clamped at both ends, and zero for `NaN`. -/
def f64AsU128 (x : Float) : U128 :=
  .ofNat 128 (min (x.toModel.unpack.toInt 0 (2 ^ 128 - 1)).toNat (2 ^ 128 - 1))

/-- The source's `n as f64`, rounded to nearest. -/
def u128AsF64 (n : U128) : Float := ⟨Float.Model.ofNat n.toNat⟩

/-- The source's `n as u128`. -/
def u64AsU128 (n : UInt64) : U128 := .ofNat 128 n.toNat

def quantaPerXrge : U128 := 1000000000

/-- A fee in XRGE, in quanta, rounded half up; what is not finite or not positive is nothing. -/
def feeToQuanta (feeXrge : Float) : U128 :=
  if !feeXrge.isFinite || feeXrge ≤ 0 then 0 else f64AsU128 (feeXrge * 1000000000 + 0.5)

def xrgeF64ToQuanta (x : Float) : U128 := feeToQuanta x

/-! ## Balances -/

/-- XRGE in quanta, by canonical address. -/
abbrev Balances := ExtTreeMap String U128

/-- Units of the custom tokens, by canonical address and symbol. -/
abbrev TokenBalances := ExtTreeMap (String × String) U128

export Accounts (balance credit debit)

/-- The balances with `cost` taken from the sender of `tx`, if they cover it. -/
def charge (b : Balances) (tx : TxV1) (cost : U128) : Option Balances :=
  if balance b (canonAddr P tx.fromPubKey) < cost then none
  else some (debit b (canonAddr P tx.fromPubKey) cost)

end RougeChain.Node
