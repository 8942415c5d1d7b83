import RougeChain.Library.JsonRead
import RougeChain.Node.Encoding

/-!
# Signed payloads

A client signs a JSON text, and the transaction that goes into a block carries it
as `signedPayload`. The fields the chain executes have to be what the node makes of
that text: `verifyBinding` reads the text and compares. Two formats exist,

* an envelope that holds the type, the nonce, the fee and the payload of the
  transaction (`isCliEnvelope`);
* a flat object, off which `derive` reads the payload and the fee of a given type.

`binding_decides` says how much of a transaction its signed payload decides: all of
it but the nonce, for an envelope or for transactions of one type. The flat format
does not hold the type, so that one text may be bound to two of them
(`bound_as_stake_and_unstake`).
-/

open Fallible

namespace RougeChain.Node

open Json (decode optional)

/-- The library functions that the checks of a transaction call. -/
structure Libraries extends Platform where
  /-- The float of a literal with a fraction or an exponent, or too large for an integer. -/
  readFloat : List Char → Option Float
  /-- What is said of a text that is no JSON. -/
  syntaxError : String → String
  /-- What is said of a JSON value that is no payload. -/
  payloadError : Json.Value → String
  /-- A float in a message. -/
  showFloat : Float → String
  base64Decode : String → Option (List UInt8)
  /-- What is said of a text that is not hexadecimal. -/
  hexError : String → String
  /-- Whether, under the public key, the message has the signature, all three in bytes; nothing
      for bytes that are no key. -/
  verifies : List UInt8 → List UInt8 → List UInt8 → Option Bool

/-- The length of an ML-DSA-65 signature in bytes. -/
def sigLen : ℕ := 3309

/-- The node's settings, and all library functions. -/
structure Config extends Env, Libraries

/-! ## Fields of a JSON object -/

def strOr (p : Json.Value) (k : String) : String := ((p.get k).bind Json.Value.asStr).getD ""

def optStr (p : Json.Value) (k : String) : Option String := (p.get k).bind Json.Value.asStr

def u64Or (p : Json.Value) (k : String) : UInt64 := ((p.get k).bind Json.Value.asU64).getD 0

def optU64 (p : Json.Value) (k : String) : Option UInt64 := (p.get k).bind Json.Value.asU64

def optF64 (p : Json.Value) (k : String) : Option Float := (p.get k).bind Json.Value.asF64

def optBool (p : Json.Value) (k : String) : Option Bool := (p.get k).bind Json.Value.asBool

/-- An array of strings only, or nothing. -/
def strVec (p : Json.Value) (k : String) : List String := ((p.get k).bind decode).getD []

/-- The strings of an array. -/
def strArr (p : Json.Value) (k : String) : Option (List String) :=
  ((p.get k).bind Json.Value.asArray).map (List.filterMap Json.Value.asStr)

/-- The source's `x as u64`: towards zero, clamped at both ends, and zero for `NaN`. -/
def f64AsU64 (x : Float) : UInt64 :=
  .ofNat (min (x.toModel.unpack.toInt 0 (2 ^ 64 - 1)).toNat (2 ^ 64 - 1))

/-- The source's `n as f64`. -/
def natAsF64 (n : ℕ) : Float := ⟨Float.Model.ofNat n⟩

/-! ## Payloads of an envelope -/

section Decode

variable (v : Json.Value)

def TransferFields.decode : Option TransferFields := do
  return {
    toPubKeyHex := ← optional v "to_pub_key_hex"
    amount := ← optional v "amount"
    faucet := ← optional v "faucet"
    targetPubKey := ← optional v "target_pub_key"
    reason := ← optional v "reason" }

def TokenFields.decode : Option TokenFields := do
  return {
    tokenName := ← optional v "token_name"
    tokenSymbol := ← optional v "token_symbol"
    tokenDecimals := ← optional v "token_decimals"
    tokenTotalSupply := ← optional v "token_total_supply"
    metadataImage := ← optional v "metadata_image"
    metadataDescription := ← optional v "metadata_description"
    metadataWebsite := ← optional v "metadata_website"
    metadataTwitter := ← optional v "metadata_twitter"
    metadataDiscord := ← optional v "metadata_discord"
    tokenMintable := ← optional v "token_mintable"
    tokenMaxSupply := ← optional v "token_max_supply" }

def AmmFields.decode : Option AmmFields := do
  return {
    poolId := ← optional v "pool_id"
    tokenASymbol := ← optional v "token_a_symbol"
    tokenBSymbol := ← optional v "token_b_symbol"
    amountA := ← optional v "amount_a"
    amountB := ← optional v "amount_b"
    minAmountOut := ← optional v "min_amount_out"
    swapPath := ← optional v "swap_path"
    lpAmount := ← optional v "lp_amount"
    evmAddress := ← optional v "evm_address"
    limitOrderId := ← optional v "limit_order_id"
    limitOrderExpires := ← optional v "limit_order_expires" }

def NftFields.decode : Option NftFields := do
  return {
    nftCollectionSymbol := ← optional v "nft_collection_symbol"
    nftCollectionName := ← optional v "nft_collection_name"
    nftCollectionId := ← optional v "nft_collection_id"
    nftDescription := ← optional v "nft_description"
    nftImage := ← optional v "nft_image"
    nftMaxSupply := ← optional v "nft_max_supply"
    nftRoyaltyBps := ← optional v "nft_royalty_bps"
    nftRoyaltyRecipient := ← optional v "nft_royalty_recipient"
    nftTokenId := ← optional v "nft_token_id"
    nftTokenName := ← optional v "nft_token_name"
    nftMetadataUri := ← optional v "nft_metadata_uri"
    nftAttributes := ← optional v "nft_attributes"
    nftLocked := ← optional v "nft_locked"
    nftPublicMint := ← optional v "nft_public_mint"
    nftMintPrice := ← optional v "nft_mint_price"
    nftTokenGateSymbol := ← optional v "nft_token_gate_symbol"
    nftTokenGateAmount := ← optional v "nft_token_gate_amount"
    nftDiscountPct := ← optional v "nft_discount_pct"
    nftFrozen := ← optional v "nft_frozen"
    nftBatchNames := ← optional v "nft_batch_names"
    nftBatchUris := ← optional v "nft_batch_uris"
    nftBatchAttributes := ← optional v "nft_batch_attributes" }

def ShieldedFields.decode : Option ShieldedFields := do
  return {
    shieldedNullifiers := ← optional v "shielded_nullifiers"
    shieldedOutputCommitments := ← optional v "shielded_output_commitments"
    shieldedProof := ← optional v "shielded_proof"
    shieldedFee := ← optional v "shielded_fee"
    shieldedCommitment := ← optional v "shielded_commitment"
    shieldedValue := ← optional v "shielded_value"
    shieldedRandomness := ← optional v "shielded_randomness"
    shieldV2Body := ← optional v "shield_v2_body"
    shieldV2Proof := ← optional v "shield_v2_proof" }

def GovernanceFields.decode : Option GovernanceFields := do
  return {
    lockUntilHeight := ← optional v "lock_until_height"
    lockId := ← optional v "lock_id"
    stakingPoolId := ← optional v "staking_pool_id"
    stakingRewardRate := ← optional v "staking_reward_rate"
    proposalId := ← optional v "proposal_id"
    proposalTitle := ← optional v "proposal_title"
    proposalDescription := ← optional v "proposal_description"
    voteOption := ← optional v "vote_option"
    proposalEndHeight := ← optional v "proposal_end_height"
    proposalType := ← optional v "proposal_type"
    proposalActionPayload := ← optional v "proposal_action_payload"
    proposalQuorum := ← optional v "proposal_quorum"
    proposalTimelockBlocks := ← optional v "proposal_timelock_blocks"
    delegateTo := ← optional v "delegate_to" }

def AllowanceFields.decode : Option AllowanceFields := do
  return {
    spenderPubKey := ← optional v "spender_pub_key"
    allowanceAmount := ← optional v "allowance_amount"
    ownerPubKey := ← optional v "owner_pub_key"
    airdropRecipients := ← optional v "airdrop_recipients"
    airdropAmounts := ← optional v "airdrop_amounts" }

def ContractFields.decode : Option ContractFields := do
  return {
    contractWasm := ← optional v "contract_wasm"
    contractAddr := ← optional v "contract_addr"
    contractMethod := ← optional v "contract_method"
    contractArgs := ← optional v "contract_args"
    contractGasLimit := ← optional v "contract_gas_limit"
    contractAttachSymbol := ← optional v "contract_attach_symbol"
    contractAttachAmount := ← optional v "contract_attach_amount" }

def MultisigFields.decode : Option MultisigFields := do
  return {
    multisigWalletId := ← optional v "multisig_wallet_id"
    multisigSigners := ← optional v "multisig_signers"
    multisigThreshold := ← optional v "multisig_threshold"
    multisigLabel := ← optional v "multisig_label"
    multisigProposalId := ← optional v "multisig_proposal_id"
    multisigProposalTxType := ← optional v "multisig_proposal_tx_type"
    multisigProposalPayload := ← optional v "multisig_proposal_payload"
    multisigProposalFee := ← optional v "multisig_proposal_fee"
    multisigApprovalSig := ← optional v "multisig_approval_sig" }

/-- The payload with the fields of the object `v`; members of other names are passed over. -/
def TxPayload.decode : Option TxPayload := do
  return {
    toTransferFields := ← TransferFields.decode v
    toTokenFields := ← TokenFields.decode v
    toAmmFields := ← AmmFields.decode v
    toNftFields := ← NftFields.decode v
    toShieldedFields := ← ShieldedFields.decode v
    toGovernanceFields := ← GovernanceFields.decode v
    toAllowanceFields := ← AllowanceFields.decode v
    toContractFields := ← ContractFields.decode v
    toMultisigFields := ← MultisigFields.decode v }

end Decode

/-! ## The flat format -/

section Derive

/-- The fee of a call for one unit of gas. -/
def contractGasPriceXrge : Float := 0.000001

def contractDeployFeeXrge : Float := 10.0

/-- The gas of a call that does not name a limit. -/
def defaultFuelLimit : UInt64 := 10000000

def makePoolId (tokenA tokenB : String) : String :=
  if compare tokenA tokenB = .lt then tokenA ++ "-" ++ tokenB else tokenB ++ "-" ++ tokenA

variable (L : Libraries)

/-- The address of a deployment: deployer, nonce and code are what its signer signs. -/
def contractAddressV2 (deployer nonce : String) (wasm : List UInt8) : String :=
  hexEncode ((L.sha256 (Json.utf8 "rougechain/contract/v2".toList ++
    (Json.utf8 deployer.toList ++ 0 :: (Json.utf8 nonce.toList ++ 0 :: L.sha256 wasm)))).take 20)

/-- Whether a token to be created may be minted later, and up to which supply. -/
def deriveMintFields (p : Json.Value) : Except String (Option Bool × Option UInt64) := do
  let mintable ← match p.get "mintable" with
    | none | some .null => pure false
    | some (.bool b) => pure b
    | some _ => throw "mintable must be a boolean"
  let maxSupply ← match p.get "max_supply" with
    | none | some .null => pure none
    | some v => some <$> ofOption "max_supply must be a non-negative integer" v.asU64
  match maxSupply with
  | none => pure ()
  | some max =>
    require (mintable = true) "max_supply requires mintable: true"
    let initial := u64Or p "initial_supply"
    require (initial ≤ max) s!"max_supply {max} is below initial_supply {initial}"
  return (if mintable then some true else none, maxSupply)

def isSymbolChar (c : Char) : Bool := c.isAlphanum || c == '_' || c == '-'

/-- What a call pays with, if it does. -/
def parseAttach (p : Json.Value) : Except String (Option (String × UInt64)) :=
  match p.get "attach" with
  | none | some .null => return none
  | some a => do
    let symbol ← ofOption "attach.symbol must be a token symbol"
      ((((a.get "symbol").bind Json.Value.asStr).map fun s =>
        L.toUppercase (Text.trim Text.isWhitespace s)).filter fun s =>
          s != "" && s.utf8ByteSize ≤ 32 && s.toList.all isSymbolChar)
    let amount ← ofOption
      "attach.amount must be a positive integer (quanta for XRGE, raw units for tokens)"
      (((a.get "amount").bind Json.Value.asU64).filter fun n => 0 < n)
    return some (symbol, amount)

/-- The payload and the fee of a transaction of this type with the flat payload `p`. -/
def derive (txType : String) (p : Json.Value) (tokenMinting : Bool) :
    Except String (TxPayload × Float) :=
  match TxKind.ofName txType with
  | .transfer =>
    let token := (optStr p "token").getD "XRGE"
    return ({
      toPubKeyHex := some (strOr p "to")
      amount := some (f64AsU64 ((optF64 p "amount").getD 0))
      tokenName := some token
      tokenSymbol := if token != "XRGE" then some token else none }, 1.0)
  | .createToken => do
    let (tokenMintable, tokenMaxSupply) ←
      if tokenMinting then deriveMintFields p else pure (none, none)
    return ({
      tokenName := some (strOr p "token_name")
      tokenSymbol := some (strOr p "token_symbol")
      tokenDecimals := some 18
      tokenTotalSupply := some (u64Or p "initial_supply")
      metadataImage := optStr p "image"
      metadataDescription := optStr p "description"
      tokenMintable
      tokenMaxSupply }, 100.0)
  | .mintTokens => return ({
      tokenSymbol := some (strOr p "token_symbol")
      tokenTotalSupply := some (u64Or p "amount") }, 1.0)
  | .approve => return ({
      spenderPubKey := some (strOr p "spender")
      tokenSymbol := some (strOr p "token_symbol")
      allowanceAmount := some (u64Or p "amount") }, 1.0)
  | .transferFrom => return ({
      ownerPubKey := some (strOr p "owner")
      toPubKeyHex := some (strOr p "to")
      tokenSymbol := some (strOr p "token_symbol")
      amount := some (u64Or p "amount") }, 1.0)
  | .createPool =>
    let a := strOr p "token_a"
    let b := strOr p "token_b"
    return ({
      poolId := some (makePoolId a b)
      tokenASymbol := some a
      tokenBSymbol := some b
      amountA := some (u64Or p "amount_a")
      amountB := some (u64Or p "amount_b") }, 10.0)
  | .addLiquidity => return ({
      poolId := some (strOr p "pool_id")
      amountA := some (u64Or p "amount_a")
      amountB := some (u64Or p "amount_b") }, 1.0)
  | .removeLiquidity => return ({
      poolId := some (strOr p "pool_id")
      lpAmount := some (u64Or p "lp_amount") }, 1.0)
  | .swap =>
    let i := strOr p "token_in"
    let o := strOr p "token_out"
    let amountIn := u64Or p "amount_in"
    return ({
      amount := some amountIn
      poolId := some (makePoolId i o)
      tokenASymbol := some i
      tokenBSymbol := some o
      amountA := some amountIn
      minAmountOut := some (u64Or p "min_amount_out") }, 1.0)
  | .stake | .unstake => return ({ amount := some (u64Or p "amount") }, 1.0)
  | .nftCreateCollection => return ({
      nftCollectionSymbol := some (strOr p "symbol")
      nftCollectionName := some (strOr p "name")
      nftDescription := optStr p "description"
      nftImage := optStr p "image"
      nftMaxSupply := optU64 p "maxSupply"
      nftRoyaltyBps := (optU64 p "royaltyBps").map UInt64.toUInt16
      nftRoyaltyRecipient := ((optStr p "royaltyRecipient").map
        (Text.trim Text.isWhitespace)).filter fun s => s != ""
      nftPublicMint := optBool p "publicMint"
      nftMintPrice := optF64 p "mintPrice"
      nftTokenGateSymbol := optStr p "tokenGateSymbol"
      nftTokenGateAmount := optF64 p "tokenGateAmount"
      nftDiscountPct := (optU64 p "discountPct").map UInt64.toUInt32 }, 50.0)
  | .nftMint => return ({
      nftCollectionId := some (strOr p "collectionId")
      nftTokenName := some (strOr p "name")
      nftMetadataUri := optStr p "metadataUri"
      nftAttributes := p.get "attributes" }, 5.0)
  | .nftBatchMint =>
    let names := (strArr p "names").getD []
    return ({
      nftCollectionId := some (strOr p "collectionId")
      nftBatchNames := some names
      nftBatchUris := strArr p "uris"
      nftBatchAttributes := (p.get "attributes").bind Json.Value.asArray },
      5.0 * natAsF64 names.length)
  | .nftTransfer => return ({
      nftCollectionId := some (strOr p "collectionId")
      nftTokenId := some (u64Or p "tokenId")
      toPubKeyHex := some (strOr p "to")
      amount := optU64 p "salePrice" }, 1.0)
  | .nftBurn => return ({
      nftCollectionId := some (strOr p "collectionId")
      nftTokenId := some (u64Or p "tokenId") }, 0.1)
  | .nftLock => return ({
      nftCollectionId := some (strOr p "collectionId")
      nftTokenId := some (u64Or p "tokenId")
      nftLocked := some ((optBool p "locked").getD true) }, 0.1)
  | .nftFreezeCollection => return ({
      nftCollectionId := some (strOr p "collectionId")
      nftFrozen := some ((optBool p "frozen").getD true) }, 0.1)
  | .shield => return ({
      shieldedCommitment := some (strOr p "commitment")
      shieldedValue := some (u64Or p "amount") }, 1.0)
  | .shieldedTransfer => return ({
      shieldedNullifiers := some (strVec p "nullifiers")
      shieldedOutputCommitments := some (strVec p "output_commitments")
      shieldedProof := some (strOr p "proof")
      shieldedFee := some (u64Or p "fee") }, 1.0)
  | .unshield => return ({
      shieldedNullifiers := some (strVec p "nullifiers")
      shieldedValue := some (u64Or p "amount")
      shieldedProof := some (strOr p "proof") }, 1.0)
  | .contractCall => do
    let gas := (optU64 p "gasLimit").getD defaultFuelLimit
    let attach ← parseAttach L p
    return ({
      contractAddr := some (strOr p "contractAddr")
      contractMethod := some (strOr p "method")
      contractArgs := (p.get "args").filter fun v => !v.isNull
      contractGasLimit := some gas
      contractAttachSymbol := attach.map Prod.fst
      contractAttachAmount := attach.map Prod.snd }, gas.toFloat * contractGasPriceXrge)
  | .contractDeploy =>
    let wasmB64 := strOr p "wasm"
    let wasm := (L.base64Decode wasmB64).getD []
    return ({
      contractAddr := some (contractAddressV2 L (strOr p "from") (strOr p "nonce") wasm)
      contractWasm := some wasmB64
      amount := some (.ofNat wasm.length) }, contractDeployFeeXrge)
  | _ => throw s!"'{txType}' is not a signed-payload transaction type"

end Derive

/-! ## The check -/

section Verify

/-- Whether the payload holds the type and the payload of its transaction. -/
def isCliEnvelope (p : Json.Value) : Bool :=
  (p.get "payload").any Json.Value.isObject && (p.get "tx_type").any Json.Value.isString

variable (L : Libraries)

/-- The check of an envelope: everything is inside the signed text. -/
def verifyEnvelope (tx : TxV1) (p : Json.Value) (shieldV2 : Bool) : Except String Unit := do
  require ((p.member "tx_type").asStr = some tx.txType)
    "signed envelope tx_type does not match"
  require (optU64 p "nonce" = some tx.nonce) "signed envelope nonce does not match"
  require ((optF64 p "fee" == some tx.fee) = true) "signed envelope fee does not match"
  let payload ← ofOption
    ("signed envelope payload: " ++ L.payloadError (p.member "payload"))
    (TxPayload.decode (p.member "payload"))
  -- before activation the two fields do not exist
  let payload :=
    if shieldV2 then payload else { payload with shieldV2Body := none, shieldV2Proof := none }
  require ((tx.payload == payload) = true)
    s!"{tx.txType} payload does not match its signed envelope"

/-- The check of a flat payload. -/
def verifyFlat (tx : TxV1) (p : Json.Value) (tokenMinting : Bool) : Except String Unit := do
  let (payload, fee) ← derive L tx.txType p tokenMinting
  require ((tx.payload == payload) = true)
    s!"{tx.txType} payload does not match its signed_payload"
  require ((tx.fee == fee) = true)
    (s!"{tx.txType} fee {L.showFloat tx.fee} does not match the fee bound to its signed_payload " ++
      s!"({L.showFloat fee})")

def verifyBinding (tx : TxV1) (tokenMinting shieldV2 : Bool) : Except String Unit :=
  match tx.signedPayload with
  | none => return ()
  | some sp => do
    let p ← ofOption s!"signed_payload is not valid JSON: {L.syntaxError sp}"
      (Json.read L.readFloat sp)
    require (p.isObject = true) "signed_payload is not a JSON object"
    require (tx.version = 1) s!"signed-payload tx must be version 1, got {tx.version}"
    require (∀ signer ∈ optStr p "from", signer = tx.fromPubKey)
      "signed_payload 'from' does not match from_pub_key"
    if isCliEnvelope p then verifyEnvelope L tx p shieldV2 else verifyFlat L tx p tokenMinting

/-- The check for a transaction of the block at `height`. -/
def verifyV2BindingAt (C : Config) (tx : TxV1) (height : UInt64) : Except String Unit :=
  verifyBinding C.toLibraries tx (activeAt C.upgrades.tokenMinting height)
    (activeAt C.upgrades.shieldV2 height)

end Verify

/-! ## Equality of payloads -/

section Equality

deriving instance ReflBEq, LawfulBEq for TransferFields, TokenFields, AmmFields, ShieldedFields,
  AllowanceFields

set_option synthInstance.maxSize 256 in
instance : PartialEquivBEq NftFields :=
  .of_map (fun p => (p.nftCollectionSymbol, p.nftCollectionName, p.nftCollectionId,
    p.nftDescription, p.nftImage, p.nftMaxSupply, p.nftRoyaltyBps, p.nftRoyaltyRecipient,
    p.nftTokenId, p.nftTokenName, p.nftMetadataUri, p.nftAttributes, p.nftLocked, p.nftPublicMint,
    p.nftMintPrice, p.nftTokenGateSymbol, p.nftTokenGateAmount, p.nftDiscountPct, p.nftFrozen,
    p.nftBatchNames, p.nftBatchUris, p.nftBatchAttributes)) fun _ _ => rfl

instance : PartialEquivBEq GovernanceFields :=
  .of_map (fun p => (p.lockUntilHeight, p.lockId, p.stakingPoolId, p.stakingRewardRate,
    p.proposalId, p.proposalTitle, p.proposalDescription, p.voteOption, p.proposalEndHeight,
    p.proposalType, p.proposalActionPayload, p.proposalQuorum, p.proposalTimelockBlocks,
    p.delegateTo)) fun _ _ => rfl

instance : PartialEquivBEq ContractFields :=
  .of_map (fun p => (p.contractWasm, p.contractAddr, p.contractMethod, p.contractArgs,
    p.contractGasLimit, p.contractAttachSymbol, p.contractAttachAmount)) fun _ _ => rfl

instance : PartialEquivBEq MultisigFields :=
  .of_map (fun p => (p.multisigWalletId, p.multisigSigners, p.multisigThreshold, p.multisigLabel,
    p.multisigProposalId, p.multisigProposalTxType, p.multisigProposalPayload,
    p.multisigProposalFee, p.multisigApprovalSig)) fun _ _ => rfl

instance : PartialEquivBEq TxPayload :=
  .of_map (fun p => (p.toTransferFields, p.toTokenFields, p.toAmmFields, p.toNftFields,
    p.toShieldedFields, p.toGovernanceFields, p.toAllowanceFields, p.toContractFields,
    p.toMultisigFields)) fun _ _ => rfl

end Equality

/-! ## What a signed payload decides -/

section Decides

/-- Whether the text is an envelope. -/
def isEnvelopeText (L : Libraries) (sp : String) : Bool :=
  (Json.read L.readFloat sp).any isCliEnvelope

/-- What an envelope says of the transaction that carries it. -/
structure EnvelopeOf (p : Json.Value) (payload : TxPayload) (tx : TxV1) : Prop where
  txType : (p.member "tx_type").asStr = some tx.txType
  nonce : optU64 p "nonce" = some tx.nonce
  fee : (optF64 p "fee" == some tx.fee) = true
  payload : (tx.payload == payload) = true

variable {L : Libraries} {tx t₁ t₂ : TxV1} {p : Json.Value} {tokenMinting shieldV2 : Bool}

theorem verifyEnvelope_eq_ok (h : verifyEnvelope L tx p shieldV2 = .ok ()) :
    ∃ payload, TxPayload.decode (p.member "payload") = some payload ∧
      EnvelopeOf p (if shieldV2 then payload
        else { payload with shieldV2Body := none, shieldV2Proof := none }) tx := by
  obtain ⟨_, htype, h⟩ := bind_eq_ok.1 h
  obtain ⟨_, hnonce, h⟩ := bind_eq_ok.1 h
  obtain ⟨_, hfee, h⟩ := bind_eq_ok.1 h
  obtain ⟨payload, hpayload, h⟩ := bind_eq_ok.1 h
  exact ⟨payload, ofOption_eq_ok.1 hpayload,
    require_eq_ok.1 htype, require_eq_ok.1 hnonce,
    require_eq_ok.1 hfee, require_eq_ok.1 h⟩

theorem verifyFlat_eq_ok (h : verifyFlat L tx p tokenMinting = .ok ()) :
    ∃ payload fee, derive L tx.txType p tokenMinting = .ok (payload, fee) ∧
      (tx.payload == payload) = true ∧ (tx.fee == fee) = true := by
  obtain ⟨⟨payload, fee⟩, hderive, h⟩ := bind_eq_ok.1 h
  obtain ⟨_, hpayload, h⟩ := bind_eq_ok.1 h
  exact ⟨payload, fee, hderive, require_eq_ok.1 hpayload, require_eq_ok.1 h⟩

theorem verifyBinding_eq_ok {sp : String} (hsp : tx.signedPayload = some sp)
    (h : verifyBinding L tx tokenMinting shieldV2 = .ok ()) :
    ∃ p, Json.read L.readFloat sp = some p ∧ tx.version = 1 ∧
      if isCliEnvelope p then verifyEnvelope L tx p shieldV2 = .ok ()
      else verifyFlat L tx p tokenMinting = .ok () := by
  rw [verifyBinding, hsp] at h
  obtain ⟨p, hp, h⟩ := bind_eq_ok.1 h
  obtain ⟨_, _, h⟩ := bind_eq_ok.1 h
  obtain ⟨_, hversion, h⟩ := bind_eq_ok.1 h
  obtain ⟨_, _, h⟩ := bind_eq_ok.1 h
  refine ⟨p, ofOption_eq_ok.1 hp, require_eq_ok.1 hversion, ?_⟩
  split <;> simp_all

/-- What is compared with one thing is compared with each other. -/
theorem beq_of_beq {α : Type} [BEq α] [PartialEquivBEq α] {a b c : α} (hab : (a == c) = true)
    (hbc : (b == c) = true) : (a == b) = true :=
  PartialEquivBEq.trans hab (PartialEquivBEq.symm hbc)

/-- An envelope decides its transaction. -/
theorem EnvelopeOf.agree {payload : TxPayload} (h₁ : EnvelopeOf p payload t₁)
    (h₂ : EnvelopeOf p payload t₂) : t₁.txType = t₂.txType ∧ (t₁.payload == t₂.payload) = true ∧
      (t₁.fee == t₂.fee) = true ∧ t₁.nonce = t₂.nonce := by
  have hfee : (some t₁.fee == some t₂.fee) = true :=
    PartialEquivBEq.trans (PartialEquivBEq.symm h₁.fee) h₂.fee
  exact ⟨Option.some.inj (h₁.txType.symm.trans h₂.txType), beq_of_beq h₁.payload h₂.payload,
    by simpa using hfee, Option.some.inj (h₁.nonce.symm.trans h₂.nonce)⟩

/-- Two transactions that are bound to one signed payload agree in all that is executed, and in
    the nonce unless the payload is flat, exactly if it is an envelope or they are of one type. -/
theorem binding_decides (C : Config) (height : UInt64) (t₁ t₂ : TxV1) (sp : String)
    (hsp₁ : t₁.signedPayload = some sp) (hsp₂ : t₂.signedPayload = some sp)
    (h₁ : verifyV2BindingAt C t₁ height = .ok ()) (h₂ : verifyV2BindingAt C t₂ height = .ok ()) :
    (t₁.txType = t₂.txType ∧ t₁.version = t₂.version ∧ (t₁.payload == t₂.payload) = true ∧
      (t₁.fee == t₂.fee) = true ∧
      (isEnvelopeText C.toLibraries sp = true → t₁.nonce = t₂.nonce)) ↔
    (isEnvelopeText C.toLibraries sp = true ∨ t₁.txType = t₂.txType) := by
  obtain ⟨p, hp, hversion₁, h₁⟩ := verifyBinding_eq_ok hsp₁ h₁
  obtain ⟨p', hp', hversion₂, h₂⟩ := verifyBinding_eq_ok hsp₂ h₂
  obtain rfl : p = p' := Option.some.inj (hp.symm.trans hp')
  have hversion : t₁.version = t₂.version := hversion₁.trans hversion₂.symm
  have htext : isEnvelopeText C.toLibraries sp = isCliEnvelope p := by
    rw [isEnvelopeText, hp, Option.any_some]
  rw [htext]
  constructor
  · intro h
    exact .inr h.1
  · intro h
    by_cases henv : isCliEnvelope p = true
    · rw [if_pos henv] at h₁ h₂
      obtain ⟨payload, hpayload, h₁⟩ := verifyEnvelope_eq_ok h₁
      obtain ⟨payload', hpayload', h₂⟩ := verifyEnvelope_eq_ok h₂
      obtain rfl : payload = payload' := Option.some.inj (hpayload.symm.trans hpayload')
      obtain ⟨htype, hpay, hfee, hnonce⟩ := h₁.agree h₂
      exact ⟨htype, hversion, hpay, hfee, fun _ => hnonce⟩
    · -- the flat text decides the fields once the type is known
      rw [if_neg henv] at h₁ h₂
      have htype := h.resolve_left henv
      obtain ⟨payload, fee, hderive, hpay₁, hfee₁⟩ := verifyFlat_eq_ok h₁
      obtain ⟨payload', fee', hderive', hpay₂, hfee₂⟩ := verifyFlat_eq_ok h₂
      rw [← htype, hderive] at hderive'
      obtain ⟨rfl, rfl⟩ := Prod.mk.inj (Except.ok.inj hderive')
      exact ⟨htype, hversion, beq_of_beq hpay₁ hpay₂, beq_of_beq hfee₁ hfee₂,
        fun h => absurd h henv⟩

end Decides

/-- Reads back a float that is written by its bits. -/
def readBits : List Char → Option Float
  | '.' :: digits => some (.ofBits (.ofNat (Nat.ofDigitChars 10 digits 0)))
  | _ => none

/-- A signature of the local chain, under any key: the end of the message. -/
def localSign (message : List UInt8) : List UInt8 :=
  (message.reverse ++ List.replicate sigLen 0).take sigLen

/-- The settings of a local chain. -/
def localConfig : Config where
  toEnv := localEnv
  readFloat := readBits
  syntaxError := fun _ => "expected value"
  payloadError := fun _ => "invalid type"
  showFloat := fun x => .ofList (Json.bitsText x)
  base64Decode := fun _ => none
  hexError := fun _ => "Odd number of digits"
  verifies := fun _ message sig => some (sig == localSign message)

/-- A transaction of the flat format. -/
def flatTx (kind : TxKind) (nonce : UInt64) (sp : String) (payload : TxPayload) : TxV1 :=
  { localTx kind "alice" payload with nonce, fee := 1.0, signedPayload := some sp }

/-- What a client signs to stake 5. -/
def stakeText : String := "\x7b\"from\":\"alice\",\"amount\":5\x7d"

theorem binding_decides_stake :
    (flatTx .stake 1 stakeText { amount := some 5 }).txType =
      (flatTx .stake 2 stakeText { amount := some 5 }).txType :=
  ((binding_decides localConfig 0 (flatTx .stake 1 stakeText { amount := some 5 })
    (flatTx .stake 2 stakeText { amount := some 5 }) stakeText rfl rfl
    (by decide +kernel) (by decide +kernel)).2 (.inr rfl)).1

/-- One signed text is bound to a stake and to an unstake. -/
theorem bound_as_stake_and_unstake :
    verifyV2BindingAt localConfig (flatTx .stake 1 stakeText { amount := some 5 }) 0 = .ok () ∧
    verifyV2BindingAt localConfig (flatTx .unstake 1 stakeText { amount := some 5 }) 0 = .ok () ∧
    (flatTx .stake 1 stakeText { amount := some 5 }).txType ≠
      (flatTx .unstake 1 stakeText { amount := some 5 }).txType := by
  decide +kernel

end RougeChain.Node
