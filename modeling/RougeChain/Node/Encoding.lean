import RougeChain.Node.Accounts

/-!
# Encodings and hashes

The JSON of transactions, which is what is hashed and signed: the
fields in the order of their declaration, absent ones left out where the source
says so, and as `null` elsewhere. The hash of a transaction covers everything,
its identity only what its sender signed.
-/

namespace RougeChain.Node

open Json (Encode encode field shown compact utf8)

/-! ## Payloads -/

def TransferFields.fields (p : TransferFields) : List (String × Option Json.Value) :=
  [shown "to_pub_key_hex" p.toPubKeyHex, shown "amount" p.amount, shown "faucet" p.faucet,
    shown "target_pub_key" p.targetPubKey, shown "reason" p.reason]

def TokenFields.fields (p : TokenFields) : List (String × Option Json.Value) :=
  [shown "token_name" p.tokenName, shown "token_symbol" p.tokenSymbol,
    shown "token_decimals" p.tokenDecimals, shown "token_total_supply" p.tokenTotalSupply,
    shown "metadata_image" p.metadataImage, shown "metadata_description" p.metadataDescription,
    shown "metadata_website" p.metadataWebsite, shown "metadata_twitter" p.metadataTwitter,
    shown "metadata_discord" p.metadataDiscord]

def AmmFields.fields (p : AmmFields) : List (String × Option Json.Value) :=
  [shown "pool_id" p.poolId, shown "token_a_symbol" p.tokenASymbol,
    shown "token_b_symbol" p.tokenBSymbol, shown "amount_a" p.amountA, shown "amount_b" p.amountB,
    shown "min_amount_out" p.minAmountOut, shown "swap_path" p.swapPath,
    shown "lp_amount" p.lpAmount, shown "evm_address" p.evmAddress]

def NftFields.fields (p : NftFields) : List (String × Option Json.Value) :=
  [field "nft_collection_symbol" p.nftCollectionSymbol,
    field "nft_collection_name" p.nftCollectionName, field "nft_collection_id" p.nftCollectionId,
    field "nft_description" p.nftDescription, field "nft_image" p.nftImage,
    field "nft_max_supply" p.nftMaxSupply, field "nft_royalty_bps" p.nftRoyaltyBps,
    field "nft_royalty_recipient" p.nftRoyaltyRecipient, field "nft_token_id" p.nftTokenId,
    field "nft_token_name" p.nftTokenName, field "nft_metadata_uri" p.nftMetadataUri,
    field "nft_attributes" p.nftAttributes, field "nft_locked" p.nftLocked,
    shown "nft_public_mint" p.nftPublicMint, field "nft_mint_price" p.nftMintPrice,
    field "nft_token_gate_symbol" p.nftTokenGateSymbol,
    field "nft_token_gate_amount" p.nftTokenGateAmount, field "nft_discount_pct" p.nftDiscountPct,
    field "nft_frozen" p.nftFrozen, field "nft_batch_names" p.nftBatchNames,
    field "nft_batch_uris" p.nftBatchUris, field "nft_batch_attributes" p.nftBatchAttributes]

def ShieldedFields.fields (p : ShieldedFields) : List (String × Option Json.Value) :=
  [field "shielded_nullifiers" p.shieldedNullifiers,
    field "shielded_output_commitments" p.shieldedOutputCommitments,
    field "shielded_proof" p.shieldedProof, field "shielded_fee" p.shieldedFee,
    field "shielded_commitment" p.shieldedCommitment, field "shielded_value" p.shieldedValue,
    field "shielded_randomness" p.shieldedRandomness]

def GovernanceFields.fields (p : GovernanceFields) : List (String × Option Json.Value) :=
  [field "lock_until_height" p.lockUntilHeight, field "lock_id" p.lockId,
    field "staking_pool_id" p.stakingPoolId, field "staking_reward_rate" p.stakingRewardRate,
    field "proposal_id" p.proposalId, field "proposal_title" p.proposalTitle,
    field "proposal_description" p.proposalDescription, field "vote_option" p.voteOption,
    field "proposal_end_height" p.proposalEndHeight, field "proposal_type" p.proposalType,
    field "proposal_action_payload" p.proposalActionPayload,
    field "proposal_quorum" p.proposalQuorum,
    field "proposal_timelock_blocks" p.proposalTimelockBlocks, field "delegate_to" p.delegateTo]

def AllowanceFields.fields (p : AllowanceFields) : List (String × Option Json.Value) :=
  [field "spender_pub_key" p.spenderPubKey, field "allowance_amount" p.allowanceAmount,
    field "owner_pub_key" p.ownerPubKey, field "airdrop_recipients" p.airdropRecipients,
    field "airdrop_amounts" p.airdropAmounts]

def ContractFields.fields (p : ContractFields) : List (String × Option Json.Value) :=
  [field "contract_wasm" p.contractWasm, field "contract_addr" p.contractAddr,
    field "contract_method" p.contractMethod, field "contract_args" p.contractArgs,
    field "contract_gas_limit" p.contractGasLimit,
    field "contract_attach_symbol" p.contractAttachSymbol,
    field "contract_attach_amount" p.contractAttachAmount]

def MultisigFields.fields (p : MultisigFields) : List (String × Option Json.Value) :=
  [field "multisig_wallet_id" p.multisigWalletId, field "multisig_signers" p.multisigSigners,
    field "multisig_threshold" p.multisigThreshold, field "multisig_label" p.multisigLabel,
    field "multisig_proposal_id" p.multisigProposalId,
    field "multisig_proposal_tx_type" p.multisigProposalTxType,
    field "multisig_proposal_payload" p.multisigProposalPayload,
    field "multisig_proposal_fee" p.multisigProposalFee,
    field "multisig_approval_sig" p.multisigApprovalSig]

def AmmFields.laterFields (p : AmmFields) : List (String × Option Json.Value) :=
  [field "limit_order_id" p.limitOrderId, field "limit_order_expires" p.limitOrderExpires]

def TokenFields.laterFields (p : TokenFields) : List (String × Option Json.Value) :=
  [field "token_mintable" p.tokenMintable, field "token_max_supply" p.tokenMaxSupply]

def ShieldedFields.laterFields (p : ShieldedFields) : List (String × Option Json.Value) :=
  [field "shield_v2_body" p.shieldV2Body, field "shield_v2_proof" p.shieldV2Proof]

/-- The fields in the order of the source: what was added later stands at the end. -/
def TxPayload.fields (p : TxPayload) : List (String × Option Json.Value) :=
  p.toTransferFields.fields ++ (p.toTokenFields.fields ++ (p.toAmmFields.fields ++
    (p.toNftFields.fields ++ (p.toShieldedFields.fields ++ (p.toGovernanceFields.fields ++
    (p.toAllowanceFields.fields ++ (p.toContractFields.fields ++ (p.toMultisigFields.fields ++
    (p.toAmmFields.laterFields ++ (p.toTokenFields.laterFields ++
    p.toShieldedFields.laterFields))))))))))

instance : Encode TxPayload := ⟨fun p => .object (compact p.fields)⟩

/-! ## Transactions -/

/-- What the sender signs. -/
def TxV1.signable (tx : TxV1) : List (String × Option Json.Value) :=
  [field "version" (some tx.version), field "tx_type" (some tx.txType),
    field "from_pub_key" (some tx.fromPubKey), field "nonce" (some tx.nonce),
    field "payload" (some tx.payload), field "fee" (some tx.fee)]

def TxV1.fields (tx : TxV1) : List (String × Option Json.Value) :=
  tx.signable ++ [field "sig" (some tx.sig), field "signed_payload" tx.signedPayload]

instance : Encode TxV1 := ⟨fun tx => .object (compact tx.fields)⟩

section Hashes

variable (P : Platform)

/-- The bytes of the JSON of `a`. -/
def jsonBytes {α : Type} [Encode α] (a : α) : List UInt8 :=
  utf8 ((encode a).write P.floatText)

def encodeTxV1 (tx : TxV1) : List UInt8 := jsonBytes P tx

/-- Everything but the signature and the attached payload. -/
def encodeTxForSigning (tx : TxV1) : List UInt8 :=
  jsonBytes P (Json.Value.object (compact tx.signable))

/-- A big-endian integer of 64 bits. -/
def u64BeBytes (n : UInt64) : List UInt8 :=
  [56, 48, 40, 32, 24, 16, 8, 0].map fun k => UInt8.ofNat (n.toNat >>> k)

def chainBoundV1Domain : List UInt8 := utf8 "rougechain/tx-v1/chain".toList

/-- What a sender signs on a chain that binds signatures to its id. -/
def encodeTxForSigningChain (tx : TxV1) (chainId : String) : List UInt8 :=
  chainBoundV1Domain ++ 0 :: (u64BeBytes (.ofNat chainId.utf8ByteSize) ++
    (utf8 chainId.toList ++ encodeTxForSigning P tx))

def hexEncode (bytes : List UInt8) : String :=
  .ofList (bytes.flatMap fun b => [Nat.digitChar (b.toNat / 16), Nat.digitChar (b.toNat % 16)])

def computeSingleTxHash (tx : TxV1) : String := hexEncode (P.sha256 (encodeTxV1 P tx))

/-- The first 16 digits of the hash of a transaction. -/
def shortTxHash (tx : TxV1) : String := Text.slice 16 (computeSingleTxHash P tx)

/-- What a transaction is recognised by: the key and the signed payload, or the fields its sender
    signs. -/
def txIdentity (tx : TxV1) : String :=
  hexEncode (P.sha256 (match tx.signedPayload with
    | some sp =>
      let pk := (hexDecode tx.fromPubKey).getD (utf8 tx.fromPubKey.toList)
      2 :: (u64BeBytes (.ofNat pk.length) ++ (pk ++ utf8 sp.toList))
    | none => 1 :: encodeTxForSigning P tx))

end Hashes

/-! ## Hexadecimal texts -/

theorem hexValue_digitChar : ∀ d < 16, hexValue (Nat.digitChar d) = some d := by decide

theorem hexDecode_hexEncode (bytes : List UInt8) : hexDecode (hexEncode bytes) = some bytes := by
  rw [hexDecode, hexEncode, String.toList_ofList]
  induction bytes with
  | nil => rfl
  | cons b bytes ih =>
    have hlt := b.toNat_lt
    have hi := hexValue_digitChar (b.toNat / 16) (by omega)
    have lo := hexValue_digitChar (b.toNat % 16) (Nat.mod_lt _ (by decide))
    simp only [List.flatMap_cons, List.cons_append, List.nil_append, hexDecodeList, hi, lo, ih,
      Option.bind_eq_bind, Option.bind_some, Nat.div_add_mod, UInt8.ofNat_toNat, Option.pure_def]

theorem hexEncode_injective : Function.Injective hexEncode := by
  intro a b h
  have hab := congrArg hexDecode h
  rwa [hexDecode_hexEncode, hexDecode_hexEncode, Option.some.injEq] at hab

theorem digitChar_ne {c : Char} (hc : c ∉ "0123456789abcdef".toList) {n : ℕ} (hn : n < 16) :
    Nat.digitChar n ≠ c := by
  have hdigits : ∀ n < 16, Nat.digitChar n ∈ "0123456789abcdef".toList := by decide
  exact fun h => hc (h ▸ hdigits n hn)

theorem notMem_hexEncode {c : Char} (hc : c ∉ "0123456789abcdef".toList) (bytes : List UInt8) :
    c ∉ (hexEncode bytes).toList := by
  rw [hexEncode, String.toList_ofList, List.mem_flatMap]
  rintro ⟨b, -, hb⟩
  have hlt := b.toNat_lt
  rw [List.mem_pair] at hb
  rcases hb with hb | hb
  · exact digitChar_ne hc (by omega) hb.symm
  · exact digitChar_ne hc (by omega) hb.symm

end RougeChain.Node
