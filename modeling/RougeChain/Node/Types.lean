import RougeChain.Library.Json
import RougeChain.Library.Basic

/-!
# Transactions, blocks and the upgrade schedule

The wire types of the node: a transaction with its payload, a block with its
header, and the heights from which the rules of each upgrade apply. Amounts,
heights and times keep their widths, fees and prices are floats.

A payload has one optional field for everything that some type of transaction
reads; the fields are grouped here by what they are for. `==` on payloads is the
derived equality of the source: field by field, floats compared as floats.
-/

namespace RougeChain.Node

open Std (ExtTreeMap)

/-- An unsigned integer of 128 bits; its operations wrap. -/
abbrev U128 := BitVec 128

/-! ## Payloads -/

structure TransferFields where
  toPubKeyHex : Option String := none
  amount : Option UInt64 := none
  faucet : Option Bool := none
  targetPubKey : Option String := none
  reason : Option String := none
  deriving BEq

/-- Token creation, and the metadata that goes with it. -/
structure TokenFields where
  tokenName : Option String := none
  tokenSymbol : Option String := none
  tokenDecimals : Option UInt8 := none
  tokenTotalSupply : Option UInt64 := none
  metadataImage : Option String := none
  metadataDescription : Option String := none
  metadataWebsite : Option String := none
  metadataTwitter : Option String := none
  metadataDiscord : Option String := none
  tokenMintable : Option Bool := none
  tokenMaxSupply : Option UInt64 := none
  deriving BEq

/-- Pools and swaps, and the address a bridge withdrawal pays to. -/
structure AmmFields where
  poolId : Option String := none
  tokenASymbol : Option String := none
  tokenBSymbol : Option String := none
  amountA : Option UInt64 := none
  amountB : Option UInt64 := none
  minAmountOut : Option UInt64 := none
  swapPath : Option (List String) := none
  lpAmount : Option UInt64 := none
  evmAddress : Option String := none
  limitOrderId : Option String := none
  limitOrderExpires : Option UInt64 := none
  deriving BEq

structure NftFields where
  nftCollectionSymbol : Option String := none
  nftCollectionName : Option String := none
  nftCollectionId : Option String := none
  nftDescription : Option String := none
  nftImage : Option String := none
  nftMaxSupply : Option UInt64 := none
  nftRoyaltyBps : Option UInt16 := none
  nftRoyaltyRecipient : Option String := none
  nftTokenId : Option UInt64 := none
  nftTokenName : Option String := none
  nftMetadataUri : Option String := none
  nftAttributes : Option Json.Value := none
  nftLocked : Option Bool := none
  nftPublicMint : Option Bool := none
  nftMintPrice : Option Float := none
  nftTokenGateSymbol : Option String := none
  nftTokenGateAmount : Option Float := none
  nftDiscountPct : Option UInt32 := none
  nftFrozen : Option Bool := none
  nftBatchNames : Option (List String) := none
  nftBatchUris : Option (List String) := none
  nftBatchAttributes : Option (List Json.Value) := none
  deriving BEq

/-- The two shielded pools. -/
structure ShieldedFields where
  shieldedNullifiers : Option (List String) := none
  shieldedOutputCommitments : Option (List String) := none
  shieldedProof : Option String := none
  shieldedFee : Option UInt64 := none
  shieldedCommitment : Option String := none
  shieldedValue : Option UInt64 := none
  shieldedRandomness : Option String := none
  shieldV2Body : Option String := none
  shieldV2Proof : Option String := none
  deriving BEq

/-- Token locks, token staking pools and governance. -/
structure GovernanceFields where
  lockUntilHeight : Option UInt64 := none
  lockId : Option String := none
  stakingPoolId : Option String := none
  stakingRewardRate : Option UInt64 := none
  proposalId : Option String := none
  proposalTitle : Option String := none
  proposalDescription : Option String := none
  voteOption : Option String := none
  proposalEndHeight : Option UInt64 := none
  proposalType : Option String := none
  proposalActionPayload : Option Json.Value := none
  proposalQuorum : Option UInt64 := none
  proposalTimelockBlocks : Option UInt64 := none
  delegateTo : Option String := none
  deriving BEq

/-- Allowances and airdrops. -/
structure AllowanceFields where
  spenderPubKey : Option String := none
  allowanceAmount : Option UInt64 := none
  ownerPubKey : Option String := none
  airdropRecipients : Option (List String) := none
  airdropAmounts : Option (List UInt64) := none
  deriving BEq

structure ContractFields where
  contractWasm : Option String := none
  contractAddr : Option String := none
  contractMethod : Option String := none
  contractArgs : Option Json.Value := none
  contractGasLimit : Option UInt64 := none
  contractAttachSymbol : Option String := none
  contractAttachAmount : Option UInt64 := none
  deriving BEq

structure MultisigFields where
  multisigWalletId : Option String := none
  multisigSigners : Option (List String) := none
  multisigThreshold : Option UInt32 := none
  multisigLabel : Option String := none
  multisigProposalId : Option String := none
  multisigProposalTxType : Option String := none
  multisigProposalPayload : Option Json.Value := none
  multisigProposalFee : Option Float := none
  multisigApprovalSig : Option String := none
  deriving BEq

structure TxPayload extends TransferFields, TokenFields, AmmFields, NftFields, ShieldedFields,
    GovernanceFields, AllowanceFields, ContractFields, MultisigFields where
  deriving BEq

structure TxV1 where
  version : UInt32
  txType : String
  fromPubKey : String
  nonce : UInt64
  payload : TxPayload
  fee : Float
  sig : String
  signedPayload : Option String

/-! ## Types of transactions -/

/-- The types that block execution knows. -/
inductive TxKind where
  | transfer | stake | unstake | createToken | mintTokens | bridgeMint | bridgeWithdraw | slash
  | shield | unshield | shieldedTransfer
  | tokenLock | tokenUnlock | createStakingPool | tokenStake | tokenUnstake
  | createProposal | castVote | executeProposal | delegate | undelegate
  | tokenApprove | tokenTransferFrom | tokenAirdrop | approve | transferFrom
  | createPool | addLiquidity | removeLiquidity | swap
  | nftCreateCollection | nftMint | nftBatchMint | nftTransfer | nftBurn | nftLock
  | nftFreezeCollection
  | multisigCreate | multisigSubmit | multisigApprove
  | contractDeploy | contractCall
  | other
  deriving DecidableEq

namespace TxKind

/-- The name on the wire; `other` stands for all names that are not in the table. -/
def name : TxKind → String
  | transfer => "transfer"
  | stake => "stake"
  | unstake => "unstake"
  | createToken => "create_token"
  | mintTokens => "mint_tokens"
  | bridgeMint => "bridge_mint"
  | bridgeWithdraw => "bridge_withdraw"
  | slash => "slash"
  | shield => "shield"
  | unshield => "unshield"
  | shieldedTransfer => "shielded_transfer"
  | tokenLock => "token_lock"
  | tokenUnlock => "token_unlock"
  | createStakingPool => "create_staking_pool"
  | tokenStake => "token_stake"
  | tokenUnstake => "token_unstake"
  | createProposal => "create_proposal"
  | castVote => "cast_vote"
  | executeProposal => "execute_proposal"
  | delegate => "delegate"
  | undelegate => "undelegate"
  | tokenApprove => "token_approve"
  | tokenTransferFrom => "token_transfer_from"
  | tokenAirdrop => "token_airdrop"
  | approve => "approve"
  | transferFrom => "transfer_from"
  | createPool => "create_pool"
  | addLiquidity => "add_liquidity"
  | removeLiquidity => "remove_liquidity"
  | swap => "swap"
  | nftCreateCollection => "nft_create_collection"
  | nftMint => "nft_mint"
  | nftBatchMint => "nft_batch_mint"
  | nftTransfer => "nft_transfer"
  | nftBurn => "nft_burn"
  | nftLock => "nft_lock"
  | nftFreezeCollection => "nft_freeze_collection"
  | multisigCreate => "multisig_create"
  | multisigSubmit => "multisig_submit"
  | multisigApprove => "multisig_approve"
  | contractDeploy => "contract_deploy"
  | contractCall => "contract_call"
  | other => ""

def known : List TxKind :=
  [transfer, stake, unstake, createToken, mintTokens, bridgeMint, bridgeWithdraw, slash,
    shield, unshield, shieldedTransfer,
    tokenLock, tokenUnlock, createStakingPool, tokenStake, tokenUnstake,
    createProposal, castVote, executeProposal, delegate, undelegate,
    tokenApprove, tokenTransferFrom, tokenAirdrop, approve, transferFrom,
    createPool, addLiquidity, removeLiquidity, swap,
    nftCreateCollection, nftMint, nftBatchMint, nftTransfer, nftBurn, nftLock,
    nftFreezeCollection,
    multisigCreate, multisigSubmit, multisigApprove,
    contractDeploy, contractCall]

/-- The type with this name. -/
def ofName (s : String) : TxKind := (known.find? fun k => k.name == s).getD other

end TxKind

/-- The type of a transaction, as the `match`es of block execution see it. -/
def TxV1.kind (tx : TxV1) : TxKind := .ofName tx.txType

/-! ## Blocks -/

structure VoteMessage where
  voteType : String
  height : UInt64
  round : UInt32
  blockHash : String
  voterPubKey : String
  signature : String

/-- Precommit votes that prove a block final. -/
structure FinalityProof where
  height : UInt64
  blockHash : String
  totalStake : U128
  votingStake : U128
  quorumThreshold : U128
  precommitVotes : List VoteMessage
  createdAt : UInt64

structure BlockHeaderV1 where
  version : UInt32
  chainId : String
  height : UInt64
  time : UInt64
  prevHash : String
  txHash : String
  proposerPubKey : String
  stateRoot : Option String
  parentCommit : Option FinalityProof

structure BlockV1 where
  version : UInt32
  header : BlockHeaderV1
  txs : List TxV1
  proposerSig : String
  hash : String

/-! ## The upgrade schedule -/

/-- At `height` the stake of these validators goes back to their balances, once. -/
structure ValidatorRetirement where
  height : UInt64
  validators : List String

/-- The height from which each upgrade is in force, if it is scheduled. -/
structure UpgradeSchedule where
  txUniqueness : Option UInt64
  proposerSelection : Option UInt64
  finalityV2 : Option UInt64
  gameReady : Option UInt64
  gameReady2 : Option UInt64
  gameReady3 : Option UInt64
  payableCalls : Option UInt64
  tokenMinting : Option UInt64
  contractNftRoyalty : Option UInt64
  monetaryIntegrity : Option UInt64
  shieldV2 : Option UInt64
  chainIdBinding : Option UInt64
  contractChainId : Option UInt64
  ammIntegrity : Option UInt64
  faucetMint : Bool
  validatorRetirement : Option ValidatorRetirement

/-- Whether an upgrade scheduled for `activation` is in force at `height`. -/
def activeAt (activation : Option UInt64) (height : UInt64) : Bool :=
  activation.any fun a => a ≤ height

/-- The schedule of `rougechain-mainnet-1`, and of every other chain but the test network. -/
def mainnet : UpgradeSchedule where
  txUniqueness := some 90
  proposerSelection := some 100
  finalityV2 := some 150
  gameReady := some 150
  gameReady2 := some 160
  gameReady3 := some 170
  payableCalls := some 190
  tokenMinting := some 235
  contractNftRoyalty := some 235
  monetaryIntegrity := some 245
  shieldV2 := none
  chainIdBinding := none
  contractChainId := none
  ammIntegrity := some 260
  faucetMint := false
  validatorRetirement := none

end RougeChain.Node
