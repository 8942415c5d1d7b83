import RougeChain.Library.Basic
import RougeChain.Library.GreedyRotation
import RougeChain.Library.Lines
import RougeChain.Library.Links
import RougeChain.Library.LockedVoting
import RougeChain.Library.Runs
import RougeChain.Library.Streams
import RougeChain.Library.Files
import RougeChain.Library.Floats
import RougeChain.Consensus.Types
import RougeChain.Consensus.SignedText
import RougeChain.Consensus.Arith
import RougeChain.Consensus.Schedule
import RougeChain.Consensus.Reweight
import RougeChain.Consensus.Block
import RougeChain.Consensus.Ledger
import RougeChain.Consensus.Supply
import RougeChain.Consensus.Steps
import RougeChain.Consensus.Tombstones
import RougeChain.Consensus.Slashing
import RougeChain.Consensus.Rewards
import RougeChain.Consensus.Jailing
import RougeChain.Consensus.Slashable
import RougeChain.Consensus.Machine
import RougeChain.Consensus.Justified
import RougeChain.Consensus.Discipline
import RougeChain.Consensus.Changes
import RougeChain.Consensus.Restart
import RougeChain.Consensus.Signing
import RougeChain.Consensus.Passes
import RougeChain.Consensus.Tallies
import RougeChain.Consensus.Agreement
import RougeChain.Shield.Reference
import RougeChain.Shield.Pool
import RougeChain.Shield.Frontier
import RougeChain.Shield.Sparse
import RougeChain.Shield.Atomic
import RougeChain.Bridge.ClaimStore
import RougeChain.Bridge.DepositAddresses
import RougeChain.Library.Text
import RougeChain.Library.Windows
import RougeChain.Bridge.BtcRelayer
import RougeChain.Bridge.BtcPayout
import RougeChain.Bridge.Withdrawals
import RougeChain.Bridge.Settlement
import RougeChain.Bridge.Vault
import RougeChain.Bridge.Payouts
import RougeChain.Bridge.EvmRelayer
import RougeChain.Bridge.Refunds
import RougeChain.Library.Json
import RougeChain.Library.JsonText
import RougeChain.Library.JsonRead
import RougeChain.Node.Types
import RougeChain.Node.Validators
import RougeChain.Finality.Journal
import RougeChain.Finality.Verifier
import RougeChain.Finality.Replay
import RougeChain.Library.Accounts
import RougeChain.Node.Accounts
import RougeChain.Node.Encoding
import RougeChain.Node.Binding
import RougeChain.Node.ChainBinding
import RougeChain.Node.Nft
import RougeChain.Node.Rollup
import RougeChain.Node.StateRoot
import RougeChain.Node.Amm
import RougeChain.Node.AmmLedger
import RougeChain.Contracts.Staking
import RougeChain.Node.TokenMint
import RougeChain.Library.BreadthFirst
import RougeChain.Node.Routes
import RougeChain.Node.AmmTotal
import RougeChain.Library.Changes
import RougeChain.Library.Frontier
import RougeChain.Library.InPlace
import RougeChain.Library.Bytes
import RougeChain.Vm.Storage
import RougeChain.Node.Multisig
import RougeChain.Node.ShieldV2
import RougeChain.Wallet.Body
import RougeChain.Library.Canonical
import RougeChain.Finality.VoteBook
import RougeChain.Finality.Snapshot
import RougeChain.Finality.Commit
import RougeChain.Node.Units
import RougeChain.Node.Fees
import RougeChain.Node.Integers
import RougeChain.Bridge.BtcDeposit
import RougeChain.Shield.Store
