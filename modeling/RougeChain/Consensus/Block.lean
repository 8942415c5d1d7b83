import RougeChain.Consensus.Types

/-!
# Accounts, transactions and blocks

The data that a block carries. The id of a block is computed from its fields
(`Block.id`), as the constructor of the source does once and for all: the
header, the digest of the parent certificate, the id and fee of every
transaction, and the signature tags of every evidence item.
-/

namespace RougeChain.Consensus

open Std (TransOrd LawfulEqOrd TransCmp)

/-- A ledger account. -/
inductive Account
  | key (k : KeyId)
  | user (u : ℕ)
  | treasury
  | reserve
  deriving DecidableEq

namespace Account

/-- The variant in declaration order, and its content. -/
def rank : Account → ℕ × ℕ
  | .key k => (0, k)
  | .user u => (1, u)
  | .treasury => (2, 0)
  | .reserve => (3, 0)

instance : Ord Account := ⟨fun a b => compare a.rank b.rank⟩

instance : TransOrd Account := inferInstanceAs (TransCmp (compareOn Account.rank))

theorem rank_injective : Function.Injective rank := by
  intro a b h
  cases a <;> cases b <;> simp_all [rank]

instance : LawfulEqOrd Account where
  eq_of_compare h := rank_injective (LawfulEqOrd.eq_of_compare h)

end Account

/-- What a transaction does. -/
inductive TxKind
  | transfer (recipient : Account) (amount : ℕ)
  | stake (amount : ℕ)
  | unbond (amount : ℕ)
  | unjail
  | approve (candidate : KeyId)
  deriving DecidableEq

/-- A transaction; its id stands for the transaction hash. -/
structure Tx where
  id : ℕ
  sender : Account
  fee : ℕ
  kind : TxKind
  deriving DecidableEq

/-- The header fields that the consensus rules read. -/
structure Header where
  height : ℕ
  round : ℕ
  builder : KeyId
  timeMs : ℕ
  parent : BlockId
  deriving DecidableEq

/-- A block; `parentCert` is missing only directly above genesis. -/
structure Block where
  header : Header
  parentCert : Option CommitCert
  txs : List Tx
  evidence : List Evidence
  deriving DecidableEq

namespace Block

/-- The block hash. -/
def id (b : Block) : BlockId :=
  let hd := b.header
  let h := (((Hasher.new "block").u64 hd.height).u64 hd.round).u64 hd.builder
  let h := (h.u64 hd.timeMs).raw hd.parent.bytes
  let h := h.u64 ((b.parentCert.map CommitCert.digest).getD 0)
  let h := b.txs.foldl (fun h tx => (h.u64 tx.id).u128 tx.fee) h
  let h := h.u64 b.txs.length
  .ofHasher (b.evidence.foldl (fun h ev => (h.u64 ev.a.sig.tag).u64 ev.b.sig.tag) h)

/-- Neither transactions nor evidence. -/
def isEmpty (b : Block) : Bool := b.txs.isEmpty && b.evidence.isEmpty

end Block

end RougeChain.Consensus
