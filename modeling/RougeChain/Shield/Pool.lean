import RougeChain.Library.Basic
import RougeChain.Library.Runs
import RougeChain.Shield.Reference
import Mathlib.Data.List.DropRight

/-!
# The shielded pool

The consensus state of the pool and its rules: the append-only commitment tree kept as a frontier,
the checks of a block's transactions on a private copy of the state (`Pool.validateBlock`), and
the commit of a prepared block to the store (`Pool.commit`). The store is behind the class
`PoolStore`; `MemoryPoolStore` is the one kept in memory.

A block is prepared against the stored state, and may be committed later, when other blocks have
been prepared or committed in between. `PoolTrace.step` takes one such step, and keeps a record of
the blocks that were accepted.

* `validateTxs_ran`: what the loop over the transactions does to the private copy;
* `Pool.commit_changed`: what a commit that succeeds does to the store;
* `pool_invariants`: what holds of the store after any sequence of steps from the empty pool.
-/

open Std (ExtTreeMap)

open Fallible

namespace List

/-- Pushing to a list of the last `n` elements, and dropping the first of too many. -/
theorem rtake_concat {α : Type*} (l : List α) (x : α) {n : ℕ} (hn : 0 < n) :
    (l ++ [x]).rtake n =
      if n < (l.rtake n ++ [x]).length then (l.rtake n ++ [x]).drop 1 else l.rtake n ++ [x] := by
  rw [rtake, rtake, length_append, length_append, length_singleton, length_drop]
  split_ifs with h
  · have hl : n ≤ l.length := by omega
    rw [show l.length + 1 - n = l.length - n + 1 by omega, drop_append_of_le_length (by omega),
      drop_append_of_le_length (by rw [length_drop]; omega), drop_drop]
  · rw [show l.length - n = 0 by omega, show l.length + 1 - n = 0 by omega, drop_zero, drop_zero]

end List

namespace RougeChain.Shield

/-- Public data of 32 bytes: an encoded digest, or an output of SHA-256. -/
abbrev Bytes32 := Vector UInt8 32

def zeroBytes : Bytes32 := Vector.replicate 32 0

/-- The cap of the pool: 1,000,000 XRGE in quanta. -/
def poolCapQuanta : ℕ := 1000000 * 1000000000

/-- The number of roots that a transaction may name. -/
def anchorWindow : ℕ := 128

def maxTxPerBlock : ℕ := 8

def treeDepth : ℕ := 32

/-- Leaves of the commitment tree. -/
def maxNotes : UInt64 := 0x100000000

/-! ## Digests as bytes -/

/-- The little-endian word `i` of the bytes. -/
def word (b : Bytes32) (i : Fin 8) : ℕ :=
  b[4 * i.val].toNat + 2 ^ 8 * b[4 * i.val + 1].toNat + 2 ^ 16 * b[4 * i.val + 2].toNat +
    2 ^ 24 * b[4 * i.val + 3].toNat

/-- Strict: every word must be below the modulus. -/
def digestFromBytes (b : Bytes32) : Option Digest :=
  if ∀ i, word b i < modulus then some fun i => (word b i : Felt) else none

def digestToBytes (d : Digest) : Bytes32 :=
  Vector.ofFn fun k => .ofNat ((d ⟨k.val / 4, by omega⟩).val / 2 ^ (8 * (k.val % 4)))

/-! ## Transactions -/

inductive TxKind where
  | shield
  | transfer
  | unshield
  deriving Repr, DecidableEq

/-- The fields of a transaction that the pool's rules read. -/
structure PoolTx where
  kind : TxKind
  anchor : Bytes32
  nf : Vector Bytes32 2
  cmOut : Vector Bytes32 2
  vIn : UInt64
  vOut : UInt64
  fee : UInt64
  account : Bytes32
  deriving Repr, DecidableEq

/-- What the rest of the block has to do for one accepted transaction. -/
structure TxEffect where
  kind : TxKind
  account : Bytes32
  accountDebit : UInt64
  accountCredit : UInt64
  fee : UInt64
  deriving Repr, DecidableEq

namespace PoolTx

/-- The amounts fit the type. -/
def patternOk (tx : PoolTx) : Bool :=
  match tx.kind with
  | .shield => tx.vIn > 0 && tx.vOut == 0 && tx.fee ≤ tx.vIn
  | .transfer => tx.vIn == 0 && tx.vOut == 0
  | .unshield => tx.vIn == 0 && tx.vOut > 0

def effect (tx : PoolTx) : TxEffect where
  kind := tx.kind
  account := tx.account
  accountDebit := if tx.kind = .shield then tx.vIn else 0
  accountCredit := if tx.kind = .unshield then tx.vOut else 0
  fee := tx.fee

end PoolTx

/-! ## State -/

/-- The state of the pool other than the nullifier set and the leaves. -/
structure PoolState where
  poolTotal : ℕ
  noteCount : UInt64
  treeRoot : Bytes32
  frontier : Fin treeDepth → Bytes32
  nullifierCount : UInt64
  nullifierAcc : Bytes32
  window : List Bytes32
  deriving DecidableEq

/-- What a store holds besides the nullifier set and the leaves. -/
structure StoredPool where
  activationHeight : UInt64
  nextHeight : UInt64
  state : PoolState
  deriving DecidableEq

/-- Everything that one block changes. -/
structure PoolUpdate where
  activationHeight : UInt64
  nextHeight : UInt64
  state : PoolState
  nullifiers : List Bytes32
  firstLeaf : UInt64
  leaves : List Bytes32
  deriving DecidableEq

/-! ## The commitment tree -/

section Tree

variable (H : Poseidon2)

/-- The root of the empty subtree of height `l`. -/
def emptySubtree : ℕ → Digest
  | 0 => 0
  | l + 1 =>
    let e := emptySubtree l
    H.merge e e

def emptyTreeRoot : Bytes32 := digestToBytes (emptySubtree H treeDepth)

/-- The state before the first block. -/
def PoolState.genesis : PoolState where
  poolTotal := 0
  noteCount := 0
  treeRoot := emptyTreeRoot H
  frontier := fun _ => zeroBytes
  nullifierCount := 0
  nullifierAcc := zeroBytes
  window := [emptyTreeRoot H]

/-- The append-only tree as a frontier. -/
structure Tree where
  frontier : Fin treeDepth → Digest
  count : UInt64
  root : Digest

/-- Bit `l` of a count of leaves. -/
def countBit (count : UInt64) (l : Fin treeDepth) : UInt64 := (count >>> .ofNat l.val) &&& 1

/-- The path from the first empty leaf upward, for a tree that is not full. -/
def rootFromFrontier (frontier : Fin treeDepth → Digest) (count : UInt64) : Digest :=
  (List.finRange treeDepth).foldl (fun cur l =>
    if countBit count l = 1 then H.merge (frontier l) cur else H.merge cur (emptySubtree H l))
    (emptySubtree H 0)

/-- Joins `node` with the subtrees that wait for it, level by level; it stays at the first level
    where none waits. The last component says that there was no such level. -/
def carry (count : UInt64) :
    List (Fin treeDepth) → (Fin treeDepth → Digest) → Digest →
      (Fin treeDepth → Digest) × Digest × Bool
  | [], frontier, node => (frontier, node, true)
  | l :: ls, frontier, node =>
    if countBit count l = 0 then (Function.update frontier l node, node, false)
    else carry count ls (Function.update frontier l 0) (H.merge (frontier l) node)

namespace Tree

/-- Writes `leaf` at position `count`. -/
def append (t : Tree) (leaf : Digest) : Tree :=
  let (frontier, node, carriedOut) := carry H t.count (List.finRange treeDepth) t.frontier leaf
  let count := t.count + 1
  { frontier, count, root := if carriedOut then node else rootFromFrontier H frontier count }

end Tree

end Tree

/-! ## Refusals -/

/-- Why one transaction was refused. -/
inductive TxRefusal where
  | nonCanonicalDigest (name : String)
  | zeroCommitment
  | equalNullifiers
  | amountPattern
  | anchorNotInWindow
  | nullifierSpent
  | nullifierRepeatedInBlock
  | treeFull
  | poolCapExceeded
  | poolUnderflow
  deriving Repr, DecidableEq

structure StoreError where
  text : String
  deriving Repr, DecidableEq

inductive PoolError where
  | notInitialised
  | activationMismatch (stored requested : UInt64)
  | heightOutOfOrder (expected got : UInt64)
  | tooManyTransactions (count max : ℕ)
  | tx (index : ℕ) (reason : TxRefusal)
  | stalePreparation
  | corruptState (text : String)
  | store (e : StoreError)
  deriving Repr, DecidableEq

/-! ## Storage -/

/-- The storage that the pool needs. A commit that fails leaves the store as it was. -/
class PoolStore (S : Type) where
  load : S → Except StoreError (Option StoredPool)
  containsNullifier : S → Bytes32 → Except StoreError Bool
  commit : S → PoolUpdate → Except StoreError S

/-- The store in memory. -/
structure MemoryPoolStore where
  stored : Option StoredPool := none
  nullifierSet : Finset Bytes32 := ∅
  nullifierLog : List Bytes32 := []
  leaves : ExtTreeMap UInt64 Bytes32 := ∅

namespace MemoryPoolStore

def leaf (store : MemoryPoolStore) (position : UInt64) : Option Bytes32 := store.leaves[position]?

/-- Each nullifier must be new to the set, and to those before it. -/
def checkNullifiers (set : Finset Bytes32) (seen : Finset Bytes32) :
    List Bytes32 → Except StoreError Unit
  | [] => .ok ()
  | nf :: nfs => do
    require (nf ∉ set ∧ nf ∉ seen) ⟨"nullifier already stored"⟩
    checkNullifiers set (insert nf seen) nfs

/-- No position from `pos` on, for as many leaves as there are, may be written. The position is
    computed as `firstLeaf + i`, checked. -/
def checkPositions (written : ExtTreeMap UInt64 Bytes32) (firstLeaf : UInt64) :
    ℕ → List Bytes32 → Except StoreError Unit
  | _, [] => .ok ()
  | i, _ :: leaves => do
    require (firstLeaf.toNat + i < 2 ^ 64) ⟨"leaf position overflow"⟩
    require (firstLeaf + .ofNat i ∉ written) ⟨"leaf position already written"⟩
    checkPositions written firstLeaf (i + 1) leaves

def writeLeaves (firstLeaf : UInt64) :
    ℕ → List Bytes32 → ExtTreeMap UInt64 Bytes32 → ExtTreeMap UInt64 Bytes32
  | _, [], written => written
  | i, leaf :: leaves, written =>
    writeLeaves firstLeaf (i + 1) leaves (written.insert (firstLeaf + .ofNat i) leaf)

/-- All checks come before the first write. -/
def commit (store : MemoryPoolStore) (update : PoolUpdate) : Except StoreError MemoryPoolStore := do
  checkNullifiers store.nullifierSet ∅ update.nullifiers
  checkPositions store.leaves update.firstLeaf 0 update.leaves
  return {
    nullifierSet := update.nullifiers.foldl (fun set nf => insert nf set) store.nullifierSet
    nullifierLog := store.nullifierLog ++ update.nullifiers
    leaves := writeLeaves update.firstLeaf 0 update.leaves store.leaves
    stored := some {
      activationHeight := update.activationHeight
      nextHeight := update.nextHeight
      state := update.state } }

instance : PoolStore MemoryPoolStore where
  load store := .ok store.stored
  containsNullifier store nf := .ok (nf ∈ store.nullifierSet)
  commit := commit

end MemoryPoolStore

/-! ## The pool -/

/-- What one valid block does. -/
structure BlockEffects where
  height : UInt64
  txs : List TxEffect
  feeTotal : ℕ
  deriving Repr, DecidableEq

/-- A block that passed every rule, not yet stored. -/
structure PreparedBlock where
  base : StoredPool
  update : PoolUpdate
  effects : BlockEffects
  deriving DecidableEq

/-- The private copy of the state on which a block is evaluated. -/
structure Overlay where
  tree : Tree
  poolTotal : ℕ
  nullifierCount : UInt64
  nullifierAcc : Bytes32
  nullifiers : List Bytes32
  leaves : List Bytes32
  effects : List TxEffect
  feeTotal : ℕ

structure Pool (S : Type) where
  store : S

section Rules

variable (H : Poseidon2) (sha256 : List UInt8 → Bytes32)

def nullifierAccTag : List UInt8 := "rougechain.shield_v2.nullifier_acc.v1".toUTF8.toList

def nullifierAccStep (acc nf : Bytes32) : Bytes32 :=
  sha256 (nullifierAccTag ++ acc.toList ++ nf.toList)

/-- All of the bytes as digests, if all are canonical. -/
def allDigests {n : ℕ} (bs : Fin n → Bytes32) : Option (Fin n → Digest) :=
  if ∀ l, (digestFromBytes (bs l)).isSome then some fun l => (digestFromBytes (bs l)).getD 0
  else none

def Tree.load (state : PoolState) : Except PoolError Tree := do
  require (state.noteCount ≤ maxNotes) (PoolError.corruptState "note_count above 2^32")
  let frontier ← ofOption (.corruptState "frontier entry is not a canonical digest")
    (allDigests state.frontier)
  let root ← ofOption (.corruptState "tree_root is not a canonical digest")
    (digestFromBytes state.treeRoot)
  return { frontier, count := state.noteCount, root }

/-- The total after one transaction, against the cap and against zero. -/
def newTotal (refuse : TxRefusal → PoolError) (poolTotal : ℕ) (tx : PoolTx) :
    Except PoolError ℕ :=
  match tx.kind with
  | .shield => do
    let t := poolTotal + (tx.vIn - tx.fee).toNat
    require (t < 2 ^ 128) (PoolError.corruptState "pool_total overflow")
    require (t ≤ poolCapQuanta) (refuse .poolCapExceeded)
    return t
  | .transfer => do
    require (tx.fee.toNat ≤ poolTotal) (refuse .poolUnderflow)
    return poolTotal - tx.fee.toNat
  | .unshield => do
    require (tx.vOut.toNat + tx.fee.toNat ≤ poolTotal) (refuse .poolUnderflow)
    return poolTotal - (tx.vOut.toNat + tx.fee.toNat)

namespace Overlay

def start (s : PoolState) (tree : Tree) : Overlay where
  tree := tree
  poolTotal := s.poolTotal
  nullifierCount := s.nullifierCount
  nullifierAcc := s.nullifierAcc
  nullifiers := []
  leaves := []
  effects := []
  feeTotal := 0

def insertNullifier (o : Overlay) (nf : Bytes32) : Except PoolError Overlay := do
  require (o.nullifierCount.toNat + 1 < 2 ^ 64)
    (PoolError.corruptState "nullifier_count overflow")
  return { o with
    nullifierAcc := nullifierAccStep sha256 o.nullifierAcc nf
    nullifierCount := o.nullifierCount + 1
    nullifiers := o.nullifiers ++ [nf] }

def appendLeaf (o : Overlay) (leaf : Digest × Bytes32) : Overlay :=
  { o with tree := o.tree.append H leaf.1, leaves := o.leaves ++ [leaf.2] }

end Overlay

variable {S : Type} [PoolStore S]

/-- Neither earlier in the block nor in the set. -/
def checkNullifier (store : S) (refuse : TxRefusal → PoolError) (o : Overlay) (nf : Bytes32) :
    Except PoolError Unit := do
  require (nf ∉ o.nullifiers) (refuse .nullifierRepeatedInBlock)
  let spent ← (PoolStore.containsNullifier store nf).mapError PoolError.store
  require (spent = false) (refuse .nullifierSpent)

/-- The rules for the transaction at `index` of a block that starts in the state `s`. -/
def validateTx (store : S) (s : PoolState) (index : ℕ) (o : Overlay) (tx : PoolTx) :
    Except PoolError Overlay := do
  let refuse := PoolError.tx index
  let canon := fun (b : Bytes32) name =>
    ofOption (refuse (.nonCanonicalDigest name)) (digestFromBytes b)
  let _ ← canon tx.anchor "anchor"
  let _ ← canon tx.nf[0] "nf1"
  let _ ← canon tx.nf[1] "nf2"
  let cm1 ← canon tx.cmOut[0] "cm_out1"
  let cm2 ← canon tx.cmOut[1] "cm_out2"
  require (cm1 ≠ 0 ∧ cm2 ≠ 0) (refuse .zeroCommitment)
  require (tx.nf[0] ≠ tx.nf[1]) (refuse .equalNullifiers)
  require tx.patternOk (refuse .amountPattern)
  -- the window as it was when the block started, never a root from inside the block
  require (tx.anchor ∈ s.window) (refuse .anchorNotInWindow)
  checkNullifier store refuse o tx.nf[0]
  checkNullifier store refuse o tx.nf[1]
  require (o.tree.count ≤ maxNotes - 2) (refuse .treeFull)
  let total ← newTotal refuse o.poolTotal tx
  let o ← o.insertNullifier sha256 tx.nf[0]
  let o ← o.insertNullifier sha256 tx.nf[1]
  let o := (o.appendLeaf H (cm1, tx.cmOut[0])).appendLeaf H (cm2, tx.cmOut[1])
  return { o with
    poolTotal := total
    feeTotal := o.feeTotal + tx.fee.toNat
    effects := o.effects ++ [tx.effect] }

def validateTxs (store : S) (s : PoolState) : ℕ → Overlay → List PoolTx → Except PoolError Overlay
  | _, o, [] => .ok o
  | index, o, tx :: txs => do
    let o ← validateTx H sha256 store s index o tx
    validateTxs store s (index + 1) o txs

/-- The window with one more root, without the first when it is too long. -/
def pushRoot (window : List Bytes32) (root : Bytes32) : List Bytes32 :=
  if anchorWindow < (window ++ [root]).length then (window ++ [root]).drop 1 else window ++ [root]

namespace Pool

/-- Opens the pool; an empty store gets the initial state. -/
def openOrInit (store : S) (activationHeight : UInt64) : Except PoolError (Pool S) := do
  match ← (PoolStore.load store).mapError PoolError.store with
  | some s =>
    require (s.activationHeight = activationHeight)
      (PoolError.activationMismatch s.activationHeight activationHeight)
    return ⟨store⟩
  | none =>
    let store ← (PoolStore.commit store {
      activationHeight
      nextHeight := activationHeight
      state := .genesis H
      nullifiers := []
      firstLeaf := 0
      leaves := [] }).mapError PoolError.store
    return ⟨store⟩

def stored (pool : Pool S) : Except PoolError StoredPool := do
  ofOption .notInitialised (← (PoolStore.load pool.store).mapError PoolError.store)

/-- Evaluates the transactions of block `height` against the stored state. Changes nothing. -/
def validateBlock (pool : Pool S) (height : UInt64) (txs : List PoolTx) :
    Except PoolError PreparedBlock := do
  let base ← pool.stored
  require (height = base.nextHeight) (PoolError.heightOutOfOrder base.nextHeight height)
  require (txs.length ≤ maxTxPerBlock)
    (PoolError.tooManyTransactions txs.length maxTxPerBlock)
  let s := base.state
  require (s.window ≠ [] ∧ s.window.length ≤ anchorWindow)
    (PoolError.corruptState "anchor window is empty or longer than 128")
  let tree ← Tree.load s
  let o ← validateTxs H sha256 pool.store s 0 (.start s tree) txs
  -- the root joins the window for every block, also for one without transactions
  let treeRoot := digestToBytes o.tree.root
  require (height.toNat + 1 < 2 ^ 64) (PoolError.corruptState "height overflow")
  return {
    base
    update := {
      activationHeight := base.activationHeight
      nextHeight := height + 1
      state := {
        poolTotal := o.poolTotal
        noteCount := o.tree.count
        treeRoot
        frontier := fun l => digestToBytes (o.tree.frontier l)
        nullifierCount := o.nullifierCount
        nullifierAcc := o.nullifierAcc
        window := pushRoot s.window treeRoot }
      nullifiers := o.nullifiers
      firstLeaf := s.noteCount
      leaves := o.leaves }
    effects := { height, txs := o.effects, feeTotal := o.feeTotal } }

/-- Stores a prepared block, unless the stored state is no longer the one it was prepared for. -/
def commit (pool : Pool S) (prepared : PreparedBlock) :
    Except PoolError (Pool S × BlockEffects) := do
  require ((← pool.stored) = prepared.base) PoolError.stalePreparation
  let store ← (PoolStore.commit pool.store prepared.update).mapError PoolError.store
  return (⟨store⟩, prepared.effects)

/-- Applies the block entirely or not at all. -/
def applyBlock (pool : Pool S) (height : UInt64) (txs : List PoolTx) :
    Except PoolError (Pool S × BlockEffects) := do
  pool.commit (← pool.validateBlock H sha256 height txs)

end Pool

end Rules

/-! ## What a block does -/

namespace PoolTx

/-- What the transaction brings into the pool. -/
def deposit (tx : PoolTx) : ℕ := if tx.kind = .shield then tx.vIn.toNat else 0

/-- What it takes out of the pool, besides the fee. -/
def withdrawal (tx : PoolTx) : ℕ := if tx.kind = .unshield then tx.vOut.toNat else 0

end PoolTx

/-- The nullifiers of the transactions, in the order in which they are inserted. -/
def nullifiersOf (txs : List PoolTx) : List Bytes32 := txs.flatMap (·.nf.toList)

/-- The commitments of the transactions, in the order in which they are appended. -/
def leavesOf (txs : List PoolTx) : List Bytes32 := txs.flatMap (·.cmOut.toList)

/-- Deposits less withdrawals and fees. -/
def poolChange (txs : List PoolTx) : ℤ :=
  (txs.map PoolTx.deposit).sum - (txs.map PoolTx.withdrawal).sum -
    (txs.map fun tx => tx.fee.toNat).sum

section Ran

variable (H : Poseidon2) (sha256 : List UInt8 → Bytes32)

/-- A counter that does not wrap. -/
theorem toNat_succ {n : UInt64} (h : n.toNat + 1 < 2 ^ 64) : (n + 1).toNat = n.toNat + 1 := by
  rw [UInt64.toNat_add, UInt64.toNat_one, Nat.mod_eq_of_lt h]

theorem toList_two {α : Type*} (v : Vector α 2) : v.toList = [v[0], v[1]] := by
  obtain ⟨⟨l⟩, hl⟩ := v
  obtain ⟨a, b, rfl⟩ := List.length_eq_two.1 hl
  rfl

theorem nullifiersOf_append (txs txs' : List PoolTx) :
    nullifiersOf (txs ++ txs') = nullifiersOf txs ++ nullifiersOf txs' := List.flatMap_append

theorem leavesOf_append (txs txs' : List PoolTx) :
    leavesOf (txs ++ txs') = leavesOf txs ++ leavesOf txs' := List.flatMap_append

theorem poolChange_append (txs txs' : List PoolTx) :
    poolChange (txs ++ txs') = poolChange txs + poolChange txs' := by
  simp only [poolChange, List.map_append, List.sum_append, Nat.cast_add]
  ring

theorem Tree.load_ok {state : PoolState} {tree : Tree} (h : Tree.load state = .ok tree) :
    state.noteCount ≤ maxNotes ∧ tree.count = state.noteCount := by
  obtain ⟨_, hle, h⟩ := bind_eq_ok.1 h
  obtain ⟨frontier, -, h⟩ := bind_eq_ok.1 h
  obtain ⟨root, -, h⟩ := bind_eq_ok.1 h
  obtain rfl := Except.ok.inj h
  exact ⟨require_eq_ok.1 hle, rfl⟩

/-- `o'` is `o` after the transactions `txs`. -/
structure Overlay.Ran (o : Overlay) (txs : List PoolTx) (o' : Overlay) : Prop where
  nullifiers : o'.nullifiers = o.nullifiers ++ nullifiersOf txs
  acc : o'.nullifierAcc = (nullifiersOf txs).foldl (nullifierAccStep sha256) o.nullifierAcc
  count : o'.nullifierCount.toNat = o.nullifierCount.toNat + (nullifiersOf txs).length
  leaves : o'.leaves = o.leaves ++ leavesOf txs
  notes : o'.tree.count.toNat = o.tree.count.toNat + (leavesOf txs).length
  room : o.tree.count ≤ maxNotes → o'.tree.count ≤ maxNotes
  total : (o'.poolTotal : ℤ) = o.poolTotal + poolChange txs
  cap : o.poolTotal ≤ poolCapQuanta → o'.poolTotal ≤ poolCapQuanta

variable {H sha256} {o o₁ o₂ : Overlay} {txs txs' : List PoolTx} {tx : PoolTx}

theorem Overlay.Ran.refl (o : Overlay) : o.Ran sha256 [] o where
  nullifiers := (List.append_nil _).symm
  acc := rfl
  count := rfl
  leaves := (List.append_nil _).symm
  notes := rfl
  room := id
  total := (add_zero _).symm
  cap := id

theorem Overlay.Ran.trans (h₁ : o.Ran sha256 txs o₁) (h₂ : o₁.Ran sha256 txs' o₂) :
    o.Ran sha256 (txs ++ txs') o₂ where
  nullifiers := by rw [h₂.nullifiers, h₁.nullifiers, nullifiersOf_append, List.append_assoc]
  acc := by rw [h₂.acc, h₁.acc, ← List.foldl_append, nullifiersOf_append]
  count := by rw [h₂.count, h₁.count, nullifiersOf_append, List.length_append, Nat.add_assoc]
  leaves := by rw [h₂.leaves, h₁.leaves, leavesOf_append, List.append_assoc]
  notes := by rw [h₂.notes, h₁.notes, leavesOf_append, List.length_append, Nat.add_assoc]
  room := h₂.room ∘ h₁.room
  total := by rw [h₂.total, h₁.total, poolChange_append, add_assoc]
  cap := h₂.cap ∘ h₁.cap

/-- The total moves by what the transaction brings, takes and pays, and stays below the cap. -/
theorem newTotal_ok {refuse : TxRefusal → PoolError} {total total' : ℕ} (hp : tx.patternOk = true)
    (h : newTotal refuse total tx = .ok total') :
    (total' : ℤ) = total + poolChange [tx] ∧ (total ≤ poolCapQuanta → total' ≤ poolCapQuanta) := by
  rw [newTotal] at h
  rw [PoolTx.patternOk] at hp
  simp only [poolChange, PoolTx.deposit, PoolTx.withdrawal, List.map_cons, List.map_nil,
    List.sum_singleton]
  cases hk : tx.kind with
  | shield =>
    simp only [hk, Bool.and_eq_true, decide_eq_true_eq] at h hp ⊢
    obtain ⟨-, -, h⟩ := bind_eq_ok.1 h
    obtain ⟨_, hcap, h⟩ := bind_eq_ok.1 h
    rw [require_eq_ok] at hcap
    obtain rfl := Except.ok.inj h
    -- the fee is at most the deposit, so the subtraction of the source does not wrap
    have hsub : (tx.vIn - tx.fee).toNat = tx.vIn.toNat - tx.fee.toNat :=
      UInt64.toNat_sub_of_le _ _ hp.2
    have hle : tx.fee.toNat ≤ tx.vIn.toNat := UInt64.le_iff_toNat_le.1 hp.2
    rw [hsub] at hcap ⊢
    refine ⟨?_, fun _ => hcap⟩
    rw [if_pos trivial, if_neg (by decide)]
    omega
  | transfer =>
    simp only [hk] at h ⊢
    obtain ⟨_, hle, h⟩ := bind_eq_ok.1 h
    rw [require_eq_ok] at hle
    obtain rfl := Except.ok.inj h
    refine ⟨?_, fun hcap => (Nat.sub_le _ _).trans hcap⟩
    rw [if_neg (by decide), if_neg (by decide)]
    omega
  | unshield =>
    simp only [hk] at h ⊢
    obtain ⟨_, hle, h⟩ := bind_eq_ok.1 h
    rw [require_eq_ok] at hle
    obtain rfl := Except.ok.inj h
    refine ⟨?_, fun hcap => (Nat.sub_le _ _).trans hcap⟩
    rw [if_neg (by decide), if_pos trivial]
    omega

theorem Overlay.insertNullifier_ok {nf : Bytes32} {o' : Overlay}
    (h : o.insertNullifier sha256 nf = .ok o') :
    o' = { o with
      nullifierAcc := nullifierAccStep sha256 o.nullifierAcc nf
      nullifierCount := o.nullifierCount + 1
      nullifiers := o.nullifiers ++ [nf] } ∧
    (o.nullifierCount + 1).toNat = o.nullifierCount.toNat + 1 := by
  obtain ⟨_, hlt, h⟩ := bind_eq_ok.1 h
  rw [require_eq_ok] at hlt
  exact ⟨(Except.ok.inj h).symm, toNat_succ hlt⟩

variable {S : Type} [PoolStore S] {store : S} {s : PoolState} {index : ℕ} {o' : Overlay}

theorem validateTx_ran (h : validateTx H sha256 store s index o tx = .ok o') :
    o.Ran sha256 [tx] o' := by
  obtain ⟨-, -, h⟩ := bind_eq_ok.1 h
  obtain ⟨-, -, h⟩ := bind_eq_ok.1 h
  obtain ⟨-, -, h⟩ := bind_eq_ok.1 h
  obtain ⟨cm1, -, h⟩ := bind_eq_ok.1 h
  obtain ⟨cm2, -, h⟩ := bind_eq_ok.1 h
  obtain ⟨-, -, h⟩ := bind_eq_ok.1 h
  obtain ⟨-, -, h⟩ := bind_eq_ok.1 h
  obtain ⟨_, hpattern, h⟩ := bind_eq_ok.1 h
  obtain ⟨-, -, h⟩ := bind_eq_ok.1 h
  obtain ⟨-, -, h⟩ := bind_eq_ok.1 h
  obtain ⟨-, -, h⟩ := bind_eq_ok.1 h
  obtain ⟨_, hroom, h⟩ := bind_eq_ok.1 h
  obtain ⟨total, htotal, h⟩ := bind_eq_ok.1 h
  obtain ⟨p, hp, h⟩ := bind_eq_ok.1 h
  obtain ⟨q, hq, h⟩ := bind_eq_ok.1 h
  rw [require_eq_ok] at hpattern hroom
  obtain ⟨htot, hcap⟩ := newTotal_ok hpattern htotal
  obtain ⟨rfl, hp'⟩ := Overlay.insertNullifier_ok hp
  obtain ⟨rfl, hq'⟩ := Overlay.insertNullifier_ok hq
  obtain rfl := Except.ok.inj h
  have hnf : nullifiersOf [tx] = [tx.nf[0], tx.nf[1]] := by
    rw [nullifiersOf, List.flatMap_singleton, toList_two]
  have hcm : leavesOf [tx] = [tx.cmOut[0], tx.cmOut[1]] := by
    rw [leavesOf, List.flatMap_singleton, toList_two]
  -- two more leaves fit, so the counter does not wrap
  have hroom : o.tree.count.toNat ≤ 2 ^ 32 - 2 := UInt64.le_iff_toNat_le.1 hroom
  have hone : (o.tree.count + 1).toNat = o.tree.count.toNat + 1 :=
    toNat_succ (by omega)
  have htwo : (o.tree.count + 1 + 1).toNat = o.tree.count.toNat + 2 := by
    rw [toNat_succ (by rw [hone]; omega), hone]
  exact {
    nullifiers := by rw [hnf]; exact List.append_assoc _ _ _
    acc := by rw [hnf]; rfl
    count := by
      rw [hnf]
      show (o.nullifierCount + 1 + 1).toNat = _
      rw [hq', hp']
      rfl
    leaves := by rw [hcm]; exact List.append_assoc _ _ _
    notes := by rw [hcm]; exact htwo
    room := fun _ => by
      show o.tree.count + 1 + 1 ≤ maxNotes
      rw [UInt64.le_iff_toNat_le, htwo]
      show _ ≤ 2 ^ 32
      omega
    total := htot
    cap := hcap }

theorem validateTxs_ran (h : validateTxs H sha256 store s index o txs = .ok o') :
    o.Ran sha256 txs o' := by
  induction txs generalizing index o with
  | nil =>
    obtain rfl := Except.ok.inj h
    exact .refl _
  | cons tx txs ih =>
    obtain ⟨p, hp, h⟩ := bind_eq_ok.1 h
    exact (validateTx_ran hp).trans (ih h)

/-- The loop passed through every prefix of the transactions. -/
theorem validateTxs_take (h : validateTxs H sha256 store s index o txs = .ok o') (n : ℕ) :
    ∃ p, validateTxs H sha256 store s index o (txs.take n) = .ok p := by
  induction txs generalizing index o n with
  | nil => exact ⟨o, by rw [List.take_nil]; rfl⟩
  | cons tx txs ih =>
    obtain ⟨p, hp, h⟩ := bind_eq_ok.1 h
    cases n with
    | zero => exact ⟨o, rfl⟩
    | succ n =>
      obtain ⟨q, hq⟩ := ih h n
      exact ⟨q, by rw [List.take_succ_cons, validateTxs, hp]; exact hq⟩

end Ran

/-! ## What a commit does -/

namespace MemoryPoolStore

theorem checkNullifiers_ok {set seen : Finset Bytes32} {nfs : List Bytes32} {u : Unit}
    (h : checkNullifiers set seen nfs = .ok u) : nfs.Nodup ∧ ∀ nf ∈ nfs, nf ∉ set ∧ nf ∉ seen := by
  induction nfs generalizing seen with
  | nil => exact ⟨List.nodup_nil, by simp⟩
  | cons nf nfs ih =>
    obtain ⟨_, hnew, h⟩ := bind_eq_ok.1 h
    rw [require_eq_ok] at hnew
    obtain ⟨hnodup, hnfs⟩ := ih h
    refine ⟨List.nodup_cons.2 ⟨fun hmem => ?_, hnodup⟩, List.forall_mem_cons.2 ⟨hnew, ?_⟩⟩
    · exact (hnfs nf hmem).2 (Finset.mem_insert_self _ _)
    · exact fun x hx => ⟨(hnfs x hx).1, fun hs => (hnfs x hx).2 (Finset.mem_insert_of_mem hs)⟩

theorem mem_foldl_insert {set : Finset Bytes32} {nfs : List Bytes32} {nf : Bytes32} :
    nf ∈ nfs.foldl (fun set nf => insert nf set) set ↔ nf ∈ set ∨ nf ∈ nfs := by
  induction nfs generalizing set with
  | nil => simp
  | cons x nfs ih =>
    rw [List.foldl_cons, ih, Finset.mem_insert, List.mem_cons, or_assoc, or_left_comm]

/-- The leaves that a commit writes stand at the positions from `firstLeaf` on. -/
theorem getElem?_writeLeaves {firstLeaf : UInt64} {i : ℕ} {leaves : List Bytes32}
    {written : ExtTreeMap UInt64 Bytes32} (hfit : firstLeaf.toNat + i + leaves.length < 2 ^ 64)
    (pos : UInt64) :
    (writeLeaves firstLeaf i leaves written)[pos]? =
      if pos.toNat < firstLeaf.toNat + i then written[pos]?
      else leaves[pos.toNat - (firstLeaf.toNat + i)]?.or written[pos]? := by
  induction leaves generalizing i written with
  | nil => simp [writeLeaves]
  | cons leaf leaves ih =>
    rw [List.length_cons] at hfit
    have hpos : (firstLeaf + UInt64.ofNat i).toNat = firstLeaf.toNat + i := by
      rw [UInt64.toNat_add, UInt64.toNat_ofNat', Nat.add_mod_mod, Nat.mod_eq_of_lt (by omega)]
    rw [writeLeaves, ih (by omega), getElem?_insert_eq]
    -- left of the new leaf, at it, or right of it
    rcases lt_trichotomy pos.toNat (firstLeaf.toNat + i) with hlt | heq | hgt
    · have hne : firstLeaf + UInt64.ofNat i ≠ pos := fun he => by rw [← he, hpos] at hlt; omega
      rw [if_neg hne, if_pos hlt, if_pos (by omega)]
    · rw [if_pos (UInt64.toNat_inj.1 (hpos.trans heq.symm)), heq, if_neg (lt_irrefl _),
        Nat.sub_self, List.getElem?_cons_zero, if_pos (by omega)]
      rfl
    · have hne : firstLeaf + UInt64.ofNat i ≠ pos := fun he => by rw [← he, hpos] at hgt; omega
      have hsub : pos.toNat - (firstLeaf.toNat + i) =
          pos.toNat - (firstLeaf.toNat + (i + 1)) + 1 := by omega
      rw [if_neg hne, if_neg (by omega), if_neg (by omega), hsub, List.getElem?_cons_succ]

end MemoryPoolStore

/-- `store'` is `store` with the update written. -/
structure MemoryPoolStore.Committed (store : MemoryPoolStore) (update : PoolUpdate)
    (store' : MemoryPoolStore) : Prop where
  stored : store'.stored = some ⟨update.activationHeight, update.nextHeight, update.state⟩
  log : store'.nullifierLog = store.nullifierLog ++ update.nullifiers
  mem_set : ∀ nf, nf ∈ store'.nullifierSet ↔ nf ∈ store.nullifierSet ∨ nf ∈ update.nullifiers
  leaves : store'.leaves = writeLeaves update.firstLeaf 0 update.leaves store.leaves
  nodup : update.nullifiers.Nodup
  fresh : ∀ nf ∈ update.nullifiers, nf ∉ store.nullifierSet

theorem MemoryPoolStore.commit_ok {store store' : MemoryPoolStore} {update : PoolUpdate}
    (h : store.commit update = .ok store') : store.Committed update store' := by
  obtain ⟨_, hnfs, h⟩ := bind_eq_ok.1 h
  obtain ⟨-, -, h⟩ := bind_eq_ok.1 h
  obtain rfl := Except.ok.inj h
  obtain ⟨hnodup, hfresh⟩ := checkNullifiers_ok hnfs
  exact ⟨rfl, rfl, fun nf => mem_foldl_insert, rfl, hnodup, fun nf hnf => (hfresh nf hnf).1⟩

theorem Pool.stored_eq_ok {pool : Pool MemoryPoolStore} {base : StoredPool} :
    pool.stored = .ok base ↔ pool.store.stored = some base := ofOption_eq_ok

/-- A commit that succeeds writes the update over the state it was prepared for. -/
theorem Pool.commit_changed {pool pool' : Pool MemoryPoolStore} {prepared : PreparedBlock}
    {effects : BlockEffects} (h : pool.commit prepared = .ok (pool', effects)) :
    pool.store.stored = some prepared.base ∧
      pool.store.Committed prepared.update pool'.store := by
  obtain ⟨base, hbase, h⟩ := bind_eq_ok.1 h
  obtain ⟨_, heq, h⟩ := bind_eq_ok.1 h
  obtain ⟨store, hstore, h⟩ := bind_eq_ok.1 h
  rw [require_eq_ok] at heq
  obtain ⟨rfl, -⟩ := Prod.mk.inj (Except.ok.inj h)
  exact ⟨heq ▸ Pool.stored_eq_ok.1 hbase,
    MemoryPoolStore.commit_ok (mapError_eq_ok.1 hstore)⟩

/-! ## Runs -/

section Runs

variable (H : Poseidon2) (sha256 : List UInt8 → Bytes32)

/-- A block that was prepared, with its transactions and the pool it was prepared on. -/
structure Candidate where
  pool : Pool MemoryPoolStore
  txs : List PoolTx
  block : PreparedBlock

namespace Candidate

/-- The state for which the block was prepared. -/
def before (c : Candidate) : PoolState := c.block.base.state

/-- The state that the block leaves. -/
def after (c : Candidate) : PoolState := c.block.update.state

end Candidate

inductive PoolAction where
  | validate (height : UInt64) (txs : List PoolTx)
  | commit (i : ℕ)

/-- A pool, the blocks prepared so far, and those of them that were accepted, in order. -/
structure PoolTrace where
  pool : Pool MemoryPoolStore
  prepared : List Candidate := []
  accepted : List Candidate := []

namespace PoolTrace

def step (t : PoolTrace) : PoolAction → PoolTrace
  | .validate height txs =>
    match t.pool.validateBlock H sha256 height txs with
    | .ok block => { t with prepared := t.prepared ++ [⟨t.pool, txs, block⟩] }
    | .error _ => t
  | .commit i =>
    match t.prepared[i]? with
    | some c =>
      match t.pool.commit c.block with
      | .ok (pool, _) => { t with pool, accepted := t.accepted ++ [c] }
      | .error _ => t
    | none => t

end PoolTrace

/-- The transactions of the blocks, in order. -/
def txsOf (blocks : List Candidate) : List PoolTx := blocks.flatMap (·.txs)

/-- The blocks lead from the state `s` to `s'`, each from where the one before it ended. -/
def Linked : PoolState → List Candidate → PoolState → Prop
  | s, [], s' => s = s'
  | s, c :: cs, s' => c.before = s ∧ Linked c.after cs s'

/-- The loop over the transactions of a block went through totals from zero to the cap, and each
    of them is what the deposits, withdrawals and fees so far make of the total before. -/
def TotalsInRange (c : Candidate) : Prop :=
  ∃ tree, Tree.load c.before = .ok tree ∧ ∀ n ≤ c.txs.length, ∃ o,
    validateTxs H sha256 c.pool.store c.before 0 (.start c.before tree) (c.txs.take n) = .ok o ∧
    (o.poolTotal : ℤ) = c.before.poolTotal + poolChange (c.txs.take n) ∧
    0 ≤ o.poolTotal ∧ o.poolTotal ≤ poolCapQuanta

/-- What holds of the pool in the state `s` after the accepted blocks. -/
structure PoolTrace.Consistent (t : PoolTrace) (s : PoolState) : Prop where
  stored : ∃ base, t.pool.stored = .ok base ∧ base.state = s
  linked : Linked (.genesis H) t.accepted s
  log : t.pool.store.nullifierLog = nullifiersOf (txsOf t.accepted)
  nodup : t.pool.store.nullifierLog.Nodup
  mem_set : ∀ nf, nf ∈ t.pool.store.nullifierSet ↔ nf ∈ t.pool.store.nullifierLog
  nullifierCount : s.nullifierCount.toNat = t.pool.store.nullifierLog.length
  nullifierAcc :
    s.nullifierAcc = t.pool.store.nullifierLog.foldl (nullifierAccStep sha256) zeroBytes
  noteCount : s.noteCount.toNat = (leavesOf (txsOf t.accepted)).length
  leaf : ∀ pos, t.pool.store.leaf pos = (leavesOf (txsOf t.accepted))[pos.toNat]?
  total_le : s.poolTotal ≤ poolCapQuanta
  totals : ∀ c ∈ t.accepted, TotalsInRange H sha256 c
  change : ∀ c ∈ t.accepted, (c.after.poolTotal : ℤ) = c.before.poolTotal + poolChange c.txs
  window : s.window =
    (emptyTreeRoot H :: t.accepted.map fun c => c.after.treeRoot).rtake anchorWindow

/-- What a block that passed the rules says about its transactions, whatever was stored since. -/
structure Candidate.Sound (c : Candidate) : Prop where
  nullifiers : c.block.update.nullifiers = nullifiersOf c.txs
  acc : c.after.nullifierAcc = (nullifiersOf c.txs).foldl (nullifierAccStep sha256)
    c.before.nullifierAcc
  count : c.after.nullifierCount.toNat = c.before.nullifierCount.toNat + (nullifiersOf c.txs).length
  leaves : c.block.update.leaves = leavesOf c.txs
  firstLeaf : c.block.update.firstLeaf = c.before.noteCount
  notes : c.after.noteCount.toNat = c.before.noteCount.toNat + (leavesOf c.txs).length
  room : c.after.noteCount ≤ maxNotes
  change : (c.after.poolTotal : ℤ) = c.before.poolTotal + poolChange c.txs
  total_le : c.before.poolTotal ≤ poolCapQuanta → c.after.poolTotal ≤ poolCapQuanta
  totals : c.before.poolTotal ≤ poolCapQuanta → TotalsInRange H sha256 c
  window : c.after.window = pushRoot c.before.window c.after.treeRoot

variable {H sha256} {t : PoolTrace} {c : Candidate} {s s' : PoolState}

theorem Pool.validateBlock_sound {pool : Pool MemoryPoolStore} {height : UInt64}
    {txs : List PoolTx} {block : PreparedBlock}
    (h : pool.validateBlock H sha256 height txs = .ok block) :
    Candidate.Sound H sha256 ⟨pool, txs, block⟩ := by
  obtain ⟨base, -, h⟩ := bind_eq_ok.1 h
  obtain ⟨-, -, h⟩ := bind_eq_ok.1 h
  obtain ⟨-, -, h⟩ := bind_eq_ok.1 h
  obtain ⟨-, -, h⟩ := bind_eq_ok.1 h
  obtain ⟨tree, htree, h⟩ := bind_eq_ok.1 h
  obtain ⟨o, ho, h⟩ := bind_eq_ok.1 h
  obtain ⟨-, -, h⟩ := bind_eq_ok.1 h
  obtain rfl := Except.ok.inj h
  have hran := validateTxs_ran ho
  obtain ⟨hnotes, hcount⟩ := Tree.load_ok htree
  refine {
    nullifiers := hran.nullifiers
    acc := hran.acc
    count := hran.count
    leaves := hran.leaves
    firstLeaf := rfl
    notes := hcount ▸ hran.notes
    room := hran.room (hcount ▸ hnotes)
    change := hran.total
    total_le := hran.cap
    totals := fun hcap => ⟨tree, htree, fun n _ => ?_⟩
    window := rfl }
  -- the loop went through every prefix, and what it does to the total it does to each of them
  obtain ⟨p, hp⟩ := validateTxs_take ho n
  have hprefix := validateTxs_ran hp
  exact ⟨p, hp, hprefix.total, Nat.zero_le _, hprefix.cap hcap⟩

theorem Linked.concat {cs : List Candidate} (h : Linked s cs s') (hc : c.before = s') :
    Linked s (cs ++ [c]) c.after := by
  induction cs generalizing s with
  | nil => exact ⟨hc.trans h.symm, rfl⟩
  | cons d cs ih => exact ⟨h.1, ih h.2⟩

theorem txsOf_concat (cs : List Candidate) (c : Candidate) :
    txsOf (cs ++ [c]) = txsOf cs ++ c.txs := by
  rw [txsOf, List.flatMap_append, List.flatMap_singleton, txsOf]

/-- Accepting a sound block keeps the pool consistent. -/
theorem PoolTrace.Consistent.commit (ht : t.Consistent H sha256 s) (hc : c.Sound H sha256)
    {pool : Pool MemoryPoolStore} {effects : BlockEffects}
    (h : t.pool.commit c.block = .ok (pool, effects)) :
    PoolTrace.Consistent H sha256 { t with pool, accepted := t.accepted ++ [c] } c.after := by
  obtain ⟨hbase, hnew⟩ := Pool.commit_changed h
  have hbefore : c.before = s := by
    obtain ⟨base, hstored, rfl⟩ := ht.stored
    rw [Pool.stored_eq_ok, hbase] at hstored
    rw [Candidate.before, Option.some.inj hstored]
  have hlog : pool.store.nullifierLog = nullifiersOf (txsOf (t.accepted ++ [c])) := by
    rw [hnew.log, ht.log, hc.nullifiers, txsOf_concat, nullifiersOf_append]
  have hcap : c.before.poolTotal ≤ poolCapQuanta := hbefore ▸ ht.total_le
  refine {
    stored := ⟨_, Pool.stored_eq_ok.2 hnew.stored, rfl⟩
    linked := ht.linked.concat hbefore
    log := hlog
    nodup := ?_
    mem_set := fun nf => ?_
    nullifierCount := ?_
    nullifierAcc := ?_
    noteCount := ?_
    leaf := fun pos => ?_
    total_le := hc.total_le hcap
    totals := ?_
    change := ?_
    window := ?_ }
  · -- the store has checked the new nullifiers against each other and against the set
    show pool.store.nullifierLog.Nodup
    rw [hnew.log, List.nodup_append]
    refine ⟨ht.nodup, hnew.nodup, fun nf hold nf' hnf' he => ?_⟩
    exact hnew.fresh nf' hnf' ((ht.mem_set nf').2 (he ▸ hold))
  · show nf ∈ pool.store.nullifierSet ↔ nf ∈ pool.store.nullifierLog
    rw [hnew.mem_set, hnew.log, List.mem_append, ht.mem_set]
  · show _ = pool.store.nullifierLog.length
    rw [hc.count, hbefore, ht.nullifierCount, hnew.log, hc.nullifiers, List.length_append]
  · show _ = pool.store.nullifierLog.foldl _ _
    rw [hc.acc, hbefore, ht.nullifierAcc, hnew.log, hc.nullifiers, List.foldl_append]
  · rw [hc.notes, hbefore, ht.noteCount, txsOf_concat, leavesOf_append, List.length_append]
  · -- the new leaves follow the old ones, which fill the positions below the count
    have hroom : c.after.noteCount.toNat ≤ 2 ^ 32 := UInt64.le_iff_toNat_le.1 hc.room
    have hnotes := hc.notes
    have hcount := ht.noteCount
    show pool.store.leaves[pos]? = _
    rw [hbefore] at hnotes
    rw [hnew.leaves, hc.firstLeaf, hc.leaves, hbefore,
      MemoryPoolStore.getElem?_writeLeaves (by rw [Nat.add_zero]; omega), txsOf_concat,
      leavesOf_append, List.getElem?_append, Nat.add_zero, hcount]
    have hold : t.pool.store.leaves[pos]? = _ := ht.leaf pos
    rw [hold]
    split_ifs with hlt
    · rfl
    · rw [List.getElem?_eq_none (not_lt.1 hlt), Option.or_none]
  · exact List.forall_mem_append.2 ⟨ht.totals, List.forall_mem_singleton.2 (hc.totals hcap)⟩
  · exact List.forall_mem_append.2 ⟨ht.change, List.forall_mem_singleton.2 hc.change⟩
  · rw [hc.window, hbefore, ht.window, List.map_append, List.map_singleton, ← List.cons_append,
      List.rtake_concat _ _ (by decide), pushRoot]

/-- A trace whose pool is consistent and whose prepared blocks are sound. -/
def PoolTrace.Inv (H : Poseidon2) (sha256 : List UInt8 → Bytes32) (t : PoolTrace) : Prop :=
  (∃ s, t.Consistent H sha256 s) ∧ ∀ c ∈ t.prepared, c.Sound H sha256

theorem PoolTrace.Inv.step (ht : t.Inv H sha256) (a : PoolAction) :
    (t.step H sha256 a).Inv H sha256 := by
  cases a with
  | validate height txs =>
    rw [PoolTrace.step]
    split
    next block h =>
      obtain ⟨⟨s, hs⟩, hprepared⟩ := ht
      refine ⟨⟨s, { hs with }⟩, List.forall_mem_append.2 ⟨hprepared, ?_⟩⟩
      exact List.forall_mem_singleton.2 (Pool.validateBlock_sound h)
    · exact ht
  | commit i =>
    rw [PoolTrace.step]
    split
    next c hc =>
      split
      next pool effects h =>
        obtain ⟨⟨s, hs⟩, hprepared⟩ := ht
        exact ⟨⟨_, hs.commit (hprepared c (List.mem_of_getElem? hc)) h⟩, hprepared⟩
      · exact ht
    · exact ht

variable (sha256) in
/-- The empty pool is consistent in the initial state. -/
theorem Pool.openOrInit_consistent (activationHeight : UInt64) :
    ∃ pool, Pool.openOrInit H ({} : MemoryPoolStore) activationHeight = .ok pool ∧
      PoolTrace.Consistent H sha256 { pool } (.genesis H) := by
  refine ⟨_, rfl, ?_⟩
  exact {
    stored := ⟨_, rfl, rfl⟩
    linked := rfl
    log := rfl
    nodup := List.nodup_nil
    mem_set := fun nf => iff_of_false (Finset.notMem_empty nf) List.not_mem_nil
    nullifierCount := rfl
    nullifierAcc := rfl
    noteCount := rfl
    leaf := fun pos => ExtTreeMap.getElem?_empty
    total_le := Nat.zero_le _
    totals := fun c hc => absurd hc List.not_mem_nil
    change := fun c hc => absurd hc List.not_mem_nil
    window := by rw [List.rtake, List.map_nil, List.length_singleton, anchorWindow,
      show 1 - 128 = 0 from rfl, List.drop_zero, PoolState.genesis] }

/-- From the empty pool, and however blocks are prepared and committed: no nullifier is accepted
    twice, the counters and the accumulator are those of the accepted nullifiers and leaves, the
    total keeps between zero and the cap after every transaction and moves by deposits less
    withdrawals and fees, and the anchor window holds the last roots. -/
theorem pool_invariants (activationHeight : UInt64) :
    ∃ pool, Pool.openOrInit H ({} : MemoryPoolStore) activationHeight = .ok pool ∧
      ∀ actions, ∃ s,
        (Runs.run (PoolTrace.step H sha256) { pool } actions).Consistent H sha256 s := by
  obtain ⟨pool, hpool, hs⟩ := Pool.openOrInit_consistent sha256 activationHeight
  refine ⟨pool, hpool, fun actions => ?_⟩
  have hinv : PoolTrace.Inv H sha256 (Runs.run (PoolTrace.step H sha256) { pool } actions) := by
    induction actions using List.reverseRecOn with
    | nil => exact ⟨⟨_, hs⟩, fun c hc => absurd hc List.not_mem_nil⟩
    | append_singleton actions a ih =>
      rw [Runs.run_append]
      exact ih.step a
  exact hinv.1

/-- A deposit of 10 with fee 1. -/
def sampleDeposit : PoolTx where
  kind := .shield
  anchor := zeroBytes
  nf := #v[zeroBytes.set 0 1, zeroBytes.set 0 2]
  cmOut := #v[zeroBytes.set 0 3, zeroBytes.set 0 4]
  vIn := 10
  vOut := 0
  fee := 1
  account := zeroBytes

-- over hashes that are all zero
example :
    let H : Poseidon2 := ⟨0, 0, 0, 0, 0, 0⟩
    (do
      let pool ← Pool.openOrInit H ({} : MemoryPoolStore) 3
      let (pool, _) ← pool.applyBlock H (fun _ => zeroBytes) 3 [sampleDeposit]
      let base ← pool.stored
      return (base.nextHeight, base.state.poolTotal, base.state.noteCount)) =
    (.ok (4, 9, 2) : Except PoolError _) := by decide +kernel

end Runs

end RougeChain.Shield
