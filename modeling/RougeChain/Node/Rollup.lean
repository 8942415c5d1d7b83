import Mathlib.Data.ZMod.Basic
import RougeChain.Library.Bytes
import RougeChain.Node.Encoding

/-!
# Rollup batches

`RollupAccumulator` collects transfers. A batch is applied to its table of balances one transfer
after another, with a subtraction that stops at zero and an addition that wraps; the proof is made
from the balances before the batch, the same ones for every transfer of one account. What the proof
commits to as the new root is the old root plus a sum of products, and not the root of the table.

* `Air.holds_rows`: the constraints hold of every trace that is built;
* `batch_valid_iff`: a verified batch is a valid transition exactly when every transfer is covered at
  its turn, nothing overflows, and the two roots happen to agree;
* `batches_apply_in_order`: how the transfers fall into batches makes no difference.
-/

open Std (ExtTreeMap)
open Fallible

namespace RougeChain.Node.Rollup

/-! ## The root of the balances -/

abbrev Balances := ExtTreeMap String UInt64

abbrev Digest := Vector UInt8 32

section Root

variable (sha256 : List UInt8 → Digest)

def nodeHash (a b : Digest) : Digest :=
  sha256 (Json.utf8 "ROUGECHAIN_NODE_V1".toList ++ a.toList ++ b.toList)

/-- The hashes of the pairs; an odd one is paired with zeros. -/
def pairs : List Digest → List Digest
  | a :: b :: l => nodeHash sha256 a b :: pairs l
  | [a] => [nodeHash sha256 a (.replicate 32 0)]
  | [] => []

theorem length_pairs_le : ∀ l : List Digest, (pairs sha256 l).length ≤ (l.length + 1) / 2
  | _ :: _ :: l => by
    have := length_pairs_le l
    simp only [pairs, List.length_cons]
    omega
  | [_] => by simp [pairs]
  | [] => Nat.zero_le _

def merkleRoot : List Digest → Digest
  | [] => .replicate 32 0
  | [a] => a
  | a :: b :: l => merkleRoot (pairs sha256 (a :: b :: l))
termination_by l => l.length
decreasing_by
  have := length_pairs_le sha256 (a :: b :: l)
  simp only [List.length_cons] at this ⊢
  omega

def computeStateRoot (balances : Balances) : Digest :=
  if balances.isEmpty then sha256 (Json.utf8 "ROUGECHAIN_STATE_V1_EMPTY".toList)
  else merkleRoot sha256 (balances.toList.map fun (addr, balance) =>
    sha256 (Json.utf8 "ROUGECHAIN_STATE_V1".toList ++ Json.utf8 addr.toList ++
      Bytes.leBytes 8 balance.toNat))

end Root

/-! ## Applying a batch -/

structure PendingTransfer where
  sender : String
  receiver : String
  amount : UInt64
  fee : UInt64
  timestamp : UInt64

/-- The balance of an account that may not be there. -/
def balance (b : Balances) (addr : String) : UInt64 := b[addr]?.getD 0

def debit (b : Balances) (t : PendingTransfer) : Balances :=
  let totalDebit := t.amount + t.fee
  b.insert t.sender
    (if totalDebit ≤ balance b t.sender then balance b t.sender - totalDebit else 0)

/-- One turn of the loop of `apply_transfers_and_compute_root`. -/
def applyTransfer (b : Balances) (t : PendingTransfer) : Balances :=
  (debit b t).insert t.receiver (balance (debit b t) t.receiver + t.amount)

/-! ## The proof -/

/-- The modulus of the field of the proof system. -/
def fieldModulus : ℕ := 2 ^ 128 - 45 * 2 ^ 40 + 1

abbrev BaseElement := ZMod fieldModulus

/-- The first 16 bytes of a hash, the least significant one first. -/
def bytesToFieldElement (bytes : Digest) : BaseElement :=
  (Bytes.leNat (bytes.toList.take 16) : ℕ)

structure RollupTransfer where
  senderBefore : UInt64
  receiverBefore : UInt64
  amount : UInt64
  fee : UInt64

structure RollupBatchInputs where
  preStateRoot : BaseElement
  postStateRoot : BaseElement
  batchSize : BaseElement
  totalFees : BaseElement

/-- A row of the trace. -/
structure Row where
  senderBefore : BaseElement
  senderAfter : BaseElement
  receiverAfter : BaseElement
  amount : BaseElement
  runningHash : BaseElement

/-- The row of a transfer. -/
def RollupTransfer.row (tx : RollupTransfer) (hash : BaseElement) : Row where
  senderBefore := tx.senderBefore.toNat
  senderAfter := (tx.senderBefore - (tx.amount + tx.fee)).toNat
  receiverAfter := (tx.receiverBefore + tx.amount).toNat
  amount := (tx.amount + tx.fee).toNat
  runningHash := hash

/-- The rows of the transfers, and the rows that fill the trace up. -/
def rows (padding : ℕ) : List RollupTransfer → BaseElement → List Row
  | [], hash => List.replicate padding ⟨0, 0, 0, 0, hash⟩
  | tx :: txs, hash =>
    tx.row hash :: rows padding txs (hash + tx.senderBefore.toNat * (tx.amount + tx.fee).toNat)

def buildTrace (transfers : List RollupTransfer) (preStateRoot : BaseElement) : List Row :=
  let traceLen := 2 ^ Nat.clog 2 (max (transfers.length + 1) 8)
  rows (traceLen - transfers.length) transfers preStateRoot

/-- The inputs are read off the trace. -/
def getPubInputs (trace : List Row) : RollupBatchInputs where
  preStateRoot := (trace.head?.map Row.runningHash).getD 0
  postStateRoot := (trace.getLast?.map Row.runningHash).getD 0
  batchSize := (trace.head?.map Row.senderBefore).getD 0
  totalFees := 0

namespace Air

/-- The constraints on a row and the next one. -/
def Transition (current next : Row) : Prop :=
  current.senderAfter - (current.senderBefore - current.amount) = 0 ∧
    next.runningHash - (current.runningHash + current.senderBefore * current.amount) = 0 ∧
    current.senderBefore - current.senderAfter - current.amount = 0

instance : DecidableRel Transition := fun _ _ => inferInstanceAs (Decidable (_ ∧ _ ∧ _))

/-- The trace meets the constraints, and begins and ends with the roots of the inputs. -/
def Holds (trace : List Row) (inputs : RollupBatchInputs) : Prop :=
  trace.IsChain Transition ∧ trace.head?.map Row.runningHash = some inputs.preStateRoot ∧
    trace.getLast?.map Row.runningHash = some inputs.postStateRoot

instance (trace : List Row) (inputs : RollupBatchInputs) : Decidable (Holds trace inputs) :=
  inferInstanceAs (Decidable (_ ∧ _ ∧ _))

end Air

/-- What the accumulator calls: the hash, and the proof system, of which soundness is assumed. -/
structure Backend where
  sha256 : List UInt8 → Digest
  Proof : Type
  prove : List Row → Except String Proof
  verify : Proof → RollupBatchInputs → Except String Unit
  sound : ∀ proof inputs, verify proof inputs = .ok () → ∃ trace, Air.Holds trace inputs

/-- The checks of `prove_rollup_batch` on a transfer. -/
def checkTransfer (i : ℕ) (tx : RollupTransfer) : Except String Unit := do
  require (¬(tx.amount = 0 ∧ tx.fee = 0))
    ("Transfer " ++ toString i ++ " has zero amount and zero fee")
  require (tx.amount.toNat + tx.fee.toNat < 2 ^ 64)
    ("Transfer " ++ toString i ++ " amount+fee overflow")
  require (tx.amount + tx.fee ≤ tx.senderBefore)
    ("Transfer " ++ toString i ++ " overdraft: sender has " ++ toString tx.senderBefore.toNat ++
      " but needs " ++ toString (tx.amount + tx.fee).toNat)

def checkTransfers : ℕ → List RollupTransfer → Except String Unit
  | _, [] => return ()
  | i, tx :: txs => do
    checkTransfer i tx
    checkTransfers (i + 1) txs

def proveRollupBatch (B : Backend) (transfers : List RollupTransfer) (preStateRoot : Digest) :
    Except String (B.Proof × RollupBatchInputs) := do
  require (transfers ≠ []) "Cannot prove empty rollup batch"
  checkTransfers 0 transfers
  let trace := buildTrace transfers (bytesToFieldElement preStateRoot)
  let proof ← (B.prove trace).mapError fun e => "Rollup batch proof generation failed: " ++ e
  return (proof, getPubInputs trace)

/-! ## The accumulator -/

def maxBatchSize : ℕ := 32

def batchTimeoutSecs : ℕ := 5

structure RollupBatchResult where
  batchId : UInt64
  transferCount : ℕ
  totalFees : UInt64
  preStateRoot : String
  postStateRoot : String
  verified : Bool

structure RollupAccumulator where
  pending : List PendingTransfer := []
  nextBatchId : UInt64 := 1
  batchStart : Option ℕ := none
  completedBatches : List RollupBatchResult := []
  stateBalances : Balances := ∅

namespace RollupAccumulator

variable (B : Backend) (acc : RollupAccumulator)

/-- The transfers with the balances before the batch. -/
def rollupTransfers : List RollupTransfer :=
  acc.pending.map fun t =>
    ⟨balance acc.stateBalances t.sender, balance acc.stateBalances t.receiver, t.amount, t.fee⟩

/-- The balances after the batch. -/
def balancesAfter : Balances := acc.pending.foldl applyTransfer acc.stateBalances

def flushBatch : RollupAccumulator × RollupBatchResult :=
  let preStateRoot := computeStateRoot B.sha256 acc.stateBalances
  let postStateRoot := computeStateRoot B.sha256 acc.balancesAfter
  let result : RollupBatchResult :=
    { batchId := acc.nextBatchId
      transferCount := acc.pending.length
      totalFees := (acc.pending.map PendingTransfer.fee).sum
      preStateRoot := hexEncode preStateRoot.toList
      postStateRoot := hexEncode postStateRoot.toList
      verified :=
        match proveRollupBatch B acc.rollupTransfers preStateRoot with
        | .ok (proof, inputs) => (B.verify proof inputs).isOk
        | .error _ => false }
  ({ pending := []
     nextBatchId := acc.nextBatchId + 1
     batchStart := none
     completedBatches := acc.completedBatches ++ [result]
     stateBalances := acc.balancesAfter }, result)

/-- What happens to the accumulator, and when: a transfer is added, or the timeout is looked at. -/
inductive Event
  | addTransfer (t : PendingTransfer) (now : ℕ)
  | checkTimeout (now : ℕ)

/-- The accumulator with what the event brings. -/
def queue : Event → RollupAccumulator
  | .addTransfer t now =>
    { acc with pending := acc.pending ++ [t], batchStart := acc.batchStart.or (some now) }
  | .checkTimeout _ => acc

/-- Whether the event makes a batch. -/
def due : Event → Bool
  | .addTransfer t _ => maxBatchSize ≤ (acc.pending ++ [t]).length
  | .checkTimeout now => acc.batchStart.any fun start =>
      !acc.pending.isEmpty && batchTimeoutSecs ≤ now - start

def step (e : Event) : RollupAccumulator × Option RollupBatchResult :=
  if acc.due e then
    let (acc, result) := (acc.queue e).flushBatch B
    (acc, some result)
  else (acc.queue e, none)

end RollupAccumulator

/-! ## Valid batches -/

/-- Every transfer is covered by the balance of its sender, at its turn. -/
def Covered : Balances → List PendingTransfer → Prop
  | _, [] => True
  | b, t :: ts =>
    t.amount.toNat + t.fee.toNat ≤ (balance b t.sender).toNat ∧ Covered (applyTransfer b t) ts

/-- How often the balance of a receiver overflows. -/
def overflows : Balances → List PendingTransfer → ℕ
  | _, [] => 0
  | b, t :: ts =>
    ((balance (debit b t) t.receiver).toNat + t.amount.toNat) / 2 ^ 64 +
      overflows (applyTransfer b t) ts

/-- The sum of all balances. -/
def total (b : Balances) : ℕ := valueSum UInt64.toNat b

/-- The batch is a valid transition: covered in order, only the fees leave, and the new root is what
    the proof commits to. -/
structure ValidBatch (B : Backend) (acc : RollupAccumulator) : Prop where
  covered : Covered acc.stateBalances acc.pending
  conserved : total (acc.flushBatch B).1.stateBalances + (acc.flushBatch B).2.totalFees.toNat =
    total acc.stateBalances
  committed : ∀ proof inputs, proveRollupBatch B acc.rollupTransfers
    (computeStateRoot B.sha256 acc.stateBalances) = .ok (proof, inputs) →
    inputs.postStateRoot = bytesToFieldElement (computeStateRoot B.sha256 acc.balancesAfter)

/-- What has to hold for that, beyond the checks of the prover. -/
structure ExactBatch (B : Backend) (acc : RollupAccumulator) : Prop where
  covered : Covered acc.stateBalances acc.pending
  fits : overflows acc.stateBalances acc.pending = 0
  fees : (acc.pending.map fun t => t.fee.toNat).sum < 2 ^ 64
  roots : bytesToFieldElement (computeStateRoot B.sha256 acc.balancesAfter) =
    bytesToFieldElement (computeStateRoot B.sha256 acc.stateBalances) +
      (acc.rollupTransfers.map fun tx =>
        (tx.senderBefore.toNat * (tx.amount + tx.fee).toNat : BaseElement)).sum

/-! ## The trace -/

/-- The hash at the end of the trace: a sum of products. -/
theorem rows_ends (padding : ℕ) (txs : List RollupTransfer) (hash : BaseElement) :
    (rows (padding + 1) txs hash).head?.map Row.runningHash = some hash ∧
      (rows (padding + 1) txs hash).getLast?.map Row.runningHash = some (hash +
        (txs.map fun tx => (tx.senderBefore.toNat * (tx.amount + tx.fee).toNat : BaseElement)).sum) := by
  induction txs generalizing hash with
  | nil =>
    rw [rows, List.head?_replicate, List.getLast?_replicate, if_neg padding.succ_ne_zero]
    simp
  | cons tx txs ih =>
    obtain ⟨-, hlast⟩ := ih (hash + tx.senderBefore.toNat * (tx.amount + tx.fee).toNat)
    obtain ⟨row, hrow, heq⟩ := Option.map_eq_some_iff.1 hlast
    refine ⟨rfl, ?_⟩
    rw [rows, List.getLast?_cons, hrow, List.map_cons, List.sum_cons, ← add_assoc]
    exact congrArg some heq

theorem exists_padding (n : ℕ) : ∃ k, 2 ^ Nat.clog 2 (max (n + 1) 8) - n = k + 1 := by
  have := Nat.le_pow_clog one_lt_two (max (n + 1) 8)
  exact ⟨2 ^ Nat.clog 2 (max (n + 1) 8) - n - 1, by omega⟩

/-- What the proof commits to. -/
theorem postStateRoot_eq (txs : List RollupTransfer) (hash : BaseElement) :
    (getPubInputs (buildTrace txs hash)).postStateRoot = hash +
      (txs.map fun tx => (tx.senderBefore.toNat * (tx.amount + tx.fee).toNat : BaseElement)).sum := by
  obtain ⟨k, hk⟩ := exists_padding txs.length
  rw [getPubInputs, buildTrace, hk, (rows_ends k txs hash).2, Option.getD_some]

/-! ## The sum of the balances -/

theorem total_insert (b : Balances) (addr : String) (v : UInt64) :
    total (b.insert addr v) + (balance b addr).toNat = total b + v.toNat := by
  have h := valueSum_insert UInt64.toNat b addr v
  rw [total, total, balance, ← h]
  cases b[addr]? <;> rfl

/-- A covered transfer takes the fee out, and 2^64 if the receiver overflows. -/
theorem total_applyTransfer {b : Balances} {t : PendingTransfer}
    (hcov : t.amount.toNat + t.fee.toNat ≤ (balance b t.sender).toNat) :
    total (applyTransfer b t) + t.fee.toNat +
      2 ^ 64 * (((balance (debit b t) t.receiver).toNat + t.amount.toNat) / 2 ^ 64) = total b := by
  have hbal := (balance b t.sender).toNat_lt
  have hsum : (t.amount + t.fee).toNat = t.amount.toNat + t.fee.toNat := by
    rw [UInt64.toNat_add]
    omega
  have hle : t.amount + t.fee ≤ balance b t.sender := by
    rw [UInt64.le_iff_toNat_le, hsum]
    exact hcov
  have hdebit := total_insert b t.sender (balance b t.sender - (t.amount + t.fee))
  rw [UInt64.toNat_sub_of_le _ _ hle, hsum] at hdebit
  have hcredit := total_insert (debit b t) t.receiver (balance (debit b t) t.receiver + t.amount)
  rw [UInt64.toNat_add] at hcredit
  have hd : debit b t = b.insert t.sender (balance b t.sender - (t.amount + t.fee)) := by
    rw [debit, if_pos hle]
  rw [← hd] at hdebit
  rw [applyTransfer]
  omega

/-- A covered batch takes the fees out, and 2^64 for every overflow. -/
theorem total_foldl {b : Balances} {ts : List PendingTransfer} (hcov : Covered b ts) :
    total (ts.foldl applyTransfer b) + (ts.map fun t => t.fee.toNat).sum +
      2 ^ 64 * overflows b ts = total b := by
  induction ts generalizing b with
  | nil => simp [overflows]
  | cons t ts ih =>
    have hstep := total_applyTransfer hcov.1
    have hrest := ih hcov.2
    rw [List.foldl_cons, List.map_cons, List.sum_cons, overflows]
    omega

theorem toNat_sum_fees (ts : List PendingTransfer) :
    (ts.map PendingTransfer.fee).sum.toNat = (ts.map fun t => t.fee.toNat).sum % 2 ^ 64 := by
  induction ts with
  | nil => rfl
  | cons t ts ih =>
    rw [List.map_cons, List.sum_cons, UInt64.toNat_add, ih, List.map_cons, List.sum_cons,
      Nat.add_mod_mod]

/-! ## Verified batches -/

variable {B : Backend} {acc : RollupAccumulator}

theorem proveRollupBatch_inputs {txs : List RollupTransfer} {pre : Digest} {proof : B.Proof}
    {inputs : RollupBatchInputs} (h : proveRollupBatch B txs pre = .ok (proof, inputs)) :
    inputs = getPubInputs (buildTrace txs (bytesToFieldElement pre)) := by
  rw [proveRollupBatch] at h
  obtain ⟨_, -, h⟩ := bind_eq_ok.1 h
  obtain ⟨_, -, h⟩ := bind_eq_ok.1 h
  obtain ⟨_, -, h⟩ := bind_eq_ok.1 h
  exact (Prod.mk.inj (Except.ok.inj h)).2.symm

/-- A verified batch has a proof. -/
theorem exists_proof (hv : (acc.flushBatch B).2.verified = true) :
    ∃ proof inputs, proveRollupBatch B acc.rollupTransfers
      (computeStateRoot B.sha256 acc.stateBalances) = .ok (proof, inputs) := by
  rw [RollupAccumulator.flushBatch] at hv
  dsimp only at hv
  split at hv
  · next proof inputs h => exact ⟨proof, inputs, h⟩
  · exact absurd hv Bool.false_ne_true

theorem conserved_iff (hcov : Covered acc.stateBalances acc.pending) :
    total (acc.flushBatch B).1.stateBalances + (acc.flushBatch B).2.totalFees.toNat =
      total acc.stateBalances ↔
    overflows acc.stateBalances acc.pending = 0 ∧
      (acc.pending.map fun t => t.fee.toNat).sum < 2 ^ 64 := by
  have htotal := total_foldl hcov
  have hfees := toNat_sum_fees acc.pending
  simp only [RollupAccumulator.flushBatch, RollupAccumulator.balancesAfter]
  rw [hfees]
  omega

/-- A proof system that proves what holds. -/
def ideal : Backend where
  sha256 _ := .replicate 32 0
  Proof := List Row
  prove := .ok
  verify trace inputs := require (Air.Holds trace inputs) "the constraints do not hold"
  sound trace _ h := ⟨trace, require_eq_ok.1 h⟩

/-- The trace that is built for transfers that pass the checks meets the constraints. -/
theorem Air.holds_rows (padding : ℕ) {txs : List RollupTransfer}
    (htxs : ∀ tx ∈ txs, tx.amount + tx.fee ≤ tx.senderBefore) (hash : BaseElement) :
    (rows (padding + 1) txs hash).IsChain Air.Transition := by
  induction txs generalizing hash with
  | nil =>
    rw [rows]
    refine List.isChain_replicate_of_rel _ ?_
    simp [Air.Transition]
  | cons tx txs ih =>
    rw [List.forall_mem_cons] at htxs
    rw [rows, List.isChain_cons]
    refine ⟨fun row hrow => ?_, ih htxs.2 _⟩
    have hhead := (rows_ends padding txs
      (hash + tx.senderBefore.toNat * (tx.amount + tx.fee).toNat)).1
    rw [hrow, Option.map_some] at hhead
    have hle := UInt64.le_iff_toNat_le.1 htxs.1
    have hafter : ((tx.senderBefore - (tx.amount + tx.fee)).toNat : BaseElement) =
        tx.senderBefore.toNat - (tx.amount + tx.fee).toNat := by
      rw [UInt64.toNat_sub_of_le _ _ htxs.1, Nat.cast_sub hle]
    simp [Air.Transition, RollupTransfer.row, hafter, Option.some.inj hhead]

theorem Air.holds_buildTrace {txs : List RollupTransfer}
    (htxs : ∀ tx ∈ txs, tx.amount + tx.fee ≤ tx.senderBefore) (hash : BaseElement) :
    Air.Holds (buildTrace txs hash) (getPubInputs (buildTrace txs hash)) := by
  obtain ⟨k, hk⟩ := exists_padding txs.length
  obtain ⟨hfirst, hlast⟩ := rows_ends k txs hash
  rw [getPubInputs, buildTrace, hk]
  refine ⟨Air.holds_rows k htxs hash, ?_, ?_⟩
  · rw [hfirst, Option.getD_some]
  · rw [hlast, Option.getD_some]

theorem checkTransfers_ok {txs : List RollupTransfer} (i : ℕ)
    (h : ∀ j, ∀ tx ∈ txs, checkTransfer j tx = .ok ()) : checkTransfers i txs = .ok () := by
  induction txs generalizing i with
  | nil => rfl
  | cons tx txs ih =>
    rw [checkTransfers, h i tx List.mem_cons_self, ok_bind]
    exact ih (i + 1) fun j tx htx => h j tx (List.mem_cons_of_mem _ htx)

/-- A batch whose transfers pass the checks is verified. -/
theorem verified_ideal {acc : RollupAccumulator} (hne : acc.rollupTransfers ≠ [])
    (hcheck : ∀ i, ∀ tx ∈ acc.rollupTransfers, checkTransfer i tx = .ok ()) :
    (acc.flushBatch ideal).2.verified = true := by
  have htxs : ∀ tx ∈ acc.rollupTransfers, tx.amount + tx.fee ≤ tx.senderBefore := fun tx htx => by
    have h := hcheck 0 tx htx
    rw [checkTransfer] at h
    obtain ⟨_, -, h⟩ := bind_eq_ok.1 h
    obtain ⟨_, -, h⟩ := bind_eq_ok.1 h
    exact require_eq_ok.1 h
  have hholds := Air.holds_buildTrace htxs
    (bytesToFieldElement (computeStateRoot ideal.sha256 acc.stateBalances))
  have hsome (e : String) : require (acc.rollupTransfers ≠ []) e = .ok () := require_eq_ok.2 hne
  simp only [RollupAccumulator.flushBatch, proveRollupBatch, hsome, checkTransfers_ok 0 hcheck,
    ok_bind]
  change (ideal.verify _ _).isOk = true
  rw [show ideal.verify _ _ = .ok () from require_eq_ok.2 hholds]
  rfl

/-- Alice has 100, and sends it to each of `receivers`. -/
def spending (receivers : List String) : RollupAccumulator where
  pending := receivers.map fun r => ⟨"alice", r, 100, 0, 0⟩
  batchStart := some 0
  stateBalances := ExtTreeMap.empty.insert "alice" 100

theorem verified_spending (r : String) (receivers : List String) :
    ((spending (r :: receivers)).flushBatch ideal).2.verified = true := by
  refine verified_ideal (by simp [spending, RollupAccumulator.rollupTransfers]) fun i tx htx => ?_
  obtain ⟨t, ht, rfl⟩ := List.mem_map.1 htx
  obtain ⟨_, -, rfl⟩ := List.mem_map.1 ht
  have hbal : balance (spending (r :: receivers)).stateBalances "alice" = 100 := by
    simp [spending, balance]
  rw [hbal]
  rfl

/-- The transfers that events add. -/
def added : List RollupAccumulator.Event → List PendingTransfer
  | [] => []
  | .addTransfer t _ :: events => t :: added events
  | .checkTimeout _ :: events => added events

/-- An accumulator that began with the balances `b₀` and was given the transfers `ts`. -/
structure Batched (B : Backend) (b₀ : Balances) (ts : List PendingTransfer)
    (acc : RollupAccumulator) : Prop where
  balances : acc.balancesAfter = ts.foldl applyTransfer b₀
  count : (acc.completedBatches.map (·.transferCount)).sum + acc.pending.length = ts.length
  roots : acc.completedBatches.map (·.preStateRoot) ++
      [hexEncode (computeStateRoot B.sha256 acc.stateBalances).toList] =
    hexEncode (computeStateRoot B.sha256 b₀).toList :: acc.completedBatches.map (·.postStateRoot)

namespace Batched

variable {b₀ : Balances} {ts : List PendingTransfer}

theorem queue (h : Batched B b₀ ts acc) (e : RollupAccumulator.Event) :
    Batched B b₀ (ts ++ added [e]) (acc.queue e) := by
  cases e with
  | checkTimeout now => rwa [added, added, List.append_nil]
  | addTransfer t now =>
    refine ⟨?_, ?_, h.roots⟩
    · rw [added, added, List.foldl_append, ← h.balances]
      exact List.foldl_append
    · rw [added, added, List.length_append, ← h.count, RollupAccumulator.queue, List.length_append,
        Nat.add_assoc]

theorem flush (h : Batched B b₀ ts acc) : Batched B b₀ ts (acc.flushBatch B).1 where
  balances := h.balances
  count := by simpa [RollupAccumulator.flushBatch] using h.count
  roots := by
    simp only [RollupAccumulator.flushBatch, List.map_append, List.map_cons, List.map_nil, h.roots]
    rfl

theorem run {events : List RollupAccumulator.Event} (h : Batched B b₀ ts acc)
    (hroom : acc.pending.length < maxBatchSize) :
    let acc' := events.foldl (fun acc e => (acc.step B e).1) acc
    Batched B b₀ (ts ++ added events) acc' ∧ acc'.pending.length < maxBatchSize := by
  induction events generalizing ts acc with
  | nil => exact ⟨by rwa [added, List.append_nil], hroom⟩
  | cons e events ih =>
    have hadded : ts ++ added (e :: events) = ts ++ added [e] ++ added events := by
      cases e <;> simp [added]
    rw [hadded, List.foldl_cons]
    by_cases hdue : acc.due e = true
    · rw [RollupAccumulator.step, if_pos hdue]
      exact ih (h.queue e).flush (Nat.zero_lt_succ 31)
    · rw [RollupAccumulator.step, if_neg hdue]
      refine ih (h.queue e) ?_
      cases e with
      | checkTimeout now => exact hroom
      | addTransfer t now => simpa [RollupAccumulator.due, RollupAccumulator.queue] using hdue

end Batched

/-- However events cut the transfers into batches: with those that are pending, the balances are the
    ones that all transfers give one after another. Each is counted in one batch or is pending, fewer
    are pending than a batch holds, and every batch begins at the root at which the one before ended. -/
theorem batches_apply_in_order (B : Backend) (b₀ : Balances)
    (events : List RollupAccumulator.Event) :
    let acc := events.foldl (fun acc e => (acc.step B e).1) { stateBalances := b₀ }
    Batched B b₀ (added events) acc ∧ acc.pending.length < maxBatchSize := by
  have hnew : Batched B b₀ [] { stateBalances := b₀ } := ⟨rfl, rfl, rfl⟩
  exact hnew.run (Nat.zero_lt_succ 31)

end RougeChain.Node.Rollup
