import RougeChain.Library.InPlace
import RougeChain.Shield.Pool

/-!
# Updates of the pool are atomic

`MemoryPoolStore.commit` and `Pool.commit` hand out a new store, so that a refusal leaves nothing
behind by construction. The code changes the store in place. Here it is as written, one write after
the other (`commitInPlace`, `applyBlockInPlace`), and the functions of the pool are what it does.

Blocks may be prepared in any number and committed in any order, together with blocks that are
applied at once (`PoolCall`). The height of the stored state tells the preparations apart: it grows
with each commit, so that a block prepared before is stale.

* `Pool.commitInPlace_refines`: every check comes before the first write;
* `pool_updates_atomic`: failures leave the pool alone, successes write the prepared update, and no
  block is committed twice, or on another state than its own.
-/

open Fallible

namespace RougeChain.Shield

open InPlace (Code reads writes within exec Refines Atomic)

/-! ## The store -/

namespace MemoryPoolStore

/-- The loop that refuses a nullifier of the set, or one that stands twice in the update. -/
def checkNullifiersInPlace : Finset Bytes32 → List Bytes32 → Code MemoryPoolStore StoreError Unit
  | _, [] => pure ()
  | seen, nf :: nfs => do
    reads fun store =>
      require (nf ∉ store.nullifierSet ∧ nf ∉ seen) ⟨"nullifier already stored"⟩
    checkNullifiersInPlace (insert nf seen) nfs

/-- The loop that refuses a position with a leaf. -/
def checkPositionsInPlace (firstLeaf : UInt64) :
    ℕ → List Bytes32 → Code MemoryPoolStore StoreError Unit
  | _, [] => pure ()
  | i, _ :: leaves => do
    reads fun _ => require (firstLeaf.toNat + i < 2 ^ 64) ⟨"leaf position overflow"⟩
    reads fun store =>
      require (firstLeaf + .ofNat i ∉ store.leaves) ⟨"leaf position already written"⟩
    checkPositionsInPlace firstLeaf (i + 1) leaves

def writeNullifiersInPlace : List Bytes32 → Code MemoryPoolStore StoreError Unit
  | [] => pure ()
  | nf :: nfs => do
    writes fun store => { store with nullifierSet := insert nf store.nullifierSet }
    writes fun store => { store with nullifierLog := store.nullifierLog ++ [nf] }
    writeNullifiersInPlace nfs

def writeLeavesInPlace (firstLeaf : UInt64) :
    ℕ → List Bytes32 → Code MemoryPoolStore StoreError Unit
  | _, [] => pure ()
  | i, leaf :: leaves => do
    writes fun store => { store with leaves := store.leaves.insert (firstLeaf + .ofNat i) leaf }
    writeLeavesInPlace firstLeaf (i + 1) leaves

def writeUpdateInPlace (update : PoolUpdate) : Code MemoryPoolStore StoreError Unit := do
  writeNullifiersInPlace update.nullifiers
  writeLeavesInPlace update.firstLeaf 0 update.leaves
  writes fun store => { store with
    stored := some {
      activationHeight := update.activationHeight
      nextHeight := update.nextHeight
      state := update.state } }

/-- Every check first, every write after. -/
def commitInPlace (update : PoolUpdate) : Code MemoryPoolStore StoreError Unit := do
  checkNullifiersInPlace ∅ update.nullifiers
  checkPositionsInPlace update.firstLeaf 0 update.leaves
  writeUpdateInPlace update

theorem checkNullifiersInPlace_eq (seen : Finset Bytes32) (nfs : List Bytes32) :
    checkNullifiersInPlace seen nfs =
      reads fun store => checkNullifiers store.nullifierSet seen nfs := by
  induction nfs generalizing seen with
  | nil => rfl
  | cons nf nfs ih =>
    rw [checkNullifiersInPlace, ih]
    exact InPlace.reads_bind_reads _ _

theorem checkPositionsInPlace_eq (firstLeaf : UInt64) (i : ℕ) (leaves : List Bytes32) :
    checkPositionsInPlace firstLeaf i leaves =
      reads fun store => checkPositions store.leaves firstLeaf i leaves := by
  induction leaves generalizing i with
  | nil => rfl
  | cons leaf leaves ih =>
    rw [checkPositionsInPlace, ih]
    refine Eq.trans (congrArg _ (funext fun _ => ?_)) (InPlace.reads_bind_reads _ _)
    exact InPlace.reads_bind_reads _ _

theorem exec_writeNullifiersInPlace (nfs : List Bytes32) (store : MemoryPoolStore) :
    exec (writeNullifiersInPlace nfs) store = (.ok (), { store with
      nullifierSet := nfs.foldl (fun set nf => insert nf set) store.nullifierSet
      nullifierLog := store.nullifierLog ++ nfs }) := by
  induction nfs generalizing store with
  | nil =>
    rw [List.append_nil]
    rfl
  | cons nf nfs ih =>
    rw [writeNullifiersInPlace, InPlace.exec_writes_bind, InPlace.exec_writes_bind, ih,
      List.append_assoc]
    rfl

theorem exec_writeLeavesInPlace (firstLeaf : UInt64) (i : ℕ) (leaves : List Bytes32)
    (store : MemoryPoolStore) :
    exec (writeLeavesInPlace firstLeaf i leaves) store =
      (.ok (), { store with leaves := writeLeaves firstLeaf i leaves store.leaves }) := by
  induction leaves generalizing i store with
  | nil => rfl
  | cons leaf leaves ih =>
    rw [writeLeavesInPlace, InPlace.exec_writes_bind, ih]
    rfl

/-- The writes, all of them. -/
theorem exec_writeUpdateInPlace (update : PoolUpdate) (store : MemoryPoolStore) :
    exec (writeUpdateInPlace update) store = (.ok (), {
      nullifierSet := update.nullifiers.foldl (fun set nf => insert nf set) store.nullifierSet
      nullifierLog := store.nullifierLog ++ update.nullifiers
      leaves := writeLeaves update.firstLeaf 0 update.leaves store.leaves
      stored := some {
        activationHeight := update.activationHeight
        nextHeight := update.nextHeight
        state := update.state } }) := by
  rw [writeUpdateInPlace, InPlace.exec_bind_ok (exec_writeNullifiersInPlace _ _),
    InPlace.exec_bind_ok (exec_writeLeavesInPlace _ _ _ _)]
  rfl

theorem commitInPlace_refines (update : PoolUpdate) :
    Refines (commitInPlace update) fun store => do
      let store ← store.commit update
      return ((), store) := by
  have hwrites := Refines.writes (exec_writeUpdateInPlace update)
  have hchecks := Refines.reads_bind (g := fun store : MemoryPoolStore =>
    checkNullifiers store.nullifierSet ∅ update.nullifiers) fun _ =>
      Refines.reads_bind (g := fun store : MemoryPoolStore =>
        checkPositions store.leaves update.firstLeaf 0 update.leaves) fun _ => hwrites
  rw [commitInPlace, checkNullifiersInPlace_eq, checkPositionsInPlace_eq]
  intro store
  refine (hchecks store).trans (congrArg _ ?_)
  simp only [commit, bind_assoc]
  rfl

end MemoryPoolStore

/-! ## The pool -/

namespace Pool

variable (H : Poseidon2) (sha256 : List UInt8 → Bytes32)

/-- Reads the pool only: it is behind a shared reference. -/
def validateBlockInPlace (height : UInt64) (txs : List PoolTx) :
    Code (Pool MemoryPoolStore) PoolError PreparedBlock :=
  reads fun pool => pool.validateBlock H sha256 height txs

def commitInPlace (prepared : PreparedBlock) :
    Code (Pool MemoryPoolStore) PoolError BlockEffects := do
  let base ← reads Pool.stored
  reads fun _ => require (base = prepared.base) PoolError.stalePreparation
  within Pool.store (fun _ store => ⟨store⟩) PoolError.store
    (MemoryPoolStore.commitInPlace prepared.update)
  return prepared.effects

def applyBlockInPlace (height : UInt64) (txs : List PoolTx) :
    Code (Pool MemoryPoolStore) PoolError BlockEffects := do
  let prepared ← validateBlockInPlace H sha256 height txs
  commitInPlace prepared

/-- A function that answers with the new state first. -/
def swapped {S E α : Type} (f : S → Except E (S × α)) (s : S) : Except E (α × S) := do
  let p ← f s
  return p.swap

theorem commitInPlace_refines (prepared : PreparedBlock) :
    Refines (commitInPlace prepared) (swapped fun pool => pool.commit prepared) := by
  have hstore := (MemoryPoolStore.commitInPlace_refines prepared.update).within Pool.store
    (fun _ store => ⟨store⟩) PoolError.store (fun _ => rfl) fun _ => prepared.effects
  have hchecks := Refines.reads_bind (g := Pool.stored (S := MemoryPoolStore)) fun base =>
    Refines.reads_bind (g := fun _ : Pool MemoryPoolStore =>
      require (base = prepared.base) PoolError.stalePreparation) fun _ => hstore
  intro pool
  refine (hchecks pool).trans (congrArg _ ?_)
  simp only [swapped, commit, bind_assoc]
  refine congrArg _ (funext fun base => congrArg _ (funext fun _ => ?_))
  show _ = ((pool.store.commit prepared.update).mapError PoolError.store >>= _)
  cases pool.store.commit prepared.update <;> rfl

theorem applyBlockInPlace_refines (height : UInt64) (txs : List PoolTx) :
    Refines (applyBlockInPlace H sha256 height txs)
      (swapped fun pool => pool.applyBlock H sha256 height txs) := by
  intro pool
  refine (Refines.reads_bind commitInPlace_refines pool).trans (congrArg _ ?_)
  simp only [swapped, applyBlock, bind_assoc]

theorem swapped_eq_ok {S E α : Type} {f : S → Except E (S × α)} {s s' : S} {a : α} :
    swapped f s = .ok (a, s') ↔ f s = .ok (s', a) := by
  rw [swapped]
  rcases f s with e | ⟨t, b⟩
  · exact iff_of_false (fun h => nomatch h) fun h => nomatch h
  · show Except.ok (b, t) = _ ↔ _
    rw [Except.ok.injEq, Except.ok.injEq, Prod.mk.injEq, Prod.mk.injEq, and_comm]

variable {H sha256}

/-- A block is prepared for the height of the stored state, and leaves the next height. -/
theorem validateBlock_heights {S : Type} [PoolStore S] {pool : Pool S} {height : UInt64}
    {txs : List PoolTx} {block : PreparedBlock}
    (h : pool.validateBlock H sha256 height txs = .ok block) :
    pool.stored = .ok block.base ∧
      block.update.nextHeight.toNat = block.base.nextHeight.toNat + 1 := by
  obtain ⟨base, hbase, h⟩ := bind_eq_ok.1 h
  obtain ⟨_, hheight, h⟩ := bind_eq_ok.1 h
  obtain ⟨-, -, h⟩ := bind_eq_ok.1 h
  obtain ⟨-, -, h⟩ := bind_eq_ok.1 h
  obtain ⟨tree, -, h⟩ := bind_eq_ok.1 h
  obtain ⟨o, -, h⟩ := bind_eq_ok.1 h
  obtain ⟨_, hnext, h⟩ := bind_eq_ok.1 h
  rw [require_eq_ok] at hheight hnext
  obtain rfl := Except.ok.inj h
  exact ⟨hbase, hheight ▸ toNat_succ hnext⟩

end Pool

/-! ## Interleavings -/

/-- What users of the pool ask of it, in any order. -/
inductive PoolCall where
  | validate (height : UInt64) (txs : List PoolTx)
  | commit (i : ℕ)
  | apply (height : UInt64) (txs : List PoolTx)

/-- The pool, the blocks prepared and not thrown away, and those that were committed, each with the
    pool on which it was. -/
structure PoolRun where
  pool : Pool MemoryPoolStore
  prepared : List PreparedBlock := []
  commits : List (Pool MemoryPoolStore × PreparedBlock) := []

namespace PoolRun

variable (H : Poseidon2) (sha256 : List UInt8 → Bytes32)

/-- After a call that was to commit `block`, and left `out`. -/
def settled (r : PoolRun) (block : PreparedBlock) :
    Except PoolError BlockEffects × Pool MemoryPoolStore → PoolRun
  | (.ok _, pool) => { r with pool, commits := r.commits ++ [(r.pool, block)] }
  | (.error _, pool) => { r with pool }

/-- One call. A block stays at hand after its commit, so that it can be tried again. -/
def step (r : PoolRun) : PoolCall → PoolRun
  | .validate height txs =>
    match exec (Pool.validateBlockInPlace H sha256 height txs) r.pool with
    | (.ok block, pool) => { r with pool, prepared := r.prepared ++ [block] }
    | (.error _, pool) => { r with pool }
  | .commit i =>
    match r.prepared[i]? with
    | some block => r.settled block (exec (Pool.commitInPlace block) r.pool)
    | none => r
  | .apply height txs =>
    match r.pool.validateBlock H sha256 height txs with
    | .ok block => r.settled block (exec (Pool.applyBlockInPlace H sha256 height txs) r.pool)
    | .error _ => { r with pool := (exec (Pool.applyBlockInPlace H sha256 height txs) r.pool).2 }

/-- The heights tell the commits apart. -/
structure Ordered (r : PoolRun) : Prop where
  heights : ∀ b ∈ r.prepared, b.update.nextHeight.toNat = b.base.nextHeight.toNat + 1
  onBase : ∀ c ∈ r.commits, c.1.stored = .ok c.2.base
  below : ∀ c ∈ r.commits, ∀ base, r.pool.stored = .ok base →
    c.2.base.nextHeight.toNat < base.nextHeight.toNat
  increasing : r.commits.Pairwise fun c d =>
    c.2.base.nextHeight.toNat < d.2.base.nextHeight.toNat

variable {H sha256} {r : PoolRun} {block : PreparedBlock}

/-- A call that failed left the pool, and one that succeeded is a commit of the pool's. -/
theorem Ordered.settled (h : r.Ordered)
    (hheights : block.update.nextHeight.toNat = block.base.nextHeight.toNat + 1)
    {out : Except PoolError BlockEffects × Pool MemoryPoolStore}
    (hout : out = InPlace.settle r.pool (Pool.swapped (fun pool => pool.commit block) r.pool)) :
    (r.settled block out).Ordered := by
  cases hcommit : Pool.swapped (fun pool => pool.commit block) r.pool with
  | error e =>
    rw [hcommit] at hout
    subst hout
    exact { h with }
  | ok p =>
    rw [hcommit] at hout
    subst hout
    obtain ⟨hbase, hnew⟩ := Pool.commit_changed (Pool.swapped_eq_ok.1 hcommit)
    have hstored : r.pool.stored = .ok block.base := Pool.stored_eq_ok.2 hbase
    have hnext : ∀ base, p.2.stored = .ok base →
        block.base.nextHeight.toNat < base.nextHeight.toNat := by
      intro base hp
      rw [Pool.stored_eq_ok, hnew.stored] at hp
      obtain rfl := Option.some.inj hp
      show _ < block.update.nextHeight.toNat
      rw [hheights]
      exact Nat.lt_succ_self _
    refine ⟨h.heights, ?_, ?_, ?_⟩
    · exact List.forall_mem_append.2 ⟨h.onBase, List.forall_mem_singleton.2 hstored⟩
    · refine List.forall_mem_append.2 ⟨fun c hc base hp => ?_, List.forall_mem_singleton.2 hnext⟩
      exact (h.below c hc _ hstored).trans (hnext base hp)
    · refine List.pairwise_append.2 ⟨h.increasing, List.pairwise_singleton _ _, ?_⟩
      intro c hc d hd
      obtain rfl := List.mem_singleton.1 hd
      exact h.below c hc _ hstored

theorem Ordered.step (h : r.Ordered) (call : PoolCall) : (r.step H sha256 call).Ordered := by
  cases call with
  | validate height txs =>
    rw [PoolRun.step, Pool.validateBlockInPlace, InPlace.exec_reads]
    cases hv : r.pool.validateBlock H sha256 height txs with
    | error e => exact { h with }
    | ok block =>
      refine { h with heights := List.forall_mem_append.2 ⟨h.heights, ?_⟩ }
      exact List.forall_mem_singleton.2 (Pool.validateBlock_heights hv).2
  | commit i =>
    rw [PoolRun.step]
    cases hi : r.prepared[i]? with
    | none => exact h
    | some block =>
      exact h.settled (h.heights block (List.mem_of_getElem? hi))
        (Pool.commitInPlace_refines block r.pool)
  | apply height txs =>
    have hexec := Pool.applyBlockInPlace_refines H sha256 height txs r.pool
    rw [PoolRun.step]
    cases hv : r.pool.validateBlock H sha256 height txs with
    | error e =>
      rw [Pool.swapped, Pool.applyBlock, hv] at hexec
      dsimp only
      rw [hexec]
      exact { h with }
    | ok block =>
      rw [Pool.swapped, Pool.applyBlock, hv] at hexec
      exact h.settled (Pool.validateBlock_heights hv).2 hexec

end PoolRun

/-- Whatever the store holds. A block that is refused, by the rules, as stale or by the store,
    leaves the pool as it was. A block that is applied writes the update that was prepared: its
    nullifiers, its leaves and its state. And however preparations and commits are interleaved, a
    block is committed on the state for which it was prepared, and never twice. -/
theorem pool_updates_atomic (H : Poseidon2) (sha256 : List UInt8 → Bytes32) :
    (∀ height txs, Atomic (Pool.validateBlockInPlace H sha256 height txs)) ∧
    (∀ prepared, Atomic (Pool.commitInPlace prepared)) ∧
    (∀ height txs, Atomic (Pool.applyBlockInPlace H sha256 height txs)) ∧
    (∀ height txs pool pool' effects,
      exec (Pool.applyBlockInPlace H sha256 height txs) pool = (.ok effects, pool') →
      ∃ prepared, pool.validateBlock H sha256 height txs = .ok prepared ∧
        effects = prepared.effects ∧ pool.store.Committed prepared.update pool'.store) ∧
    ∀ pool calls,
      let r := Runs.run (PoolRun.step H sha256) { pool } calls
      (∀ c ∈ r.commits, c.1.stored = .ok c.2.base) ∧ (r.commits.map Prod.snd).Nodup := by
  refine ⟨fun height txs => InPlace.atomic_reads _, fun prepared => ?_, fun height txs => ?_,
    fun height txs pool pool' effects h => ?_, fun pool calls => ?_⟩
  · exact (Pool.commitInPlace_refines prepared).atomic
  · exact (Pool.applyBlockInPlace_refines H sha256 height txs).atomic
  · rw [(Pool.applyBlockInPlace_refines H sha256 height txs).eq_ok, Pool.swapped_eq_ok] at h
    obtain ⟨prepared, hprepared, h⟩ := bind_eq_ok.1 h
    refine ⟨prepared, hprepared, ?_, (Pool.commit_changed h).2⟩
    obtain ⟨base, -, h⟩ := bind_eq_ok.1 h
    obtain ⟨_, -, h⟩ := bind_eq_ok.1 h
    obtain ⟨store, -, h⟩ := bind_eq_ok.1 h
    exact (Prod.mk.inj (Except.ok.inj h)).2.symm
  · have hstart : PoolRun.Ordered { pool } :=
      ⟨fun b hb => absurd hb List.not_mem_nil, fun c hc => absurd hc List.not_mem_nil,
        fun c hc => absurd hc List.not_mem_nil, List.Pairwise.nil⟩
    have hrun := @Runs.run_invariant _ _ (PoolRun.step H sha256) PoolRun.Ordered
      (fun r call hr => hr.step call) _ calls hstart
    refine ⟨hrun.onBase, List.pairwise_map.2 (hrun.increasing.imp fun hlt heq => ?_)⟩
    rw [heq] at hlt
    exact lt_irrefl _ hlt

end RougeChain.Shield
