import RougeChain.Node.Amm

/-!
# Pool transactions on the ledger

`applyAmmTxIntegrity` writes the plan of a pool transaction to the balances of its sender and to
the pools. The planner has checked every amount against these balances entry by entry; the writer
checks again, and fails the block where the two disagree.

* `Balanced`: what every plan has in common. For each token, the debits and the reserves before are
  the credits and the reserves after, and the shares of each pool change by what is minted or burnt;
* `amm_conserves`: over a pool transaction that is applied, each token is conserved between the
  accounts and the pools but for the fee, and the shares of each pool are those its holders have.
-/

open Fallible

namespace RougeChain.Node

open Std (ExtTreeMap)
open Accounts

/-- The balances and the pools. -/
structure AmmLedger where
  balances : ExtTreeMap String U128
  tokenBalances : TokenBalances
  lpBalances : TokenBalances
  pools : PoolStore

def ammMismatch : String := "AMM plan does not match the ledger"

/-! ## Writing a plan -/

section Write

variable {K : Type} [Ord K] [Std.TransOrd K]

/-- The source's `*e = e.checked_sub(x)?` for the entry of `k`. -/
def takeFrom (m : ExtTreeMap K U128) (k : K) (x : U128) : Except String (ExtTreeMap K U128) := do
  let b ← ofOption ammMismatch (checkedSub128 (balance m k) x)
  return m.insert k b

/-- The source's `*e = e.checked_add(x)?` for the entry of `k`. -/
def giveTo (m : ExtTreeMap K U128) (k : K) (x : U128) : Except String (ExtTreeMap K U128) := do
  let b ← ofOption ammMismatch (checkedAdd128 (balance m k) x)
  return m.insert k b

/-- The debits: tokens are taken at once, XRGE is added up for one debit. -/
def takeDebits (sender : String) : List (String × UInt64) → U128 → TokenBalances →
    Except String (U128 × TokenBalances)
  | [], xrgeOut, tb => return (xrgeOut, tb)
  | (sym, amount) :: debits, xrgeOut, tb =>
    if sym = xrgeSymbol then do
      let xrgeOut ← ofOption ammMismatch (checkedAdd128 xrgeOut (xrgeToQuanta amount))
      takeDebits sender debits xrgeOut tb
    else do
      let tb ← takeFrom tb (sender, sym) (u64AsU128 amount)
      takeDebits sender debits xrgeOut tb

def giveCredits (sender : String) : List (String × UInt64) → ExtTreeMap String U128 →
    TokenBalances → Except String (ExtTreeMap String U128 × TokenBalances)
  | [], b, tb => return (b, tb)
  | (sym, amount) :: credits, b, tb =>
    if sym = xrgeSymbol then do
      let b ← giveTo b sender (xrgeToQuanta amount)
      giveCredits sender credits b tb
    else do
      let tb ← giveTo tb (sender, sym) (u64AsU128 amount)
      giveCredits sender credits b tb

def changeLp (sender : String) (lp : TokenBalances) :
    Option (String × LpChange) → Except String TokenBalances
  | none => return lp
  | some (poolId, .mint n) => giveTo lp (sender, poolId) (u64AsU128 n)
  | some (poolId, .burn n) => takeFrom lp (sender, poolId) (u64AsU128 n)

end Write

namespace AmmLedger

/-- What the planner sees: the balances of the sender, and the pools. -/
def view (l : AmmLedger) (sender : String) : AmmView where
  xrgeQuanta := balance l.balances sender
  token sym := balance l.tokenBalances (sender, sym)
  lp poolId := balance l.lpBalances (sender, poolId)
  pool := l.pools.getPool
  pools := l.pools.listPools

def writePlan (l : AmmLedger) (sender : String) (p : AmmPlan) :
    Except String (AmmLedger × U128) := do
  let (xrgeOut, tb) ← takeDebits sender p.debits p.feeQuanta l.tokenBalances
  let b ← takeFrom l.balances sender xrgeOut
  let (b, tb) ← giveCredits sender p.credits b tb
  let lp ← changeLp sender l.lpBalances p.lp
  return (⟨b, tb, lp, p.pools.foldl PoolStore.savePool l.pools⟩, p.feeQuanta)

/-- Apply a pool transaction; it returns the ledger and the fee it has charged. Without a plan
    nothing is changed or charged. -/
def applyAmmTxIntegrity (P : Platform) (l : AmmLedger) (tx : TxV1) (blockTime : UInt64) :
    Except String (AmmLedger × U128) :=
  if tx.kind = .createPool ∨ tx.kind = .addLiquidity ∨ tx.kind = .removeLiquidity ∨
      tx.kind = .swap then
    match plan (l.view (canonAddr P tx.fromPubKey)) tx blockTime with
    | .ok p => l.writePlan (canonAddr P tx.fromPubKey) p
    | .error _ => return (l, 0)
  else return (l, 0)

end AmmLedger

/-! ## What a plan balances -/

/-- What a list of entries has of a token. -/
def amountOf (sym : String) (l : List (String × UInt64)) : ℕ :=
  (l.map fun e => if e.1 = sym then e.2.toNat else 0).sum

/-- What a pool has of a token. -/
def LiquidityPool.reserveOf (sym : String) (q : LiquidityPool) : ℕ :=
  amountOf sym [(q.tokenA, q.reserveA), (q.tokenB, q.reserveB)]

/-- The shares minted in a pool. -/
def mintedOf (id : String) : Option (String × LpChange) → ℕ
  | some (poolId, .mint n) => if poolId = id then n.toNat else 0
  | some (_, .burn _) => 0
  | none => 0

/-- The shares burnt in a pool. -/
def burntOf (id : String) : Option (String × LpChange) → ℕ
  | some (poolId, .burn n) => if poolId = id then n.toNat else 0
  | some (_, .mint _) => 0
  | none => 0

/-- The value of `f` for the pool that is stored under an id; nothing without one. -/
def storedOf (pool : String → Option LiquidityPool) (f : LiquidityPool → ℕ) (id : String) : ℕ :=
  ((pool id).map f).getD 0

/-- The pools that a plan writes are different ones. Each token goes from the debits and the
    reserves to the credits and the new reserves, and each share is minted or burnt. -/
structure Balanced (pool : String → Option LiquidityPool) (p : AmmPlan) : Prop where
  ids : (p.pools.map LiquidityPool.poolId).Nodup
  amounts : ∀ sym, amountOf sym p.credits + (p.pools.map (LiquidityPool.reserveOf sym)).sum =
    amountOf sym p.debits +
      (p.pools.map fun q => storedOf pool (LiquidityPool.reserveOf sym) q.poolId).sum
  supply : ∀ q ∈ p.pools, q.totalLpSupply.toNat + burntOf q.poolId p.lp =
    storedOf pool (·.totalLpSupply.toNat) q.poolId + mintedOf q.poolId p.lp
  lp : ∀ id, id ∉ p.pools.map LiquidityPool.poolId → mintedOf id p.lp = 0 ∧ burntOf id p.lp = 0

section Balanced

variable {view : AmmView} {tx : TxV1} {blockTime : UInt64} {p : AmmPlan}

@[simp]
theorem amountOf_nil (sym : String) : amountOf sym [] = 0 := rfl

@[simp]
theorem amountOf_cons (sym : String) (e : String × UInt64) (l : List (String × UInt64)) :
    amountOf sym (e :: l) = (if e.1 = sym then e.2.toNat else 0) + amountOf sym l := rfl

theorem storedOf_of_none {pool : String → Option LiquidityPool} {f : LiquidityPool → ℕ}
    {id : String} (h : pool id = none) : storedOf pool f id = 0 := by
  rw [storedOf, h]
  rfl

theorem storedOf_of_some {pool : String → Option LiquidityPool} {f : LiquidityPool → ℕ}
    {id : String} {q : LiquidityPool} (h : pool id = some q) : storedOf pool f id = f q := by
  rw [storedOf, h]
  rfl

/-- The order of the tokens does not matter for what a new pool has. -/
theorem reserveOf_new (sym a b : String) (x y : UInt64) (creator : String) (time : UInt64) :
    (LiquidityPool.new a b x y creator time).reserveOf sym = amountOf sym [(a, x), (b, y)] := by
  rw [LiquidityPool.new, LiquidityPool.reserveOf]
  split
  · rfl
  · simp only [amountOf_cons, amountOf_nil]
    omega

theorem planCreate_balanced (h : planCreate view tx blockTime = .ok p) : Balanced view.pool p := by
  obtain ⟨a, b, x, y, hdebits, hcredits, -, hpools, hlp, hnew⟩ := planCreate_eq_ok h
  generalize hq : LiquidityPool.new a b x y tx.fromPubKey blockTime = q at hpools hlp hnew
  refine ⟨?_, fun sym => ?_, ?_, ?_⟩
  · rw [hpools]
    exact List.nodup_singleton _
  · rw [hpools, hcredits, hdebits, List.map_singleton, List.map_singleton, List.sum_singleton,
      List.sum_singleton, storedOf_of_none hnew.absent, ← hq, reserveOf_new, amountOf_nil]
    omega
  · rw [hpools, hlp]
    refine List.forall_mem_singleton.2 ?_
    rw [storedOf_of_none hnew.absent, mintedOf, burntOf, if_pos rfl]
    omega
  · intro id hid
    rw [hpools, List.map_singleton, List.mem_singleton] at hid
    rw [hlp, mintedOf, burntOf, if_neg (Ne.symm hid)]
    exact ⟨rfl, rfl⟩

/-- A plan for one pool that exists. -/
theorem balanced_singleton {old new : LiquidityPool} (hpools : p.pools = [new])
    (hold : view.pool new.poolId = some old)
    (hamounts : ∀ sym, amountOf sym p.credits + new.reserveOf sym =
      amountOf sym p.debits + old.reserveOf sym)
    (hsupply : new.totalLpSupply.toNat + burntOf new.poolId p.lp =
      old.totalLpSupply.toNat + mintedOf new.poolId p.lp)
    (hlp : ∀ id, id ≠ new.poolId → mintedOf id p.lp = 0 ∧ burntOf id p.lp = 0) :
    Balanced view.pool p := by
  refine ⟨?_, fun sym => ?_, ?_, fun id hid => ?_⟩
  · rw [hpools]
    exact List.nodup_singleton _
  · rw [hpools, List.map_singleton, List.map_singleton, List.sum_singleton, List.sum_singleton,
      storedOf_of_some hold]
    exact hamounts sym
  · rw [hpools]
    refine List.forall_mem_singleton.2 ?_
    rw [storedOf_of_some hold]
    exact hsupply
  · rw [hpools, List.map_singleton, List.mem_singleton] at hid
    exact hlp id hid

variable (hkeys : ∀ (id : String) (q : LiquidityPool), view.pool id = some q → q.poolId = id)

include hkeys

theorem planAdd_balanced (h : planAdd view tx = .ok p) : Balanced view.pool p := by
  obtain ⟨id, old, new, x, y, lp, hold, hdebits, hcredits, -, hpools, hlp, hid, htA, htB, hA, hB,
    hsupply, -⟩ := planAdd_eq_ok h
  obtain rfl := hkeys id old hold
  refine balanced_singleton hpools (hid ▸ hold) (fun sym => ?_) ?_ fun id hne => ?_
  · rw [hcredits, hdebits, LiquidityPool.reserveOf, LiquidityPool.reserveOf, htA, htB]
    simp only [amountOf_cons, amountOf_nil, hA, hB]
    split_ifs <;> omega
  · rw [hlp, mintedOf, burntOf, if_pos hid.symm]
    exact hsupply
  · rw [hlp, mintedOf, burntOf, if_neg (hid ▸ hne.symm)]
    exact ⟨rfl, rfl⟩

theorem planRemove_balanced (h : planRemove view tx = .ok p) : Balanced view.pool p := by
  obtain ⟨id, old, new, outA, outB, lp, hold, hdebits, hcredits, -, hpools, hlp, hid, htA, htB, hA,
    hB, hsupply, -⟩ := planRemove_eq_ok h
  obtain rfl := hkeys id old hold
  refine balanced_singleton hpools (hid ▸ hold) (fun sym => ?_) ?_ fun id hne => ?_
  · rw [hcredits, hdebits, LiquidityPool.reserveOf, LiquidityPool.reserveOf, htA, htB]
    simp only [amountOf_cons, amountOf_nil, ← hA, ← hB]
    split_ifs <;> omega
  · rw [hlp, mintedOf, burntOf, if_pos hid.symm]
    exact hsupply
  · rw [hlp, mintedOf, burntOf, if_neg (hid ▸ hne.symm)]
    exact ⟨rfl, rfl⟩

/-- No pool comes twice on a route. -/
theorem route_nodup {path : List String} {pools pools' : List LiquidityPool}
    {amount out : UInt64} (h : route view path pools amount = .ok (pools', out))
    (hnodup : (pools.map LiquidityPool.poolId).Nodup) :
    (pools'.map LiquidityPool.poolId).Nodup := by
  induction path, pools, amount using route.induct with
  | case1 tIn tOut path pools amount ih =>
    obtain ⟨⟨new, mid⟩, hhop, hrest⟩ := bind_eq_ok.1 h
    obtain ⟨honce, old, hstep⟩ := hop_eq_ok hhop
    refine ih new mid hrest ?_
    rw [List.map_append, List.map_singleton, List.nodup_append_comm, List.singleton_append,
      List.nodup_cons]
    refine ⟨fun hmem => ?_, hnodup⟩
    -- the pool is stored under the id that the route has not met before
    obtain ⟨q, hq, heq⟩ := List.mem_map.1 hmem
    exact honce q hq (heq.trans (hstep.poolId.trans (hkeys _ _ hstep.pool)))
  | case2 path pools amount hpath =>
    rw [route] at h
    · cases h
      exact hnodup
    · exact hpath

omit hkeys in
/-- One step of a route: what goes in and what comes out. -/
theorem Hops.amounts {tIn tOut : String} {amount out : UInt64} {old new : LiquidityPool}
    (h : Hops view tIn tOut amount out old new) (sym : String) :
    amountOf sym [(tOut, out)] + new.reserveOf sym =
      amountOf sym [(tIn, amount)] + old.reserveOf sym := by
  rw [LiquidityPool.reserveOf, LiquidityPool.reserveOf, h.tokenA, h.tokenB]
  rcases h.reserves with ⟨rfl, rfl, hA, hB⟩ | ⟨rfl, rfl, hB, hA⟩
  · simp only [amountOf_cons, amountOf_nil, hA, ← hB]
    split_ifs <;> omega
  · simp only [amountOf_cons, amountOf_nil, hB, ← hA]
    split_ifs <;> omega

/-- Along a route, what a pool pays goes into the next one. -/
theorem Trail.amounts {path : List String} {amount out : UInt64}
    {steps : List (LiquidityPool × LiquidityPool)} (h : Trail view path amount steps out)
    (sym : String) {tokenIn tokenOut : String} (hfirst : path.head? = some tokenIn)
    (hlast : path.getLast? = some tokenOut) :
    amountOf sym [(tokenOut, out)] + ((steps.map Prod.snd).map (LiquidityPool.reserveOf sym)).sum =
      amountOf sym [(tokenIn, amount)] + ((steps.map Prod.snd).map fun q =>
        storedOf view.pool (LiquidityPool.reserveOf sym) q.poolId).sum := by
  induction h generalizing tokenIn with
  | done path hpath amount =>
    rcases path with _ | ⟨a, _ | ⟨b, path⟩⟩
    · cases hfirst
    · cases hfirst
      cases hlast
      rfl
    · exact absurd hpath (by simp only [List.length_cons]; omega)
  | @hop tIn tOut path amount mid out old new steps hstep hrest ih =>
    obtain rfl := Option.some.inj hfirst
    have hone := hstep.amounts sym
    have hmany := ih rfl (by rwa [List.getLast?_cons_cons] at hlast)
    have hid : new.poolId = makePoolId tIn tOut := hstep.poolId.trans (hkeys _ _ hstep.pool)
    simp only [List.map_cons, List.sum_cons]
    rw [storedOf_of_some (hid ▸ hstep.pool)]
    omega

theorem Trail.supply {path : List String} {amount out : UInt64}
    {steps : List (LiquidityPool × LiquidityPool)} (h : Trail view path amount steps out) :
    ∀ q ∈ steps.map Prod.snd,
      q.totalLpSupply.toNat = storedOf view.pool (·.totalLpSupply.toNat) q.poolId := by
  induction h with
  | done => exact fun _ h => absurd h List.not_mem_nil
  | @hop tIn tOut path amount mid out old new steps hstep hrest ih =>
    have hid : new.poolId = makePoolId tIn tOut := hstep.poolId.trans (hkeys _ _ hstep.pool)
    refine List.forall_mem_cons.2 ⟨?_, ih⟩
    rw [storedOf_of_some (hid ▸ hstep.pool), hstep.supply]

theorem planSwap_balanced (h : planSwap view tx = .ok p) : Balanced view.pool p := by
  obtain ⟨tokenIn, tokenOut, path, amountIn, out, steps, hdebits, hcredits, -, hlp, hpools, hfirst,
    hlast, hroute, htrail⟩ := planSwap_eq_ok h
  refine ⟨route_nodup hkeys hroute List.nodup_nil, fun sym => ?_, ?_, fun id _ => ?_⟩
  · rw [hcredits, hdebits, hpools]
    exact htrail.amounts hkeys sym hfirst hlast
  · rw [hlp, hpools]
    exact htrail.supply hkeys
  · rw [hlp]
    exact ⟨rfl, rfl⟩

theorem plan_balanced (h : plan view tx blockTime = .ok p) : Balanced view.pool p := by
  rw [plan] at h
  split at h
  · exact planCreate_balanced h
  · exact planAdd_balanced hkeys h
  · exact planRemove_balanced hkeys h
  · exact planSwap_balanced hkeys h
  · cases h

end Balanced

/-! ## What the pools hold -/

namespace PoolStore

variable {s : PoolStore} {l : List LiquidityPool}

theorem storedOf_savePool (f : LiquidityPool → ℕ) {q : LiquidityPool} {id : String}
    (h : q.poolId ≠ id) : storedOf (s.savePool q).getPool f id = storedOf s.getPool f id := by
  rw [storedOf, getPool_savePool, if_neg h]
  rfl

/-- The sum over the pools after some of them are written. -/
theorem valueSum_foldl_savePool (f : LiquidityPool → ℕ)
    (hnodup : (l.map LiquidityPool.poolId).Nodup) :
    valueSum f (l.foldl savePool s).pools + (l.map fun q => storedOf s.getPool f q.poolId).sum =
      valueSum f s.pools + (l.map f).sum := by
  induction l generalizing s with
  | nil => rfl
  | cons r l ih =>
    rw [List.map_cons, List.nodup_cons] at hnodup
    have hrest := ih (s := s.savePool r) hnodup.2
    have hone := valueSum_insert f s.pools r.poolId r
    -- the others are stored as before
    have hstored : (l.map fun q => storedOf (s.savePool r).getPool f q.poolId) =
        l.map fun q => storedOf s.getPool f q.poolId := by
      refine List.map_congr_left fun q hq => storedOf_savePool f fun heq => hnodup.1 ?_
      exact heq ▸ List.mem_map_of_mem hq
    rw [hstored] at hrest
    simp only [List.foldl_cons, List.map_cons, List.sum_cons]
    change valueSum f (s.savePool r).pools + storedOf s.getPool f r.poolId = _ at hone
    omega

theorem getPool_foldl_of_mem {q : LiquidityPool} (hq : q ∈ l)
    (hnodup : (l.map LiquidityPool.poolId).Nodup) :
    (l.foldl savePool s).getPool q.poolId = some q := by
  induction l generalizing s with
  | nil => exact absurd hq List.not_mem_nil
  | cons r l ih =>
    rw [List.map_cons, List.nodup_cons] at hnodup
    rw [List.foldl_cons]
    rcases List.mem_cons.1 hq with rfl | hq
    · rcases getPool_foldl (s.savePool q) l q.poolId with heq | ⟨q', hq', hid, -⟩
      · rw [heq, getPool_savePool, if_pos rfl]
      · exact absurd (List.mem_map.2 ⟨q', hq', hid⟩) hnodup.1
    · exact ih hq hnodup.2

theorem getPool_foldl_of_notMem {id : String} (hid : id ∉ l.map LiquidityPool.poolId) :
    (l.foldl savePool s).getPool id = s.getPool id := by
  rcases getPool_foldl s l id with heq | ⟨q, hq, heq, -⟩
  · exact heq
  · exact absurd (List.mem_map.2 ⟨q, hq, heq⟩) hid

end PoolStore

/-! ## What the accounts hold -/

section Accounts

variable {K : Type} [Ord K] [Std.TransOrd K] {m m' : ExtTreeMap K U128} {k : K} {x : U128}

theorem takeFrom_eq_ok (h : takeFrom m k x = .ok m') : x ≤ balance m k ∧ m' = debit m k x := by
  obtain ⟨b, hb, h⟩ := bind_eq_ok.1 h
  obtain rfl := Except.ok.inj h
  replace hb := ofOption_eq_ok.1 hb
  rw [checkedSub128] at hb
  split at hb
  · next hle =>
    obtain rfl := Option.some.inj hb
    exact ⟨hle, rfl⟩
  · cases hb

theorem giveTo_eq_ok (h : giveTo m k x = .ok m') :
    (balance m k).toNat + x.toNat < 2 ^ 128 ∧ m' = credit m k x := by
  obtain ⟨b, hb, h⟩ := bind_eq_ok.1 h
  obtain rfl := Except.ok.inj h
  replace hb := ofOption_eq_ok.1 hb
  rw [checkedAdd128] at hb
  split at hb
  · next hlt =>
    obtain rfl := Option.some.inj hb
    exact ⟨hlt, rfl⟩
  · cases hb

theorem toNat_u64AsU128 (n : UInt64) : (u64AsU128 n).toNat = n.toNat := by
  rw [u64AsU128, BitVec.toNat_ofNat]
  exact Nat.mod_eq_of_lt (n.toNat_lt.trans (by norm_num))

theorem toNat_xrgeToQuanta (n : UInt64) :
    (xrgeToQuanta n).toNat = quantaPerXrge.toNat * n.toNat := by
  have hlt : n.toNat * 1000000000 < 2 ^ 128 :=
    (Nat.mul_lt_mul_of_pos_right n.toNat_lt (by norm_num)).trans (by norm_num)
  rw [xrgeToQuanta, BitVec.toNat_mul, toNat_u64AsU128, Nat.mul_comm]
  exact Nat.mod_eq_of_lt (by rwa [Nat.mul_comm])

/-- What the accounts hold under a symbol, or of a pool's shares. -/
def heldOf (sym : String) (m : TokenBalances) : ℕ := total (fun k => k.2 == sym) m

variable {sender : String} {b b' : ExtTreeMap String U128} {tb tb' : TokenBalances}

theorem heldOf_takeFrom {sym : String} {n : UInt64}
    (h : takeFrom tb (sender, sym) (u64AsU128 n) = .ok tb') (sym' : String) :
    heldOf sym' tb' + (if sym = sym' then n.toNat else 0) = heldOf sym' tb := by
  obtain ⟨hle, rfl⟩ := takeFrom_eq_ok h
  have hdebit := total_debit (p := fun k : String × String => k.2 == sym') hle
  simp only [beq_iff_eq, toNat_u64AsU128] at hdebit
  exact hdebit

theorem heldOf_giveTo {sym : String} {n : UInt64}
    (h : giveTo tb (sender, sym) (u64AsU128 n) = .ok tb') (sym' : String) :
    heldOf sym' tb' = heldOf sym' tb + if sym = sym' then n.toNat else 0 := by
  obtain ⟨hlt, rfl⟩ := giveTo_eq_ok h
  have hcredit := total_credit (p := fun k : String × String => k.2 == sym') hlt
  simp only [beq_iff_eq, toNat_u64AsU128] at hcredit
  exact hcredit

variable [Std.LawfulEqOrd K] [DecidableEq K]

/-- An account of someone else is left alone. -/
theorem balance_takeFrom_of_ne (h : takeFrom m k x = .ok m') {a : K} (ha : k ≠ a) :
    balance m' a = balance m a := by
  obtain ⟨-, rfl⟩ := takeFrom_eq_ok h
  rw [balance_debit, if_neg ha]

theorem balance_giveTo_of_ne (h : giveTo m k x = .ok m') {a : K} (ha : k ≠ a) :
    balance m' a = balance m a := by
  obtain ⟨-, rfl⟩ := giveTo_eq_ok h
  rw [balance_credit, if_neg ha]

theorem pair_ne_of_fst_ne {sym : String} {k : String × String} (h : k.1 ≠ sender) :
    (sender, sym) ≠ k := fun heq => h (heq ▸ rfl)

theorem takeDebits_eq_ok {debits : List (String × UInt64)} {xrge xrge' : U128}
    (h : takeDebits sender debits xrge tb = .ok (xrge', tb')) :
    xrge'.toNat = xrge.toNat + quantaPerXrge.toNat * amountOf xrgeSymbol debits ∧
      (∀ sym, sym ≠ xrgeSymbol → heldOf sym tb' + amountOf sym debits = heldOf sym tb) ∧
      ∀ k : String × String, k.1 ≠ sender → balance tb' k = balance tb k := by
  induction debits generalizing xrge tb with
  | nil =>
    cases h
    exact ⟨rfl, fun _ _ => rfl, fun _ _ => rfl⟩
  | cons e debits ih =>
    obtain ⟨sym, amount⟩ := e
    rw [takeDebits] at h
    split at h
    · next hsym =>
      obtain ⟨out, hout, h⟩ := bind_eq_ok.1 h
      obtain ⟨hxrge, htokens, hframe⟩ := ih h
      replace hout := ofOption_eq_ok.1 hout
      rw [checkedAdd128] at hout
      split at hout
      · next hlt =>
        obtain rfl := Option.some.inj hout
        refine ⟨?_, fun sym' hne => ?_, hframe⟩
        · rw [hxrge, BitVec.toNat_add, Nat.mod_eq_of_lt hlt, toNat_xrgeToQuanta, amountOf_cons,
            if_pos hsym, Nat.mul_add, Nat.add_assoc]
        · rw [amountOf_cons, if_neg (hsym ▸ hne.symm), Nat.zero_add]
          exact htokens sym' hne
      · cases hout
    · next hsym =>
      obtain ⟨tb₁, htake, h⟩ := bind_eq_ok.1 h
      obtain ⟨hxrge, htokens, hframe⟩ := ih h
      refine ⟨?_, fun sym' hne => ?_, fun k hk => ?_⟩
      · rw [hxrge, amountOf_cons, if_neg hsym, Nat.zero_add]
      · have hone := heldOf_takeFrom htake sym'
        have hmany := htokens sym' hne
        rw [amountOf_cons]
        dsimp only
        omega
      · rw [hframe k hk, balance_takeFrom_of_ne htake (pair_ne_of_fst_ne hk)]

theorem giveCredits_eq_ok {credits : List (String × UInt64)}
    (h : giveCredits sender credits b tb = .ok (b', tb')) :
    total (fun _ => true) b' =
        total (fun _ => true) b + quantaPerXrge.toNat * amountOf xrgeSymbol credits ∧
      (∀ sym, sym ≠ xrgeSymbol → heldOf sym tb' = heldOf sym tb + amountOf sym credits) ∧
      (∀ a, a ≠ sender → balance b' a = balance b a) ∧
      ∀ k : String × String, k.1 ≠ sender → balance tb' k = balance tb k := by
  induction credits generalizing b tb with
  | nil =>
    cases h
    exact ⟨rfl, fun _ _ => rfl, fun _ _ => rfl, fun _ _ => rfl⟩
  | cons e credits ih =>
    obtain ⟨sym, amount⟩ := e
    rw [giveCredits] at h
    split at h
    · next hsym =>
      obtain ⟨b₁, hgive, h⟩ := bind_eq_ok.1 h
      obtain ⟨hxrge, htokens, hframe, hframe'⟩ := ih h
      refine ⟨?_, fun sym' hne => ?_, fun a ha => ?_, hframe'⟩
      · obtain ⟨hlt, rfl⟩ := giveTo_eq_ok hgive
        rw [hxrge, total_credit hlt, if_pos rfl, toNat_xrgeToQuanta, amountOf_cons, if_pos hsym,
          Nat.mul_add, Nat.add_assoc]
      · rw [amountOf_cons, if_neg (hsym ▸ hne.symm), Nat.zero_add]
        exact htokens sym' hne
      · rw [hframe a ha, balance_giveTo_of_ne hgive ha.symm]
    · next hsym =>
      obtain ⟨tb₁, hgive, h⟩ := bind_eq_ok.1 h
      obtain ⟨hxrge, htokens, hframe, hframe'⟩ := ih h
      refine ⟨?_, fun sym' hne => ?_, hframe, fun k hk => ?_⟩
      · rw [hxrge, amountOf_cons, if_neg hsym, Nat.zero_add]
      · rw [htokens sym' hne, heldOf_giveTo hgive, amountOf_cons, Nat.add_assoc]
      · rw [hframe' k hk, balance_giveTo_of_ne hgive (pair_ne_of_fst_ne hk)]

theorem changeLp_eq_ok {lp lp' : TokenBalances} {change : Option (String × LpChange)}
    (h : changeLp sender lp change = .ok lp') :
    (∀ id, heldOf id lp' + burntOf id change = heldOf id lp + mintedOf id change) ∧
      ∀ k : String × String, k.1 ≠ sender → balance lp' k = balance lp k := by
  rcases change with _ | ⟨poolId, n | n⟩
  · cases h
    exact ⟨fun _ => rfl, fun _ _ => rfl⟩
  · exact ⟨fun id => heldOf_giveTo h id,
      fun k hk => balance_giveTo_of_ne h (pair_ne_of_fst_ne hk)⟩
  · exact ⟨fun id => heldOf_takeFrom h id,
      fun k hk => balance_takeFrom_of_ne h (pair_ne_of_fst_ne hk)⟩

end Accounts

/-! ## Conservation -/

namespace AmmLedger

/-- What the accounts and the pools have of a token; for XRGE in quanta. -/
def wealth (l : AmmLedger) (sym : String) : ℕ :=
  if sym = xrgeSymbol then
    total (fun _ => true) l.balances +
      quantaPerXrge.toNat * valueSum (LiquidityPool.reserveOf sym) l.pools.pools
  else heldOf sym l.tokenBalances + valueSum (LiquidityPool.reserveOf sym) l.pools.pools

/-- The shares of each pool are those its holders have. -/
def SharesHeld (l : AmmLedger) : Prop :=
  ∀ (id : String) (q : LiquidityPool), l.pools.getPool id = some q →
    q.totalLpSupply.toNat = heldOf id l.lpBalances

/-- Nobody has shares of a pool that does not exist. -/
def NoStrayShares (l : AmmLedger) : Prop :=
  ∀ id : String, l.pools.getPool id = none → heldOf id l.lpBalances = 0

/-- Nobody but the sender has other balances than before. -/
structure OnlySender (sender : String) (l l' : AmmLedger) : Prop where
  balances : ∀ a, a ≠ sender → balance l'.balances a = balance l.balances a
  tokenBalances : ∀ k : String × String, k.1 ≠ sender →
    balance l'.tokenBalances k = balance l.tokenBalances k
  lpBalances : ∀ k : String × String, k.1 ≠ sender →
    balance l'.lpBalances k = balance l.lpBalances k

variable {l l' : AmmLedger} {sender : String} {p : AmmPlan} {fee : U128}

theorem stored_eq_heldOf (hshares : l.SharesHeld) (hstray : l.NoStrayShares) (id : String) :
    storedOf l.pools.getPool (·.totalLpSupply.toNat) id = heldOf id l.lpBalances := by
  cases hpool : l.pools.getPool id with
  | none => rw [storedOf_of_none hpool, hstray id hpool]
  | some q => rw [storedOf_of_some hpool, hshares id q hpool]

theorem writePlan_wealth (hplan : Balanced l.pools.getPool p)
    (h : l.writePlan sender p = .ok (l', fee)) (sym : String) :
    l'.wealth sym + (if sym = xrgeSymbol then fee.toNat else 0) = l.wealth sym := by
  obtain ⟨⟨xrgeOut, tb₁⟩, hdebits, h⟩ := bind_eq_ok.1 h
  obtain ⟨b₁, htake, h⟩ := bind_eq_ok.1 h
  obtain ⟨⟨b₂, tb₂⟩, hcredits, h⟩ := bind_eq_ok.1 h
  obtain ⟨lp, _, h⟩ := bind_eq_ok.1 h
  cases h
  obtain ⟨hout, htokens, -⟩ := takeDebits_eq_ok hdebits
  obtain ⟨hle, rfl⟩ := takeFrom_eq_ok htake
  obtain ⟨hxrge, htokens', -⟩ := giveCredits_eq_ok hcredits
  have hamounts := hplan.amounts sym
  have hpools := PoolStore.valueSum_foldl_savePool (s := l.pools) (LiquidityPool.reserveOf sym)
    hplan.ids
  rw [wealth, wealth]
  by_cases hsym : sym = xrgeSymbol
  · subst hsym
    have hdebit := total_debit (p := fun _ => true) hle
    simp only [if_true] at hdebit ⊢
    rw [hxrge]
    -- in quanta, what the pools gain is what the sender is debited less what it is credited
    have hscaled := congrArg (quantaPerXrge.toNat * ·) hamounts
    have hscaled' := congrArg (quantaPerXrge.toNat * ·) hpools
    simp only [Nat.mul_add] at hscaled hscaled'
    omega
  · simp only [if_neg hsym]
    have hdebit := htokens sym hsym
    have hcredit := htokens' sym hsym
    omega

theorem writePlan_shares (hplan : Balanced l.pools.getPool p)
    (h : l.writePlan sender p = .ok (l', fee)) (hshares : l.SharesHeld)
    (hstray : l.NoStrayShares) : l'.SharesHeld ∧ l'.NoStrayShares := by
  obtain ⟨⟨xrgeOut, tb₁⟩, _, h⟩ := bind_eq_ok.1 h
  obtain ⟨b₁, _, h⟩ := bind_eq_ok.1 h
  obtain ⟨⟨b₂, tb₂⟩, _, h⟩ := bind_eq_ok.1 h
  obtain ⟨lp, hlp, h⟩ := bind_eq_ok.1 h
  cases h
  obtain ⟨hheld, -⟩ := changeLp_eq_ok hlp
  -- a pool that the plan does not write keeps its shares
  have hother (id : String) (hid : id ∉ p.pools.map LiquidityPool.poolId) :
      (p.pools.foldl PoolStore.savePool l.pools).getPool id = l.pools.getPool id ∧
        heldOf id lp = heldOf id l.lpBalances := by
    obtain ⟨hminted, hburnt⟩ := hplan.lp id hid
    have hid' := hheld id
    rw [hminted, hburnt] at hid'
    exact ⟨PoolStore.getPool_foldl_of_notMem hid, hid'⟩
  constructor
  · intro id q hq
    by_cases hid : id ∈ p.pools.map LiquidityPool.poolId
    · obtain ⟨r, hr, rfl⟩ := List.mem_map.1 hid
      obtain rfl : r = q :=
        Option.some.inj ((PoolStore.getPool_foldl_of_mem hr hplan.ids).symm.trans hq)
      have hsupply := hplan.supply r hr
      have hid' := hheld r.poolId
      rw [stored_eq_heldOf hshares hstray] at hsupply
      dsimp only
      omega
    · obtain ⟨hpool, hsame⟩ := hother id hid
      exact (hshares id q (hpool ▸ hq)).trans hsame.symm
  · intro id hnone
    by_cases hid : id ∈ p.pools.map LiquidityPool.poolId
    · obtain ⟨r, hr, rfl⟩ := List.mem_map.1 hid
      have hsome := (PoolStore.getPool_foldl_of_mem hr hplan.ids).symm.trans hnone
      cases hsome
    · obtain ⟨hpool, hsame⟩ := hother id hid
      exact hsame.trans (hstray id (hpool ▸ hnone))

theorem writePlan_onlySender (h : l.writePlan sender p = .ok (l', fee)) :
    fee = p.feeQuanta ∧ OnlySender sender l l' := by
  obtain ⟨⟨xrgeOut, tb₁⟩, hdebits, h⟩ := bind_eq_ok.1 h
  obtain ⟨b₁, htake, h⟩ := bind_eq_ok.1 h
  obtain ⟨⟨b₂, tb₂⟩, hcredits, h⟩ := bind_eq_ok.1 h
  obtain ⟨lp, hlp, h⟩ := bind_eq_ok.1 h
  cases h
  obtain ⟨-, -, hframe⟩ := takeDebits_eq_ok hdebits
  obtain ⟨-, -, hbalances, hframe'⟩ := giveCredits_eq_ok hcredits
  refine ⟨rfl, fun a ha => ?_, fun k hk => ?_, (changeLp_eq_ok hlp).2⟩
  · rw [hbalances a ha, balance_takeFrom_of_ne htake ha.symm]
  · rw [hframe' k hk, hframe k hk]

end AmmLedger

theorem plan_feeQuanta {view : AmmView} {tx : TxV1} {blockTime : UInt64} {p : AmmPlan}
    (h : plan view tx blockTime = .ok p) : p.feeQuanta = feeToQuanta tx.fee := by
  rw [plan] at h
  split at h
  · obtain ⟨_, _, _, _, -, -, hfee, -⟩ := planCreate_eq_ok h
    exact hfee
  · obtain ⟨_, _, _, _, _, _, -, -, -, hfee, -⟩ := planAdd_eq_ok h
    exact hfee
  · obtain ⟨_, _, _, _, _, _, -, -, -, hfee, -⟩ := planRemove_eq_ok h
    exact hfee
  · obtain ⟨_, _, _, _, _, _, -, -, hfee, -⟩ := planSwap_eq_ok h
    exact hfee
  · cases h

/-- A pool transaction that is applied has no effect and charges nothing; or it charges the fee to
    its sender, and leaves each token in the accounts and the pools but for that fee, and the
    shares of each pool with its holders. -/
theorem amm_conserves (P : Platform) (l l' : AmmLedger) (tx : TxV1) (blockTime : UInt64) (fee : U128)
    (hshares : l.SharesHeld) (hstray : l.NoStrayShares)
    (h : l.applyAmmTxIntegrity P tx blockTime = .ok (l', fee)) :
    (l' = l ∧ fee = 0) ∨
      fee = feeToQuanta tx.fee ∧ AmmLedger.OnlySender (canonAddr P tx.fromPubKey) l l' ∧
        (∀ sym, l'.wealth sym + (if sym = xrgeSymbol then fee.toNat else 0) = l.wealth sym) ∧
        l'.SharesHeld ∧ l'.NoStrayShares := by
  rw [AmmLedger.applyAmmTxIntegrity] at h
  split at h
  · split at h
    · next p hplan =>
      have hbalanced : Balanced l.pools.getPool p := plan_balanced l.pools.keys hplan
      obtain ⟨rfl, honly⟩ := AmmLedger.writePlan_onlySender h
      exact .inr ⟨plan_feeQuanta hplan, honly, AmmLedger.writePlan_wealth hbalanced h,
        AmmLedger.writePlan_shares hbalanced h hshares hstray⟩
    · cases h
      exact .inl ⟨rfl, rfl⟩
  · cases h
    exact .inl ⟨rfl, rfl⟩

/-- Two tokens and some XRGE with one account, no pools, and shares as given. -/
def tokenLedger (lp : TokenBalances) : AmmLedger where
  balances := (∅ : ExtTreeMap String U128).insert "alice" (xrgeToQuanta 10)
  tokenBalances := ((∅ : TokenBalances).insert ("alice", "A") 5000).insert ("alice", "B") 5000
  lpBalances := lp
  pools := .empty

def createAB : TxV1 :=
  { localTx .createPool "alice" { tokenASymbol := some "A", tokenBSymbol := some "B"
                                  amountA := some 2000, amountB := some 2000 } with fee := 1.0 }

theorem tokenLedger_sharesHeld (lp : TokenBalances) : (tokenLedger lp).SharesHeld :=
  fun _ _ h => nomatch h

theorem tokenLedger_noStrayShares : (tokenLedger ∅).NoStrayShares := fun _ _ => total_empty

/-- What can be checked of the result of a call that succeeds. -/
theorem exists_ok_of_any {r : Except String (AmmLedger × U128)} {c : AmmLedger × U128 → Bool}
    (h : r.toOption.any c = true) : ∃ l fee, r = .ok (l, fee) ∧ c (l, fee) = true := by
  cases r with
  | error => cases h
  | ok r => exact ⟨r.1, r.2, rfl, h⟩

theorem createAB_conserves :
    ∃ l' fee, (tokenLedger ∅).applyAmmTxIntegrity localEnv.toPlatform createAB 7 = .ok (l', fee) ∧
      fee = feeToQuanta 1.0 ∧ l'.wealth "A" = (tokenLedger ∅).wealth "A" ∧ l'.SharesHeld := by
  obtain ⟨l', fee, hrun, hfee⟩ := exists_ok_of_any
    (r := (tokenLedger ∅).applyAmmTxIntegrity localEnv.toPlatform createAB 7)
    (c := fun r => r.2 != 0) (by decide +kernel)
  refine ⟨l', fee, hrun, ?_⟩
  rcases amm_conserves _ _ l' createAB 7 fee (tokenLedger_sharesHeld ∅) tokenLedger_noStrayShares
    hrun with ⟨-, rfl⟩ | ⟨rfl, -, hwealth, hshares, -⟩
  · cases hfee
  · exact ⟨rfl, hwealth "A", hshares⟩

/-- Shares of a pool that does not exist yet are not part of its supply once it does. -/
theorem stray_shares_not_issued :
    let l := tokenLedger ((∅ : TokenBalances).insert ("bob", "A-B") 5)
    l.SharesHeld ∧ ∃ l' fee,
      l.applyAmmTxIntegrity localEnv.toPlatform createAB 7 = .ok (l', fee) ∧ ¬ l'.SharesHeld := by
  intro l
  obtain ⟨l', fee, hrun, hcheck⟩ := exists_ok_of_any
    (r := l.applyAmmTxIntegrity localEnv.toPlatform createAB 7)
    (c := fun r => (r.1.pools.getPool "A-B").any
      (·.totalLpSupply.toNat != heldOf "A-B" r.1.lpBalances)) (by decide +kernel)
  obtain ⟨q, hq, hne⟩ := (Option.any_eq_true ..).1 hcheck
  exact ⟨tokenLedger_sharesHeld _, l', fee, hrun, fun h => bne_iff_ne.1 hne (h "A-B" q hq)⟩

end RougeChain.Node
