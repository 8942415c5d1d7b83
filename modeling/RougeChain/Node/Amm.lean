import RougeChain.Library.Runs
import RougeChain.Node.Binding

/-!
# Liquidity pools

The pool transactions under `AMM_INTEGRITY`: `plan` decides on copies what a transaction would do
to the balances of its sender and to the pools, and only a complete plan is written. A pool trades
two tokens at the price of a constant product, with a fee of 0.3 % on the input; its shares are
issued and redeemed in proportion to the reserves.

* `Moves`: what a plan can do to a pool that exists, with the arithmetic of each of its roundings;
* `plan_pools`: a plan writes nothing but such moves, and new pools;
* `lp_value_never_falls`: over every run, the value of a share never falls while there are shares,
  and a pool made by `create_pool` has no shares exactly when it is empty.
-/

open Fallible

namespace RougeChain.Node

open Std (ExtTreeMap)

/-! ## Integers -/

/-- The loop of `isqrt`; `x` falls with every turn, so that `n` turns suffice. -/
def isqrtLoop : ℕ → ℕ → ℕ → ℕ → ℕ
  | 0, _, x, _ => x
  | fuel + 1, n, x, y => if y < x then isqrtLoop fuel n y ((y + n / y) / 2) else x

/-- The integer square root, by Newton's method. -/
def isqrt (n : ℕ) : ℕ := if n < 2 then n else isqrtLoop n n n ((n + 1) / 2)

def xrgeToQuanta (wholeXrge : UInt64) : U128 := u64AsU128 wholeXrge * quantaPerXrge

/-- The source's `u64::try_from(n)`. -/
def tryU64 (n : ℕ) : Option UInt64 := if n < 2 ^ 64 then some (.ofNat n) else none

/-! ## Pools -/

def minimumLiquidity : ℕ := 1000

def feeNumerator : ℕ := 997

def feeDenominator : ℕ := 1000

structure LiquidityPool where
  poolId : String
  tokenA : String
  tokenB : String
  reserveA : UInt64
  reserveB : UInt64
  totalLpSupply : UInt64
  feeRate : Float
  createdAt : UInt64
  creatorPubKey : String

/-- A pool with its first liquidity; the tokens are put in order. -/
def LiquidityPool.new (tokenA tokenB : String) (reserveA reserveB : UInt64)
    (creatorPubKey : String) (createdAt : UInt64) : LiquidityPool :=
  let initialLp := UInt64.ofNat (isqrt (reserveA.toNat * reserveB.toNat) - minimumLiquidity)
  if compare tokenA tokenB = .lt then
    { poolId := tokenA ++ "-" ++ tokenB, tokenA, tokenB, reserveA, reserveB
      totalLpSupply := initialLp, feeRate := 0.003, createdAt, creatorPubKey }
  else
    { poolId := tokenB ++ "-" ++ tokenA, tokenA := tokenB, tokenB := tokenA
      reserveA := reserveB, reserveB := reserveA
      totalLpSupply := initialLp, feeRate := 0.003, createdAt, creatorPubKey }

/-- What a swap pays, after the fee. The product may wrap. -/
def getAmountOut (amountIn reserveIn reserveOut : UInt64) : Option UInt64 :=
  if amountIn = 0 ∨ reserveIn = 0 ∨ reserveOut = 0 then none
  else
    let amountInWithFee := amountIn.toNat * feeNumerator
    let numerator := amountInWithFee * reserveOut.toNat % 2 ^ 128
    let denominator := reserveIn.toNat * feeDenominator + amountInWithFee
    if denominator = 0 then none else some (.ofNat (numerator / denominator))

/-! ## Plans -/

/-- The symbol of the native token in pool transactions. -/
def xrgeSymbol : String := "XRGE"

def maxPathTokens : ℕ := 4

/-- What the planner may read. Balances are those of the sender. -/
structure AmmView where
  xrgeQuanta : U128
  token : String → U128
  lp : String → U128
  pool : String → Option LiquidityPool
  pools : List LiquidityPool

inductive LpChange where
  | mint (n : UInt64)
  | burn (n : UInt64)

/-- What happened, for the log. -/
inductive AmmEffect where
  | create (amountA amountB lp : UInt64)
  | add (amountA amountB lp : UInt64)
  | remove (amountA amountB lp : UInt64)
  | swap (tokenIn tokenOut : String) (amountIn amountOut : UInt64)

/-- Everything a pool transaction does. Amounts of XRGE are whole. -/
structure AmmPlan where
  feeQuanta : U128
  debits : List (String × UInt64)
  credits : List (String × UInt64)
  lp : Option (String × LpChange)
  /-- The pools it writes, in this order. -/
  pools : List LiquidityPool
  effect : AmmEffect

/-- A symbol that is not empty and has no white space around it. -/
def wellFormed (sym : String) : Bool := sym != "" && Text.trim Text.isWhitespace sym == sym

section Plan

variable (view : AmmView)

/-- What the debits take in quanta on top of `needed`, if the sender has the tokens. -/
def xrgeNeeded : List (String × UInt64) → U128 → Except String U128
  | [], needed => return needed
  | (sym, amount) :: debits, needed => do
    if sym = xrgeSymbol then
      let needed ← ofOption "amount out of range"
        (checkedAdd128 needed (xrgeToQuanta amount))
      xrgeNeeded debits needed
    else
      require (u64AsU128 amount ≤ view.token sym) ("insufficient " ++ sym ++ " balance")
      xrgeNeeded debits needed

def checkCredits : List (String × UInt64) → Except String Unit
  | [] => return ()
  | (sym, amount) :: credits => do
    let held := if sym = xrgeSymbol then view.xrgeQuanta else view.token sym
    let add := if sym = xrgeSymbol then xrgeToQuanta amount else u64AsU128 amount
    require (checkedAdd128 held add).isSome "balance out of range"
    checkCredits credits

def checkLp : Option (String × LpChange) → Except String Unit
  | some (poolId, .burn n) =>
    require (u64AsU128 n ≤ view.lp poolId) "insufficient LP tokens"
  | some (poolId, .mint n) =>
    require (checkedAdd128 (view.lp poolId) (u64AsU128 n)).isSome "LP balance out of range"
  | none => return ()

/-- Whether the sender can pay the fee and every debit, and receive every credit. -/
def affordable (plan : AmmPlan) : Except String AmmPlan := do
  let needed ← xrgeNeeded view plan.debits plan.feeQuanta
  require (needed ≤ view.xrgeQuanta) "insufficient XRGE balance"
  checkCredits view plan.credits
  checkLp view plan.lp
  return plan

/-- Whether a pool trades this pair, in either order and any letter case. -/
def samePair (a b : String) (q : LiquidityPool) : Bool :=
  (Text.eqIgnoreCase q.tokenA a && Text.eqIgnoreCase q.tokenB b) ||
    (Text.eqIgnoreCase q.tokenA b && Text.eqIgnoreCase q.tokenB a)

def planCreate (tx : TxV1) (blockTime : UInt64) : Except String AmmPlan := do
  let a ← ofOption "both token symbols are required" tx.payload.tokenASymbol
  let b ← ofOption "both token symbols are required" tx.payload.tokenBSymbol
  let x ← ofOption "both amounts are required" tx.payload.amountA
  let y ← ofOption "both amounts are required" tx.payload.amountB
  require (wellFormed a ∧ wellFormed b) "malformed token symbol"
  require (¬ Text.eqIgnoreCase a b) "a pool needs two different tokens"
  require (x ≠ 0 ∧ y ≠ 0) "amounts must be greater than zero"
  require (minimumLiquidity < isqrt (x.toNat * y.toNat)) "no LP tokens would be minted"
  let pool := LiquidityPool.new a b x y tx.fromPubKey blockTime
  require ((view.pool pool.poolId).isNone ∧ ¬ view.pools.any (samePair a b))
    "a pool for this pair already exists"
  let lp := pool.totalLpSupply
  require (lp ≠ 0) "no LP tokens would be minted"
  affordable view
    { feeQuanta := feeToQuanta tx.fee
      debits := [(a, x), (b, y)]
      credits := []
      lp := some (pool.poolId, .mint lp)
      pools := [pool]
      effect := .create x y lp }

/-- The shares for adding `x` and `y` to a pool. -/
def lpForAdd (pool : LiquidityPool) (x y : UInt64) : Except String ℕ :=
  if pool.totalLpSupply = 0 then return isqrt (x.toNat * y.toNat) - minimumLiquidity
  else do
    require (pool.reserveA ≠ 0 ∧ pool.reserveB ≠ 0) "pool has an empty side"
    return min (x.toNat * pool.totalLpSupply.toNat / pool.reserveA.toNat)
      (y.toNat * pool.totalLpSupply.toNat / pool.reserveB.toNat)

def planAdd (tx : TxV1) : Except String AmmPlan := do
  let poolId ← ofOption "pool_id is required" tx.payload.poolId
  let x ← ofOption "both amounts are required" tx.payload.amountA
  let y ← ofOption "both amounts are required" tx.payload.amountB
  require (x ≠ 0 ∧ y ≠ 0) "amounts must be greater than zero"
  let pool ← ofOption "pool not found" (view.pool poolId)
  let lp ← lpForAdd pool x y
  let lp ← ofOption "amount out of range" (tryU64 lp)
  require (lp ≠ 0) "no LP tokens would be minted"
  let reserveA ← ofOption "amount out of range" (checkedAdd64 pool.reserveA x)
  let reserveB ← ofOption "amount out of range" (checkedAdd64 pool.reserveB y)
  let totalLpSupply ← ofOption "amount out of range" (checkedAdd64 pool.totalLpSupply lp)
  affordable view
    { feeQuanta := feeToQuanta tx.fee
      debits := [(pool.tokenA, x), (pool.tokenB, y)]
      credits := []
      lp := some (pool.poolId, .mint lp)
      pools := [{ pool with reserveA, reserveB, totalLpSupply }]
      effect := .add x y lp }

def planRemove (tx : TxV1) : Except String AmmPlan := do
  let poolId ← ofOption "pool_id is required" tx.payload.poolId
  let lp ← ofOption "lp_amount is required" tx.payload.lpAmount
  require (lp ≠ 0) "lp_amount must be greater than zero"
  let pool ← ofOption "pool not found" (view.pool poolId)
  require (lp ≤ pool.totalLpSupply) "more LP tokens than the pool has issued"
  let outA ← ofOption "amount out of range"
    (tryU64 (lp.toNat * pool.reserveA.toNat / pool.totalLpSupply.toNat))
  let outB ← ofOption "amount out of range"
    (tryU64 (lp.toNat * pool.reserveB.toNat / pool.totalLpSupply.toNat))
  require (outA ≠ 0 ∧ outB ≠ 0) "nothing would be returned on one side of the pool"
  let reserveA ← ofOption "amount out of range" (checkedSub64 pool.reserveA outA)
  let reserveB ← ofOption "amount out of range" (checkedSub64 pool.reserveB outB)
  affordable view
    { feeQuanta := feeToQuanta tx.fee
      debits := []
      credits := [(pool.tokenA, outA), (pool.tokenB, outB)]
      lp := some (pool.poolId, .burn lp)
      pools := [{ pool with reserveA, reserveB, totalLpSupply := pool.totalLpSupply - lp }]
      effect := .remove outA outB lp }

/-- One step of a route: the pool after it, and what it pays. -/
def hop (tIn tOut : String) (pools : List LiquidityPool) (amount : UInt64) :
    Except String (LiquidityPool × UInt64) := do
  require (tIn ≠ tOut) "a route step needs two different tokens"
  let id := makePoolId tIn tOut
  require (∀ q ∈ pools, q.poolId ≠ id) "a route may use each pool once"
  let pool ← ofOption "pool not found" (view.pool id)
  let inIsA := pool.tokenA == tIn && pool.tokenB == tOut
  require (inIsA ∨ (pool.tokenB = tIn ∧ pool.tokenA = tOut))
    "the pool does not trade this pair"
  let rIn := if inIsA then pool.reserveA else pool.reserveB
  let rOut := if inIsA then pool.reserveB else pool.reserveA
  let out ← ofOption "no output from the pool"
    ((getAmountOut amount rIn rOut).filter fun o => 0 < o && o < rOut)
  let newIn ← ofOption "amount out of range" (checkedAdd64 rIn amount)
  let newOut := rOut - out
  return (if inIsA then { pool with reserveA := newIn, reserveB := newOut }
    else { pool with reserveB := newIn, reserveA := newOut }, out)

/-- The steps of a route, one after another. -/
def route : List String → List LiquidityPool → UInt64 →
    Except String (List LiquidityPool × UInt64)
  | tIn :: tOut :: path, pools, amount => do
    let (pool, out) ← hop view tIn tOut pools amount
    route (tOut :: path) (pools ++ [pool]) out
  | _, pools, amount => return (pools, amount)

def planSwap (tx : TxV1) : Except String AmmPlan := do
  let tokenIn ← ofOption "both tokens are required" tx.payload.tokenASymbol
  let tokenOut ← ofOption "both tokens are required" tx.payload.tokenBSymbol
  let amountIn ← ofOption "amount_in is required" tx.payload.amountA
  require (amountIn ≠ 0) "amount_in must be greater than zero"
  require (tokenIn ≠ tokenOut) "a swap needs two different tokens"
  let path := tx.payload.swapPath.getD [tokenIn, tokenOut]
  require (2 ≤ path.length ∧ path.length ≤ maxPathTokens) "a route names 2 to 4 tokens"
  require (path.head? = some tokenIn ∧ path.getLast? = some tokenOut)
    "the route must start at the input token and end at the output token"
  let (pools, amount) ← route view path [] amountIn
  require (tx.payload.minAmountOut.getD 0 ≤ amount)
    "output below the minimum the sender signed"
  affordable view
    { feeQuanta := feeToQuanta tx.fee
      debits := [(tokenIn, amountIn)]
      credits := [(tokenOut, amount)]
      lp := none
      pools
      effect := .swap tokenIn tokenOut amountIn amount }

/-- Decide a pool transaction; a refusal means that it has no effect. -/
def plan (tx : TxV1) (blockTime : UInt64) : Except String AmmPlan :=
  match tx.kind with
  | .createPool => planCreate view tx blockTime
  | .addLiquidity => planAdd view tx
  | .removeLiquidity => planRemove view tx
  | .swap => planSwap view tx
  | _ => .error "not a pool transaction"

end Plan

/-! ## The square root -/

/-- A turn of Newton's method does not fall below the root. -/
theorem sqrt_le_newton {n x : ℕ} (hx : 0 < x) (hroot : n.sqrt ≤ x) :
    n.sqrt ≤ (x + n / x) / 2 := by
  obtain ⟨d, rfl⟩ := Nat.exists_eq_add_of_le hroot
  -- (√n - d) (√n + d) ≤ n
  have hmul : (n.sqrt - d) * (n.sqrt + d) ≤ n := by
    rw [mul_comm, ← Nat.mul_self_sub_mul_self_eq]
    exact (Nat.sub_le ..).trans (Nat.sqrt_le n)
  have hdiv := (Nat.le_div_iff_mul_le hx).2 hmul
  rw [Nat.le_div_iff_mul_le two_pos]
  generalize n / (n.sqrt + d) = q at hdiv
  omega

/-! ## What a plan does to the pools -/

section Moves

variable {view : AmmView} {tx : TxV1} {blockTime : UInt64} {p : AmmPlan}

theorem affordable_eq_ok {plan : AmmPlan} (h : affordable view plan = .ok p) : p = plan := by
  obtain ⟨_, _, h⟩ := bind_eq_ok.1 h
  obtain ⟨_, _, h⟩ := bind_eq_ok.1 h
  obtain ⟨_, _, h⟩ := bind_eq_ok.1 h
  obtain ⟨_, _, h⟩ := bind_eq_ok.1 h
  exact (Except.ok.inj h).symm

theorem tryU64_eq_some {n : ℕ} {c : UInt64} (h : tryU64 n = some c) : c.toNat = n := by
  rw [tryU64] at h
  split at h
  · next hlt =>
    obtain rfl := Option.some.inj h
    rw [UInt64.toNat_ofNat', Nat.mod_eq_of_lt hlt]
  · cases h

/-- What a plan can do to a pool. -/
inductive Moves (old new : LiquidityPool) : Prop
  | add {x y lp : ℕ} (hx : 0 < x) (hy : 0 < y) (hlp : 0 < lp)
    (hA : new.reserveA.toNat = old.reserveA.toNat + x)
    (hB : new.reserveB.toNat = old.reserveB.toNat + y)
    (hsupply : new.totalLpSupply.toNat = old.totalLpSupply.toNat + lp)
    (hfair : old.totalLpSupply ≠ 0 → lp * old.reserveA.toNat ≤ x * old.totalLpSupply.toNat ∧
      lp * old.reserveB.toNat ≤ y * old.totalLpSupply.toNat)
  | remove {outA outB lp : ℕ} (hlp : 0 < lp) (hle : lp ≤ old.totalLpSupply.toNat)
    (hA : new.reserveA.toNat + outA = old.reserveA.toNat)
    (hB : new.reserveB.toNat + outB = old.reserveB.toNat)
    (hsupply : new.totalLpSupply.toNat + lp = old.totalLpSupply.toNat)
    (houtA : outA = lp * old.reserveA.toNat / old.totalLpSupply.toNat)
    (houtB : outB = lp * old.reserveB.toNat / old.totalLpSupply.toNat)
    (hposA : 0 < outA) (hposB : 0 < outB)
  | swapA {amount out : ℕ} (hA : new.reserveA.toNat = old.reserveA.toNat + amount)
    (hB : new.reserveB.toNat + out = old.reserveB.toNat)
    (hsupply : new.totalLpSupply = old.totalLpSupply)
    (hpos : 0 < old.reserveA.toNat) (hlt : out < old.reserveB.toNat)
    (hprice : out * (old.reserveA.toNat + amount) ≤ amount * old.reserveB.toNat)
  | swapB {amount out : ℕ} (hB : new.reserveB.toNat = old.reserveB.toNat + amount)
    (hA : new.reserveA.toNat + out = old.reserveA.toNat)
    (hsupply : new.totalLpSupply = old.totalLpSupply)
    (hpos : 0 < old.reserveB.toNat) (hlt : out < old.reserveA.toNat)
    (hprice : out * (old.reserveB.toNat + amount) ≤ amount * old.reserveA.toNat)

/-- The price of a swap: the product of the reserves does not fall. A product that wraps pays less. -/
theorem getAmountOut_price {amount rIn rOut out : UInt64}
    (h : getAmountOut amount rIn rOut = some out) :
    0 < rIn.toNat ∧ out.toNat * (rIn.toNat + amount.toNat) ≤ amount.toNat * rOut.toNat := by
  rw [getAmountOut] at h
  split at h
  · cases h
  · next hne =>
    push Not at hne
    have hpos : 0 < rIn.toNat := Nat.pos_of_ne_zero fun h => hne.2.1 (UInt64.toNat_inj.1 h)
    have hden : rIn.toNat * feeDenominator + amount.toNat * feeNumerator ≠ 0 := by
      rw [feeDenominator]
      omega
    simp only [if_neg hden] at h
    rw [feeNumerator, feeDenominator] at h
    generalize hden : rIn.toNat * 1000 + amount.toNat * 997 = den at h
    have hout : out.toNat * den ≤ amount.toNat * 997 * rOut.toNat := by
      rw [← Option.some.inj h, UInt64.toNat_ofNat']
      calc _ ≤ amount.toNat * 997 * rOut.toNat % 2 ^ 128 / den * den :=
            Nat.mul_le_mul_right _ (Nat.mod_le _ _)
        _ ≤ amount.toNat * 997 * rOut.toNat := (Nat.div_mul_le_self _ _).trans (Nat.mod_le _ _)
    have hfee : (rIn.toNat + amount.toNat) * 997 ≤ den := by omega
    refine ⟨hpos, Nat.le_of_mul_le_mul_right ?_ (by norm_num : 0 < 997)⟩
    calc out.toNat * (rIn.toNat + amount.toNat) * 997
        = out.toNat * ((rIn.toNat + amount.toNat) * 997) := by ring
      _ ≤ out.toNat * den := Nat.mul_le_mul_left _ hfee
      _ ≤ amount.toNat * 997 * rOut.toNat := hout
      _ = amount.toNat * rOut.toNat * 997 := by ring

theorem toNat_pos {a : UInt64} (h : a ≠ 0) : 0 < a.toNat :=
  Nat.pos_of_ne_zero fun hzero => h (UInt64.toNat_inj.1 hzero)

/-- A new pool: it did not exist, and has shares and reserves. -/
structure IsNew (view : AmmView) (q : LiquidityPool) : Prop where
  absent : view.pool q.poolId = none
  supply : q.totalLpSupply ≠ 0
  reserveA : q.reserveA ≠ 0
  reserveB : q.reserveB ≠ 0

theorem planCreate_eq_ok (h : planCreate view tx blockTime = .ok p) :
    ∃ a b x y, p.debits = [(a, x), (b, y)] ∧ p.credits = [] ∧ p.feeQuanta = feeToQuanta tx.fee ∧
      p.pools = [LiquidityPool.new a b x y tx.fromPubKey blockTime] ∧
      p.lp = some ((LiquidityPool.new a b x y tx.fromPubKey blockTime).poolId,
        .mint (LiquidityPool.new a b x y tx.fromPubKey blockTime).totalLpSupply) ∧
      IsNew view (LiquidityPool.new a b x y tx.fromPubKey blockTime) := by
  obtain ⟨a, _, h⟩ := bind_eq_ok.1 h
  obtain ⟨b, _, h⟩ := bind_eq_ok.1 h
  obtain ⟨x, _, h⟩ := bind_eq_ok.1 h
  obtain ⟨y, _, h⟩ := bind_eq_ok.1 h
  obtain ⟨_, _, h⟩ := bind_eq_ok.1 h
  obtain ⟨_, _, h⟩ := bind_eq_ok.1 h
  obtain ⟨_, hpos, h⟩ := bind_eq_ok.1 h
  obtain ⟨_, _, h⟩ := bind_eq_ok.1 h
  obtain ⟨_, hnew, h⟩ := bind_eq_ok.1 h
  obtain ⟨_, hlp, h⟩ := bind_eq_ok.1 h
  obtain ⟨hx, hy⟩ := require_eq_ok.1 hpos
  obtain rfl := affordable_eq_ok h
  refine ⟨a, b, x, y, rfl, rfl, rfl, rfl, rfl, ?_, require_eq_ok.1 hlp, ?_, ?_⟩
  · exact Option.isNone_iff_eq_none.1 (require_eq_ok.1 hnew).1
  · rw [LiquidityPool.new]
    split
    · exact hx
    · exact hy
  · rw [LiquidityPool.new]
    split
    · exact hy
    · exact hx

theorem lpForAdd_eq_ok {pool : LiquidityPool} {x y : UInt64} {n : ℕ}
    (h : lpForAdd pool x y = .ok n) (hsupply : pool.totalLpSupply ≠ 0) :
    n * pool.reserveA.toNat ≤ x.toNat * pool.totalLpSupply.toNat ∧
      n * pool.reserveB.toNat ≤ y.toNat * pool.totalLpSupply.toNat := by
  rw [lpForAdd, if_neg hsupply] at h
  obtain ⟨_, _, h⟩ := bind_eq_ok.1 h
  obtain rfl := Except.ok.inj h
  constructor
  · exact (Nat.mul_le_mul_right _ (min_le_left ..)).trans (Nat.div_mul_le_self ..)
  · exact (Nat.mul_le_mul_right _ (min_le_right ..)).trans (Nat.div_mul_le_self ..)

theorem planAdd_eq_ok (h : planAdd view tx = .ok p) :
    ∃ id old new x y lp, view.pool id = some old ∧ p.debits = [(old.tokenA, x), (old.tokenB, y)] ∧
      p.credits = [] ∧ p.feeQuanta = feeToQuanta tx.fee ∧ p.pools = [new] ∧
      p.lp = some (old.poolId, .mint lp) ∧ new.poolId = old.poolId ∧ new.tokenA = old.tokenA ∧
      new.tokenB = old.tokenB ∧ new.reserveA.toNat = old.reserveA.toNat + x.toNat ∧
      new.reserveB.toNat = old.reserveB.toNat + y.toNat ∧
      new.totalLpSupply.toNat = old.totalLpSupply.toNat + lp.toNat ∧ Moves old new := by
  obtain ⟨id, _, h⟩ := bind_eq_ok.1 h
  obtain ⟨x, _, h⟩ := bind_eq_ok.1 h
  obtain ⟨y, _, h⟩ := bind_eq_ok.1 h
  obtain ⟨_, hpos, h⟩ := bind_eq_ok.1 h
  obtain ⟨old, hold, h⟩ := bind_eq_ok.1 h
  obtain ⟨n, hn, h⟩ := bind_eq_ok.1 h
  obtain ⟨lp, hlp, h⟩ := bind_eq_ok.1 h
  obtain ⟨_, hlp0, h⟩ := bind_eq_ok.1 h
  obtain ⟨ra, hra, h⟩ := bind_eq_ok.1 h
  obtain ⟨rb, hrb, h⟩ := bind_eq_ok.1 h
  obtain ⟨supply, hsupply, h⟩ := bind_eq_ok.1 h
  obtain ⟨hx, hy⟩ := require_eq_ok.1 hpos
  obtain rfl := affordable_eq_ok h
  have hA := checkedAdd64_eq_some (ofOption_eq_ok.1 hra)
  have hB := checkedAdd64_eq_some (ofOption_eq_ok.1 hrb)
  have hS := checkedAdd64_eq_some (ofOption_eq_ok.1 hsupply)
  have hlpn := tryU64_eq_some (ofOption_eq_ok.1 hlp)
  refine ⟨id, old, { old with reserveA := ra, reserveB := rb, totalLpSupply := supply }, x, y, lp,
    ofOption_eq_ok.1 hold, rfl, rfl, rfl, rfl, rfl, rfl, rfl, rfl, hA, hB, hS,
    .add (toNat_pos hx) (toNat_pos hy) (toNat_pos (require_eq_ok.1 hlp0)) hA hB hS ?_⟩
  intro hne
  rw [hlpn]
  exact lpForAdd_eq_ok hn hne

theorem planRemove_eq_ok (h : planRemove view tx = .ok p) :
    ∃ id old new outA outB lp, view.pool id = some old ∧ p.debits = [] ∧
      p.credits = [(old.tokenA, outA), (old.tokenB, outB)] ∧ p.feeQuanta = feeToQuanta tx.fee ∧
      p.pools = [new] ∧ p.lp = some (old.poolId, .burn lp) ∧ new.poolId = old.poolId ∧
      new.tokenA = old.tokenA ∧ new.tokenB = old.tokenB ∧
      new.reserveA.toNat + outA.toNat = old.reserveA.toNat ∧
      new.reserveB.toNat + outB.toNat = old.reserveB.toNat ∧
      new.totalLpSupply.toNat + lp.toNat = old.totalLpSupply.toNat ∧ Moves old new := by
  obtain ⟨id, _, h⟩ := bind_eq_ok.1 h
  obtain ⟨lp, _, h⟩ := bind_eq_ok.1 h
  obtain ⟨_, hlp, h⟩ := bind_eq_ok.1 h
  obtain ⟨old, hold, h⟩ := bind_eq_ok.1 h
  obtain ⟨_, hle, h⟩ := bind_eq_ok.1 h
  obtain ⟨outA, houtA, h⟩ := bind_eq_ok.1 h
  obtain ⟨outB, houtB, h⟩ := bind_eq_ok.1 h
  obtain ⟨_, hpos, h⟩ := bind_eq_ok.1 h
  obtain ⟨ra, hra, h⟩ := bind_eq_ok.1 h
  obtain ⟨rb, hrb, h⟩ := bind_eq_ok.1 h
  obtain ⟨hposA, hposB⟩ := require_eq_ok.1 hpos
  obtain rfl := affordable_eq_ok h
  have hA := checkedSub64_eq_some (ofOption_eq_ok.1 hra)
  have hB := checkedSub64_eq_some (ofOption_eq_ok.1 hrb)
  replace hle := require_eq_ok.1 hle
  have hS : (old.totalLpSupply - lp).toNat + lp.toNat = old.totalLpSupply.toNat := by
    rw [UInt64.toNat_sub_of_le _ _ hle]
    exact Nat.sub_add_cancel (UInt64.le_iff_toNat_le.1 hle)
  exact ⟨id, old, { old with reserveA := ra, reserveB := rb
                             totalLpSupply := old.totalLpSupply - lp }, outA, outB, lp,
    ofOption_eq_ok.1 hold, rfl, rfl, rfl, rfl, rfl, rfl, rfl, rfl, hA, hB, hS,
    .remove (toNat_pos (require_eq_ok.1 hlp)) (UInt64.le_iff_toNat_le.1 hle) hA hB hS
      (tryU64_eq_some (ofOption_eq_ok.1 houtA))
      (tryU64_eq_some (ofOption_eq_ok.1 houtB)) (toNat_pos hposA) (toNat_pos hposB)⟩

/-- One step of a route moves one pool, by what goes in and what comes out. -/
structure Hops (view : AmmView) (tIn tOut : String) (amount out : UInt64) (old new : LiquidityPool) :
    Prop where
  pool : view.pool (makePoolId tIn tOut) = some old
  poolId : new.poolId = old.poolId
  tokenA : new.tokenA = old.tokenA
  tokenB : new.tokenB = old.tokenB
  supply : new.totalLpSupply = old.totalLpSupply
  ne : tIn ≠ tOut
  reserves : (old.tokenA = tIn ∧ old.tokenB = tOut ∧
      new.reserveA.toNat = old.reserveA.toNat + amount.toNat ∧
      new.reserveB.toNat + out.toNat = old.reserveB.toNat) ∨
    (old.tokenB = tIn ∧ old.tokenA = tOut ∧
      new.reserveB.toNat = old.reserveB.toNat + amount.toNat ∧
      new.reserveA.toNat + out.toNat = old.reserveA.toNat)
  moves : Moves old new

theorem hop_eq_ok {tIn tOut : String} {pools : List LiquidityPool} {amount out : UInt64}
    {new : LiquidityPool} (h : hop view tIn tOut pools amount = .ok (new, out)) :
    (∀ q ∈ pools, q.poolId ≠ makePoolId tIn tOut) ∧
      ∃ old, Hops view tIn tOut amount out old new := by
  obtain ⟨_, hne, h⟩ := bind_eq_ok.1 h
  obtain ⟨_, honce, h⟩ := bind_eq_ok.1 h
  obtain ⟨old, hold, h⟩ := bind_eq_ok.1 h
  obtain ⟨_, hpair, h⟩ := bind_eq_ok.1 h
  obtain ⟨out', hout, h⟩ := bind_eq_ok.1 h
  obtain ⟨newIn, hin, h⟩ := bind_eq_ok.1 h
  replace hne := require_eq_ok.1 hne
  replace hold := ofOption_eq_ok.1 hold
  replace hpair := require_eq_ok.1 hpair
  replace hout := Option.filter_eq_some_iff.1 (ofOption_eq_ok.1 hout)
  replace hin := checkedAdd64_eq_some (ofOption_eq_ok.1 hin)
  refine ⟨require_eq_ok.1 honce, old, ?_⟩
  obtain ⟨hpays, hbounds⟩ := hout
  replace hbounds := of_decide_eq_true (Bool.and_eq_true_iff.1 hbounds).2
  obtain ⟨hpos, hprice⟩ := getAmountOut_price hpays
  have hlt := UInt64.lt_iff_toNat_lt.1 hbounds
  -- The input is the first token of the pool, or the second one.
  cases hA : (old.tokenA == tIn && old.tokenB == tOut) with
  | true =>
    simp only [hA, if_true] at h hin hpos hprice hlt hbounds
    cases h
    simp only [Bool.and_eq_true, beq_iff_eq] at hA
    have hsub : (old.reserveB - out).toNat + out.toNat = old.reserveB.toNat := by
      rw [UInt64.toNat_sub_of_le _ _ (UInt64.le_of_lt hbounds)]
      exact Nat.sub_add_cancel hlt.le
    exact ⟨hold, rfl, rfl, rfl, rfl, hne, .inl ⟨hA.1, hA.2, hin, hsub⟩,
      .swapA hin hsub rfl hpos hlt hprice⟩
  | false =>
    simp only [hA, Bool.false_eq_true, if_false, false_or] at h hin hpos hprice hlt hbounds hpair
    cases h
    have hsub : (old.reserveA - out).toNat + out.toNat = old.reserveA.toNat := by
      rw [UInt64.toNat_sub_of_le _ _ (UInt64.le_of_lt hbounds)]
      exact Nat.sub_add_cancel hlt.le
    exact ⟨hold, rfl, rfl, rfl, rfl, hne, .inr ⟨hpair.1, hpair.2, hin, hsub⟩,
      .swapB hin hsub rfl hpos hlt hprice⟩

/-- A route, with the pools before and after each of its steps. -/
inductive Trail (view : AmmView) :
    List String → UInt64 → List (LiquidityPool × LiquidityPool) → UInt64 → Prop
  | done (path : List String) (hpath : path.length < 2) (amount : UInt64) :
    Trail view path amount [] amount
  | hop {tIn tOut : String} {path : List String} {amount mid out : UInt64}
    {old new : LiquidityPool} {steps : List (LiquidityPool × LiquidityPool)}
    (hstep : Hops view tIn tOut amount mid old new) (hrest : Trail view (tOut :: path) mid steps out) :
    Trail view (tIn :: tOut :: path) amount ((old, new) :: steps) out

theorem route_eq_ok {path : List String} {pools pools' : List LiquidityPool}
    {amount out : UInt64} (h : route view path pools amount = .ok (pools', out)) :
    ∃ steps, pools' = pools ++ steps.map Prod.snd ∧ Trail view path amount steps out := by
  -- along the path, with the pools so far
  induction path, pools, amount using route.induct with
  | case1 tIn tOut path pools amount ih =>
    obtain ⟨⟨new, mid⟩, hhop, hrest⟩ := bind_eq_ok.1 h
    obtain ⟨-, old, hstep⟩ := hop_eq_ok hhop
    obtain ⟨steps, rfl, htrail⟩ := ih new mid hrest
    exact ⟨(old, new) :: steps, by rw [List.map_cons, List.append_assoc]; rfl, .hop hstep htrail⟩
  | case2 path pools amount hpath =>
    rw [route] at h
    · cases h
      refine ⟨[], (List.append_nil _).symm, .done path ?_ _⟩
      rcases path with _ | ⟨a, _ | ⟨b, path⟩⟩
      · exact Nat.zero_lt_two
      · exact Nat.one_lt_two
      · exact absurd rfl (hpath a b path)
    · exact hpath

theorem Trail.moves {path : List String} {amount out : UInt64}
    {steps : List (LiquidityPool × LiquidityPool)} (h : Trail view path amount steps out) :
    ∀ e ∈ steps, ∃ id, view.pool id = some e.1 ∧ e.2.poolId = e.1.poolId ∧ Moves e.1 e.2 := by
  induction h with
  | done => exact fun _ h => absurd h List.not_mem_nil
  | hop hstep _ ih =>
    exact List.forall_mem_cons.2 ⟨⟨_, hstep.pool, hstep.poolId, hstep.moves⟩, ih⟩

theorem planSwap_eq_ok (h : planSwap view tx = .ok p) :
    ∃ tokenIn tokenOut path amountIn out steps, p.debits = [(tokenIn, amountIn)] ∧
      p.credits = [(tokenOut, out)] ∧ p.feeQuanta = feeToQuanta tx.fee ∧ p.lp = none ∧
      p.pools = steps.map Prod.snd ∧ path.head? = some tokenIn ∧ path.getLast? = some tokenOut ∧
      route view path [] amountIn = .ok (p.pools, out) ∧ Trail view path amountIn steps out := by
  obtain ⟨tokenIn, _, h⟩ := bind_eq_ok.1 h
  obtain ⟨tokenOut, _, h⟩ := bind_eq_ok.1 h
  obtain ⟨amountIn, _, h⟩ := bind_eq_ok.1 h
  obtain ⟨_, _, h⟩ := bind_eq_ok.1 h
  obtain ⟨_, _, h⟩ := bind_eq_ok.1 h
  obtain ⟨_, _, h⟩ := bind_eq_ok.1 h
  obtain ⟨_, hends, h⟩ := bind_eq_ok.1 h
  obtain ⟨⟨pools, out⟩, hroute, h⟩ := bind_eq_ok.1 h
  obtain ⟨_, _, h⟩ := bind_eq_ok.1 h
  obtain ⟨hfirst, hlast⟩ := require_eq_ok.1 hends
  obtain rfl := affordable_eq_ok h
  obtain ⟨steps, hpools, htrail⟩ := route_eq_ok hroute
  exact ⟨tokenIn, tokenOut, _, amountIn, out, steps, rfl, rfl, rfl, rfl, hpools, hfirst, hlast,
    hroute, htrail⟩

/-- A plan writes new pools, and moves of pools that exist. -/
theorem plan_pools (h : plan view tx blockTime = .ok p) :
    ∀ q ∈ p.pools, IsNew view q ∨
      ∃ id old, view.pool id = some old ∧ q.poolId = old.poolId ∧ Moves old q := by
  rw [plan] at h
  split at h
  · obtain ⟨a, b, x, y, -, -, -, hpools, -, hnew⟩ := planCreate_eq_ok h
    rw [hpools]
    exact List.forall_mem_singleton.2 (.inl hnew)
  · obtain ⟨id, old, new, x, y, lp, hold, -, -, -, hpools, -, hid, -, -, -, -, -, hmoves⟩ :=
      planAdd_eq_ok h
    rw [hpools]
    exact List.forall_mem_singleton.2 (.inr ⟨id, old, hold, hid, hmoves⟩)
  · obtain ⟨id, old, new, x, y, lp, hold, -, -, -, hpools, -, hid, -, -, -, -, -, hmoves⟩ :=
      planRemove_eq_ok h
    rw [hpools]
    exact List.forall_mem_singleton.2 (.inr ⟨id, old, hold, hid, hmoves⟩)
  · obtain ⟨_, _, _, _, _, steps, -, -, -, -, hpools, -, -, -, htrail⟩ := planSwap_eq_ok h
    rw [hpools]
    intro q hq
    obtain ⟨e, he, rfl⟩ := List.mem_map.1 hq
    obtain ⟨id, hold, hid, hmoves⟩ := htrail.moves e he
    exact .inr ⟨id, e.1, hold, hid, hmoves⟩
  · cases h

end Moves

/-! ## Runs -/

/-- The pools that are stored, each under its own id. -/
structure PoolStore where
  pools : ExtTreeMap String LiquidityPool
  keys : ∀ (id : String) (q : LiquidityPool), pools[id]? = some q → q.poolId = id

namespace PoolStore

def empty : PoolStore := ⟨∅, fun _ _ h => nomatch h⟩

def getPool (s : PoolStore) (id : String) : Option LiquidityPool := s.pools[id]?

def listPools (s : PoolStore) : List LiquidityPool := s.pools.toList.map Prod.snd

def savePool (s : PoolStore) (q : LiquidityPool) : PoolStore where
  pools := s.pools.insert q.poolId q
  keys := by
    intro id r hr
    rw [getElem?_insert_eq] at hr
    split at hr
    · next hid =>
      obtain rfl := Option.some.inj hr
      exact hid
    · exact s.keys id r hr

/-- A pool transaction and the balances its sender has then. -/
structure Call where
  tx : TxV1
  blockTime : UInt64
  xrgeQuanta : U128
  token : String → U128
  lp : String → U128

def view (s : PoolStore) (c : Call) : AmmView :=
  { xrgeQuanta := c.xrgeQuanta, token := c.token, lp := c.lp
    pool := s.getPool, pools := s.listPools }

/-- The pools of a plan are written; without a plan nothing is. -/
def step (s : PoolStore) (c : Call) : PoolStore :=
  match plan (s.view c) c.tx c.blockTime with
  | .ok p => p.pools.foldl savePool s
  | .error _ => s

theorem getPool_savePool (s : PoolStore) (q : LiquidityPool) (id : String) :
    (s.savePool q).getPool id = if q.poolId = id then some q else s.getPool id :=
  getElem?_insert_eq ..

theorem getPool_foldl (s : PoolStore) (l : List LiquidityPool) (id : String) :
    (l.foldl savePool s).getPool id = s.getPool id ∨
      ∃ q ∈ l, q.poolId = id ∧ (l.foldl savePool s).getPool id = some q := by
  induction l generalizing s with
  | nil => exact .inl rfl
  | cons r l ih =>
    rw [List.foldl_cons]
    rcases ih (s.savePool r) with heq | ⟨q, hq, hid, heq⟩
    · rw [heq, getPool_savePool]
      by_cases hr : r.poolId = id
      · exact .inr ⟨r, List.mem_cons_self, hr, if_pos hr⟩
      · exact .inl (if_neg hr)
    · exact .inr ⟨q, List.mem_cons_of_mem _ hq, hid, heq⟩

/-- What a transaction can do to what is stored under an id. -/
theorem step_cases (s : PoolStore) (c : Call) (id : String) :
    (s.step c).getPool id = s.getPool id ∨
      ∃ q, (s.step c).getPool id = some q ∧
        ((s.getPool id = none ∧ IsNew (s.view c) q) ∨
          ∃ old, s.getPool id = some old ∧ Moves old q) := by
  rw [step]
  split
  · next p hp =>
    rcases getPool_foldl s p.pools id with heq | ⟨q, hq, hid, heq⟩
    · exact .inl heq
    · refine .inr ⟨q, heq, ?_⟩
      rcases plan_pools hp q hq with hnew | ⟨id', old, hold, hid', hmoves⟩
      · exact .inl ⟨hid ▸ hnew.absent, hnew⟩
      · have hkey : id' = id := by rw [← s.keys id' old hold, ← hid', hid]
        exact .inr ⟨old, hkey ▸ hold, hmoves⟩
  · exact .inl rfl

end PoolStore

/-! ## The value of a share -/

section Value

variable {old new : LiquidityPool}

/-- The product of the reserves, per share squared. -/
def LiquidityPool.value (q : LiquidityPool) : ℚ :=
  (q.reserveA.toNat : ℚ) * q.reserveB.toNat / q.totalLpSupply.toNat ^ 2

/-- If both reserves fall no faster than the supply, the value does not fall. -/
theorem value_le_of_mul_le (hold : 0 < old.totalLpSupply.toNat) (hnew : 0 < new.totalLpSupply.toNat)
    (hA : old.reserveA.toNat * new.totalLpSupply.toNat ≤
      new.reserveA.toNat * old.totalLpSupply.toNat)
    (hB : old.reserveB.toNat * new.totalLpSupply.toNat ≤
      new.reserveB.toNat * old.totalLpSupply.toNat) : old.value ≤ new.value := by
  rw [LiquidityPool.value, LiquidityPool.value,
    div_le_div_iff₀ (pow_pos (Nat.cast_pos.2 hold) 2) (pow_pos (Nat.cast_pos.2 hnew) 2)]
  have hmul := Nat.mul_le_mul hA hB
  have hcast : ((old.reserveA.toNat * new.totalLpSupply.toNat *
      (old.reserveB.toNat * new.totalLpSupply.toNat) : ℕ) : ℚ) ≤
      ((new.reserveA.toNat * old.totalLpSupply.toNat *
        (new.reserveB.toNat * old.totalLpSupply.toNat) : ℕ) : ℚ) := Nat.cast_le.2 hmul
  push_cast at hcast
  linarith

/-- If the supply stays and the product of the reserves does not fall, the value does not. -/
theorem value_le_of_product (hsupply : new.totalLpSupply = old.totalLpSupply)
    (h : old.reserveA.toNat * old.reserveB.toNat ≤ new.reserveA.toNat * new.reserveB.toNat) :
    old.value ≤ new.value := by
  rw [LiquidityPool.value, LiquidityPool.value, hsupply]
  refine div_le_div_of_nonneg_right ?_ (sq_nonneg _)
  exact_mod_cast h

/-- What goes in is worth at least what comes out. -/
theorem product_le {a b amount out b' : ℕ} (hb : b' + out = b)
    (hprice : out * (a + amount) ≤ amount * b) : a * b ≤ (a + amount) * b' := by
  have hsplit : (a + amount) * b' + out * (a + amount) = a * b + amount * b := by
    rw [← hb]
    ring
  omega

/-- Shares are issued for no more than their part of a reserve. -/
theorem issue_le {r r' supply supply' x lp : ℕ} (hr : r' = r + x) (hsupply : supply' = supply + lp)
    (hfair : lp * r ≤ x * supply) : r * supply' ≤ r' * supply := by
  rw [hr, hsupply, Nat.mul_add, Nat.add_mul, Nat.mul_comm r lp]
  exact Nat.add_le_add_left hfair _

/-- Shares are redeemed for no more than their part of a reserve. -/
theorem redeem_le {r r' supply supply' out lp : ℕ} (hr : r' + out = r)
    (hsupply : supply' + lp = supply) (hout : out = lp * r / supply) :
    r * supply' ≤ r' * supply := by
  have hfair : out * supply ≤ lp * r := by
    rw [hout]
    exact Nat.div_mul_le_self _ _
  have hsplit : r' * supply + out * supply = r * supply' + lp * r := by
    rw [← Nat.add_mul, hr, ← hsupply]
    ring
  omega

theorem Moves.value_le (h : Moves old new) (hold : old.totalLpSupply ≠ 0)
    (hnew : new.totalLpSupply ≠ 0) : old.value ≤ new.value := by
  cases h with
  | add hx hy hlp hA hB hsupply hfair =>
    obtain ⟨hfairA, hfairB⟩ := hfair hold
    exact value_le_of_mul_le (toNat_pos hold) (toNat_pos hnew) (issue_le hA hsupply hfairA)
      (issue_le hB hsupply hfairB)
  | remove hlp hle hA hB hsupply houtA houtB =>
    exact value_le_of_mul_le (toNat_pos hold) (toNat_pos hnew) (redeem_le hA hsupply houtA)
      (redeem_le hB hsupply houtB)
  | swapA hA hB hsupply hpos hlt hprice =>
    refine value_le_of_product hsupply ?_
    rw [hA]
    exact product_le hB hprice
  | swapB hB hA hsupply hpos hlt hprice =>
    refine value_le_of_product hsupply ?_
    rw [hB, Nat.mul_comm, Nat.mul_comm new.reserveA.toNat]
    exact product_le hA hprice

/-- There are no shares exactly when there is nothing to share. -/
def LiquidityPool.Sound (q : LiquidityPool) : Prop :=
  q.totalLpSupply = 0 ↔ q.reserveA = 0 ∧ q.reserveB = 0

theorem sound_iff {q : LiquidityPool} : q.Sound ↔
    (q.totalLpSupply.toNat = 0 ↔ q.reserveA.toNat = 0 ∧ q.reserveB.toNat = 0) := by
  simp only [LiquidityPool.Sound, ← UInt64.toNat_inj, UInt64.toNat_zero]

/-- What is redeemed of a reserve: all of it for all shares, not all of it for fewer. -/
theorem redeem_all {r r' supply supply' out lp : ℕ} (hr : r' + out = r)
    (hsupply : supply' + lp = supply) (hout : out = lp * r / supply) (hlp : 0 < lp)
    (hpos : 0 < out) : r' = 0 ↔ supply' = 0 := by
  constructor
  · intro hzero
    by_contra hne
    have hlt : lp * r < r * supply := by
      rw [Nat.mul_comm]
      exact Nat.mul_lt_mul_of_pos_left (by omega) (by omega)
    have := Nat.div_lt_of_lt_mul (Nat.mul_comm r supply ▸ hlt)
    omega
  · intro hzero
    have hall : lp = supply := by omega
    rw [hall, Nat.mul_div_cancel_left _ (by omega)] at hout
    omega

theorem Moves.sound (h : Moves old new) (hold : old.Sound) : new.Sound := by
  rw [sound_iff] at hold ⊢
  cases h with
  | add hx hy hlp hA hB hsupply =>
    rw [hA, hB, hsupply]
    omega
  | remove hlp hle hA hB hsupply houtA houtB hposA hposB =>
    rw [redeem_all hA hsupply houtA hlp hposA, redeem_all hB hsupply houtB hlp hposB]
    exact (and_self_iff).symm
  | swapA hA hB hsupply hpos hlt =>
    rw [hsupply]
    omega
  | swapB hB hA hsupply hpos hlt =>
    rw [hsupply]
    omega

end Value

namespace PoolStore

/-- Whether the pool has shares. -/
def backed (s : PoolStore) (id : String) : Bool :=
  (s.getPool id).any fun q => q.totalLpSupply != 0

theorem step_value_le {s : PoolStore} {c : Call} {id : String} {q : LiquidityPool}
    (hq : s.getPool id = some q) (hold : s.backed id = true) (hnew : (s.step c).backed id = true) :
    ∃ q', (s.step c).getPool id = some q' ∧ q.value ≤ q'.value := by
  rcases step_cases s c id with heq | ⟨q', hq', ⟨hnone, -⟩ | ⟨old, hold', hmoves⟩⟩
  · exact ⟨q, heq.trans hq, le_rfl⟩
  · rw [hq] at hnone
    cases hnone
  · rw [hq] at hold'
    obtain rfl := Option.some.inj hold'
    rw [backed, hq, Option.any_some, bne_iff_ne] at hold
    rw [backed, hq', Option.any_some, bne_iff_ne] at hnew
    exact ⟨q', hq', hmoves.value_le hold hnew⟩

theorem step_sound {s : PoolStore} {c : Call} {id : String}
    (h : ∀ q, s.getPool id = some q → q.Sound) :
    ∀ q, (s.step c).getPool id = some q → q.Sound := by
  intro q hq
  rcases step_cases s c id with heq | ⟨q', hq', hcase⟩
  · exact h q (heq ▸ hq)
  · rw [hq] at hq'
    obtain rfl := Option.some.inj hq'
    rcases hcase with ⟨-, hnew⟩ | ⟨old, hold, hmoves⟩
    · exact ⟨fun h => absurd h hnew.supply, fun h => absurd h.1 hnew.reserveA⟩
    · exact hmoves.sound (h old hold)

end PoolStore

/-- Over every run of pool transactions, the value of a pool's shares does not fall as long as
    there are shares before and after each of them; and a pool that `create_pool` has made is
    without shares exactly when both its reserves are empty. -/
theorem lp_value_never_falls :
    (∀ (s : PoolStore) (calls : List PoolStore.Call) (id : String) (q : LiquidityPool),
      s.getPool id = some q →
      Runs.Along PoolStore.step (fun s c => s.backed id = true ∧ (s.step c).backed id = true)
        s calls →
      ∃ q', (Runs.run PoolStore.step s calls).getPool id = some q' ∧ q.value ≤ q'.value) ∧
    ∀ (s : PoolStore) (calls : List PoolStore.Call) (id : String) (q : LiquidityPool),
      s.getPool id = none → (Runs.run PoolStore.step s calls).getPool id = some q →
      (q.totalLpSupply = 0 ↔ q.reserveA = 0 ∧ q.reserveB = 0) := by
  constructor
  · intro s calls id q hq hbacked
    induction calls generalizing s q with
    | nil => exact ⟨q, hq, le_rfl⟩
    | cons c calls ih =>
      obtain ⟨⟨hold, hnew⟩, hrest⟩ := hbacked
      obtain ⟨q', hq', hle⟩ := PoolStore.step_value_le hq hold hnew
      obtain ⟨q'', hq'', hle'⟩ := ih (s.step c) q' hq' hrest
      exact ⟨q'', hq'', hle.trans hle'⟩
  · intro s calls id q hnone hq
    have hsound : ∀ q, s.getPool id = some q → q.Sound := by
      rw [hnone]
      exact fun _ h => nomatch h
    have hstep (s : PoolStore) (c : PoolStore.Call) (h : ∀ q, s.getPool id = some q → q.Sound) :
        ∀ q, (s.step c).getPool id = some q → q.Sound := PoolStore.step_sound h
    exact Runs.run_invariant hstep calls hsound q hq

/-- A sender with plenty of everything. -/
def wealthyCall (tx : TxV1) : PoolStore.Call where
  tx := tx
  blockTime := 7
  xrgeQuanta := xrgeToQuanta 1000000
  token := fun _ => 1000000
  lp := fun _ => 1000000

def qtokCreate : PoolStore.Call :=
  wealthyCall (localTx .createPool "alice"
    { tokenASymbol := some "QTOK", tokenBSymbol := some "XRGE"
      amountA := some 100000, amountB := some 40000 })

def qtokSwap : PoolStore.Call :=
  wealthyCall (localTx .swap "bob"
    { tokenASymbol := some "QTOK", tokenBSymbol := some "XRGE", amountA := some 500 })

/-- A pool is made, and a swap then leaves its shares worth no less. -/
theorem qtokSwap_value :
    let made := Runs.run PoolStore.step PoolStore.empty [qtokCreate]
    (∃ q q', made.getPool "QTOK-XRGE" = some q ∧
      (Runs.run PoolStore.step made [qtokSwap]).getPool "QTOK-XRGE" = some q' ∧
      q.reserveA = 100000 ∧ q'.reserveA = 100500 ∧ q.value ≤ q'.value) ∧
    ∃ q, made.getPool "QTOK-XRGE" = some q ∧
      (q.totalLpSupply = 0 ↔ q.reserveA = 0 ∧ q.reserveB = 0) := by
  intro made
  have hmade : (made.getPool "QTOK-XRGE").any (·.reserveA == 100000) = true := by decide +kernel
  have hswapped : ((Runs.run PoolStore.step made [qtokSwap]).getPool "QTOK-XRGE").any
      (·.reserveA == 100500) = true := by decide +kernel
  obtain ⟨q, hq, hA⟩ := (Option.any_eq_true ..).1 hmade
  obtain ⟨hvalue, hempty⟩ := lp_value_never_falls
  obtain ⟨q', hq', hle⟩ := hvalue made [qtokSwap] "QTOK-XRGE" q hq (by decide +kernel)
  rw [hq', Option.any_some] at hswapped
  exact ⟨⟨q, q', hq, hq', eq_of_beq hA, eq_of_beq hswapped, hle⟩,
    q, hq, hempty .empty [qtokCreate] "QTOK-XRGE" q (by decide +kernel) hq⟩

end RougeChain.Node
