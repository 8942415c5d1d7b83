import RougeChain.Node.AmmLedger
import RougeChain.Node.Routes

/-!
# Pool transactions and the block

A pool transaction that cannot take its full effect is to change nothing, and never to make its
block invalid: the planner checks all that the writer will do. It checks the entries of a plan one
by one, and a pool that an earlier rule has created for one token with itself gives a plan two
entries for one balance.

* `writePlan_ok_iff`: a plan that the planner has passed is written exactly when the sender's
  balances stand its entries together;
* `together_of_nodup`: they do if no symbol comes twice;
* `pool_tx_applies_iff`: a pool transaction applies, and nothing in its planning or writing wraps or
  divides by zero, exactly when its entries are stood together in a pool of one token with itself,
  and the prices of a swap fit 128 bits.
-/

open Fallible

namespace RougeChain.Node

open Std (ExtTreeMap)
open Accounts

/-! ## The rule before -/

namespace AmmLedger

variable (P : Platform)

/-- The source's `amm_debit`, which does not check. -/
def ammDebit (l : AmmLedger) (user token : String) (amount : Float) : AmmLedger :=
  if token = xrgeSymbol then
    { l with balances := debit l.balances (canonAddr P user) (xrgeF64ToQuanta amount) }
  else
    { l with
      tokenBalances := debit l.tokenBalances (canonAddr P user, token) (f64AsU128 amount) }

/-- The arm `create_pool` of `apply_amm_tx_inner`. A sender who cannot pay has no effect; the two
    tokens may be the same one. -/
def createPoolInner (l : AmmLedger) (tx : TxV1) (blockTime : UInt64) : Except String AmmLedger := do
  let tokenA ← ofOption "missing token_a" tx.payload.tokenASymbol
  let tokenB ← ofOption "missing token_b" tx.payload.tokenBSymbol
  let amountA ← ofOption "missing amount_a" tx.payload.amountA
  let amountB ← ofOption "missing amount_b" tx.payload.amountB
  let user := canonAddr P tx.fromPubKey
  let withA := if tokenA = xrgeSymbol then tx.fee + natAsF64 amountA.toNat else tx.fee
  let xrgeNeeded := if tokenB = xrgeSymbol then withA + natAsF64 amountB.toNat else withA
  if balance l.balances user < xrgeF64ToQuanta xrgeNeeded then return l
  else if tokenA ≠ xrgeSymbol ∧ balance l.tokenBalances (user, tokenA) < u64AsU128 amountA then
    return l
  else if tokenB ≠ xrgeSymbol ∧ balance l.tokenBalances (user, tokenB) < u64AsU128 amountB then
    return l
  else
    let l := { l with balances := debit l.balances user (xrgeF64ToQuanta tx.fee) }
    let l := l.ammDebit P tx.fromPubKey tokenA (natAsF64 amountA.toNat)
    let l := l.ammDebit P tx.fromPubKey tokenB (natAsF64 amountB.toNat)
    let pool := LiquidityPool.new tokenA tokenB amountA amountB tx.fromPubKey blockTime
    return { l with
      lpBalances := credit l.lpBalances (user, pool.poolId) (u64AsU128 pool.totalLpSupply)
      pools := l.pools.savePool pool }

end AmmLedger

/-! ## What is computed without a check -/

/-- An operation that can wrap or panic, with its operands over the integers. -/
inductive Step where
  /-- A sum or a product of 128 bits. -/
  | value (v : ℕ)
  | minus (x y : ℕ)
  | divide (divisor : ℕ)

/-- The operation neither wraps nor panics. -/
def Step.Safe : Step → Prop
  | value v => v < 2 ^ 128
  | minus x y => y ≤ x
  | divide divisor => divisor ≠ 0

/-- The turns of the loop of `isqrt`. -/
def isqrtTurns : ℕ → ℕ → ℕ → ℕ → List Step
  | 0, _, _, _ => []
  | fuel + 1, n, x, y =>
    if y < x then .divide y :: .value (y + n / y) :: isqrtTurns fuel n y ((y + n / y) / 2) else []

/-- The product under the root, and all that its root takes. -/
def isqrtSteps (x y : UInt64) : List Step :=
  let n := x.toNat * y.toNat
  .value n :: if n < 2 then [] else .value (n + 1) :: isqrtTurns n n n ((n + 1) / 2)

/-- A price that is asked for. -/
structure PriceCall where
  amountIn : UInt64
  reserveIn : UInt64
  reserveOut : UInt64

/-- The price itself, and the reserve that is left. -/
def PriceCall.steps (c : PriceCall) : List Step :=
  if c.amountIn = 0 ∨ c.reserveIn = 0 ∨ c.reserveOut = 0 then []
  else
    let amountInWithFee := 997 * c.amountIn.toNat
    [.value amountInWithFee, .value (amountInWithFee * c.reserveOut.toNat),
      .value (1000 * c.reserveIn.toNat), .value (1000 * c.reserveIn.toNat + amountInWithFee),
      .divide (1000 * c.reserveIn.toNat + amountInWithFee)] ++
    ((getAmountOut c.amountIn c.reserveIn c.reserveOut).filter
      fun o => 0 < o && o < c.reserveOut).toList.map fun o => .minus c.reserveOut.toNat o.toNat

section Steps

variable (view : AmmView)

/-- The price that a step of a route asks for. -/
def priceCall (tIn tOut : String) (pools : List LiquidityPool) (amount : UInt64) :
    Option PriceCall :=
  if tIn = tOut ∨ ∃ q ∈ pools, q.poolId = makePoolId tIn tOut then none
  else
    match view.pool (makePoolId tIn tOut) with
    | none => none
    | some pool =>
      if pool.tokenA = tIn ∧ pool.tokenB = tOut then some ⟨amount, pool.reserveA, pool.reserveB⟩
      else if pool.tokenB = tIn ∧ pool.tokenA = tOut then
        some ⟨amount, pool.reserveB, pool.reserveA⟩
      else none

/-- The prices that a route asks for, until one of its steps is refused. -/
def priceCalls : List String → List LiquidityPool → UInt64 → List PriceCall
  | tIn :: tOut :: path, pools, amount =>
    (priceCall view tIn tOut pools amount).toList ++
      match hop view tIn tOut pools amount with
      | .ok (pool, out) => priceCalls (tOut :: path) (pools ++ [pool]) out
      | .error _ => []
  | _, _, _ => []

/-- The prices that a swap asks for. -/
def swapCalls (tx : TxV1) : List PriceCall :=
  match tx.kind, tx.payload.tokenASymbol, tx.payload.tokenBSymbol, tx.payload.amountA with
  | .swap, some tokenIn, some tokenOut, some amountIn =>
    let path := tx.payload.swapPath.getD [tokenIn, tokenOut]
    if amountIn = 0 ∨ tokenIn = tokenOut ∨ path.length < 2 ∨ maxPathTokens < path.length ∨
      path.head? ≠ some tokenIn ∨ path.getLast? ≠ some tokenOut then []
    else priceCalls view path [] amountIn
  | _, _, _, _ => []

/-- The shares for adding to a pool. -/
def addSteps (pool : LiquidityPool) (x y : UInt64) : List Step :=
  if pool.totalLpSupply = 0 then isqrtSteps x y
  else if pool.reserveA = 0 ∨ pool.reserveB = 0 then []
  else
    [.value (x.toNat * pool.totalLpSupply.toNat), .divide pool.reserveA.toNat,
      .value (y.toNat * pool.totalLpSupply.toNat), .divide pool.reserveB.toNat]

/-- What shares are redeemed for. -/
def removeSteps (pool : LiquidityPool) (lp : UInt64) : List Step :=
  if lp = 0 ∨ pool.totalLpSupply < lp then []
  else
    [.value (lp.toNat * pool.reserveA.toNat), .divide pool.totalLpSupply.toNat,
      .value (lp.toNat * pool.reserveB.toNat), .divide pool.totalLpSupply.toNat,
      .minus pool.totalLpSupply.toNat lp.toNat]

/-- What is computed for the shares of a transaction. -/
def shareSteps (tx : TxV1) : List Step :=
  match tx.kind, tx.payload.poolId.bind view.pool, tx.payload.amountA, tx.payload.amountB,
    tx.payload.lpAmount with
  | .createPool, _, some x, some y, _ => isqrtSteps x y
  | .addLiquidity, some pool, some x, some y, _ => addSteps pool x y
  | .removeLiquidity, some pool, _, _, some lp => removeSteps pool lp
  | _, _, _, _, _ => []

/-- The amounts of a plan in quanta. -/
def quantaSteps (tx : TxV1) (blockTime : UInt64) : List Step :=
  match plan view tx blockTime with
  | .ok p => (p.debits ++ p.credits).map fun e => .value (e.2.toNat * quantaPerXrge.toNat)
  | .error _ => []

/-- Every operation without a check when a transaction is planned and its plan is written. -/
def planSteps (tx : TxV1) (blockTime : UInt64) : List Step :=
  shareSteps view tx ++ (swapCalls view tx).flatMap PriceCall.steps ++
    quantaSteps view tx blockTime

end Steps

section Safe

variable {view : AmmView} {tx : TxV1} {blockTime : UInt64}

theorem mul_toNat_lt (x y : UInt64) : x.toNat * y.toNat + 1 < 2 ^ 128 := by
  have hx : x.toNat ≤ 2 ^ 64 - 1 := Nat.le_sub_one_of_lt x.toNat_lt
  have hy : y.toNat ≤ 2 ^ 64 - 1 := Nat.le_sub_one_of_lt y.toNat_lt
  calc x.toNat * y.toNat + 1 ≤ (2 ^ 64 - 1) * (2 ^ 64 - 1) + 1 :=
        Nat.add_le_add_right (Nat.mul_le_mul hx hy) 1
    _ < 2 ^ 128 := by norm_num

/-- Newton's sum does not pass what it starts with. -/
theorem newton_sum_le {n y : ℕ} (hy : 0 < y) (hle : y ≤ n) : y + n / y ≤ n + 1 := by
  have hq : 0 < n / y := Nat.div_pos hle hy
  have hmul := Nat.div_mul_le_self n y
  nlinarith only [hmul, hq, hy]

theorem isqrtTurns_safe (fuel : ℕ) {n x : ℕ} (hn : n + 1 < 2 ^ 128) (hroot : 0 < n.sqrt)
    (hx : n.sqrt ≤ x) (hle : x ≤ n) : ∀ s ∈ isqrtTurns fuel n x ((x + n / x) / 2), s.Safe := by
  -- the iterates stay between the root and `n`
  induction fuel generalizing x with
  | zero => exact fun _ h => absurd h List.not_mem_nil
  | succ fuel ih =>
    rw [isqrtTurns]
    split
    · next hlt =>
      have hy := sqrt_le_newton (hroot.trans_le hx) hx
      have hyn : (x + n / x) / 2 ≤ n := hlt.le.trans hle
      have hpos := hroot.trans_le hy
      exact List.forall_mem_cons.2 ⟨hpos.ne', List.forall_mem_cons.2
        ⟨(newton_sum_le hpos hyn).trans_lt hn, ih hy hyn⟩⟩
    · exact fun _ h => absurd h List.not_mem_nil

theorem isqrtSteps_safe (x y : UInt64) : ∀ s ∈ isqrtSteps x y, s.Safe := by
  have hlt := mul_toNat_lt x y
  rw [isqrtSteps]
  generalize x.toNat * y.toNat = n at hlt
  refine List.forall_mem_cons.2 ⟨Nat.lt_of_succ_lt hlt, ?_⟩
  split
  · exact fun _ h => absurd h List.not_mem_nil
  · next hn =>
    have hpos : 0 < n := by omega
    have hturns := isqrtTurns_safe n hlt (Nat.sqrt_pos.2 hpos) (Nat.sqrt_le_self n)
      le_rfl
    rw [Nat.div_self hpos] at hturns
    exact List.forall_mem_cons.2 ⟨hlt, hturns⟩

theorem addSteps_safe (pool : LiquidityPool) (x y : UInt64) :
    ∀ s ∈ addSteps pool x y, s.Safe := by
  rw [addSteps]
  split
  · exact isqrtSteps_safe x y
  · split
    · exact fun _ h => absurd h List.not_mem_nil
    · next hne =>
      push Not at hne
      simp only [List.forall_mem_cons]
      exact ⟨Nat.lt_of_succ_lt (mul_toNat_lt ..), (toNat_pos hne.1).ne',
        Nat.lt_of_succ_lt (mul_toNat_lt ..), (toNat_pos hne.2).ne',
        fun _ h => absurd h List.not_mem_nil⟩

theorem removeSteps_safe (pool : LiquidityPool) (lp : UInt64) :
    ∀ s ∈ removeSteps pool lp, s.Safe := by
  rw [removeSteps]
  split
  · exact fun _ h => absurd h List.not_mem_nil
  · next hne =>
    push Not at hne
    have hle := UInt64.le_iff_toNat_le.1 (UInt64.not_lt.1 hne.2)
    have hpos : 0 < pool.totalLpSupply.toNat := (toNat_pos hne.1).trans_le hle
    simp only [List.forall_mem_cons]
    exact ⟨Nat.lt_of_succ_lt (mul_toNat_lt ..), hpos.ne', Nat.lt_of_succ_lt (mul_toNat_lt ..),
      hpos.ne', hle, fun _ h => absurd h List.not_mem_nil⟩

theorem shareSteps_safe (view : AmmView) (tx : TxV1) : ∀ s ∈ shareSteps view tx, s.Safe := by
  rw [shareSteps]
  split
  · exact isqrtSteps_safe _ _
  · exact addSteps_safe _ _ _
  · exact removeSteps_safe _ _
  · exact fun _ h => absurd h List.not_mem_nil

theorem quantaSteps_safe (view : AmmView) (tx : TxV1) (blockTime : UInt64) :
    ∀ s ∈ quantaSteps view tx blockTime, s.Safe := by
  rw [quantaSteps]
  split
  · intro s hs
    obtain ⟨e, -, rfl⟩ := List.mem_map.1 hs
    have hlt := e.2.toNat_lt
    calc e.2.toNat * quantaPerXrge.toNat < 2 ^ 64 * quantaPerXrge.toNat :=
          Nat.mul_lt_mul_of_pos_right hlt (by decide)
      _ < 2 ^ 128 := by decide
  · exact fun _ h => absurd h List.not_mem_nil

/-- Of a price only the product with the reserve can wrap. -/
theorem PriceCall.steps_safe_iff (c : PriceCall) :
    (∀ s ∈ c.steps, s.Safe) ↔ (c.reserveIn ≠ 0 → OutFits c.amountIn.toNat c.reserveOut.toNat) := by
  rw [PriceCall.steps]
  split
  · next hzero =>
    refine ⟨fun _ hin => ?_, fun _ _ h => absurd h List.not_mem_nil⟩
    -- without an amount or a reserve the product is nothing
    rcases hzero with h | h | h
    · rw [h, OutFits]
      norm_num
    · exact absurd h hin
    · rw [h, OutFits]
      norm_num
  · next hne =>
    push Not at hne
    have hin := toNat_pos hne.2.1
    have ha := c.amountIn.toNat_lt
    have hr := c.reserveIn.toNat_lt
    simp only [List.forall_mem_append, List.forall_mem_cons]
    constructor
    · exact fun h _ => h.1.2.1
    · intro hfits
      refine ⟨⟨?_, hfits hne.2.1, ?_, ?_, ?_, fun _ h => absurd h List.not_mem_nil⟩, ?_⟩
      · rw [Step.Safe]
        omega
      · rw [Step.Safe]
        omega
      · rw [Step.Safe]
        omega
      · rw [Step.Safe]
        omega
      · intro s hs
        obtain ⟨out, hout, rfl⟩ := List.mem_map.1 hs
        have hbounds := (Option.filter_eq_some_iff.1 (Option.mem_toList.1 hout)).2
        replace hbounds := of_decide_eq_true (Bool.and_eq_true_iff.1 hbounds).2
        exact (UInt64.lt_iff_toNat_lt.1 hbounds).le

theorem planSteps_safe_iff :
    (∀ s ∈ planSteps view tx blockTime, s.Safe) ↔
      ∀ c ∈ swapCalls view tx, c.reserveIn ≠ 0 → OutFits c.amountIn.toNat c.reserveOut.toNat := by
  rw [planSteps]
  simp only [List.forall_mem_append, List.mem_flatMap]
  constructor
  · intro h c hc
    exact c.steps_safe_iff.1 fun s hs => h.1.2 s ⟨c, hc, hs⟩
  · intro h
    refine ⟨⟨shareSteps_safe view tx, ?_⟩, quantaSteps_safe view tx blockTime⟩
    rintro s ⟨c, hc, hs⟩
    exact c.steps_safe_iff.2 (h c hc) s hs

end Safe

/-! ## What the planner has checked -/

section Affordable

variable {view : AmmView} {tx : TxV1} {blockTime : UInt64} {p : AmmPlan}

theorem checkedAdd128_isSome {a b : U128} :
    (checkedAdd128 a b).isSome ↔ a.toNat + b.toNat < 2 ^ 128 := by
  rw [checkedAdd128]
  split
  · next h => exact ⟨fun _ => h, fun _ => rfl⟩
  · next h => exact iff_of_false (by simp) h

theorem checkedAdd128_eq_some {a b c : U128} (h : checkedAdd128 a b = some c) :
    c.toNat = a.toNat + b.toNat := by
  have hlt := checkedAdd128_isSome.1 (h ▸ rfl : (checkedAdd128 a b).isSome)
  rw [checkedAdd128, if_pos hlt] at h
  rw [← Option.some.inj h, BitVec.toNat_add, Nat.mod_eq_of_lt hlt]

theorem le_iff_u64AsU128 {n : UInt64} {b : U128} : u64AsU128 n ≤ b ↔ n.toNat ≤ b.toNat := by
  rw [BitVec.le_def, toNat_u64AsU128]

/-- The fee and the XRGE of all debits together, and each other debit by itself. -/
theorem xrgeNeeded_eq_ok {debits : List (String × UInt64)} {fee needed : U128}
    (h : xrgeNeeded view debits fee = .ok needed) :
    needed.toNat = fee.toNat + quantaPerXrge.toNat * amountOf xrgeSymbol debits ∧
      ∀ e ∈ debits, e.1 ≠ xrgeSymbol → e.2.toNat ≤ (view.token e.1).toNat := by
  induction debits generalizing fee with
  | nil =>
    cases h
    exact ⟨rfl, fun _ h => absurd h List.not_mem_nil⟩
  | cons e debits ih =>
    obtain ⟨sym, amount⟩ := e
    rw [xrgeNeeded] at h
    split at h
    · next hsym =>
      obtain ⟨fee', hadd, h⟩ := bind_eq_ok.1 h
      obtain ⟨hneeded, htokens⟩ := ih h
      have hadd := checkedAdd128_eq_some (ofOption_eq_ok.1 hadd)
      refine ⟨?_, List.forall_mem_cons.2 ⟨fun hne => absurd hsym hne, htokens⟩⟩
      rw [hneeded, hadd, toNat_xrgeToQuanta, amountOf_cons, if_pos hsym, Nat.mul_add,
        Nat.add_assoc]
    · next hsym =>
      obtain ⟨_, hle, h⟩ := bind_eq_ok.1 h
      obtain ⟨hneeded, htokens⟩ := ih h
      have hle := le_iff_u64AsU128.1 (require_eq_ok.1 hle)
      refine ⟨?_, List.forall_mem_cons.2 ⟨fun _ => hle, htokens⟩⟩
      rw [hneeded, amountOf_cons, if_neg hsym, Nat.zero_add]

/-- Each credit by itself. -/
theorem checkCredits_eq_ok {credits : List (String × UInt64)}
    (h : checkCredits view credits = .ok ()) :
    ∀ e ∈ credits,
      (e.1 = xrgeSymbol →
        view.xrgeQuanta.toNat + quantaPerXrge.toNat * e.2.toNat < 2 ^ 128) ∧
      (e.1 ≠ xrgeSymbol → (view.token e.1).toNat + e.2.toNat < 2 ^ 128) := by
  induction credits with
  | nil => exact fun _ h => absurd h List.not_mem_nil
  | cons e credits ih =>
    obtain ⟨sym, amount⟩ := e
    obtain ⟨_, hone, h⟩ := bind_eq_ok.1 h
    have hone := checkedAdd128_isSome.1 (require_eq_ok.1 hone)
    refine List.forall_mem_cons.2 ⟨⟨fun hsym => ?_, fun hsym => ?_⟩, ih h⟩
    · rwa [if_pos hsym, if_pos hsym, toNat_xrgeToQuanta] at hone
    · rwa [if_neg hsym, if_neg hsym, toNat_u64AsU128] at hone

/-- A plan that is handed out has passed the check. -/
theorem plan_affordable (h : plan view tx blockTime = .ok p) : affordable view p = .ok p := by
  have hlast {q : AmmPlan} :
      Yields (affordable view q) fun p => affordable view p = .ok p :=
    fun p hp => affordable_eq_ok hp ▸ hp
  revert p
  change Yields _ _
  rw [plan]
  split
  · iterate 10 refine Yields.step fun _ => ?_
    exact hlast
  · iterate 11 refine Yields.step fun _ => ?_
    exact hlast
  · iterate 10 refine Yields.step fun _ => ?_
    exact hlast
  · iterate 9 refine Yields.step fun _ => ?_
    exact hlast
  · exact Yields.error _

end Affordable

/-! ## Writing what was planned -/

section Write

variable {K : Type} [Ord K] [Std.TransOrd K] {m : ExtTreeMap K U128} {k : K} {x : U128}

theorem takeFrom_of_le (h : x ≤ balance m k) : takeFrom m k x = .ok (debit m k x) := by
  rw [takeFrom, checkedSub128, if_pos h]
  rfl

theorem giveTo_of_lt (h : (balance m k).toNat + x.toNat < 2 ^ 128) :
    giveTo m k x = .ok (credit m k x) := by
  rw [giveTo, checkedAdd128, if_pos h]
  rfl

variable {sender : String} {tb tb' : TokenBalances} {b b' : ExtTreeMap String U128}

theorem toNat_balance_debit {sym : String} {n : UInt64}
    (h : u64AsU128 n ≤ balance tb (sender, sym)) (sym' : String) :
    (balance (debit tb (sender, sym) (u64AsU128 n)) (sender, sym')).toNat +
      (if sym = sym' then n.toNat else 0) = (balance tb (sender, sym')).toNat := by
  rw [balance_debit]
  by_cases hsym : sym = sym'
  · subst hsym
    rw [if_pos rfl, if_pos rfl, BitVec.toNat_sub_of_le h, toNat_u64AsU128]
    exact Nat.sub_add_cancel (le_iff_u64AsU128.1 h)
  · rw [if_neg (fun heq => hsym (Prod.ext_iff.1 heq).2), if_neg hsym, Nat.add_zero]

theorem toNat_balance_credit {sym sym' : String} {n : UInt64}
    (h : (balance tb (sender, sym)).toNat + n.toNat < 2 ^ 128) :
    (balance (credit tb (sender, sym) (u64AsU128 n)) (sender, sym')).toNat =
      (balance tb (sender, sym')).toNat + if sym = sym' then n.toNat else 0 := by
  rw [balance_credit]
  by_cases hsym : sym = sym'
  · subst hsym
    rw [if_pos rfl, if_pos rfl, BitVec.toNat_add, toNat_u64AsU128, Nat.mod_eq_of_lt h]
  · rw [if_neg (fun heq => hsym (Prod.ext_iff.1 heq).2), if_neg hsym, Nat.add_zero]

/-- What the sender holds after the debits. -/
theorem balance_takeDebits {debits : List (String × UInt64)} {xrge xrge' : U128}
    (h : takeDebits sender debits xrge tb = .ok (xrge', tb')) {sym : String}
    (hsym : sym ≠ xrgeSymbol) :
    (balance tb' (sender, sym)).toNat + amountOf sym debits = (balance tb (sender, sym)).toNat := by
  induction debits generalizing xrge tb with
  | nil =>
    cases h
    rfl
  | cons e debits ih =>
    obtain ⟨sym', amount⟩ := e
    rw [takeDebits] at h
    rw [amountOf_cons]
    split at h
    · next hxrge =>
      obtain ⟨_, -, h⟩ := bind_eq_ok.1 h
      rw [if_neg (hxrge ▸ hsym.symm), Nat.zero_add]
      exact ih h
    · obtain ⟨tb₁, htake, h⟩ := bind_eq_ok.1 h
      obtain ⟨hle, rfl⟩ := takeFrom_eq_ok htake
      have hone := toNat_balance_debit hle sym
      have hrest := ih h
      dsimp only
      omega

/-- The debits are taken if the sender has all of them together. -/
theorem exists_takeDebits {debits : List (String × UInt64)} {xrge : U128}
    (hxrge : xrge.toNat + quantaPerXrge.toNat * amountOf xrgeSymbol debits < 2 ^ 128)
    (htokens : ∀ sym, sym ≠ xrgeSymbol →
      amountOf sym debits ≤ (balance tb (sender, sym)).toNat) :
    ∃ r, takeDebits sender debits xrge tb = .ok r := by
  induction debits generalizing xrge tb with
  | nil => exact ⟨_, rfl⟩
  | cons e debits ih =>
    obtain ⟨sym, amount⟩ := e
    rw [takeDebits]
    split
    · next hsym =>
      rw [amountOf_cons, if_pos hsym, Nat.mul_add] at hxrge
      dsimp only at hxrge
      have hlt : xrge.toNat + (xrgeToQuanta amount).toNat < 2 ^ 128 := by
        rw [toNat_xrgeToQuanta]
        omega
      rw [checkedAdd128, if_pos hlt]
      refine ih ?_ fun sym' hne => ?_
      · rw [BitVec.toNat_add, Nat.mod_eq_of_lt hlt, toNat_xrgeToQuanta]
        omega
      · have h := htokens sym' hne
        rwa [amountOf_cons, if_neg (hsym ▸ hne.symm), Nat.zero_add] at h
    · next hsym =>
      rw [amountOf_cons, if_neg hsym, Nat.zero_add] at hxrge
      have hone := htokens sym hsym
      rw [amountOf_cons, if_pos rfl] at hone
      dsimp only at hone
      have hle : u64AsU128 amount ≤ balance tb (sender, sym) := le_iff_u64AsU128.2 (by omega)
      rw [takeFrom_of_le hle]
      refine ih hxrge fun sym' hne => ?_
      have h := htokens sym' hne
      have hleft := toNat_balance_debit hle sym'
      rw [amountOf_cons] at h
      dsimp only at h
      omega

/-- The credits are given exactly if the sender can hold all of them together. -/
theorem giveCredits_ok_iff {credits : List (String × UInt64)} :
    (∃ r, giveCredits sender credits b tb = .ok r) ↔
      (balance b sender).toNat + quantaPerXrge.toNat * amountOf xrgeSymbol credits < 2 ^ 128 ∧
      ∀ sym, sym ≠ xrgeSymbol →
        (balance tb (sender, sym)).toNat + amountOf sym credits < 2 ^ 128 := by
  induction credits generalizing b tb with
  | nil => exact ⟨fun _ => ⟨BitVec.isLt _, fun _ _ => BitVec.isLt _⟩, fun _ => ⟨_, rfl⟩⟩
  | cons e credits ih =>
    obtain ⟨sym, amount⟩ := e
    rw [giveCredits]
    split
    · next hsym =>
      simp only [amountOf_cons, if_pos hsym, Nat.mul_add]
      have hother (sym' : String) (hne : sym' ≠ xrgeSymbol) :
          (if sym = sym' then amount.toNat else 0) = 0 := if_neg (hsym ▸ hne.symm)
      by_cases hlt : (balance b sender).toNat + (xrgeToQuanta amount).toNat < 2 ^ 128
      · rw [giveTo_of_lt hlt]
        refine ih.trans ?_
        rw [balance_credit, if_pos rfl, BitVec.toNat_add, Nat.mod_eq_of_lt hlt,
          toNat_xrgeToQuanta, Nat.add_assoc]
        refine and_congr_right fun _ => forall₂_congr fun sym' hne => ?_
        rw [hother sym' hne, Nat.zero_add]
      · refine ⟨?_, fun h => absurd h.1 ?_⟩
        · rintro ⟨r, h⟩
          obtain ⟨b₁, hgive, -⟩ := bind_eq_ok.1 h
          exact absurd (giveTo_eq_ok hgive).1 hlt
        · rw [toNat_xrgeToQuanta] at hlt
          omega
    · next hsym =>
      simp only [amountOf_cons, if_neg hsym, Nat.zero_add]
      by_cases hlt : (balance tb (sender, sym)).toNat + (u64AsU128 amount).toNat < 2 ^ 128
      · rw [giveTo_of_lt hlt]
        refine ih.trans (and_congr_right fun _ => forall₂_congr fun sym' hne => ?_)
        rw [toNat_u64AsU128] at hlt
        rw [toNat_balance_credit hlt, Nat.add_assoc]
      · refine ⟨?_, fun h => absurd (h.2 sym hsym) ?_⟩
        · rintro ⟨r, h⟩
          obtain ⟨tb₁, hgive, -⟩ := bind_eq_ok.1 h
          exact absurd (giveTo_eq_ok hgive).1 hlt
        · rw [toNat_u64AsU128] at hlt
          rw [if_pos rfl]
          omega

end Write

/-- The balances of the sender stand the entries of a plan together. -/
structure Together (l : AmmLedger) (sender : String) (p : AmmPlan) : Prop where
  debits : ∀ sym, sym ≠ xrgeSymbol →
    amountOf sym p.debits ≤ (balance l.tokenBalances (sender, sym)).toNat
  credits : ∀ sym, sym ≠ xrgeSymbol →
    (balance l.tokenBalances (sender, sym)).toNat + amountOf sym p.credits <
      2 ^ 128 + amountOf sym p.debits
  xrge : (balance l.balances sender).toNat + quantaPerXrge.toNat * amountOf xrgeSymbol p.credits <
    2 ^ 128 + p.feeQuanta.toNat + quantaPerXrge.toNat * amountOf xrgeSymbol p.debits

section Together

variable {l : AmmLedger} {sender : String} {tx : TxV1} {blockTime : UInt64} {p : AmmPlan}

theorem exists_changeLp (h : checkLp (l.view sender) p.lp = .ok ()) :
    ∃ lp, changeLp sender l.lpBalances p.lp = .ok lp := by
  revert h
  rcases p.lp with _ | ⟨poolId, n | n⟩ <;> intro h
  · exact ⟨_, rfl⟩
  · exact ⟨_, giveTo_of_lt (checkedAdd128_isSome.1 (require_eq_ok.1 h))⟩
  · exact ⟨_, takeFrom_of_le (require_eq_ok.1 h)⟩

/-- A plan that has passed the check is written exactly if the balances stand its entries
    together. -/
theorem writePlan_ok_iff (h : affordable (l.view sender) p = .ok p) :
    (∃ r, l.writePlan sender p = .ok r) ↔ Together l sender p := by
  obtain ⟨needed, hneeded, h⟩ := bind_eq_ok.1 h
  obtain ⟨_, hxrge, h⟩ := bind_eq_ok.1 h
  obtain ⟨_, _, h⟩ := bind_eq_ok.1 h
  obtain ⟨_, hlp, _⟩ := bind_eq_ok.1 h
  obtain ⟨hneeded, -⟩ := xrgeNeeded_eq_ok hneeded
  have hxrge : needed.toNat ≤ (balance l.balances sender).toNat :=
    BitVec.le_def.1 (require_eq_ok.1 hxrge)
  -- what the credits are added to, once the debits are taken
  have hafter {xrgeOut : U128} {tb : TokenBalances}
      (hdebits : takeDebits sender p.debits p.feeQuanta l.tokenBalances = .ok (xrgeOut, tb)) :
      xrgeOut ≤ balance l.balances sender ∧
        ((∃ r, giveCredits sender p.credits (debit l.balances sender xrgeOut) tb = .ok r) ↔
          Together l sender p) := by
    have hout := (takeDebits_eq_ok hdebits).1
    have hle : xrgeOut ≤ balance l.balances sender := by
      rw [BitVec.le_def]
      omega
    have hleft := BitVec.toNat_sub_of_le hle
    have htokens {sym : String} (hsym : sym ≠ xrgeSymbol) := balance_takeDebits hdebits hsym
    refine ⟨hle, giveCredits_ok_iff.trans ?_⟩
    rw [balance_debit, if_pos rfl, hleft]
    constructor
    · rintro ⟨hx, ht⟩
      refine ⟨fun sym hsym => ?_, fun sym hsym => ?_, by omega⟩
      · exact (Nat.le_add_left ..).trans_eq (htokens hsym)
      · have := ht sym hsym
        have := htokens hsym
        omega
    · intro ht
      refine ⟨by have := ht.xrge; omega, fun sym hsym => ?_⟩
      have := ht.credits sym hsym
      have := htokens hsym
      omega
  constructor
  · rintro ⟨r, h⟩
    obtain ⟨⟨xrgeOut, tb⟩, hdebits, h⟩ := bind_eq_ok.1 h
    obtain ⟨b, htake, h⟩ := bind_eq_ok.1 h
    obtain ⟨r', hcredits, _⟩ := bind_eq_ok.1 h
    obtain ⟨-, rfl⟩ := takeFrom_eq_ok htake
    exact (hafter hdebits).2.1 ⟨r', hcredits⟩
  · intro ht
    have hlt : p.feeQuanta.toNat + quantaPerXrge.toNat * amountOf xrgeSymbol p.debits < 2 ^ 128 :=
      hneeded ▸ needed.isLt
    obtain ⟨⟨xrgeOut, tb⟩, hdebits⟩ := exists_takeDebits hlt ht.debits
    obtain ⟨hle, hcredits⟩ := hafter hdebits
    obtain ⟨⟨b, tb'⟩, hcredits⟩ := hcredits.2 ht
    obtain ⟨lp, hlp⟩ := exists_changeLp hlp
    refine ⟨(⟨b, tb', lp, p.pools.foldl PoolStore.savePool l.pools⟩, p.feeQuanta), ?_⟩
    refine bind_eq_ok.2 ⟨_, hdebits, ?_⟩
    refine bind_eq_ok.2 ⟨_, takeFrom_of_le hle, ?_⟩
    refine bind_eq_ok.2 ⟨_, hcredits, ?_⟩
    exact bind_eq_ok.2 ⟨_, hlp, rfl⟩

theorem amountOf_eq_zero {sym : String} {es : List (String × UInt64)}
    (h : sym ∉ es.map Prod.fst) : amountOf sym es = 0 := by
  induction es with
  | nil => rfl
  | cons e es ih =>
    rw [List.map_cons, List.mem_cons, not_or] at h
    rw [amountOf_cons, if_neg (Ne.symm h.1), ih h.2]

/-- If no symbol comes twice, the amount of one is that of an entry. -/
theorem amountOf_le {sym : String} {es : List (String × UInt64)} {n : ℕ}
    (hnodup : (es.map Prod.fst).Nodup) (h : ∀ e ∈ es, e.1 = sym → e.2.toNat ≤ n) :
    amountOf sym es ≤ n := by
  induction es with
  | nil => exact Nat.zero_le n
  | cons e es ih =>
    rw [List.map_cons, List.nodup_cons] at hnodup
    rw [List.forall_mem_cons] at h
    rw [amountOf_cons]
    split
    · next heq =>
      rw [amountOf_eq_zero (heq ▸ hnodup.1)]
      exact h.1 heq
    · rw [Nat.zero_add]
      exact ih hnodup.2 h.2

theorem together_of_nodup (h : affordable (l.view sender) p = .ok p)
    (hdebits : (p.debits.map Prod.fst).Nodup) (hcredits : (p.credits.map Prod.fst).Nodup) :
    Together l sender p := by
  obtain ⟨needed, hneeded, h⟩ := bind_eq_ok.1 h
  obtain ⟨_, hxrge, h⟩ := bind_eq_ok.1 h
  obtain ⟨_, hchecked, _⟩ := bind_eq_ok.1 h
  obtain ⟨hneeded, htokens⟩ := xrgeNeeded_eq_ok hneeded
  have hchecked := checkCredits_eq_ok hchecked
  refine ⟨fun sym hsym => ?_, fun sym hsym => ?_, ?_⟩
  · refine amountOf_le hdebits fun e he heq => ?_
    subst heq
    exact htokens e he hsym
  · have hle : amountOf sym p.credits ≤
        2 ^ 128 - 1 - (balance l.tokenBalances (sender, sym)).toNat := by
      refine amountOf_le hcredits fun e he heq => ?_
      subst heq
      have hlt : (balance l.tokenBalances (sender, e.1)).toNat + e.2.toNat < 2 ^ 128 :=
        (hchecked e he).2 hsym
      omega
    have := (balance l.tokenBalances (sender, sym)).isLt
    omega
  · have hle : amountOf xrgeSymbol p.credits ≤
        (2 ^ 128 - 1 - (balance l.balances sender).toNat) / quantaPerXrge.toNat := by
      refine amountOf_le hcredits fun e he heq => ?_
      have hlt : (balance l.balances sender).toNat + quantaPerXrge.toNat * e.2.toNat < 2 ^ 128 :=
        (hchecked e he).1 heq
      rw [Nat.le_div_iff_mul_le (by decide), mul_comm]
      omega
    rw [Nat.le_div_iff_mul_le (by decide), mul_comm] at hle
    have := (balance l.balances sender).isLt
    omega

/-- A symbol comes twice in a plan only with a pool of one token with itself. -/
theorem plan_nodup {view : AmmView} (h : plan view tx blockTime = .ok p)
    (hne : ∀ q ∈ p.pools, q.tokenA ≠ q.tokenB) :
    (p.debits.map Prod.fst).Nodup ∧ (p.credits.map Prod.fst).Nodup := by
  rw [plan] at h
  split at h
  · obtain ⟨a, b, x, y, hdebits, hcredits, -, hpools, -⟩ := planCreate_eq_ok h
    rw [hpools, List.forall_mem_singleton] at hne
    rw [hdebits, hcredits]
    refine ⟨List.nodup_cons.2 ⟨fun hab => hne ?_, List.nodup_singleton _⟩, List.nodup_nil⟩
    rw [List.map_singleton, List.mem_singleton] at hab
    rw [LiquidityPool.new]
    split
    · exact hab
    · exact hab.symm
  · obtain ⟨_, old, new, x, y, _, -, hdebits, hcredits, -, hpools, -, -, htA, htB, -⟩ :=
      planAdd_eq_ok h
    rw [hpools, List.forall_mem_singleton, htA, htB] at hne
    rw [hdebits, hcredits]
    exact ⟨List.nodup_cons.2 ⟨fun h => hne (List.mem_singleton.1 h), List.nodup_singleton _⟩,
      List.nodup_nil⟩
  · obtain ⟨_, old, new, x, y, _, -, hdebits, hcredits, -, hpools, -, -, htA, htB, -⟩ :=
      planRemove_eq_ok h
    rw [hpools, List.forall_mem_singleton, htA, htB] at hne
    rw [hdebits, hcredits]
    exact ⟨List.nodup_nil, List.nodup_cons.2
      ⟨fun h => hne (List.mem_singleton.1 h), List.nodup_singleton _⟩⟩
  · obtain ⟨_, _, _, _, _, _, hdebits, hcredits, -⟩ := planSwap_eq_ok h
    rw [hdebits, hcredits]
    exact ⟨List.nodup_singleton _, List.nodup_singleton _⟩
  · cases h

end Together

/-- A pool transaction applies, and nothing wraps or panics on the way, exactly if the sender's
    balances stand the entries of its plan together should a pool of it trade a token with itself,
    and the product in each price of a swap fits 128 bits. -/
theorem pool_tx_applies_iff (P : Platform) (l : AmmLedger) (tx : TxV1) (blockTime : UInt64) :
    ((∃ r, l.applyAmmTxIntegrity P tx blockTime = .ok r) ∧
      ∀ s ∈ planSteps (l.view (canonAddr P tx.fromPubKey)) tx blockTime, s.Safe) ↔
    (∀ p, plan (l.view (canonAddr P tx.fromPubKey)) tx blockTime = .ok p →
      (∃ q ∈ p.pools, q.tokenA = q.tokenB) → Together l (canonAddr P tx.fromPubKey) p) ∧
    ∀ c ∈ swapCalls (l.view (canonAddr P tx.fromPubKey)) tx,
      c.reserveIn ≠ 0 → OutFits c.amountIn.toNat c.reserveOut.toNat := by
  rw [planSteps_safe_iff]
  refine and_congr_left fun _ => ?_
  cases hplan : plan (l.view (canonAddr P tx.fromPubKey)) tx blockTime with
  | error e =>
    refine ⟨fun _ p hp => (nomatch hp), fun _ => ⟨(l, 0), ?_⟩⟩
    rw [AmmLedger.applyAmmTxIntegrity, hplan]
    split <;> rfl
  | ok p =>
    have hkind : tx.kind = .createPool ∨ tx.kind = .addLiquidity ∨ tx.kind = .removeLiquidity ∨
        tx.kind = .swap := by
      rw [plan] at hplan
      split at hplan
      · next h => exact .inl h
      · next h => exact .inr (.inl h)
      · next h => exact .inr (.inr (.inl h))
      · next h => exact .inr (.inr (.inr h))
      · cases hplan
    have hpassed := plan_affordable hplan
    rw [AmmLedger.applyAmmTxIntegrity, if_pos hkind, hplan]
    refine (writePlan_ok_iff hpassed).trans ⟨fun h q hq _ => ?_, fun h => ?_⟩
    · exact Except.ok.inj hq ▸ h
    · by_cases hself : ∃ q ∈ p.pools, q.tokenA = q.tokenB
      · exact h p rfl hself
      · push Not at hself
        obtain ⟨hdebits, hcredits⟩ := plan_nodup hplan hself
        exact together_of_nodup hpassed hdebits hcredits

/-- One token and some XRGE with one account. -/
def oneTokenLedger : AmmLedger where
  balances := (∅ : ExtTreeMap String U128).insert "alice" (xrgeToQuanta 10)
  tokenBalances := (∅ : TokenBalances).insert ("alice", "A") 10000
  lpBalances := ∅
  pools := .empty

/-- A pool of `A` with itself, under the rule before. -/
def createAA : TxV1 :=
  localTx .createPool "alice" { tokenASymbol := some "A", tokenBSymbol := some "A"
                                amountA := some 3000, amountB := some 3000 }

def addAA : TxV1 :=
  localTx .addLiquidity "alice" { poolId := some "A-A", amountA := some 3000
                                  amountB := some 3000 }

/-- With 4000 left, 3000 twice pass the check one by one, and fail the block together. -/
theorem add_to_self_pair_fails :
    ∃ l, oneTokenLedger.createPoolInner localEnv.toPlatform createAA 7 = .ok l ∧
      l.applyAmmTxIntegrity localEnv.toPlatform addAA 8 = .error ammMismatch := by
  have hcheck : ((oneTokenLedger.createPoolInner localEnv.toPlatform createAA 7).toOption.any
      fun l => match l.applyAmmTxIntegrity localEnv.toPlatform addAA 8 with
        | .error e => e == ammMismatch
        | .ok _ => false) = true := by decide +kernel
  cases hcreate : oneTokenLedger.createPoolInner localEnv.toPlatform createAA 7 with
  | error e =>
    rw [hcreate] at hcheck
    cases hcheck
  | ok l =>
    rw [hcreate] at hcheck
    refine ⟨l, rfl, ?_⟩
    change (match l.applyAmmTxIntegrity localEnv.toPlatform addAA 8 with
      | .error e => e == ammMismatch
      | .ok _ => false) = true at hcheck
    split at hcheck
    · next e he => rw [he, beq_iff_eq.1 hcheck]
    · cases hcheck

end RougeChain.Node
