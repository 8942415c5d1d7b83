import RougeChain.Library.BreadthFirst
import RougeChain.Node.Amm

/-!
# Prices and routes

What a swap through one pool pays, what must be paid to get an amount out of it, and the route of
swaps between two tokens that pays most. The search for the route is breadth-first: it extends
token paths by one pool at a time, and never visits a token of the path again.

* `swap_pricing_exact`: prices are those of the formula, and quotes buy what they were asked for,
  exactly as long as the products fit 128 bits;
* `descends_iff_onWay`: the paths that the search looks at; it goes one pool beyond `max_hops`;
* `findBestRoute_best_iff`: so what it returns is the best route exactly when no route with one
  pool too many pays more.
-/

namespace RougeChain.Node

open Std (ExtTreeMap)

/-! ## Prices -/

/-- What must be paid to get `amountOut`, rounded up. The product may wrap. -/
def getAmountIn (amountOut reserveIn reserveOut : UInt64) : Option UInt64 :=
  if amountOut = 0 ∨ reserveIn = 0 ∨ reserveOut = 0 ∨ reserveOut ≤ amountOut then none
  else
    let numerator := reserveIn.toNat * amountOut.toNat * feeDenominator % 2 ^ 128
    let denominator := (reserveOut - amountOut).toNat * feeNumerator
    if denominator = 0 then none else some (.ofNat (numerator / denominator + 1))

section Prices

variable {amount reserveIn reserveOut amountOut : UInt64}

/-- The price formula over the integers. -/
def exactOut (amount reserveIn reserveOut : ℕ) : ℕ :=
  997 * amount * reserveOut / (1000 * reserveIn + 997 * amount)

/-- What must be paid over the integers. -/
def exactIn (amountOut reserveIn reserveOut : ℕ) : ℕ :=
  1000 * reserveIn * amountOut / (997 * (reserveOut - amountOut)) + 1

theorem getAmountOut_eq (ha : amount ≠ 0) (hin : reserveIn ≠ 0) (hout : reserveOut ≠ 0) :
    getAmountOut amount reserveIn reserveOut = some (.ofNat
      (997 * amount.toNat * reserveOut.toNat % 2 ^ 128 /
        (1000 * reserveIn.toNat + 997 * amount.toNat))) := by
  have hdenominator : 1000 * reserveIn.toNat + 997 * amount.toNat ≠ 0 := by
    have := toNat_pos hin
    omega
  rw [getAmountOut, if_neg (by simp [ha, hin, hout])]
  simp only [feeNumerator, feeDenominator, mul_comm _ 997, mul_comm _ 1000]
  rw [if_neg hdenominator]

/-- The product that the division starts from fits 128 bits. -/
def OutFits (amount reserveOut : ℕ) : Prop := 997 * amount * reserveOut < 2 ^ 128
  deriving Decidable

theorem exactOut_lt (hin : reserveIn ≠ 0) :
    exactOut amount.toNat reserveIn.toNat reserveOut.toNat < 2 ^ 64 := by
  have hpos := toNat_pos hin
  have hlt := reserveOut.toNat_lt
  rw [exactOut]
  refine (Nat.div_le_of_le_mul ?_).trans_lt hlt
  gcongr
  omega

/-- A product that wraps loses more than the division forgives. -/
theorem mod_div_lt_div {t m d : ℕ} (hd : 0 < d) (hdm : d ≤ m) (hmt : m ≤ t) : t % m / d < t / d := by
  have hmod : t % m ≤ t - d := by
    rw [Nat.mod_eq_sub_mod hmt]
    exact (Nat.mod_le _ _).trans (Nat.sub_le_sub_left hdm t)
  calc t % m / d ≤ (t - d) / d := Nat.div_le_div_right hmod
    _ < (t - d) / d + 1 := Nat.lt_succ_self _
    _ = t / d := (Nat.div_eq_sub_div hd (hdm.trans hmt)).symm

theorem denominator_pos (amount : UInt64) (hin : reserveIn ≠ 0) :
    0 < 1000 * reserveIn.toNat + 997 * amount.toNat := by
  have := toNat_pos hin
  omega

theorem denominator_le (amount reserveIn : UInt64) :
    1000 * reserveIn.toNat + 997 * amount.toNat ≤ 2 ^ 128 := by
  have := reserveIn.toNat_lt
  have := amount.toNat_lt
  omega

/-- What the code pays is the formula, or less where the product wraps. -/
theorem getAmountOut_le (ha : amount ≠ 0) (hin : reserveIn ≠ 0) (hout : reserveOut ≠ 0) :
    ∃ out, getAmountOut amount reserveIn reserveOut = some out ∧
      out.toNat = 997 * amount.toNat * reserveOut.toNat % 2 ^ 128 /
        (1000 * reserveIn.toNat + 997 * amount.toNat) ∧
      out.toNat ≤ exactOut amount.toNat reserveIn.toNat reserveOut.toNat := by
  have hle : 997 * amount.toNat * reserveOut.toNat % 2 ^ 128 /
      (1000 * reserveIn.toNat + 997 * amount.toNat) ≤
      exactOut amount.toNat reserveIn.toNat reserveOut.toNat :=
    Nat.div_le_div_right (Nat.mod_le _ _)
  refine ⟨_, getAmountOut_eq ha hin hout, ?_⟩
  rw [UInt64.toNat_ofNat', Nat.mod_eq_of_lt (hle.trans_lt (exactOut_lt hin))]
  exact ⟨rfl, hle⟩

/-- The formula is computed exactly when the product fits. -/
theorem getAmountOut_exact_iff (ha : amount ≠ 0) (hin : reserveIn ≠ 0) (hout : reserveOut ≠ 0) :
    (∃ out, getAmountOut amount reserveIn reserveOut = some out ∧
      out.toNat = exactOut amount.toNat reserveIn.toNat reserveOut.toNat) ↔
    OutFits amount.toNat reserveOut.toNat := by
  obtain ⟨out, hsome, heq, -⟩ := getAmountOut_le ha hin hout
  constructor
  · rintro ⟨out', hsome', hexact⟩
    by_contra hwraps
    rw [hsome, Option.some.injEq] at hsome'
    subst hsome'
    have hlt := mod_div_lt_div (denominator_pos amount hin) (denominator_le amount reserveIn)
      (not_lt.1 hwraps)
    rw [← heq, hexact] at hlt
    exact lt_irrefl _ hlt
  · intro hfits
    refine ⟨out, hsome, ?_⟩
    rw [heq, Nat.mod_eq_of_lt hfits, exactOut]

/-- The products that the inverse and the price then start from fit, and so does the payment. -/
def InFits (amountOut reserveIn reserveOut : ℕ) : Prop :=
  1000 * reserveIn * amountOut < 2 ^ 128 ∧ exactIn amountOut reserveIn reserveOut < 2 ^ 64 ∧
    OutFits (exactIn amountOut reserveIn reserveOut) reserveOut
  deriving Decidable

/-- A payment buys `amountOut` if it covers the price of it. -/
theorem le_exactOut_iff {amount amountOut reserveIn reserveOut : ℕ} (hin : 0 < reserveIn)
    (hlt : amountOut < reserveOut) :
    amountOut ≤ exactOut amount reserveIn reserveOut ↔
      1000 * reserveIn * amountOut ≤ amount * (997 * (reserveOut - amountOut)) := by
  obtain ⟨rest, rfl⟩ := Nat.exists_eq_add_of_lt hlt
  have hrest : amountOut + rest + 1 - amountOut = rest + 1 := by omega
  rw [exactOut, Nat.le_div_iff_mul_le (by omega), hrest]
  constructor
  · intro h
    nlinarith only [h]
  · intro h
    nlinarith only [h]

theorem getAmountIn_eq (ho : amountOut ≠ 0) (hin : reserveIn ≠ 0) (hlt : amountOut < reserveOut) :
    getAmountIn amountOut reserveIn reserveOut = some (.ofNat
      (1000 * reserveIn.toNat * amountOut.toNat % 2 ^ 128 /
        (997 * (reserveOut.toNat - amountOut.toNat)) + 1)) := by
  have hlt' : amountOut.toNat < reserveOut.toNat := hlt
  have hout : reserveOut ≠ 0 := by
    rintro rfl
    exact absurd hlt' (by simp)
  have hsub : (reserveOut - amountOut).toNat = reserveOut.toNat - amountOut.toNat :=
    UInt64.toNat_sub_of_le _ _ hlt'.le
  rw [getAmountIn, if_neg (by simp [ho, hin, hout, UInt64.not_le.2 hlt])]
  simp only [feeNumerator, feeDenominator, hsub]
  rw [if_neg (by omega), mul_comm _ 1000, ← mul_assoc, mul_comm _ 997]

/-- A payment below the price buys less. -/
theorem not_covers_of_short (hin : reserveIn ≠ 0) (hlt : amountOut < reserveOut)
    (hshort : amount.toNat * (997 * (reserveOut.toNat - amountOut.toNat)) <
      1000 * reserveIn.toNat * amountOut.toNat) :
    ¬ ∃ out, getAmountOut amount reserveIn reserveOut = some out ∧ amountOut ≤ out := by
  rintro ⟨out, hsome, hle⟩
  have ha : amount ≠ 0 := by
    rintro rfl
    rw [getAmountOut, if_pos (.inl rfl)] at hsome
    cases hsome
  have hout : reserveOut ≠ 0 := by
    rintro rfl
    exact absurd hlt (by simp)
  obtain ⟨out', hsome', -, hexact⟩ := getAmountOut_le ha hin hout
  rw [hsome, Option.some.injEq] at hsome'
  subst hsome'
  have hlt' : amountOut.toNat < reserveOut.toNat := hlt
  have hcovers := (le_exactOut_iff (toNat_pos hin) hlt').1 (le_trans hle hexact)
  exact absurd hshort (not_lt.2 hcovers)

/-- A quote whose product wraps is below the price. -/
theorem short_of_wraps {n d : ℕ} (hd : d < 2 ^ 128) (hwraps : 2 ^ 128 ≤ n) :
    (n % 2 ^ 128 / d + 1) % 2 ^ 64 * d < n := by
  have hmod : n % 2 ^ 128 ≤ n - 2 ^ 128 := by
    rw [Nat.mod_eq_sub_mod hwraps]
    exact Nat.mod_le _ _
  have hdiv := Nat.div_mul_le_self (n % 2 ^ 128) d
  calc (n % 2 ^ 128 / d + 1) % 2 ^ 64 * d ≤ (n % 2 ^ 128 / d + 1) * d :=
        Nat.mul_le_mul_right _ (Nat.mod_le _ _)
    _ = n % 2 ^ 128 / d * d + d := by ring
    _ < n := by omega

/-- So is one that is cut to 64 bits. -/
theorem short_of_cut {n d : ℕ} (hd : 0 < d) (hcut : 2 ^ 64 ≤ n / d + 1) :
    (n / d + 1) % 2 ^ 64 * d < n := by
  have hdiv := Nat.div_mul_le_self n d
  have hone : d ≤ n / d * d := Nat.le_mul_of_pos_left d (by omega)
  have hmod : (n / d + 1) % 2 ^ 64 ≤ n / d - 1 := by
    rw [Nat.mod_eq_sub_mod hcut]
    exact (Nat.mod_le _ _).trans (by omega)
  calc (n / d + 1) % 2 ^ 64 * d ≤ (n / d - 1) * d := Nat.mul_le_mul_right _ hmod
    _ = n / d * d - d := by rw [Nat.sub_mul, one_mul]
    _ < n := by omega

/-- A payment just above the price buys what was asked for unless the price wraps. -/
theorem covers_iff_outFits (hin : reserveIn ≠ 0) (hlt : amountOut < reserveOut)
    (hpays : amount.toNat = exactIn amountOut.toNat reserveIn.toNat reserveOut.toNat) :
    (∃ out, getAmountOut amount reserveIn reserveOut = some out ∧ amountOut ≤ out) ↔
      OutFits amount.toNat reserveOut.toNat := by
  have hlt' : amountOut.toNat < reserveOut.toNat := hlt
  have hout : reserveOut ≠ 0 := by
    rintro rfl
    exact absurd hlt' (by simp)
  have ha : amount ≠ 0 := by
    rintro rfl
    cases hpays
  generalize hD : 997 * (reserveOut.toNat - amountOut.toNat) = D
  have hDpos : 0 < D := by omega
  rw [exactIn, hD] at hpays
  constructor
  · rintro ⟨out, hsome, hle⟩
    by_contra hwraps
    obtain ⟨out', hsome', heq, -⟩ := getAmountOut_le ha hin hout
    rw [hsome, Option.some.injEq] at hsome'
    subst hsome'
    have hmod := Nat.mod_eq_sub_mod (not_lt.1 hwraps)
    have hmodle := Nat.mod_le (997 * amount.toNat * reserveOut.toNat - 2 ^ 128) (2 ^ 128)
    have hover : 2 ^ 128 ≤ 997 * amount.toNat * reserveOut.toNat := not_lt.1 hwraps
    -- the payment is at most one unit above the price
    have hprice : amount.toNat * D ≤ 1000 * reserveIn.toNat * amountOut.toNat + D := by
      rw [hpays, add_mul, one_mul]
      exact Nat.add_le_add_right (Nat.div_mul_le_self _ _) _
    have hDlt : D < 2 ^ 128 := by
      have := reserveOut.toNat_lt
      omega
    have hsplit : 997 * amount.toNat * reserveOut.toNat =
        amount.toNat * D + 997 * amount.toNat * amountOut.toNat := by
      obtain ⟨rest, hrest⟩ := Nat.exists_eq_add_of_lt hlt'
      have : D = 997 * (rest + 1) := by omega
      rw [this, hrest]
      ring
    have hless : out.toNat < amountOut.toNat := by
      rw [heq, Nat.div_lt_iff_lt_mul (denominator_pos amount hin), hmod]
      have hscale : amountOut.toNat * (1000 * reserveIn.toNat + 997 * amount.toNat) =
          1000 * reserveIn.toNat * amountOut.toNat + 997 * amount.toNat * amountOut.toNat := by ring
      omega
    exact absurd (UInt64.le_iff_toNat_le.1 hle) (not_le.2 hless)
  · intro hfits
    obtain ⟨out, hsome, hexact⟩ := (getAmountOut_exact_iff ha hin hout).2 hfits
    refine ⟨out, hsome, UInt64.le_iff_toNat_le.2 ?_⟩
    rw [hexact, le_exactOut_iff (toNat_pos hin) hlt', hD, hpays]
    exact ((Nat.div_lt_iff_lt_mul hDpos).1 (Nat.lt_succ_self _)).le

/-- The payment that is quoted buys what was asked for exactly when nothing wraps. -/
theorem getAmountIn_covers_iff (ho : amountOut ≠ 0) (hin : reserveIn ≠ 0)
    (hlt : amountOut < reserveOut)
    (hquote : getAmountIn amountOut reserveIn reserveOut = some amount) :
    (∃ out, getAmountOut amount reserveIn reserveOut = some out ∧ amountOut ≤ out) ↔
      InFits amountOut.toNat reserveIn.toNat reserveOut.toNat := by
  have hlt' : amountOut.toNat < reserveOut.toNat := hlt
  rw [getAmountIn_eq ho hin hlt, Option.some.injEq] at hquote
  have hpays := congrArg UInt64.toNat hquote
  rw [UInt64.toNat_ofNat'] at hpays
  have hdlt : 997 * (reserveOut.toNat - amountOut.toNat) < 2 ^ 128 := by
    have := reserveOut.toNat_lt
    omega
  by_cases hproduct : 1000 * reserveIn.toNat * amountOut.toNat < 2 ^ 128
  swap
  · refine iff_of_false (not_covers_of_short hin hlt ?_) fun h => hproduct h.1
    rw [← hpays]
    exact short_of_wraps hdlt (not_lt.1 hproduct)
  rw [Nat.mod_eq_of_lt hproduct] at hpays
  by_cases hcast : exactIn amountOut.toNat reserveIn.toNat reserveOut.toNat < 2 ^ 64
  swap
  · refine iff_of_false (not_covers_of_short hin hlt ?_) fun h => hcast h.2.1
    rw [← hpays]
    exact short_of_cut (by omega) (not_lt.1 hcast)
  have hexact : amount.toNat = exactIn amountOut.toNat reserveIn.toNat reserveOut.toNat := by
    rw [← hpays]
    exact Nat.mod_eq_of_lt hcast
  rw [covers_iff_outFits hin hlt hexact, hexact]
  exact ⟨fun h => ⟨hproduct, hcast, h⟩, fun h => h.2.2⟩

end Prices

/-- Swap prices are exact, and quotes sufficient, exactly as long as their products fit. -/
theorem swap_pricing_exact (reserveIn reserveOut : UInt64) (hin : reserveIn ≠ 0)
    (hout : reserveOut ≠ 0) :
    (∀ amountIn : UInt64, amountIn ≠ 0 →
      ((∃ out, getAmountOut amountIn reserveIn reserveOut = some out ∧
          out.toNat = exactOut amountIn.toNat reserveIn.toNat reserveOut.toNat) ↔
        OutFits amountIn.toNat reserveOut.toNat)) ∧
    ∀ amountOut a : UInt64, amountOut < reserveOut →
      getAmountIn amountOut reserveIn reserveOut = some a →
      ((∃ out, getAmountOut a reserveIn reserveOut = some out ∧ amountOut ≤ out) ↔
        InFits amountOut.toNat reserveIn.toNat reserveOut.toNat) := by
  refine ⟨fun _ ha => getAmountOut_exact_iff ha hin hout, fun amountOut a hlt hquote => ?_⟩
  have ho : amountOut ≠ 0 := by
    rintro rfl
    rw [getAmountIn, if_pos (.inl rfl)] at hquote
    cases hquote
  exact getAmountIn_covers_iff ho hin hlt hquote

theorem swap_pricing_small :
    (∃ out, getAmountOut 1000 10000 10000 = some out ∧ out.toNat = exactOut 1000 10000 10000) ∧
    ∃ out, getAmountOut 992 10000 10000 = some out ∧ 900 ≤ out :=
  have hpool := swap_pricing_exact 10000 10000 (by decide) (by decide)
  ⟨(hpool.1 1000 (by decide)).2 (by decide),
    (hpool.2 900 992 (by decide) (by decide +kernel)).2 (by decide +kernel)⟩

/-- A swap between the largest reserves is paid a thousandth of its price, and the payment quoted
    for half of a reserve of `2 ^ 60` buys a third of that half. -/
theorem swap_price_wraps :
    getAmountOut 18446744073709551615 18446744073709551615 18446744073709551615 =
      some 9237227878672783 ∧
    exactOut 18446744073709551615 18446744073709551615 18446744073709551615 =
      9209516195036766630 ∧
    getAmountIn 576460752303423488 1152921504606846976 1152921504606846976 =
      some 564318650198737537 ∧
    getAmountOut 564318650198737537 1152921504606846976 1152921504606846976 =
      some 179756578675261087 := by
  decide +kernel

/-! ## The search for a route -/

structure SwapRoute where
  path : List String
  amounts : List UInt64
  pools : List String
  totalAmountOut : UInt64
  priceImpact : Float

def LiquidityPool.getReserves (q : LiquidityPool) (tokenIn : String) : Option (UInt64 × UInt64) :=
  if q.tokenA = tokenIn then some (q.reserveA, q.reserveB)
  else if q.tokenB = tokenIn then some (q.reserveB, q.reserveA)
  else none

/-- By how many percent the price of a swap is worse than the price before it. -/
def calculatePriceImpact (amountIn reserveIn reserveOut : UInt64) : Float :=
  if reserveIn = 0 ∨ reserveOut = 0 then 0.0
  else
    let spotPrice := natAsF64 reserveOut.toNat / natAsF64 reserveIn.toNat
    let amountOut := (getAmountOut amountIn reserveIn reserveOut).getD 0
    if amountOut = 0 ∨ amountIn = 0 then 0.0
    else
      let executionPrice := natAsF64 amountOut.toNat / natAsF64 amountIn.toNat
      ((spotPrice - executionPrice) / spotPrice * 100.0).abs

/-- The amounts after each pool of the route, and the sum of the price impacts. -/
def routeAmounts (poolMap : ExtTreeMap String LiquidityPool) :
    List String → List String → UInt64 → Float → Option (List UInt64 × Float)
  | _, [], _, impact => some ([], impact)
  | [], _ :: _, _, _ => none
  | tokenIn :: path, poolId :: poolIds, amount, impact => do
    let pool ← poolMap[poolId]?
    let (reserveIn, reserveOut) ← pool.getReserves tokenIn
    let out ← getAmountOut amount reserveIn reserveOut
    let (amounts, impact) ← routeAmounts poolMap path poolIds out
      (impact + calculatePriceImpact amount reserveIn reserveOut)
    return (out :: amounts, impact)

def poolMap (pools : List LiquidityPool) : ExtTreeMap String LiquidityPool :=
  pools.foldl (fun m p => m.insert p.poolId p) ∅

def calculateRouteAmounts (path poolIds : List String) (amountIn : UInt64)
    (pools : List LiquidityPool) : Option SwapRoute := do
  if path.length < 2 ∨ path.length ≠ poolIds.length + 1 then none
  else
    let (amounts, priceImpact) ← routeAmounts (poolMap pools) path poolIds amountIn 0.0
    return {
      path
      amounts := amountIn :: amounts
      pools := poolIds
      totalAmountOut := (amountIn :: amounts).getLast (List.cons_ne_nil _ _)
      priceImpact }

/-- The tokens that a token is traded for, each with its pool. -/
abbrev Graph := ExtTreeMap String (List (String × String))

def Graph.neighbors (g : Graph) (token : String) : List (String × String) := g[token]?.getD []

def Graph.push (g : Graph) (token : String) (edge : String × String) : Graph :=
  g.insert token (g.neighbors token ++ [edge])

def buildGraph (pools : List LiquidityPool) : Graph :=
  pools.foldl (fun g p => (g.push p.tokenA (p.tokenB, p.poolId)).push p.tokenB
    (p.tokenA, p.poolId)) ∅

/-- A token path, and the pools between its tokens. -/
abbrev Trip := List String × List String

section Search

variable (g : Graph) (tokenOut : String) (amountIn : UInt64) (pools : List LiquidityPool)
  (maxHops : UInt64)

/-- The trips that go on by one pool, to a token that is not on the path. -/
def extensions (trip : Trip) : List Trip :=
  ((g.neighbors (trip.1.getLast?.getD "")).filter fun edge => !trip.1.contains edge.1).map
    fun edge => (trip.1 ++ [edge.1], trip.2 ++ [edge.2])

/-- The loop over the queue. The bound on the length wraps. -/
def search : ℕ → List Trip → Option SwapRoute → Option SwapRoute
  | 0, _, best => best
  | _ + 1, [], best => best
  | fuel + 1, trip :: queue, best =>
    if trip.1.getLast? = some tokenOut then
      search fuel queue (BreadthFirst.better (fun r => r.totalAmountOut.toNat) best
        (calculateRouteAmounts trip.1 trip.2 amountIn pools))
    else if (maxHops + 1).toNat < trip.1.length then search fuel queue best
    else search fuel (queue ++ extensions g trip) best

end Search

/-- More turns than the search ever takes. -/
def searchFuel (pools : List LiquidityPool) : ℕ :=
  (2 * pools.length + 1) ^ (2 * pools.length + 1)

def findBestRoute (tokenIn tokenOut : String) (amountIn : UInt64) (pools : List LiquidityPool)
    (maxHops : UInt64) : Option SwapRoute :=
  if tokenIn = tokenOut then none
  else search (buildGraph pools) tokenOut amountIn pools maxHops (searchFuel pools)
    [([tokenIn], [])] none

/-! ## Routes and what they pay -/

section Routes

variable (pools : List LiquidityPool)

/-- The pool trades the two tokens. -/
def Joins (t t' poolId : String) : Prop :=
  ∃ p ∈ pools, p.poolId = poolId ∧ ((p.tokenA = t ∧ p.tokenB = t') ∨ (p.tokenB = t ∧ p.tokenA = t'))

/-- Each pool trades the tokens on its two sides. -/
def Linked : List String → List String → Prop
  | [_], [] => True
  | t :: t' :: path, poolId :: poolIds =>
    Joins pools t t' poolId ∧ Linked (t' :: path) poolIds
  | _, _ => False

/-- A simple token path between two tokens, with its pools. -/
structure IsRoute (tokenIn tokenOut : String) (path poolIds : List String) : Prop where
  linked : Linked pools path poolIds
  simple : path.Nodup
  first : path.head? = some tokenIn
  last : path.getLast? = some tokenOut

/-- Each amount is what the pool pays for the amount before it. -/
def PaidAlong : List String → List String → List UInt64 → Prop
  | _, [], [_] => True
  | t :: path, poolId :: poolIds, a :: b :: amounts =>
    (∃ p ∈ pools, p.poolId = poolId ∧ ∃ reserveIn reserveOut,
      p.getReserves t = some (reserveIn, reserveOut) ∧
      getAmountOut a reserveIn reserveOut = some b) ∧
    PaidAlong path poolIds (b :: amounts)
  | _, _, _ => False

/-- What the path pays for `amountIn`. -/
def Output (amountIn : UInt64) (path poolIds : List String) (out : UInt64) : Prop :=
  ∃ amounts, PaidAlong pools path poolIds amounts ∧ amounts.head? = some amountIn ∧
    amounts.getLast? = some out

end Routes

/-! ## The graph -/

section Graph

theorem Graph.neighbors_push (g : Graph) (t a : String) (edge : String × String) :
    (g.push t edge).neighbors a = if t = a then g.neighbors a ++ [edge] else g.neighbors a := by
  rw [neighbors, push, getElem?_insert_eq]
  split
  next h => rw [h, Option.getD_some]
  · rfl

theorem mem_neighbors_foldl {pools : List LiquidityPool} {g : Graph} {t t' poolId : String} :
    (t', poolId) ∈ (pools.foldl (fun g p => (g.push p.tokenA (p.tokenB, p.poolId)).push p.tokenB
      (p.tokenA, p.poolId)) g).neighbors t ↔
    (t', poolId) ∈ g.neighbors t ∨ Joins pools t t' poolId := by
  induction pools generalizing g with
  | nil => simp [Joins]
  | cons p pools ih =>
    have hpush : (t', poolId) ∈ ((g.push p.tokenA (p.tokenB, p.poolId)).push p.tokenB
        (p.tokenA, p.poolId)).neighbors t ↔ (t', poolId) ∈ g.neighbors t ∨
        (p.poolId = poolId ∧
          ((p.tokenA = t ∧ p.tokenB = t') ∨ (p.tokenB = t ∧ p.tokenA = t'))) := by
      rw [Graph.neighbors_push, Graph.neighbors_push]
      split <;> split <;> simp_all [eq_comm] <;> tauto
    rw [List.foldl_cons, ih, hpush, or_assoc]
    refine or_congr_right ?_
    simp only [Joins, List.mem_cons, exists_eq_or_imp]

theorem mem_neighbors_buildGraph {pools : List LiquidityPool} {t t' poolId : String} :
    (t', poolId) ∈ (buildGraph pools).neighbors t ↔ Joins pools t t' poolId := by
  rw [buildGraph, mem_neighbors_foldl]
  simp [Graph.neighbors]

theorem length_neighbors_foldl (pools : List LiquidityPool) (g : Graph) (t : String) :
    ((pools.foldl (fun g p => (g.push p.tokenA (p.tokenB, p.poolId)).push p.tokenB
      (p.tokenA, p.poolId)) g).neighbors t).length ≤ (g.neighbors t).length + 2 * pools.length := by
  have hpush (g : Graph) (a : String) (edge : String × String) :
      ((g.push a edge).neighbors t).length ≤ (g.neighbors t).length + 1 := by
    rw [Graph.neighbors_push]
    split
    · rw [List.length_append, List.length_singleton]
    · exact Nat.le_succ _
  induction pools generalizing g with
  | nil => exact le_rfl
  | cons p pools ih =>
    rw [List.foldl_cons, List.length_cons]
    have h₁ := hpush g p.tokenA (p.tokenB, p.poolId)
    have h₂ := hpush (g.push p.tokenA (p.tokenB, p.poolId)) p.tokenB (p.tokenA, p.poolId)
    exact (ih _).trans (by omega)

theorem length_neighbors_buildGraph (pools : List LiquidityPool) (t : String) :
    ((buildGraph pools).neighbors t).length ≤ 2 * pools.length := by
  refine (length_neighbors_foldl pools ∅ t).trans ?_
  simp [Graph.neighbors]

end Graph

/-! ## The search is breadth-first -/

section BreadthFirst

variable (pools : List LiquidityPool) (tokenOut : String) (amountIn : UInt64) (maxHops : UInt64)

/-- The trips that the search goes on to. -/
def children (trip : Trip) : List Trip :=
  if trip.1.getLast? = some tokenOut then []
  else if (maxHops + 1).toNat < trip.1.length then []
  else extensions (buildGraph pools) trip

/-- The route that a trip is, if it has arrived and pays something. -/
def arrival (trip : Trip) : Option SwapRoute :=
  if trip.1.getLast? = some tokenOut then calculateRouteAmounts trip.1 trip.2 amountIn pools
  else none

theorem search_eq (fuel : ℕ) (queue : List Trip) (best : Option SwapRoute) :
    search (buildGraph pools) tokenOut amountIn pools maxHops fuel queue best =
      (BreadthFirst.visits (children pools tokenOut maxHops) fuel queue).foldl
        (fun best trip => BreadthFirst.better (fun r : SwapRoute => r.totalAmountOut.toNat) best
          (arrival pools tokenOut amountIn trip)) best := by
  induction fuel generalizing queue best with
  | zero => rfl
  | succ fuel ih =>
    cases queue with
    | nil => rfl
    | cons trip queue =>
      rw [search, BreadthFirst.visits, List.foldl_cons, arrival, children]
      split
      · rw [List.append_nil]
        exact ih _ _
      · rw [BreadthFirst.better]
        split
        · rw [List.append_nil]
          exact ih _ _
        · exact ih _ _

variable {pools tokenOut amountIn maxHops} {tokenIn : String}

theorem linked_length {path poolIds : List String} (h : Linked pools path poolIds) :
    path.length = poolIds.length + 1 := by
  induction poolIds generalizing path with
  | nil =>
    match path, h with
    | [_], _ => rfl
  | cons poolId poolIds ih =>
    match path, h with
    | t :: t' :: path, h => rw [List.length_cons, ih h.2, List.length_cons]

/-- A linked path goes on by one pool. -/
theorem linked_concat {path : List String} (poolIds : List String) {t t' poolId : String} :
    Linked pools (path ++ [t] ++ [t']) (poolIds ++ [poolId]) ↔
      Linked pools (path ++ [t]) poolIds ∧ Joins pools t t' poolId := by
  induction path generalizing poolIds with
  | nil =>
    cases poolIds with
    | nil => simp [Linked]
    | cons id ids =>
      cases ids <;> simp [Linked]
  | cons a path ih =>
    cases poolIds with
    | nil =>
      cases path <;> simp [Linked]
    | cons id ids =>
      cases path with
      | nil =>
        have := ih ids
        simp only [List.cons_append, List.nil_append, Linked] at this ⊢
        rw [this, and_assoc]
      | cons b path =>
        have := ih ids
        simp only [List.cons_append, Linked] at this ⊢
        rw [this, and_assoc]

/-- What the search looks at: simple paths that have not passed the goal, with at most one pool more
    than asked for. -/
structure OnWay (pools : List LiquidityPool) (tokenIn tokenOut : String) (maxHops : UInt64)
    (trip : Trip) : Prop where
  linked : Linked pools trip.1 trip.2
  simple : trip.1.Nodup
  first : trip.1.head? = some tokenIn
  before : tokenOut ∉ trip.1.dropLast
  bound : trip.1.length ≤ (maxHops + 1).toNat + 1

theorem mem_extensions {path poolIds : List String} {t : String} {trip : Trip} :
    trip ∈ extensions (buildGraph pools) (path ++ [t], poolIds) ↔
      ∃ t' poolId, Joins pools t t' poolId ∧ t' ∉ path ++ [t] ∧
        trip = (path ++ [t] ++ [t'], poolIds ++ [poolId]) := by
  simp only [extensions, List.getLast?_concat, Option.getD_some, List.mem_map, List.mem_filter,
    Bool.not_eq_true', List.contains_eq_mem, decide_eq_false_iff_not, Prod.exists]
  refine exists_congr fun t' => exists_congr fun poolId => ?_
  rw [mem_neighbors_buildGraph, and_assoc]
  exact and_congr_right fun _ => and_congr_right fun _ => eq_comm

/-- A trip goes on to a child if it has not arrived, and is not yet too long. -/
theorem mem_children {path poolIds : List String} {t : String} {trip : Trip} :
    trip ∈ children pools tokenOut maxHops (path ++ [t], poolIds) ↔
      t ≠ tokenOut ∧ path.length + 1 ≤ (maxHops + 1).toNat ∧
      ∃ t' poolId, Joins pools t t' poolId ∧ t' ∉ path ++ [t] ∧
        trip = (path ++ [t] ++ [t'], poolIds ++ [poolId]) := by
  rw [children]
  simp only [List.getLast?_concat, Option.some.injEq, List.length_append, List.length_singleton]
  split_ifs with harrived hlong
  · exact iff_of_false List.not_mem_nil fun h => h.1 harrived
  · exact iff_of_false List.not_mem_nil fun h => Nat.not_le.2 hlong h.2.1
  · rw [mem_extensions]
    exact ⟨fun h => ⟨harrived, Nat.not_lt.1 hlong, h⟩, fun h => h.2.2⟩

theorem onWay_concat {path poolIds : List String} {t t' poolId : String} :
    OnWay pools tokenIn tokenOut maxHops (path ++ [t] ++ [t'], poolIds ++ [poolId]) ↔
      OnWay pools tokenIn tokenOut maxHops (path ++ [t], poolIds) ∧ t ≠ tokenOut ∧
      path.length + 1 ≤ (maxHops + 1).toNat ∧ Joins pools t t' poolId ∧ t' ∉ path ++ [t] := by
  have hhead : (path ++ [t] ++ [t']).head? = (path ++ [t]).head? := by
    cases path <;> rfl
  constructor
  · rintro ⟨hlinked, hsimple, hfirst, hbefore, hbound⟩
    obtain ⟨hlinked, hjoins⟩ := (linked_concat _).1 hlinked
    rw [List.dropLast_concat] at hbefore
    simp only [List.length_append, List.length_singleton] at hbound
    obtain ⟨hsimple, -, hdisjoint⟩ := List.nodup_append.1 hsimple
    refine ⟨⟨hlinked, hsimple, hhead ▸ hfirst, ?_, ?_⟩, ?_, by omega, hjoins, ?_⟩
    · rw [List.dropLast_concat]
      exact fun h => hbefore (List.mem_append_left _ h)
    · simp only [List.length_append, List.length_singleton]
      omega
    · rintro rfl
      exact hbefore (List.mem_append_right _ (List.mem_singleton_self t))
    · exact fun h => hdisjoint t' h t' (List.mem_singleton_self t') rfl
  · rintro ⟨⟨hlinked, hsimple, hfirst, hbefore, hbound⟩, hne, hlong, hjoins, hnew⟩
    refine ⟨(linked_concat _).2 ⟨hlinked, hjoins⟩, ?_, hhead.trans hfirst, ?_, ?_⟩
    · refine List.nodup_append.2 ⟨hsimple, List.nodup_singleton _, ?_⟩
      rintro a ha b hb rfl
      rw [List.mem_singleton.1 hb] at ha
      exact hnew ha
    · rw [List.dropLast_concat] at hbefore ⊢
      rw [List.mem_append, List.mem_singleton]
      rintro (h | h)
      · exact hbefore h
      · exact hne h.symm
    · simp only [List.length_append, List.length_singleton]
      omega

/-- A path that begins somewhere ends somewhere. -/
theorem exists_eq_concat {path : List String} (h : path.head? = some tokenIn) :
    ∃ path' t, path = path' ++ [t] := by
  rcases List.eq_nil_or_concat path with rfl | ⟨path', t, rfl⟩
  · cases h
  · exact ⟨path', t, List.concat_eq_append⟩

theorem OnWay.child {trip trip' : Trip} (h : OnWay pools tokenIn tokenOut maxHops trip)
    (hchild : trip' ∈ children pools tokenOut maxHops trip) :
    OnWay pools tokenIn tokenOut maxHops trip' := by
  obtain ⟨path, poolIds⟩ := trip
  obtain ⟨path, t, rfl⟩ := exists_eq_concat h.first
  obtain ⟨hne, hlong, t', poolId, hjoins, hnew, rfl⟩ := mem_children.1 hchild
  exact onWay_concat.2 ⟨h, hne, hlong, hjoins, hnew⟩

theorem onWay_start : OnWay pools tokenIn tokenOut maxHops ([tokenIn], []) :=
  ⟨trivial, List.nodup_singleton _, rfl, List.not_mem_nil, Nat.le_add_left _ _⟩

/-- The search comes to exactly these trips. -/
theorem descends_iff_onWay {trip : Trip} :
    BreadthFirst.Descends (children pools tokenOut maxHops) ([tokenIn], []) trip ↔
      OnWay pools tokenIn tokenOut maxHops trip := by
  constructor
  · intro h
    exact h.invariant (fun _ ha _ hb => OnWay.child ha hb) onWay_start
  · obtain ⟨path, poolIds⟩ := trip
    intro h
    induction poolIds using List.reverseRecOn generalizing path with
    | nil =>
      have hlength := linked_length h.linked
      obtain ⟨t, rfl⟩ := List.length_eq_one_iff.1 hlength
      obtain rfl := Option.some.inj h.first
      exact .refl
    | append_singleton poolIds poolId ih =>
      obtain ⟨path, t', rfl⟩ := exists_eq_concat h.first
      have hlength := linked_length h.linked
      simp only [List.length_append, List.length_singleton] at hlength
      -- a pool has a token on each side
      rcases List.eq_nil_or_concat path with rfl | ⟨path, t, rfl⟩
      · simp at hlength
      rw [List.concat_eq_append] at h ⊢
      obtain ⟨hprev, hne, hlong, hjoins, hnew⟩ := onWay_concat.1 h
      exact (ih _ hprev).tail (mem_children.2 ⟨hne, hlong, t', poolId, hjoins, hnew, rfl⟩)

/-! ## The search ends -/

theorem mem_tokens_of_linked {path poolIds : List String} (h : Linked pools path poolIds) :
    ∀ t ∈ path.tail, t ∈ pools.flatMap fun p => [p.tokenA, p.tokenB] := by
  induction poolIds generalizing path with
  | nil =>
    match path, h with
    | [_], _ => exact fun t ht => nomatch ht
  | cons poolId poolIds ih =>
    match path, h with
    | a :: b :: path, ⟨⟨p, hp, _, hsides⟩, hrest⟩ =>
      intro t ht
      rcases List.mem_cons.1 ht with rfl | ht
      · refine List.mem_flatMap.2 ⟨p, hp, ?_⟩
        rcases hsides with ⟨-, rfl⟩ | ⟨-, rfl⟩ <;> simp
      · exact ih hrest t ht

/-- A simple path has no more tokens than the pools. -/
theorem OnWay.length_le {trip : Trip} (h : OnWay pools tokenIn tokenOut maxHops trip) :
    trip.1.length ≤ 2 * pools.length + 1 := by
  have htail : trip.1.tail.length ≤ (pools.flatMap fun p => [p.tokenA, p.tokenB]).length :=
    (List.subperm_of_subset h.simple.tail (mem_tokens_of_linked h.linked)).length_le
  have hsum : (pools.flatMap fun p => [p.tokenA, p.tokenB]).length = 2 * pools.length := by
    rw [List.length_flatMap]
    simp [mul_comm]
  rw [List.length_tail] at htail
  omega

/-- What a trip and all that follow it cost. -/
def tripWeight (pools : List LiquidityPool) (trip : Trip) : ℕ :=
  (2 * pools.length + 1) ^ (2 * pools.length + 2 - trip.1.length)

theorem length_of_mem_children {trip trip' : Trip}
    (h : trip' ∈ children pools tokenOut maxHops trip) : trip'.1.length = trip.1.length + 1 := by
  rw [children] at h
  split_ifs at h
  · cases h
  · cases h
  · obtain ⟨edge, -, rfl⟩ := List.mem_map.1 h
    rw [List.length_append, List.length_singleton]

theorem length_children_le (trip : Trip) :
    (children pools tokenOut maxHops trip).length ≤ 2 * pools.length := by
  rw [children]
  split_ifs
  · exact Nat.zero_le _
  · exact Nat.zero_le _
  · rw [extensions, List.length_map]
    exact (List.length_filter_le _ _).trans (length_neighbors_buildGraph _ _)

theorem OnWay.pays {trip : Trip} (h : OnWay pools tokenIn tokenOut maxHops trip) :
    BreadthFirst.Pays (children pools tokenOut maxHops) (tripWeight pools) trip := by
  have hlength := h.length_le
  -- every child costs the same
  have hchild : ∀ w ∈ (children pools tokenOut maxHops trip).map (tripWeight pools),
      w ≤ (2 * pools.length + 1) ^ (2 * pools.length + 1 - trip.1.length) := by
    intro w hw
    obtain ⟨trip', htrip', rfl⟩ := List.mem_map.1 hw
    rw [tripWeight, length_of_mem_children htrip']
    exact le_of_eq (congrArg _ (by omega))
  have hsum := List.sum_le_card_nsmul _ _ hchild
  rw [List.length_map, smul_eq_mul] at hsum
  have hexponent : 2 * pools.length + 2 - trip.1.length =
      2 * pools.length + 1 - trip.1.length + 1 := by omega
  calc _ ≤ _ := hsum
    _ ≤ 2 * pools.length * (2 * pools.length + 1) ^ (2 * pools.length + 1 - trip.1.length) :=
      Nat.mul_le_mul_right _ (length_children_le trip)
    _ < (2 * pools.length + 1) * (2 * pools.length + 1) ^
        (2 * pools.length + 1 - trip.1.length) :=
      Nat.mul_lt_mul_of_pos_right (Nat.lt_succ_self _) (Nat.pow_pos (Nat.succ_pos _))
    _ = tripWeight pools trip := by rw [tripWeight, hexponent, pow_succ, mul_comm]

/-- The search sees every trip on the way before it ends. -/
theorem mem_visits_iff_onWay {trip : Trip} :
    trip ∈ BreadthFirst.visits (children pools tokenOut maxHops) (searchFuel pools)
        [([tokenIn], [])] ↔
      OnWay pools tokenIn tokenOut maxHops trip := by
  have hfuel : ([(([tokenIn], []) : Trip)].map (tripWeight pools)).sum ≤ searchFuel pools := by
    simp [tripWeight, searchFuel]
  have hqueue : ∀ trip ∈ [(([tokenIn], []) : Trip)], OnWay pools tokenIn tokenOut maxHops trip := by
    intro trip htrip
    rw [List.mem_singleton.1 htrip]
    exact onWay_start
  rw [BreadthFirst.mem_visits (fun _ ha _ hb => OnWay.child ha hb) (fun _ ha => OnWay.pays ha)
    hqueue hfuel]
  simp only [List.mem_singleton, exists_eq_left]
  exact descends_iff_onWay

end BreadthFirst

/-! ## What routes pay -/

section Amounts

variable {pools : List LiquidityPool} {path poolIds : List String} {amountIn out : UInt64}

theorem getElem?_poolMap_foldl {m : ExtTreeMap String LiquidityPool} {id : String}
    {p : LiquidityPool} (h : (pools.foldl (fun m p => m.insert p.poolId p) m)[id]? = some p) :
    (p ∈ pools ∧ p.poolId = id) ∨ m[id]? = some p := by
  induction pools generalizing m with
  | nil => exact .inr h
  | cons q pools ih =>
    rcases ih h with ⟨hp, hid⟩ | h
    · exact .inl ⟨List.mem_cons_of_mem _ hp, hid⟩
    · rw [getElem?_insert_eq] at h
      split at h
      next hid =>
        obtain rfl := Option.some.inj h
        exact .inl ⟨List.mem_cons_self, hid⟩
      · exact .inr h

theorem mem_of_poolMap {id : String} {p : LiquidityPool} (h : (poolMap pools)[id]? = some p) :
    p ∈ pools ∧ p.poolId = id := by
  rcases getElem?_poolMap_foldl h with h | h
  · exact h
  · simp at h

theorem getElem?_foldl_of_notMem {m : ExtTreeMap String LiquidityPool} {id : String}
    (h : id ∉ pools.map LiquidityPool.poolId) :
    (pools.foldl (fun m p => m.insert p.poolId p) m)[id]? = m[id]? := by
  induction pools generalizing m with
  | nil => rfl
  | cons q pools ih =>
    rw [List.map_cons, List.mem_cons, not_or] at h
    rw [List.foldl_cons, ih h.2, getElem?_insert_eq, if_neg (Ne.symm h.1)]

/-- Pools with different ids are found by their ids. -/
theorem poolMap_of_mem (hids : (pools.map LiquidityPool.poolId).Nodup) {p : LiquidityPool}
    (hp : p ∈ pools) : (poolMap pools)[p.poolId]? = some p := by
  rw [poolMap]
  generalize (∅ : ExtTreeMap String LiquidityPool) = m
  induction pools generalizing m with
  | nil => cases hp
  | cons q pools ih =>
    rw [List.map_cons, List.nodup_cons] at hids
    rcases List.mem_cons.1 hp with rfl | hp
    · rw [List.foldl_cons, getElem?_foldl_of_notMem hids.1, getElem?_insert_eq, if_pos rfl]
    · exact ih hids.2 hp _

theorem paidAlong_nil {amounts : List UInt64} :
    PaidAlong pools path [] (amountIn :: amounts) ↔ amounts = [] := by
  cases path <;> cases amounts <;> simp [PaidAlong]

theorem paidAlong_of_routeAmounts {impact impact' : Float} {amounts : List UInt64}
    (h : routeAmounts (poolMap pools) path poolIds amountIn impact = some (amounts, impact')) :
    PaidAlong pools path poolIds (amountIn :: amounts) := by
  induction poolIds generalizing path amountIn impact amounts with
  | nil =>
    rw [routeAmounts] at h
    exact paidAlong_nil.2 (Prod.ext_iff.1 (Option.some.inj h)).1.symm
  | cons poolId poolIds ih =>
    cases path with
    | nil => cases h
    | cons t path =>
      simp only [routeAmounts, Option.bind_eq_bind, Option.bind_eq_some_iff, Option.pure_def,
        Option.some.injEq, Prod.mk.injEq] at h
      obtain ⟨p, hp, ⟨reserveIn, reserveOut⟩, hreserves, out, hout, ⟨rest, impact⟩, hrest, rfl, rfl⟩ :=
        h
      obtain ⟨hmem, hid⟩ := mem_of_poolMap hp
      exact ⟨⟨p, hmem, hid, reserveIn, reserveOut, hreserves, hout⟩, ih hrest⟩

theorem routeAmounts_of_paidAlong (hids : (pools.map LiquidityPool.poolId).Nodup)
    {amounts : List UInt64} (h : PaidAlong pools path poolIds (amountIn :: amounts))
    (impact : Float) :
    ∃ impact', routeAmounts (poolMap pools) path poolIds amountIn impact =
      some (amounts, impact') := by
  induction poolIds generalizing path amountIn impact amounts with
  | nil =>
    obtain rfl := paidAlong_nil.1 h
    exact ⟨impact, by rw [routeAmounts]⟩
  | cons poolId poolIds ih =>
    match path, amounts, h with
    | t :: path, out :: amounts, ⟨⟨p, hp, hid, reserveIn, reserveOut, hreserves, hout⟩, hrest⟩ =>
      obtain ⟨impact', hrest⟩ := ih hrest
        (impact + calculatePriceImpact amountIn reserveIn reserveOut)
      refine ⟨impact', ?_⟩
      rw [routeAmounts, ← hid, poolMap_of_mem hids hp]
      simp [hreserves, hout, hrest]

/-- The amounts of a route that the code computes. -/
theorem calculateRouteAmounts_eq_some {r : SwapRoute}
    (h : calculateRouteAmounts path poolIds amountIn pools = some r) :
    r.path = path ∧ r.pools = poolIds ∧ PaidAlong pools path poolIds r.amounts ∧
      r.amounts.head? = some amountIn ∧ r.amounts.getLast? = some r.totalAmountOut := by
  rw [calculateRouteAmounts] at h
  split at h
  · cases h
  · simp only [Option.bind_eq_bind, Option.bind_eq_some_iff, Option.pure_def,
      Option.some.injEq] at h
    obtain ⟨⟨amounts, impact⟩, hamounts, rfl⟩ := h
    exact ⟨rfl, rfl, paidAlong_of_routeAmounts hamounts, rfl,
      List.getLast?_eq_getLast_of_ne_nil (List.cons_ne_nil _ _)⟩

/-- What a path pays is what the code computes. -/
theorem output_iff (hids : (pools.map LiquidityPool.poolId).Nodup) (hlinked : Linked pools path poolIds)
    (hpools : poolIds ≠ []) :
    Output pools amountIn path poolIds out ↔
      ∃ r, calculateRouteAmounts path poolIds amountIn pools = some r ∧ r.totalAmountOut = out := by
  constructor
  · rintro ⟨amounts, hpaid, hhead, hlast⟩
    match amounts, hhead with
    | a :: amounts, hhead =>
      obtain rfl := Option.some.inj hhead
      obtain ⟨impact, hamounts⟩ := routeAmounts_of_paidAlong hids hpaid 0.0
      have hlength := linked_length hlinked
      have hpos := List.length_pos_iff.2 hpools
      refine ⟨_, by rw [calculateRouteAmounts, if_neg (by omega), hamounts]; rfl, ?_⟩
      rw [List.getLast?_eq_getLast_of_ne_nil (List.cons_ne_nil _ _)] at hlast
      exact Option.some.inj hlast
  · rintro ⟨r, hr, rfl⟩
    obtain ⟨-, -, hpaid, hhead, hlast⟩ := calculateRouteAmounts_eq_some hr
    exact ⟨r.amounts, hpaid, hhead, hlast⟩

end Amounts

/-! ## The best route -/

section Best

variable (pools : List LiquidityPool) (tokenIn tokenOut : String) (amountIn : UInt64)

/-- A simple path of `n` pools pays `out`. -/
def Offer (n : ℕ) (out : UInt64) : Prop :=
  ∃ path poolIds, IsRoute pools tokenIn tokenOut path poolIds ∧ poolIds.length = n ∧
    Output pools amountIn path poolIds out

/-- The route has at most `maxHops` pools, the amounts its pools pay, and no such path pays more. -/
structure IsBest (maxHops : UInt64) (r : SwapRoute) : Prop where
  route : IsRoute pools tokenIn tokenOut r.path r.pools
  short : r.pools.length ≤ maxHops.toNat
  paid : PaidAlong pools r.path r.pools r.amounts
  first : r.amounts.head? = some amountIn
  total : r.amounts.getLast? = some r.totalAmountOut
  best : ∀ n ≤ maxHops.toNat, ∀ out, Offer pools tokenIn tokenOut amountIn n out →
    out ≤ r.totalAmountOut

/-- The best route is found if there is one. -/
def FindsBest (maxHops : UInt64) : Prop :=
  match findBestRoute tokenIn tokenOut amountIn pools maxHops with
  | some r => IsBest pools tokenIn tokenOut amountIn maxHops r
  | none => ∀ n ≤ maxHops.toNat, ∀ out, ¬ Offer pools tokenIn tokenOut amountIn n out

/-- One pool beyond the limit pays no more than a path within it. For the largest limit, which
    wraps, nothing is paid at all. -/
def LimitMet (maxHops : UInt64) : Prop :=
  if maxHops.toNat + 1 < 2 ^ 64 then
    ∀ out, Offer pools tokenIn tokenOut amountIn (maxHops.toNat + 1) out →
      ∃ n ≤ maxHops.toNat, ∃ out', Offer pools tokenIn tokenOut amountIn n out' ∧ out ≤ out'
  else ∀ n ≤ maxHops.toNat, ∀ out, ¬ Offer pools tokenIn tokenOut amountIn n out

variable {pools tokenIn tokenOut amountIn} {maxHops : UInt64}

theorem onWay_iff_isRoute {path poolIds : List String} (hlast : path.getLast? = some tokenOut) :
    OnWay pools tokenIn tokenOut maxHops (path, poolIds) ↔
      IsRoute pools tokenIn tokenOut path poolIds ∧ poolIds.length ≤ (maxHops + 1).toNat := by
  constructor
  · rintro ⟨hlinked, hsimple, hfirst, -, hbound⟩
    have hlength := linked_length hlinked
    dsimp only at hlength hbound
    exact ⟨⟨hlinked, hsimple, hfirst, hlast⟩, by omega⟩
  · rintro ⟨hroute, hbound⟩
    have hlength := linked_length hroute.linked
    refine ⟨hroute.linked, hroute.simple, hroute.first, ?_, by dsimp only; omega⟩
    -- the goal is the last token, and no other
    obtain ⟨path, t, rfl⟩ := exists_eq_concat hroute.first
    rw [List.getLast?_concat, Option.some.injEq] at hlast
    subst hlast
    rw [List.dropLast_concat]
    intro hmem
    exact (List.nodup_append.1 hroute.simple).2.2 t hmem t (List.mem_singleton_self t) rfl

/-- What the search finds worth keeping. -/
theorem mem_visits_arrival {t : Trip} {r : SwapRoute} :
    (t ∈ BreadthFirst.visits (children pools tokenOut maxHops) (searchFuel pools)
        [([tokenIn], [])] ∧ arrival pools tokenOut amountIn t = some r) ↔
      IsRoute pools tokenIn tokenOut t.1 t.2 ∧ t.2.length ≤ (maxHops + 1).toNat ∧
        calculateRouteAmounts t.1 t.2 amountIn pools = some r := by
  rw [mem_visits_iff_onWay, arrival]
  split
  next hlast => rw [onWay_iff_isRoute hlast, and_assoc]
  next hlast =>
    refine iff_of_false (fun h => nomatch h.2) fun h => hlast h.1.last

theorem poolIds_ne_nil (hne : tokenIn ≠ tokenOut) {path poolIds : List String}
    (h : IsRoute pools tokenIn tokenOut path poolIds) : poolIds ≠ [] := by
  rintro rfl
  obtain ⟨t, rfl⟩ := List.length_eq_one_iff.1 (linked_length h.linked)
  exact hne ((Option.some.inj h.first).symm.trans (Option.some.inj h.last))

/-- An offer within the reach of the search is seen by it. -/
theorem exists_arrival_of_offer (hids : (pools.map LiquidityPool.poolId).Nodup)
    (hne : tokenIn ≠ tokenOut) {n : ℕ} (hn : n ≤ (maxHops + 1).toNat) {out : UInt64}
    (h : Offer pools tokenIn tokenOut amountIn n out) :
    ∃ trip ∈ BreadthFirst.visits (children pools tokenOut maxHops) (searchFuel pools)
        [([tokenIn], [])], ∃ r, arrival pools tokenOut amountIn trip = some r ∧
      r.totalAmountOut = out ∧ trip.1.length = n + 1 := by
  obtain ⟨path, poolIds, hroute, rfl, hout⟩ := h
  obtain ⟨r, hr, hout⟩ := (output_iff hids hroute.linked (poolIds_ne_nil hne hroute)).1 hout
  obtain ⟨hmem, harrival⟩ := (mem_visits_arrival (t := (path, poolIds))).2 ⟨hroute, hn, hr⟩
  exact ⟨(path, poolIds), hmem, r, harrival, hout, linked_length hroute.linked⟩

theorem findBestRoute_eq (hne : tokenIn ≠ tokenOut) :
    findBestRoute tokenIn tokenOut amountIn pools maxHops =
      BreadthFirst.firstBest (fun r : SwapRoute => r.totalAmountOut.toNat)
        (arrival pools tokenOut amountIn)
        (BreadthFirst.visits (children pools tokenOut maxHops) (searchFuel pools)
          [([tokenIn], [])]) := by
  rw [findBestRoute, if_neg hne, search_eq]
  rfl

/-- Nothing is returned only if no path that the search reaches pays anything. -/
theorem not_offer_of_none (hids : (pools.map LiquidityPool.poolId).Nodup) (hne : tokenIn ≠ tokenOut)
    (h : findBestRoute tokenIn tokenOut amountIn pools maxHops = none) {n : ℕ}
    (hn : n ≤ (maxHops + 1).toNat) (out : UInt64) :
    ¬ Offer pools tokenIn tokenOut amountIn n out := by
  intro hoffer
  obtain ⟨trip, hmem, r, harrival, -⟩ := exists_arrival_of_offer hids hne hn hoffer
  rw [findBestRoute_eq hne, BreadthFirst.firstBest_eq_none] at h
  rw [h trip hmem] at harrival
  cases harrival

/-- What is returned is a route with its amounts; no path that the search reaches pays more, and
    the paths with fewer pools pay less. -/
theorem findBestRoute_eq_some (hids : (pools.map LiquidityPool.poolId).Nodup)
    (hne : tokenIn ≠ tokenOut) {r : SwapRoute}
    (h : findBestRoute tokenIn tokenOut amountIn pools maxHops = some r) :
    IsRoute pools tokenIn tokenOut r.path r.pools ∧ r.pools.length ≤ (maxHops + 1).toNat ∧
      calculateRouteAmounts r.path r.pools amountIn pools = some r ∧
      (∀ n ≤ (maxHops + 1).toNat, ∀ out, Offer pools tokenIn tokenOut amountIn n out →
        out ≤ r.totalAmountOut) ∧
      ∀ n < r.pools.length, ∀ out, Offer pools tokenIn tokenOut amountIn n out →
        out < r.totalAmountOut := by
  rw [findBestRoute_eq hne] at h
  obtain ⟨before, trip, after, hvisits, harrival, hbefore, hafter⟩ :=
    BreadthFirst.firstBest_eq_some h
  obtain ⟨hroute, hbound, hcalc⟩ := mem_visits_arrival.1
    ⟨hvisits ▸ List.mem_append_right _ List.mem_cons_self, harrival⟩
  obtain ⟨hpath, hpools, -⟩ := calculateRouteAmounts_eq_some hcalc
  have hsorted : (before ++ trip :: after).Pairwise fun a b => a.1.length ≤ b.1.length := by
    rw [← hvisits]
    exact BreadthFirst.visits_sorted (fun _ _ hb => length_of_mem_children hb)
      (List.pairwise_singleton _ _) (by simp)
  rw [hpath, hpools]
  refine ⟨hroute, hbound, hcalc, fun n hn out hoffer => ?_, fun n hn out hoffer => ?_⟩
  · obtain ⟨trip', hmem, r', harrival', rfl, -⟩ := exists_arrival_of_offer hids hne hn hoffer
    rw [hvisits, List.mem_append, List.mem_cons] at hmem
    rcases hmem with hmem | rfl | hmem
    · exact UInt64.le_iff_toNat_le.2 (hbefore trip' hmem r' harrival').le
    · rw [harrival, Option.some.injEq] at harrival'
      rw [harrival']
      exact UInt64.le_refl _
    · exact UInt64.le_iff_toNat_le.2 (hafter trip' hmem r' harrival')
  · obtain ⟨trip', hmem, r', harrival', rfl, hlength⟩ :=
      exists_arrival_of_offer hids hne (by omega : n ≤ (maxHops + 1).toNat) hoffer
    have hshorter : trip'.1.length < trip.1.length := by
      rw [hlength, linked_length hroute.linked]
      omega
    rw [hvisits, List.mem_append, List.mem_cons] at hmem
    rcases hmem with hmem | rfl | hmem
    · exact UInt64.lt_iff_toNat_lt.2 (hbefore trip' hmem r' harrival')
    · exact absurd hshorter (lt_irrefl _)
    · -- longer paths come later
      have := (List.pairwise_cons.1 (List.pairwise_append.1 hsorted).2.1).1 trip' hmem
      omega

/-- The search finds the best route exactly when one pool too many is of no use. -/
theorem findBestRoute_best_iff (pools : List LiquidityPool)
    (hids : (pools.map LiquidityPool.poolId).Nodup) (tokenIn tokenOut : String)
    (hne : tokenIn ≠ tokenOut) (amountIn maxHops : UInt64) :
    FindsBest pools tokenIn tokenOut amountIn maxHops ↔
      LimitMet pools tokenIn tokenOut amountIn maxHops := by
  rw [FindsBest, LimitMet]
  by_cases hwrap : maxHops.toNat + 1 < 2 ^ 64
  · have hlimit : (maxHops + 1).toNat = maxHops.toNat + 1 := by
      rw [UInt64.toNat_add, UInt64.toNat_one, Nat.mod_eq_of_lt hwrap]
    rw [if_pos hwrap]
    split
    next r hr =>
      obtain ⟨hroute, hbound, hcalc, hbest, hshorter⟩ := findBestRoute_eq_some hids hne hr
      obtain ⟨-, -, hpaid, hfirst, htotal⟩ := calculateRouteAmounts_eq_some hcalc
      rw [hlimit] at hbest hbound
      have hown : Offer pools tokenIn tokenOut amountIn r.pools.length r.totalAmountOut :=
        ⟨r.path, r.pools, hroute, rfl, r.amounts, hpaid, hfirst, htotal⟩
      constructor
      · intro h out hoffer
        exact ⟨r.pools.length, h.short, r.totalAmountOut, hown, hbest _ le_rfl out hoffer⟩
      · intro h
        refine ⟨hroute, ?_, hpaid, hfirst, htotal, fun n hn => hbest n (hn.trans (Nat.le_succ _))⟩
        -- a route that is too long pays more than all within the limit
        by_contra hlong
        have hlength : r.pools.length = maxHops.toNat + 1 := by omega
        obtain ⟨n, hn, out', hoffer, hle⟩ := h r.totalAmountOut (hlength ▸ hown)
        exact absurd (hshorter n (by omega) out' hoffer) (UInt64.not_lt.2 hle)
    next hr =>
      have hnone : ∀ n ≤ maxHops.toNat + 1, ∀ out,
          ¬ Offer pools tokenIn tokenOut amountIn n out :=
        fun n hn => not_offer_of_none hids hne hr (hlimit ▸ hn)
      exact iff_of_true (fun n hn => hnone n (hn.trans (Nat.le_succ _)))
        fun out hoffer => absurd hoffer (hnone _ le_rfl out)
  · -- the limit wraps to zero, and no path is extended
    have hlimit : (maxHops + 1).toNat = 0 := by
      have := maxHops.toNat_lt
      rw [UInt64.toNat_add, UInt64.toNat_one]
      omega
    rw [if_neg hwrap]
    split
    next r hr =>
      obtain ⟨hroute, hbound, -⟩ := findBestRoute_eq_some hids hne hr
      rw [hlimit, Nat.le_zero, List.length_eq_zero_iff] at hbound
      exact absurd hbound (poolIds_ne_nil hne hroute)
    next => exact Iff.rfl

/-- A pool of two tokens with the same reserve of both. -/
def evenPool (tokenA tokenB : String) (reserve : UInt64) : LiquidityPool :=
  .new tokenA tokenB reserve reserve "alice" 0

theorem findBestRoute_one_pool : FindsBest [evenPool "A" "B" 100000] "A" "B" 1000 1 := by
  refine (findBestRoute_best_iff [evenPool "A" "B" 100000] (by decide) "A" "B" (by decide) 1000
    1).2 ?_
  rw [LimitMet, if_pos (by decide)]
  rintro out ⟨path, poolIds, hroute, hlength, -⟩
  -- two pools would need three tokens
  have hpath := linked_length hroute.linked
  rw [hlength] at hpath
  obtain ⟨a, b, c, rfl⟩ := List.length_eq_three.1 hpath
  have ha : a = "A" := Option.some.inj hroute.first
  have hc : c = "B" := Option.some.inj hroute.last
  have hb := mem_tokens_of_linked hroute.linked b List.mem_cons_self
  have hsimple := hroute.simple
  have htokens : ([evenPool "A" "B" 100000].flatMap fun p => [p.tokenA, p.tokenB]) =
      ["A", "B"] := by decide +kernel
  rw [htokens] at hb
  subst ha hc
  simp only [List.nodup_cons, List.mem_cons, List.not_mem_nil, or_false] at hb hsimple
  tauto

/-- A direct pool with little in it, and a detour through `C` with much. -/
def triangle : List LiquidityPool :=
  [evenPool "A" "B" 10000, evenPool "A" "C" 1000000, evenPool "B" "C" 1000000]

/-- With at most one pool asked for, the route has two. -/
theorem detour_exceeds_limit : ¬ FindsBest triangle "A" "B" 1000 1 := by
  have hroute : (findBestRoute "A" "B" 1000 triangle 1).map (fun r => r.pools.length) = some 2 := by
    decide +kernel
  obtain ⟨r, hr, hlength⟩ := Option.map_eq_some_iff.1 hroute
  intro h
  rw [FindsBest, hr] at h
  have := h.short
  rw [hlength] at this
  exact absurd this (by decide)

end Best

end RougeChain.Node
