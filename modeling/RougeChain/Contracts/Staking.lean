import RougeChain.Library.Basic
import RougeChain.Library.Runs

/-!
# The XRGE staking contract

Holders stake XRGE and share a pot of rewards that streams over time. The pool keeps a reward per
staked quantum (`acc`), an account the value of it up to which it has been settled, so that a call
touches the pool and one account only.

All integers are natural numbers; where the source saturates, checks or wraps, so does the model,
and `Fits` says that every field stays in its type. A call that is refused changes nothing.

* `owed`: what the accounts have earned, in parts of a quantum;
* `Solvent`: the invariant. The reserve covers what is owed, what is still to be streamed and what
  the last funding has left over;
* `staking_solvent`: after any calls by any accounts at any times, the totals are the sums over the
  accounts, principal and rewards are accounted for separately, and every claim is paid in full.
-/

open Fallible

namespace RougeChain.Staking

open Std (ExtTreeMap)

/-- The scale of the reward per staked quantum. -/
def prec : ℕ := 1000000000000

/-- The smallest stake of an account, 1 XRGE. -/
def minStake : ℕ := 1000000000

def unstakeDelaySecs : ℕ := 3 * 24 * 60 * 60

def minFundSecs : ℕ := 24 * 60 * 60

def maxFundSecs : ℕ := 365 * 24 * 60 * 60

structure Pool where
  totalStaked : ℕ := 0
  totalPending : ℕ := 0
  /-- The rewards per staked quantum so far, scaled by `prec`. -/
  acc : ℕ := 0
  /-- Quanta streamed per second while `lastUpdate < periodEnd`. -/
  rate : ℕ := 0
  periodEnd : ℕ := 0
  lastUpdate : ℕ := 0
  /-- The remainder of the last funding, added to the next one. -/
  carry : ℕ := 0
  /-- Funded rewards that have not been claimed. -/
  reserve : ℕ := 0
  deriving DecidableEq

structure Account where
  staked : ℕ := 0
  /-- `Pool.acc` when the account was settled last. -/
  accPaid : ℕ := 0
  /-- Settled rewards that have not been claimed. -/
  rewards : ℕ := 0
  pending : ℕ := 0
  unlockAt : ℕ := 0
  deriving DecidableEq

inductive Error where
  | zeroAmount | belowMinimum | insufficient | nothingPending | stillLocked | nothingToClaim
  | badDuration | rateTooLow | overflow
  /-- The payment of a call that has none to make, or is too large for the host. -/
  | unpayable
  deriving DecidableEq

/-! ## Integers of the source -/

def saturatingAdd (w a b : ℕ) : ℕ := min (a + b) (2 ^ w - 1)

def saturatingMul (w a b : ℕ) : ℕ := min (a * b) (2 ^ w - 1)

def checkedAdd (a b : ℕ) : Except Error ℕ := do
  require (a + b < 2 ^ 64) .overflow
  return a + b

/-- The source's `a -= b` on 64 bits. -/
def wrappingSub (a b : ℕ) : ℕ := (a + 2 ^ 64 - b) % 2 ^ 64

theorem saturatingAdd_le (w a b : ℕ) : saturatingAdd w a b ≤ a + b := min_le_left ..

theorem saturatingMul_le (w a b : ℕ) : saturatingMul w a b ≤ a * b := min_le_left ..

theorem saturatingAdd_lt (w a b : ℕ) : saturatingAdd w a b < 2 ^ w :=
  Nat.lt_of_le_of_lt (min_le_right ..) (Nat.sub_lt (by positivity) one_pos)

theorem checkedAdd_eq_ok {a b c : ℕ} : checkedAdd a b = .ok c ↔ a + b < 2 ^ 64 ∧ c = a + b := by
  rw [checkedAdd, bind_eq_ok]
  simp only [require_eq_ok]
  constructor
  · rintro ⟨_, hlt, hok⟩
    exact ⟨hlt, (Except.ok.inj hok).symm⟩
  · rintro ⟨hlt, rfl⟩
    exact ⟨(), hlt, rfl⟩

theorem wrappingSub_eq {a b : ℕ} (hb : b ≤ a) (ha : a < 2 ^ 64) : wrappingSub a b = a - b := by
  rw [wrappingSub, Nat.sub_add_comm hb, Nat.add_mod_right, Nat.mod_eq_of_lt (by omega)]

/-! ## The pool -/

namespace Pool

/-- Bring the stream up to `now`. While nobody is staked, its end moves out. -/
def advance (p : Pool) (now : ℕ) : Pool :=
  let now := max now p.lastUpdate
  if p.lastUpdate < p.periodEnd then
    if p.totalStaked = 0 then
      { p with
        periodEnd := saturatingAdd 64 p.periodEnd (now - p.lastUpdate)
        lastUpdate := now }
    else
      let dt := min now p.periodEnd - p.lastUpdate
      let add := saturatingMul 128 (saturatingMul 128 p.rate dt) prec / p.totalStaked
      { p with
        acc := saturatingAdd 128 p.acc add
        lastUpdate := now }
  else { p with lastUpdate := now }

/-- Move what an account has earned since its last settlement to its rewards. -/
def settle (p : Pool) (a : Account) : Account :=
  let earned := saturatingMul 128 a.staked (p.acc - a.accPaid) / prec
  { a with
    rewards := saturatingAdd 64 a.rewards (min earned (2 ^ 64 - 1))
    accPaid := p.acc }

/-- What an account could claim at `now`. -/
def earned (p : Pool) (a : Account) (now : ℕ) : ℕ :=
  min ((p.advance now).settle a).rewards (p.advance now).reserve

def stake (p : Pool) (a : Account) (now amount : ℕ) : Except Error (Pool × Account) := do
  require (amount ≠ 0) .zeroAmount
  let staked ← checkedAdd a.staked amount
  require (minStake ≤ staked) .belowMinimum
  let total ← checkedAdd p.totalStaked amount
  let p := p.advance now
  let a := p.settle a
  return ({ p with totalStaked := total }, { a with staked })

/-- `amount` stops earning; a later request restarts the delay for everything pending. -/
def requestUnstake (p : Pool) (a : Account) (now amount : ℕ) : Except Error (Pool × Account) := do
  require (amount ≠ 0) .zeroAmount
  require (amount ≤ a.staked) .insufficient
  let left := a.staked - amount
  require (left = 0 ∨ minStake ≤ left) .belowMinimum
  let p := p.advance now
  let a := p.settle a
  let pending ← checkedAdd a.pending amount
  let totalPending ← checkedAdd p.totalPending amount
  return ({ p with totalStaked := wrappingSub p.totalStaked amount, totalPending },
    { a with
      staked := left
      pending
      unlockAt := saturatingAdd 64 p.lastUpdate unstakeDelaySecs })

def cancelUnstake (p : Pool) (a : Account) (now : ℕ) : Except Error (Pool × Account) := do
  require (a.pending ≠ 0) .nothingPending
  let p := p.advance now
  let a := p.settle a
  let amount := a.pending
  let staked ← checkedAdd a.staked amount
  let totalStaked ← checkedAdd p.totalStaked amount
  return ({ p with totalStaked, totalPending := wrappingSub p.totalPending amount },
    { a with staked, pending := 0, unlockAt := 0 })

/-- The principal to pay back once the delay has passed. -/
def withdraw (p : Pool) (a : Account) (now : ℕ) : Except Error (Pool × Account × ℕ) := do
  require (a.pending ≠ 0) .nothingPending
  require (a.unlockAt ≤ now) .stillLocked
  let amount := a.pending
  return ({ p with totalPending := wrappingSub p.totalPending amount },
    { a with pending := 0, unlockAt := 0 }, amount)

/-- The rewards to pay now. -/
def claim (p : Pool) (a : Account) (now : ℕ) : Except Error (Pool × Account × ℕ) := do
  let p := p.advance now
  let a := p.settle a
  let pay := min a.rewards p.reserve
  require (pay ≠ 0) .nothingToClaim
  return ({ p with reserve := p.reserve - pay }, { a with rewards := a.rewards - pay }, pay)

/-- What is still to be streamed. -/
def unstreamed (p : Pool) : ℕ :=
  if p.lastUpdate < p.periodEnd then (p.periodEnd - p.lastUpdate) * p.rate else 0

/-- Add `amount` to the pot and stream all of it over `duration` seconds. -/
def fund (p : Pool) (now amount duration : ℕ) : Except Error Pool := do
  require (amount ≠ 0) .zeroAmount
  require (minFundSecs ≤ duration ∧ duration ≤ maxFundSecs) .badDuration
  let p := p.advance now
  let pot := amount + p.unstreamed + p.carry
  let rate := pot / duration
  require (¬ (rate = 0 ∨ 2 ^ 64 - 1 < rate ∨
    (p.lastUpdate < p.periodEnd ∧ rate < p.rate))) .rateTooLow
  let reserve ← checkedAdd p.reserve amount
  let periodEnd ← checkedAdd p.lastUpdate duration
  return { p with rate, carry := pot % duration, periodEnd, reserve }

end Pool

def Account.isEmpty (a : Account) : Bool := a.staked == 0 && a.rewards == 0 && a.pending == 0

/-! ## The contract -/

abbrev Accounts := ExtTreeMap String Account

def loadAccount (m : Accounts) (who : String) : Account := m[who]?.getD {}

/-- An account with nothing in it is deleted. -/
def saveAccount (m : Accounts) (who : String) (a : Account) : Accounts :=
  if a.isEmpty then m.erase who else m.insert who a

/-- The payments that the host makes. -/
def pay (amount : ℕ) : Except Error Unit :=
  require (amount ≠ 0 ∧ amount ≤ 2 ^ 63 - 1) .unpayable

/-- The contract, with everything that was ever paid in and out. -/
structure State where
  pool : Pool := {}
  accounts : Accounts := ∅
  /-- Paid in as stakes, and paid in as rewards. -/
  deposited : ℕ := 0
  funded : ℕ := 0
  /-- Paid out of principal, and paid out as rewards. -/
  withdrawn : ℕ := 0
  claimed : ℕ := 0

inductive Call where
  | stake (who : String) (amount : UInt64)
  | requestUnstake (who : String) (amount : UInt64)
  | cancelUnstake (who : String)
  | withdraw (who : String)
  | claim (who : String)
  | fund (amount duration : UInt64)

namespace State

/-- Everything ever paid in. -/
def paidIn (s : State) : ℕ := s.deposited + s.funded

/-- Everything ever paid out. -/
def paidOut (s : State) : ℕ := s.withdrawn + s.claimed

/-- A call at the block time `now`. -/
def call (s : State) (now : UInt64) : Call → Except Error State
  | .stake who amount => do
    let (p, a) ← s.pool.stake (loadAccount s.accounts who) now.toNat amount.toNat
    return { s with
      pool := p
      accounts := saveAccount s.accounts who a
      deposited := s.deposited + amount.toNat }
  | .requestUnstake who amount => do
    let (p, a) ← s.pool.requestUnstake (loadAccount s.accounts who) now.toNat amount.toNat
    return { s with pool := p, accounts := saveAccount s.accounts who a }
  | .cancelUnstake who => do
    let (p, a) ← s.pool.cancelUnstake (loadAccount s.accounts who) now.toNat
    return { s with pool := p, accounts := saveAccount s.accounts who a }
  | .withdraw who => do
    let (p, a, amount) ← s.pool.withdraw (loadAccount s.accounts who) now.toNat
    pay amount
    return { s with
      pool := p
      accounts := saveAccount s.accounts who a
      withdrawn := s.withdrawn + amount }
  | .claim who => do
    let (p, a, amount) ← s.pool.claim (loadAccount s.accounts who) now.toNat
    pay amount
    return { s with
      pool := p
      accounts := saveAccount s.accounts who a
      claimed := s.claimed + amount }
  | .fund amount duration => do
    let p ← s.pool.fund now.toNat amount.toNat duration.toNat
    return { s with pool := p, funded := s.funded + amount.toNat }

/-- A call that is refused changes nothing. -/
def step (s : State) (c : UInt64 × Call) : State :=
  match s.call c.1 c.2 with
  | .ok s' => s'
  | .error _ => s

end State

/-! ## What is owed -/

section Owed

variable {p p' : Pool} {m : Accounts} {a a' : Account} {who : String} {now : ℕ}

/-- What the account has earned, in parts of a quantum. -/
def Pool.owed (p : Pool) (a : Account) : ℕ := a.rewards * prec + a.staked * (p.acc - a.accPaid)

/-- The reserve covers what the accounts have earned, what is still to be streamed and what is left
    over. -/
def Covers (p : Pool) (m : Accounts) : Prop :=
  valueSum p.owed m + (p.unstreamed + p.carry) * prec ≤ p.reserve * prec

/-- The sum over the accounts after one of them is saved. -/
theorem valueSum_saveAccount {f : Account → ℕ} (hf : ∀ a : Account, a.isEmpty = true → f a = 0)
    (m : Accounts) (who : String) (a : Account) :
    valueSum f (saveAccount m who a) + f (loadAccount m who) = valueSum f m + f a := by
  have hempty : f {} = 0 := hf {} rfl
  rw [saveAccount]
  split
  · next ha =>
    rw [hf a ha, add_zero]
    cases hm : m[who]? with
    | none =>
      rw [loadAccount, hm, Option.getD_none, hempty, add_zero]
      exact entrySum_erase_of_none (fun _ => f) hm
    | some b =>
      rw [loadAccount, hm, Option.getD_some, add_comm]
      exact (entrySum_eq_add_erase (fun _ => f) hm).symm
  · have h := valueSum_insert f m who a
    cases hm : m[who]? with
    | none =>
      rw [hm] at h
      rw [loadAccount, hm, Option.getD_none, hempty]
      exact h
    | some b =>
      rw [hm] at h
      rw [loadAccount, hm, Option.getD_some]
      exact h

theorem Account.fields_of_isEmpty (h : a.isEmpty = true) :
    a.staked = 0 ∧ a.rewards = 0 ∧ a.pending = 0 := by
  simpa [Account.isEmpty, and_assoc] using h

theorem owed_of_isEmpty (p : Pool) (h : a.isEmpty = true) : p.owed a = 0 := by
  obtain ⟨hstaked, hrewards, -⟩ := Account.fields_of_isEmpty h
  rw [Pool.owed, hstaked, hrewards, zero_mul, zero_mul, add_zero]

/-- Rounding and saturation only ever lose parts of what is owed. -/
theorem settle_rewards_le (p : Pool) (a : Account) :
    (p.settle a).rewards * prec ≤ p.owed a := by
  have hearned : saturatingMul 128 a.staked (p.acc - a.accPaid) / prec * prec ≤
      a.staked * (p.acc - a.accPaid) :=
    (Nat.div_mul_le_self _ _).trans (saturatingMul_le ..)
  calc (p.settle a).rewards * prec
      ≤ (a.rewards + saturatingMul 128 a.staked (p.acc - a.accPaid) / prec) * prec :=
        Nat.mul_le_mul_right _ ((saturatingAdd_le ..).trans (Nat.add_le_add_left (min_le_left ..) _))
    _ ≤ p.owed a := by
        rw [Nat.add_mul, Pool.owed]
        exact Nat.add_le_add_left hearned _

/-- A settled account is owed its rewards, whatever becomes of its stake. -/
theorem owed_settle (p : Pool) (h : a.accPaid = p.acc) : p.owed a = a.rewards * prec := by
  rw [Pool.owed, h, Nat.sub_self, mul_zero, add_zero]

/-- Saving an account keeps the reserve sufficient, if the account is owed no more than before,
    less what it is paid. -/
theorem Covers.save (h : Covers p m) (paid : ℕ)
    (howed : p.owed a + paid * prec ≤ p.owed (loadAccount m who)) (hacc : p'.acc = p.acc)
    (hrate : p'.rate = p.rate) (hend : p'.periodEnd = p.periodEnd)
    (hlast : p'.lastUpdate = p.lastUpdate) (hcarry : p'.carry = p.carry)
    (hreserve : p'.reserve + paid = p.reserve) : Covers p' (saveAccount m who a) := by
  have hstream : p'.unstreamed = p.unstreamed := by
    rw [Pool.unstreamed, Pool.unstreamed, hrate, hend, hlast]
  have hsum := valueSum_saveAccount (fun _ => owed_of_isEmpty p) m who a
  have howed' : p'.owed = p.owed := by
    funext b
    rw [Pool.owed, Pool.owed, hacc]
  rw [Covers, ← hreserve, Nat.add_mul p'.reserve] at h
  rw [Covers, howed', hstream, hcarry]
  omega

/-- Less is owed, and less is to be streamed. -/
theorem Covers.of_le (h : Covers p m) (howed : ∀ a, p'.owed a ≤ p.owed a)
    (hstream : p'.unstreamed ≤ p.unstreamed) (hcarry : p'.carry = p.carry)
    (hreserve : p'.reserve = p.reserve) : Covers p' m := by
  rw [Covers, hcarry, hreserve]
  have hsum : valueSum p'.owed m ≤ valueSum p.owed m := List.sum_le_sum fun e _ => howed e.2
  have hmul := Nat.mul_le_mul_right prec (Nat.add_le_add_right hstream p.carry)
  exact (Nat.add_le_add hsum hmul).trans h

/-- What has been streamed since is owed now. -/
theorem Covers.stream (h : Covers p m) {x : ℕ} (hstream : x + p'.unstreamed = p.unstreamed)
    (howed : valueSum p'.owed m ≤ valueSum p.owed m + x * prec) (hcarry : p'.carry = p.carry)
    (hreserve : p'.reserve = p.reserve) : Covers p' m := by
  rw [Covers, ← hstream, Nat.add_mul, Nat.add_mul] at h
  rw [Covers, hcarry, hreserve, Nat.add_mul]
  omega

/-- An account's share of an increase of the reward per quantum. -/
theorem owed_le_add {add : ℕ} (h : p'.acc = saturatingAdd 128 p.acc add) (a : Account) :
    p'.owed a ≤ p.owed a + a.staked * add := by
  have hacc := saturatingAdd_le 128 p.acc add
  rw [Pool.owed, Pool.owed, h, add_assoc, ← Nat.mul_add]
  exact Nat.add_le_add_left (Nat.mul_le_mul_left _ (by omega)) _

/-- A funding streams what is added, what has not been streamed and what was left over. -/
theorem Covers.fund (h : Covers p m) {amount : ℕ} (hpot : (p'.periodEnd - p'.lastUpdate) * p'.rate +
      p'.carry = amount + p.unstreamed + p.carry) (hacc : p'.acc = p.acc)
    (hreserve : p'.reserve = p.reserve + amount) : Covers p' m := by
  have howed : p'.owed = p.owed := by
    funext b
    rw [Pool.owed, Pool.owed, hacc]
  have hstream : p'.unstreamed + p'.carry ≤ amount + p.unstreamed + p.carry := by
    rw [← hpot, Pool.unstreamed]
    split
    · exact le_rfl
    · exact Nat.add_le_add_right (Nat.zero_le _) _
  have hmul := Nat.mul_le_mul_right prec hstream
  rw [Nat.add_assoc, Nat.add_mul amount] at hmul
  rw [Covers] at h
  rw [Covers, howed, hreserve, Nat.add_mul p.reserve]
  omega

theorem valueSum_le_add_mul {f g e : Account → ℕ} {c : ℕ} (h : ∀ a, f a ≤ g a + e a * c)
    (m : Accounts) : valueSum f m ≤ valueSum g m + valueSum e m * c := by
  rw [valueSum, valueSum, valueSum, ← List.sum_map_mul_right, ← List.sum_map_add]
  exact List.sum_le_sum fun p _ => h p.2

theorem unstreamed_of_not_lt (h : ¬ p.lastUpdate < p.periodEnd) : p.unstreamed = 0 := if_neg h

/-- Time that passes takes its part of the stream. -/
theorem unstreamed_advance {n : ℕ} (hrun : p.lastUpdate < p.periodEnd) (hn : p.lastUpdate ≤ n)
    (hupdate : p'.lastUpdate = n) (hend : p'.periodEnd = p.periodEnd) (hrate : p'.rate = p.rate) :
    (min n p.periodEnd - p.lastUpdate) * p.rate + p'.unstreamed = p.unstreamed := by
  rw [Pool.unstreamed, Pool.unstreamed, if_pos hrun, hupdate, hend, hrate]
  split
  · next hlt =>
    rw [← Nat.add_mul, min_eq_left hlt.le, add_comm, Nat.sub_add_sub_cancel hlt.le hn]
  · next hlt => rw [min_eq_right (Nat.not_lt.1 hlt), add_zero]

/-- What is streamed is owed from then on, and no longer to be streamed. -/
theorem Covers.advance (h : Covers p m) (hstaked : p.totalStaked = valueSum Account.staked m)
    (now : ℕ) : Covers (p.advance now) m := by
  simp only [Pool.advance]
  split
  · next hrun =>
    have hstream : p.unstreamed = (p.periodEnd - p.lastUpdate) * p.rate := if_pos hrun
    split
    · -- Nobody is staked: the end moves out, at most by the time that has passed.
      have hend := saturatingAdd_le 64 p.periodEnd (max now p.lastUpdate - p.lastUpdate)
      refine h.of_le (fun _ => le_rfl) ?_ rfl rfl
      rw [hstream, Pool.unstreamed]
      split
      · exact Nat.mul_le_mul_right _ (by dsimp only; omega)
      · exact Nat.zero_le _
    · -- The time that has passed is shared by the stakes.
      refine h.stream (unstreamed_advance hrun (le_max_right ..) rfl rfl rfl) ?_ rfl rfl
      refine (valueSum_le_add_mul (owed_le_add rfl) m).trans (Nat.add_le_add_left ?_ _)
      rw [← hstaked]
      refine (Nat.mul_div_le _ _).trans ((saturatingMul_le ..).trans (Nat.mul_le_mul_right _ ?_))
      rw [mul_comm _ p.rate]
      exact saturatingMul_le ..
  · next hrun =>
    refine h.of_le (fun _ => le_rfl) ?_ rfl rfl
    rw [unstreamed_of_not_lt (by dsimp only; omega)]
    exact Nat.zero_le _

end Owed

/-! ## What the calls do -/

section Calls

variable {p p' : Pool} {a a' : Account} {m : Accounts} {who : String} {now amount duration : ℕ}

/-- Every field of the pool is in its type. -/
structure Pool.Fits (p : Pool) : Prop where
  totalStaked : p.totalStaked < 2 ^ 64
  totalPending : p.totalPending < 2 ^ 64
  acc : p.acc < 2 ^ 128
  rate : p.rate < 2 ^ 64
  periodEnd : p.periodEnd < 2 ^ 64
  lastUpdate : p.lastUpdate < 2 ^ 64
  carry : p.carry < 2 ^ 64
  reserve : p.reserve < 2 ^ 64

/-- Every field of the account is in its type. -/
structure Account.Fits (a : Account) : Prop where
  staked : a.staked < 2 ^ 64
  accPaid : a.accPaid < 2 ^ 128
  rewards : a.rewards < 2 ^ 64
  pending : a.pending < 2 ^ 64
  unlockAt : a.unlockAt < 2 ^ 64

/-- What `advance` leaves alone. -/
theorem advance_frame (p : Pool) (now : ℕ) :
    (p.advance now).totalStaked = p.totalStaked ∧ (p.advance now).totalPending = p.totalPending ∧
      (p.advance now).rate = p.rate ∧ (p.advance now).carry = p.carry ∧
      (p.advance now).reserve = p.reserve := by
  simp only [Pool.advance]
  split
  · split <;> exact ⟨rfl, rfl, rfl, rfl, rfl⟩
  · exact ⟨rfl, rfl, rfl, rfl, rfl⟩

@[simp]
theorem totalStaked_advance : (p.advance now).totalStaked = p.totalStaked := (advance_frame p now).1

@[simp]
theorem totalPending_advance : (p.advance now).totalPending = p.totalPending :=
  (advance_frame p now).2.1

@[simp]
theorem reserve_advance : (p.advance now).reserve = p.reserve := (advance_frame p now).2.2.2.2

theorem Pool.Fits.advance (h : p.Fits) (hnow : now < 2 ^ 64) : (p.advance now).Fits := by
  have hmax : max now p.lastUpdate < 2 ^ 64 := max_lt hnow h.lastUpdate
  simp only [Pool.advance]
  split
  · split
    · exact { h with periodEnd := saturatingAdd_lt 64 .., lastUpdate := hmax }
    · exact { h with acc := saturatingAdd_lt 128 .., lastUpdate := hmax }
  · exact { h with lastUpdate := hmax }

theorem Account.Fits.settle (h : a.Fits) (hp : p.Fits) : (p.settle a).Fits :=
  { h with accPaid := hp.acc, rewards := saturatingAdd_lt 64 .. }

theorem Account.Fits.move (h : a.Fits) {staked pending unlockAt : ℕ} (hstaked : staked < 2 ^ 64)
    (hpending : pending < 2 ^ 64) (hunlockAt : unlockAt < 2 ^ 64) :
    Account.Fits { a with staked, pending, unlockAt } :=
  { h with staked := hstaked, pending := hpending, unlockAt := hunlockAt }

theorem stake_eq_ok (h : p.stake a now amount = .ok (p', a')) :
    a.staked + amount < 2 ^ 64 ∧ p.totalStaked + amount < 2 ^ 64 ∧
      p' = { p.advance now with totalStaked := p.totalStaked + amount } ∧
      a' = { (p.advance now).settle a with staked := a.staked + amount } := by
  obtain ⟨_, _, h⟩ := bind_eq_ok.1 h
  obtain ⟨_, hstaked, h⟩ := bind_eq_ok.1 h
  obtain ⟨_, _, h⟩ := bind_eq_ok.1 h
  obtain ⟨_, htotal, h⟩ := bind_eq_ok.1 h
  obtain ⟨hlt, rfl⟩ := checkedAdd_eq_ok.1 hstaked
  obtain ⟨hlt', rfl⟩ := checkedAdd_eq_ok.1 htotal
  cases h
  exact ⟨hlt, hlt', rfl, rfl⟩

theorem requestUnstake_eq_ok (h : p.requestUnstake a now amount = .ok (p', a')) :
    amount ≤ a.staked ∧ a.pending + amount < 2 ^ 64 ∧ p.totalPending + amount < 2 ^ 64 ∧
      p' = { p.advance now with
        totalStaked := wrappingSub p.totalStaked amount
        totalPending := p.totalPending + amount } ∧
      a' = { (p.advance now).settle a with
        staked := a.staked - amount
        pending := a.pending + amount
        unlockAt := saturatingAdd 64 (p.advance now).lastUpdate unstakeDelaySecs } := by
  obtain ⟨_, _, h⟩ := bind_eq_ok.1 h
  obtain ⟨_, hle, h⟩ := bind_eq_ok.1 h
  obtain ⟨_, _, h⟩ := bind_eq_ok.1 h
  obtain ⟨_, hpending, h⟩ := bind_eq_ok.1 h
  obtain ⟨_, htotal, h⟩ := bind_eq_ok.1 h
  obtain ⟨hlt, rfl⟩ := checkedAdd_eq_ok.1 hpending
  obtain ⟨hlt', rfl⟩ := checkedAdd_eq_ok.1 htotal
  cases h
  rw [totalPending_advance] at hlt'
  refine ⟨require_eq_ok.1 hle, hlt, hlt', ?_, rfl⟩
  rw [totalStaked_advance, totalPending_advance]

theorem cancelUnstake_eq_ok (h : p.cancelUnstake a now = .ok (p', a')) :
    a.staked + a.pending < 2 ^ 64 ∧ p.totalStaked + a.pending < 2 ^ 64 ∧
      p' = { p.advance now with
        totalStaked := p.totalStaked + a.pending
        totalPending := wrappingSub p.totalPending a.pending } ∧
      a' = { (p.advance now).settle a with
        staked := a.staked + a.pending
        pending := 0
        unlockAt := 0 } := by
  obtain ⟨_, _, h⟩ := bind_eq_ok.1 h
  obtain ⟨_, hstaked, h⟩ := bind_eq_ok.1 h
  obtain ⟨_, htotal, h⟩ := bind_eq_ok.1 h
  obtain ⟨hlt, rfl⟩ := checkedAdd_eq_ok.1 hstaked
  obtain ⟨hlt', rfl⟩ := checkedAdd_eq_ok.1 htotal
  cases h
  rw [totalStaked_advance] at hlt'
  refine ⟨hlt, hlt', ?_, rfl⟩
  rw [totalStaked_advance, totalPending_advance]
  rfl

theorem withdraw_eq_ok {paid : ℕ} (h : p.withdraw a now = .ok (p', a', paid)) :
    paid = a.pending ∧ p' = { p with totalPending := wrappingSub p.totalPending a.pending } ∧
      a' = { a with pending := 0, unlockAt := 0 } := by
  obtain ⟨_, _, h⟩ := bind_eq_ok.1 h
  obtain ⟨_, _, h⟩ := bind_eq_ok.1 h
  cases h
  exact ⟨rfl, rfl, rfl⟩

theorem claim_eq_ok {paid : ℕ} (h : p.claim a now = .ok (p', a', paid)) :
    paid = p.earned a now ∧
      p' = { p.advance now with reserve := p.reserve - paid } ∧
      a' = { (p.advance now).settle a with
        rewards := ((p.advance now).settle a).rewards - paid } := by
  obtain ⟨_, _, h⟩ := bind_eq_ok.1 h
  cases h
  refine ⟨rfl, ?_, rfl⟩
  rw [reserve_advance]

theorem fund_eq_ok (h : p.fund now amount duration = .ok p') :
    p.reserve + amount < 2 ^ 64 ∧ ∃ rate carry periodEnd, rate < 2 ^ 64 ∧ carry < 2 ^ 64 ∧
      periodEnd < 2 ^ 64 ∧ (periodEnd - (p.advance now).lastUpdate) * rate + carry =
        amount + (p.advance now).unstreamed + (p.advance now).carry ∧
      p' = { p.advance now with rate, carry, periodEnd, reserve := p.reserve + amount } := by
  obtain ⟨_, _, h⟩ := bind_eq_ok.1 h
  obtain ⟨_, hduration, h⟩ := bind_eq_ok.1 h
  obtain ⟨_, hrate, h⟩ := bind_eq_ok.1 h
  obtain ⟨_, hreserve, h⟩ := bind_eq_ok.1 h
  obtain ⟨_, hend, h⟩ := bind_eq_ok.1 h
  obtain ⟨hlt, rfl⟩ := checkedAdd_eq_ok.1 hreserve
  obtain ⟨hlt', rfl⟩ := checkedAdd_eq_ok.1 hend
  replace hduration := require_eq_ok.1 hduration
  replace hrate := require_eq_ok.1 hrate
  cases h
  rw [reserve_advance] at hlt
  have hpos : 0 < duration := lt_of_lt_of_le (by decide) hduration.1
  generalize hpot : amount + (p.advance now).unstreamed + (p.advance now).carry = pot at hrate
  refine ⟨hlt, pot / duration, pot % duration, (p.advance now).lastUpdate + duration, by omega,
    (Nat.mod_lt _ hpos).trans (lt_of_le_of_lt hduration.2 (by decide)), hlt', ?_, ?_⟩
  · rw [Nat.add_sub_cancel_left]
    exact Nat.div_add_mod _ _
  · rw [reserve_advance]

end Calls

/-! ## Solvency -/

/-- The totals are the sums over the accounts, what was paid in is accounted for, and the reserve
    covers the rewards. -/
structure Solvent (s : State) : Prop where
  staked : s.pool.totalStaked = valueSum Account.staked s.accounts
  pending : s.pool.totalPending = valueSum Account.pending s.accounts
  principal : s.deposited = s.withdrawn + s.pool.totalStaked + s.pool.totalPending
  rewards : s.funded = s.claimed + s.pool.reserve
  covers : Covers s.pool s.accounts
  pool_fits : s.pool.Fits
  account_fits : ∀ (who : String) (a : Account), s.accounts[who]? = some a → a.Fits

section Solvency

variable {s s' : State} {m : Accounts} {who : String} {a : Account} {now : UInt64}

theorem staked_of_isEmpty (h : a.isEmpty = true) : a.staked = 0 := (Account.fields_of_isEmpty h).1

theorem pending_of_isEmpty (h : a.isEmpty = true) : a.pending = 0 :=
  (Account.fields_of_isEmpty h).2.2

/-- An account has no more than all accounts together. -/
theorem le_valueSum {f : Account → ℕ} (hf : ∀ a : Account, a.isEmpty = true → f a = 0)
    (m : Accounts) (who : String) : f (loadAccount m who) ≤ valueSum f m := by
  have h := valueSum_saveAccount hf m who {}
  rw [hf {} rfl] at h
  omega

theorem Solvent.load (h : Solvent s) (who : String) : (loadAccount s.accounts who).Fits := by
  rw [loadAccount]
  cases hm : s.accounts[who]? with
  | none => exact ⟨by decide, by decide, by decide, by decide, by decide⟩
  | some a => exact h.account_fits who a hm

theorem forall_saveAccount (hm : ∀ (who : String) (a : Account), m[who]? = some a → a.Fits)
    (ha : a.Fits) :
    ∀ (who' : String) (b : Account), (saveAccount m who a)[who']? = some b → b.Fits := by
  intro who' b hb
  rw [saveAccount] at hb
  split at hb
  · rw [getElem?_erase_eq] at hb
    split at hb
    · cases hb
    · exact hm who' b hb
  · rw [getElem?_insert_eq] at hb
    split at hb
    · obtain rfl := Option.some.inj hb
      exact ha
    · exact hm who' b hb

theorem Solvent.advance (h : Solvent s) (now : ℕ) : Covers (s.pool.advance now) s.accounts :=
  h.covers.advance h.staked now

/-- No claim is cut by the reserve. -/
theorem Solvent.settle_le (h : Solvent s) (now : ℕ) (who : String) :
    ((s.pool.advance now).settle (loadAccount s.accounts who)).rewards ≤ s.pool.reserve := by
  have hcovers := h.advance now
  have hone := le_valueSum (fun _ => owed_of_isEmpty (s.pool.advance now)) s.accounts who
  have hrewards := settle_rewards_le (s.pool.advance now) (loadAccount s.accounts who)
  rw [Covers, reserve_advance] at hcovers
  exact Nat.le_of_mul_le_mul_right
    (hrewards.trans (hone.trans ((Nat.le_add_right ..).trans hcovers))) (by decide)

theorem Solvent.earned_eq (h : Solvent s) (now : ℕ) (who : String) :
    s.pool.earned (loadAccount s.accounts who) now =
      ((s.pool.advance now).settle (loadAccount s.accounts who)).rewards := by
  rw [Pool.earned, reserve_advance]
  exact min_eq_left (h.settle_le now who)

/-- A call that changes one account, and the pool by as much. -/
theorem Solvent.save (h : Solvent s) {p : Pool} {deposited withdrawn claimed : ℕ}
    (hstaked : p.totalStaked + (loadAccount s.accounts who).staked = s.pool.totalStaked + a.staked)
    (hpending : p.totalPending + (loadAccount s.accounts who).pending =
      s.pool.totalPending + a.pending)
    (hprincipal : deposited = withdrawn + p.totalStaked + p.totalPending)
    (hrewards : s.funded = claimed + p.reserve) (hcovers : Covers p (saveAccount s.accounts who a))
    (hp : p.Fits) (ha : a.Fits) :
    Solvent ⟨p, saveAccount s.accounts who a, deposited, s.funded, withdrawn, claimed⟩ where
  staked := by
    have hsum := valueSum_saveAccount (fun _ => staked_of_isEmpty) s.accounts who a
    have hst := h.staked
    dsimp only
    omega
  pending := by
    have hsum := valueSum_saveAccount (fun _ => pending_of_isEmpty) s.accounts who a
    have hpe := h.pending
    dsimp only
    omega
  principal := hprincipal
  rewards := hrewards
  covers := hcovers
  pool_fits := hp
  account_fits := forall_saveAccount h.account_fits ha

/-- The account that a call settles is owed its rewards, less what it is paid. -/
theorem owed_settled (p : Pool) {b : Account} {paid : ℕ} (hacc : b.accPaid = p.acc)
    (hrewards : b.rewards + paid = (p.settle a).rewards) : p.owed b + paid * prec ≤ p.owed a := by
  rw [owed_settle p hacc, ← Nat.add_mul, hrewards]
  exact settle_rewards_le p a

theorem Solvent.stake (h : Solvent s) {amount : UInt64}
    (hs : s.call now (.stake who amount) = .ok s') : Solvent s' := by
  obtain ⟨⟨p, a⟩, hcall, hs⟩ := bind_eq_ok.1 hs
  obtain ⟨hstaked, htotal, rfl, rfl⟩ := stake_eq_ok hcall
  cases hs
  have hfits := h.pool_fits.advance now.toNat_lt
  have hprincipal := h.principal
  refine h.save ?_ ?_ ?_ ?_ ((h.advance now.toNat).save 0 (owed_settled _ rfl (add_zero _)) rfl rfl
    rfl rfl rfl (add_zero _)) { hfits with totalStaked := htotal }
    { (h.load who).settle hfits with staked := hstaked }
  · dsimp only
    omega
  · rw [totalPending_advance]
    rfl
  · rw [totalPending_advance]
    dsimp only
    omega
  · rw [reserve_advance]
    exact h.rewards

theorem Solvent.requestUnstake (h : Solvent s) {amount : UInt64}
    (hs : s.call now (.requestUnstake who amount) = .ok s') : Solvent s' := by
  obtain ⟨⟨p, a⟩, hcall, hs⟩ := bind_eq_ok.1 hs
  obtain ⟨hle, hpending, htotal, rfl, rfl⟩ := requestUnstake_eq_ok hcall
  cases hs
  have hfits := h.pool_fits.advance now.toNat_lt
  have hprincipal := h.principal
  have hone := le_valueSum (fun _ => staked_of_isEmpty) s.accounts who
  rw [← h.staked] at hone
  have hsub := wrappingSub_eq (hle.trans hone) h.pool_fits.totalStaked
  have hlt := h.pool_fits.totalStaked
  refine h.save ?_ ?_ ?_ ?_ ((h.advance now.toNat).save 0 (owed_settled _ rfl (add_zero _)) rfl rfl
    rfl rfl rfl (add_zero _)) { hfits with totalStaked := ?_, totalPending := htotal }
    (((h.load who).settle hfits).move (lt_of_le_of_lt (Nat.sub_le ..) (h.load who).staked) hpending
      (saturatingAdd_lt 64 ..))
  · dsimp only
    omega
  · dsimp only
    omega
  · dsimp only
    omega
  · rw [reserve_advance]
    exact h.rewards
  · dsimp only
    omega

theorem Solvent.cancelUnstake (h : Solvent s)
    (hs : s.call now (.cancelUnstake who) = .ok s') : Solvent s' := by
  obtain ⟨⟨p, a⟩, hcall, hs⟩ := bind_eq_ok.1 hs
  obtain ⟨hstaked, htotal, rfl, rfl⟩ := cancelUnstake_eq_ok hcall
  cases hs
  have hfits := h.pool_fits.advance now.toNat_lt
  have hprincipal := h.principal
  have hone := le_valueSum (fun _ => pending_of_isEmpty) s.accounts who
  rw [← h.pending] at hone
  have hsub := wrappingSub_eq hone h.pool_fits.totalPending
  have hlt := h.pool_fits.totalPending
  refine h.save ?_ ?_ ?_ ?_ ((h.advance now.toNat).save 0 (owed_settled _ rfl (add_zero _)) rfl rfl
    rfl rfl rfl (add_zero _)) { hfits with totalStaked := htotal, totalPending := ?_ }
    (((h.load who).settle hfits).move hstaked (by norm_num) (by norm_num))
  · dsimp only
    omega
  · dsimp only
    omega
  · dsimp only
    omega
  · rw [reserve_advance]
    exact h.rewards
  · dsimp only
    omega

theorem Solvent.withdraw (h : Solvent s)
    (hs : s.call now (.withdraw who) = .ok s') : Solvent s' := by
  obtain ⟨⟨p, a, paid⟩, hcall, hs⟩ := bind_eq_ok.1 hs
  obtain ⟨_, _, hs⟩ := bind_eq_ok.1 hs
  obtain ⟨rfl, rfl, rfl⟩ := withdraw_eq_ok hcall
  cases hs
  have hprincipal := h.principal
  have hone := le_valueSum (fun _ => pending_of_isEmpty) s.accounts who
  rw [← h.pending] at hone
  have hsub := wrappingSub_eq hone h.pool_fits.totalPending
  have hlt := h.pool_fits.totalPending
  refine h.save rfl ?_ ?_ h.rewards (h.covers.save 0 ?_ rfl rfl rfl rfl rfl (add_zero _))
    { h.pool_fits with totalPending := ?_ }
    { h.load who with pending := by norm_num, unlockAt := by norm_num }
  · dsimp only
    omega
  · dsimp only
    omega
  · rw [zero_mul, add_zero]
    exact le_rfl
  · dsimp only
    omega

theorem Solvent.claim (h : Solvent s)
    (hs : s.call now (.claim who) = .ok s') : Solvent s' := by
  obtain ⟨⟨p, a, paid⟩, hcall, hs⟩ := bind_eq_ok.1 hs
  obtain ⟨_, _, hs⟩ := bind_eq_ok.1 hs
  obtain ⟨hpaid, rfl, rfl⟩ := claim_eq_ok hcall
  cases hs
  have hfits := h.pool_fits.advance now.toNat_lt
  have hprincipal := h.principal
  have hrewards := h.rewards
  have hle := h.settle_le now.toNat who
  rw [h.earned_eq] at hpaid
  rw [← hpaid] at hle
  refine h.save ?_ ?_ ?_ ?_
    ((h.advance now.toNat).save paid (owed_settled _ rfl ?_) rfl rfl rfl rfl rfl ?_)
    { hfits with reserve := ?_ }
    { (h.load who).settle hfits with rewards := ?_ }
  · rw [totalStaked_advance]
    rfl
  · rw [totalPending_advance]
    rfl
  · rw [totalStaked_advance, totalPending_advance]
    exact hprincipal
  · dsimp only
    omega
  · exact Nat.sub_add_cancel hpaid.le
  · rw [reserve_advance]
    exact Nat.sub_add_cancel hle
  · exact lt_of_le_of_lt (Nat.sub_le ..) h.pool_fits.reserve
  · exact lt_of_le_of_lt (Nat.sub_le ..) ((h.load who).settle hfits).rewards

theorem Solvent.fund (h : Solvent s) {amount duration : UInt64}
    (hs : s.call now (.fund amount duration) = .ok s') : Solvent s' := by
  obtain ⟨p, hcall, hs⟩ := bind_eq_ok.1 hs
  obtain ⟨hreserve, rate, carry, periodEnd, hrate, hcarry, hend, hpot, rfl⟩ := fund_eq_ok hcall
  cases hs
  have hrewards := h.rewards
  refine ⟨?_, ?_, ?_, ?_, ?_, { h.pool_fits.advance now.toNat_lt with
    rate := hrate, carry := hcarry, periodEnd := hend, reserve := hreserve }, h.account_fits⟩
  · rw [totalStaked_advance]
    exact h.staked
  · rw [totalPending_advance]
    exact h.pending
  · rw [totalStaked_advance, totalPending_advance]
    exact h.principal
  · dsimp only
    omega
  · exact (h.advance now.toNat).fund hpot rfl (by rw [reserve_advance])

theorem solvent_empty : Solvent {} where
  staked := (valueSum_empty _).symm
  pending := (valueSum_empty _).symm
  principal := rfl
  rewards := rfl
  covers := by
    rw [Covers, valueSum_empty]
    decide
  pool_fits := ⟨by decide, by decide, by decide, by decide, by decide, by decide, by decide,
    by decide⟩
  account_fits := fun _ _ h => nomatch h

/-- Every call, accepted or refused, keeps the contract solvent. -/
theorem Solvent.step (h : Solvent s) (c : UInt64 × Call) : Solvent (s.step c) := by
  obtain ⟨now, c⟩ := c
  rw [State.step]
  split
  · next s' hs =>
    cases c with
    | stake who amount => exact h.stake hs
    | requestUnstake who amount => exact h.requestUnstake hs
    | cancelUnstake who => exact h.cancelUnstake hs
    | withdraw who => exact h.withdraw hs
    | claim who => exact h.claim hs
    | fund amount duration => exact h.fund hs
  · exact h

/-- The contract after these calls. -/
def reached (calls : List (UInt64 × Call)) : State := Runs.run State.step {} calls

theorem solvent_reached (calls : List (UInt64 × Call)) : Solvent (reached calls) := by
  have hstep (s : State) (c : UInt64 × Call) (h : Solvent s) : Solvent (s.step c) := h.step c
  exact Runs.run_invariant (I := Solvent) hstep calls solvent_empty

/-- After any calls, by any accounts and at any times: the totals are the sums over the accounts,
    everything paid in is paid out, staked, pending or in the reserve, and principal and rewards do
    not mix. At any time, the reserve covers what all accounts have earned by then and what is
    still to be streamed, so that every claim is paid in full. -/
theorem staking_solvent (calls : List (UInt64 × Call)) :
    (reached calls).pool.totalStaked = valueSum Account.staked (reached calls).accounts ∧
      (reached calls).pool.totalPending = valueSum Account.pending (reached calls).accounts ∧
      (reached calls).paidIn = (reached calls).paidOut + (reached calls).pool.totalStaked +
        (reached calls).pool.totalPending + (reached calls).pool.reserve ∧
      (reached calls).deposited = (reached calls).withdrawn + (reached calls).pool.totalStaked +
        (reached calls).pool.totalPending ∧
      ∀ now : ℕ,
        valueSum (fun a => (((reached calls).pool.advance now).settle a).rewards)
            (reached calls).accounts + ((reached calls).pool.advance now).unstreamed ≤
          (reached calls).pool.reserve ∧
        ∀ who, (reached calls).pool.earned (loadAccount (reached calls).accounts who) now =
          (((reached calls).pool.advance now).settle (loadAccount (reached calls).accounts who)).rewards
    := by
  have h := solvent_reached calls
  refine ⟨h.staked, h.pending, ?_, h.principal, fun now => ⟨?_, h.earned_eq now⟩⟩
  · rw [State.paidIn, State.paidOut, h.principal, h.rewards]
    omega
  · -- What is owed counts parts of quanta; rounding it down makes the sum no larger.
    have hcovers := h.advance now
    rw [Covers, reserve_advance] at hcovers
    have hsum : valueSum (fun a => (((reached calls).pool.advance now).settle a).rewards)
        (reached calls).accounts * prec ≤
          valueSum ((reached calls).pool.advance now).owed (reached calls).accounts := by
      rw [valueSum, valueSum, ← List.sum_map_mul_right]
      exact List.sum_le_sum fun e _ => settle_rewards_le _ e.2
    refine Nat.le_of_mul_le_mul_right ?_ (by decide : 0 < prec)
    rw [Nat.add_mul]
    refine le_trans (Nat.add_le_add hsum (Nat.mul_le_mul_right _ (Nat.le_add_right _ _))) hcovers

end Solvency

end RougeChain.Staking
