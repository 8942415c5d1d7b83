import Mathlib.Tactic

/-!
# Amounts over time

A log of payments, the newest first, each with its time and its amount, and caps on what is paid
within a span of time.

* `Capped d L log` says that no interval of length `d` holds more than `L`, wherever it begins;
* `Rolling d L log` says that no payment brings what was paid in the time `d` before it above `L`,
  which is what a program can check when it pays.

For a log in the order of time both are the same (`capped_iff_rolling`).
-/

namespace Windows

/-- What the payments of `log` that meet `p` add up to. -/
def paid (p : ℕ → Bool) (log : List (ℕ × ℕ)) : ℕ := ((log.filter fun x => p x.1).map Prod.snd).sum

/-- What was paid in the `d` units of time from `t` on. -/
def within (d t : ℕ) (log : List (ℕ × ℕ)) : ℕ := paid (fun s => t ≤ s && s < t + d) log

/-- What was paid less than `d` before `now`. -/
def recent (d now : ℕ) (log : List (ℕ × ℕ)) : ℕ := paid (fun s => now < s + d) log

def Capped (d L : ℕ) (log : List (ℕ × ℕ)) : Prop := ∀ t, within d t log ≤ L

def Rolling (d L : ℕ) : List (ℕ × ℕ) → Prop
  | [] => True
  | (s, a) :: log => recent d s ((s, a) :: log) ≤ L ∧ Rolling d L log

/-- The newest payment comes first. -/
def Sorted (log : List (ℕ × ℕ)) : Prop := log.Pairwise fun x y => y.1 ≤ x.1

variable {p q : ℕ → Bool} {d L s t a : ℕ} {log : List (ℕ × ℕ)}

@[simp]
theorem paid_nil : paid p [] = 0 := rfl

theorem paid_cons : paid p ((s, a) :: log) = (if p s then a else 0) + paid p log := by
  rw [paid, paid, List.filter_cons]
  split <;> simp

theorem paid_le_cons : paid p log ≤ paid p ((s, a) :: log) := by
  rw [paid_cons]
  exact Nat.le_add_left _ _

theorem paid_mono (h : ∀ x ∈ log, p x.1 = true → q x.1 = true) : paid p log ≤ paid q log := by
  induction log with
  | nil => exact le_rfl
  | cons x log ih =>
    obtain ⟨s, a⟩ := x
    rw [List.forall_mem_cons] at h
    rw [paid_cons, paid_cons]
    refine Nat.add_le_add ?_ (ih h.2)
    split
    next hp => rw [if_pos (h.1 hp)]
    · exact Nat.zero_le _

theorem paid_congr (h : ∀ x ∈ log, p x.1 = q x.1) : paid p log = paid q log :=
  Nat.le_antisymm (paid_mono fun x hx hp => (h x hx).symm.trans hp)
    (paid_mono fun x hx hq => (h x hx).trans hq)

theorem paid_eq_zero (h : ∀ x ∈ log, p x.1 = false) : paid p log = 0 := by
  rw [paid, List.filter_eq_nil_iff.2 fun x hx => Bool.not_eq_true _ ▸ h x hx]
  rfl

/-- A sum over the payments that meet `p`, split by `q`. -/
theorem paid_split (q : ℕ → Bool) :
    paid p log = paid (fun s => p s && q s) log + paid (fun s => p s && !q s) log := by
  induction log with
  | nil => rfl
  | cons x log ih =>
    obtain ⟨s, a⟩ := x
    rw [paid_cons, paid_cons, paid_cons, ih]
    cases p s <;> cases q s <;> simp <;> omega

theorem Capped.tail (h : Capped d L ((s, a) :: log)) : Capped d L log := fun t =>
  paid_le_cons.trans (h t)

theorem capped_iff_rolling (hlog : Sorted log) : Capped d L log ↔ Rolling d L log := by
  induction log with
  | nil => simp [Capped, Rolling, within]
  | cons x log ih =>
    obtain ⟨s, a⟩ := x
    obtain ⟨hhead, htail⟩ := List.pairwise_cons.1 hlog
    have hle : ∀ x ∈ (s, a) :: log, x.1 ≤ s := List.forall_mem_cons.2 ⟨le_rfl, hhead⟩
    rw [Rolling, ← ih htail]
    constructor
    · intro h
      -- the interval that ends with the newest payment
      have hsame : recent d s ((s, a) :: log) = within d (s + 1 - d) ((s, a) :: log) := by
        refine paid_congr fun x hx => ?_
        have := hle x hx
        by_cases hrecent : s < x.1 + d <;> simp <;> omega
      exact ⟨hsame ▸ h _, h.tail⟩
    · rintro ⟨hrecent, hcapped⟩ t
      by_cases hs : t ≤ s ∧ s < t + d
      · refine le_trans (paid_mono fun x hx hp => ?_) hrecent
        simp only [Bool.and_eq_true, decide_eq_true_eq] at hp ⊢
        omega
      · have hskip : within d t ((s, a) :: log) = within d t log := by
          rw [within, paid_cons, if_neg (by simpa using hs), Nat.zero_add]
          rfl
        rw [hskip]
        exact hcapped t

end Windows
