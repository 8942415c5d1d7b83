import RougeChain.Consensus.Arith
import RougeChain.Consensus.Types
import RougeChain.Library.Basic
import RougeChain.Library.GreedyRotation

/-!
# Stake-weighted proposer rotation

A `Schedule` holds one signed priority per validator. A `step` adds each weight
to its priority, picks the greatest (ties to the lowest key), and subtracts the
total weight `W` from the winner. `reweight` carries the priorities over to a
changed set. `RoundProposers` looks ahead on a scratch copy.

On a fixed set, `step` is a turn of a greedy rotation (`Rotation.Rotates`):

* `exists_steps`: any number of steps from `new` succeeds, no addition leaves
  the range of an `i128`, and the priorities are the credits of a rotation;
* `steps_fairness`: after `N` steps, a validator of weight `w` was picked less
  than one turn above its share `N · w / W`, and at most `H_n - 1` turns below
  it, for `n` validators. Up to three validators that is at most one turn;
* `steps_unfair`: with four it can be more than one.
-/

namespace RougeChain.Consensus

open Finset
open Fallible (ok_bind)

/-- One validator's schedule entry. -/
structure Entry where
  key : KeyId
  weight : ℕ
  priority : ℤ
  deriving DecidableEq

inductive ScheduleError
  | emptySet
  | overflow
  | totalTooLarge
  deriving DecidableEq

/-- The stored proposer priorities, in key order. -/
structure Schedule where
  entries : List Entry
  total : ℕ
  deriving DecidableEq

/-- `x` as an `i128`, or an overflow. -/
def orOverflow {α : Type} (x : Option α) : Except ScheduleError α := Fallible.ofOption .overflow x

namespace Schedule

/-- All priorities zero: the state at the activation height. -/
def new (set : ValidatorSet) : Schedule where
  entries := set.members.map fun (key, weight) => ⟨key, weight, 0⟩
  total := set.total

/-- Add the weight to the priority. -/
def raise (e : Entry) : Except ScheduleError Entry := do
  let w ← orOverflow (toI128 e.weight)
  let priority ← orOverflow (toI128 (e.priority + w))
  .ok { e with priority }

/-- The loop of `step` from index `i` on: `best` is the index of the greatest
    priority so far and `bestPriority` its value. -/
def stepLoop (i best : ℕ) (bestPriority : ℤ) :
    List Entry → Except ScheduleError (List Entry × ℕ)
  | [] => .ok ([], best)
  | e :: es => do
    let e ← raise e
    -- Strict `>` keeps the earliest (lowest-key) entry on ties.
    let (best, bestPriority) :=
      if e.priority > bestPriority then (i, e.priority) else (best, bestPriority)
    let (es, best) ← stepLoop (i + 1) best bestPriority es
    .ok (e :: es, best)

/-- One step: add each weight, pick the greatest priority (ties to the lowest
    key), subtract the total from the winner and return it. -/
def step (s : Schedule) : Except ScheduleError (KeyId × Schedule) :=
  match s.entries with
  | [] => .error .emptySet
  | e :: es =>
    if maxTotalWeight ≤ s.total then .error .totalTooLarge
    else do
      let e ← raise e
      let (es, best) ← stepLoop 1 0 e.priority es
      let total ← orOverflow (toI128 s.total)
      let winner := (e :: es).getD best e
      let priority ← orOverflow (toI128 (winner.priority - total))
      .ok (winner.key, { s with entries := (e :: es).set best { winner with priority } })

/-- `N` steps in a row, with the keys they return. -/
def steps (s : Schedule) : ℕ → Except ScheduleError (List KeyId × Schedule)
  | 0 => .ok ([], s)
  | n + 1 => do
    let (keys, s) ← s.steps n
    let (key, s) ← s.step
    .ok (keys ++ [key], s)

/-- Apply a change of the active set or of a weight; the identity if nothing
    changed. A newcomer enters at `-(W + W/8)`, survivors keep their priority;
    then the spread is scaled down to at most `2W` and the priorities are
    centred on the floor of their mean. -/
def reweight (s : Schedule) (set : ValidatorSet) : Except ScheduleError Schedule :=
  let unchanged := s.entries.length = set.len ∧
    (s.entries.zip set.members).all fun (e, m) => e.key == m.1 && e.weight == m.2
  if unchanged then .ok s
  else if maxTotalWeight ≤ set.total then .error .totalTooLarge
  else do
    let wNew ← orOverflow (toI128 set.total)
    let entryPriority ← orOverflow ((toI128 (wNew + wNew / 8)).bind fun x => toI128 (-x))
    let next := set.members.map fun (key, weight) =>
      match s.entries.find? (·.key == key) with
      | some e => (⟨key, weight, e.priority⟩ : Entry)
      | none => ⟨key, weight, entryPriority⟩
    if next = [] then .ok ⟨next, set.total⟩
    else
      let max := (next.map Entry.priority).max?.getD 0
      let min := (next.map Entry.priority).min?.getD 0
      let spread ← orOverflow (toI128 (max - min))
      let twoW ← orOverflow (toI128 (2 * wNew))
      let scaled ←
        if spread > twoW then
          next.mapM fun e => do
            let priority ← orOverflow (signedMulDivFloor e.priority twoW.natAbs spread.natAbs)
            .ok { e with priority }
        else .ok next
      let sum ← scaled.foldlM (fun sum e => orOverflow (toI128 (sum + e.priority))) 0
      let avg ← orOverflow (floorDiv sum scaled.length)
      let centred ← scaled.mapM fun e => do
        let priority ← orOverflow (toI128 (e.priority - avg))
        .ok { e with priority }
      .ok ⟨centred, set.total⟩

end Schedule

/-- The proposers of one height, round by round, computed lazily on a scratch
    copy of the stored priorities and cached. -/
structure RoundProposers where
  scratch : Schedule
  known : List KeyId
  deriving DecidableEq

namespace RoundProposers

def new (stored : Schedule) : RoundProposers := ⟨stored, []⟩

/-- `n` further steps of the scratch copy; stops at the first failure. -/
def extend (p : RoundProposers) : ℕ → RoundProposers
  | 0 => p
  | n + 1 =>
    match p.scratch.step with
    | .ok (key, scratch) => extend ⟨scratch, p.known ++ [key]⟩ n
    | .error _ => p

/-- The proposer of `round`, and the cache after the lookup; `none` if the set
    is empty or arithmetic failed. -/
def get (p : RoundProposers) (round : ℕ) : Option KeyId × RoundProposers :=
  let p := p.extend (round + 1 - p.known.length)
  (p.known[round]?, p)

end RoundProposers

namespace Schedule

/-! ## One step -/

/-- The entry with its weight added, where that does not overflow. -/
def raised (e : Entry) : Entry := { e with priority := e.priority + e.weight }

theorem orOverflow_toI128 {x : ℤ} (h : -2 ^ 127 ≤ x) (h' : x < 2 ^ 127) :
    orOverflow (toI128 x) = .ok x := by
  rw [toI128_eq h h']
  rfl

theorem raise_eq {e : Entry} (hw : e.weight < 2 ^ 127) (h : -2 ^ 127 ≤ e.priority + e.weight)
    (h' : e.priority + e.weight < 2 ^ 127) : raise e = .ok (raised e) := by
  have hw' := orOverflow_toI128 (x := e.weight) (by omega) (by omega)
  rw [raise, hw', ok_bind, orOverflow_toI128 h h', ok_bind]
  rfl

/-- The loop raises every entry and finds the first of the greatest priorities,
    the one at `best` included. -/
theorem stepLoop_eq {es : List Entry} (i best : ℕ) (bestPriority : ℤ)
    (hes : ∀ e ∈ es, raise e = .ok (raised e)) :
    ∃ b, stepLoop i best bestPriority es = .ok (es.map raised, b) ∧
      (b = best ∧ (∀ e ∈ es, (raised e).priority ≤ bestPriority) ∨
        ∃ (j : ℕ) (h : j < es.length), b = i + j ∧ bestPriority < (raised es[j]).priority ∧
          (∀ e ∈ es, (raised e).priority ≤ (raised es[j]).priority) ∧
          ∀ e ∈ es.take j, (raised e).priority < (raised es[j]).priority) := by
  induction es generalizing i best bestPriority with
  | nil => exact ⟨best, rfl, .inl ⟨rfl, by simp⟩⟩
  | cons e es ih =>
    have hes' : ∀ e ∈ es, raise e = .ok (raised e) := fun e' h => hes e' (.tail _ h)
    rw [stepLoop, hes e List.mem_cons_self, ok_bind, List.map_cons]
    by_cases hgt : bestPriority < (raised e).priority
    · obtain ⟨b, hb, hmax⟩ := ih (i + 1) i (raised e).priority hes'
      refine ⟨b, by simp only [gt_iff_lt, hgt, if_true, hb, ok_bind], .inr ?_⟩
      rcases hmax with ⟨rfl, hle⟩ | ⟨j, hj, rfl, hlt, hle, hfirst⟩
      · exact ⟨0, by simp, rfl, hgt, List.forall_mem_cons.2 ⟨le_rfl, hle⟩, by simp⟩
      · exact ⟨j + 1, by simpa using hj, by ring, hgt.trans hlt,
          List.forall_mem_cons.2 ⟨hlt.le, hle⟩, List.forall_mem_cons.2 ⟨hlt, hfirst⟩⟩
    · obtain ⟨b, hb, hmax⟩ := ih (i + 1) best bestPriority hes'
      refine ⟨b, by simp only [gt_iff_lt, hgt, if_false, hb, ok_bind], ?_⟩
      have hle' := not_lt.1 hgt
      rcases hmax with ⟨rfl, hle⟩ | ⟨j, hj, rfl, hlt, hle, hfirst⟩
      · exact .inl ⟨rfl, List.forall_mem_cons.2 ⟨hle', hle⟩⟩
      · exact .inr ⟨j + 1, by simpa using hj, by ring, hlt,
          List.forall_mem_cons.2 ⟨hle'.trans hlt.le, hle⟩,
          List.forall_mem_cons.2 ⟨hle'.trans_lt hlt, hfirst⟩⟩

/-- The index that the loop finds in the whole list, the first entry included. -/
theorem stepLoop_winner {e : Entry} {es : List Entry}
    (hes : ∀ e' ∈ es, raise e' = .ok (raised e')) :
    ∃ (b : ℕ) (h : b < (e :: es).length),
      stepLoop 1 0 (raised e).priority es = .ok (es.map raised, b) ∧
        (∀ e' ∈ e :: es, (raised e').priority ≤ (raised (e :: es)[b]).priority) ∧
        ∀ e' ∈ (e :: es).take b, (raised e').priority < (raised (e :: es)[b]).priority := by
  obtain ⟨b, hb, hmax⟩ := stepLoop_eq 1 0 (raised e).priority hes
  rcases hmax with ⟨rfl, hle⟩ | ⟨j, hj, rfl, hlt, hle, hfirst⟩
  · exact ⟨0, by simp, hb, List.forall_mem_cons.2 ⟨le_rfl, hle⟩, by simp⟩
  · refine ⟨1 + j, by simp; omega, hb, ?_, ?_⟩
    all_goals simp only [Nat.add_comm 1 j, List.getElem_cons_succ, List.take_succ_cons]
    · exact List.forall_mem_cons.2 ⟨hlt.le, hle⟩
    · exact List.forall_mem_cons.2 ⟨hlt, hfirst⟩

/-- A step that does not overflow pays from an entry of greatest raised priority. -/
theorem step_eq {s : Schedule} (hne : s.entries ≠ []) (htotal : s.total < maxTotalWeight)
    (hw : ∀ e ∈ s.entries, e.weight < 2 ^ 127)
    (hlo : ∀ e ∈ s.entries, -2 ^ 127 ≤ (raised e).priority - s.total)
    (hhi : ∀ e ∈ s.entries, (raised e).priority < 2 ^ 127) :
    ∃ (b : ℕ) (h : b < s.entries.length),
      (∀ e ∈ s.entries, (raised e).priority ≤ (raised s.entries[b]).priority) ∧
        s.step = .ok (s.entries[b].key, ⟨(s.entries.map raised).set b
          { raised s.entries[b] with priority := (raised s.entries[b]).priority - s.total },
          s.total⟩) := by
  obtain ⟨entries, total⟩ := s
  cases entries with
  | nil => exact absurd rfl hne
  | cons e es =>
    simp only at htotal hw hlo hhi ⊢
    have hes : ∀ e' ∈ e :: es, raise e' = .ok (raised e') := fun e' h =>
      raise_eq (hw e' h) (by have := hlo e' h; simp only [raised] at this; omega) (hhi e' h)
    have htot : orOverflow (toI128 (total : ℤ)) = .ok (total : ℤ) := by
      have : (total : ℤ) < 2 ^ 100 := by exact_mod_cast htotal
      exact orOverflow_toI128 (by omega) (by omega)
    obtain ⟨b, hlt, hb, hle, -⟩ := stepLoop_winner fun e' h => hes e' (.tail _ h)
    refine ⟨b, hlt, hle, ?_⟩
    have hmem : (e :: es)[b] ∈ e :: es := List.getElem_mem hlt
    have hwin : (raised e :: es.map raised).getD b (raised e) = raised (e :: es)[b] := by
      rw [← List.map_cons, List.getD_eq_getElem?_getD,
      List.getElem?_eq_getElem (by simpa using hlt), Option.getD_some, List.getElem_map]
    have hsub := orOverflow_toI128 (hlo _ hmem) (by have := hhi _ hmem; omega)
    simp only [step]
    rw [if_neg (not_le.2 htotal), hes e List.mem_cons_self, ok_bind, hb, ok_bind, htot, ok_bind]
    simp only [hwin]
    rw [hsub, ok_bind]
    rfl

/-! ## Steps on a fixed set -/

variable (set : ValidatorSet)

/-- The weight of the `i`-th member. -/
def weightAt (i : Fin set.members.length) : ℤ := (set.members.get i).2

/-- The schedule of `set` with priorities `p`. -/
def ofPriorities (p : Fin set.members.length → ℤ) : Schedule where
  entries := List.ofFn fun i => ⟨(set.members.get i).1, (set.members.get i).2, p i⟩
  total := set.total

theorem new_eq_ofPriorities : new set = ofPriorities set fun _ => 0 := by
  simp only [new, ofPriorities, Schedule.mk.injEq, and_true]
  conv_lhs => rw [← List.ofFn_get set.members, List.map_ofFn]
  rfl

theorem sum_weightAt : ∑ i, weightAt set i = set.total := by
  have hsum : ∑ i, (set.members.get i).2 = set.total := by
    rw [set.total_eq, ← List.sum_ofFn]
    conv_rhs => rw [← List.ofFn_get set.members, List.map_ofFn]
    rfl
  simp only [weightAt]
  exact_mod_cast hsum

theorem weightAt_pos (i : Fin set.members.length) : 0 < weightAt set i := by
  have := set.weight_pos _ (List.get_mem set.members i)
  simp only [weightAt]
  omega

variable {set}

theorem weightAt_le (i : Fin set.members.length) : weightAt set i ≤ set.total := by
  rw [← sum_weightAt set]
  exact single_le_sum (fun j _ => (weightAt_pos set j).le) (mem_univ i)

/-- On a fixed set a step is a turn of the rotation. -/
theorem step_ofPriorities {p : Fin set.members.length → ℤ} (hne : set.members ≠ [])
    (hlo : ∀ i, -2 ^ 126 ≤ p i) (hhi : ∀ i, p i < 2 ^ 126) :
    ∃ b, Rotation.IsPick (weightAt set) p b ∧
      (ofPriorities set p).step =
        .ok ((set.members.get b).1, ofPriorities set (Rotation.next (weightAt set) p b)) := by
  have htotal := set.total_lt
  have htotal' : (set.total : ℤ) < 2 ^ 100 := by exact_mod_cast htotal
  have hentry : ∀ e ∈ (ofPriorities set p).entries, ∃ i, e =
      ⟨(set.members.get i).1, (set.members.get i).2, p i⟩ := by
    intro e he
    obtain ⟨i, rfl⟩ := (List.mem_ofFn' _ _).1 he
    exact ⟨i, rfl⟩
  have hwle := fun i : Fin set.members.length => weightAt_le i
  simp only [weightAt] at hwle
  obtain ⟨b, hb, hmax, hstep⟩ := step_eq (s := ofPriorities set p)
    (by simpa [ofPriorities] using hne) htotal
    (by
      intro e he
      obtain ⟨i, rfl⟩ := hentry e he
      have := hwle i
      have : ((set.members.get i).2 : ℤ) < 2 ^ 127 := by omega
      exact_mod_cast this)
    (by
      intro e he
      obtain ⟨i, rfl⟩ := hentry e he
      have := hlo i
      simp only [raised, ofPriorities]
      omega)
    (by
      intro e he
      obtain ⟨i, rfl⟩ := hentry e he
      have := hhi i
      have := hwle i
      simp only [raised]
      omega)
  have hb' : b < set.members.length := by simpa [ofPriorities] using hb
  have hget : (ofPriorities set p).entries[b] =
      ⟨(set.members.get ⟨b, hb'⟩).1, (set.members.get ⟨b, hb'⟩).2, p ⟨b, hb'⟩⟩ := by
    simp [ofPriorities]
  refine ⟨⟨b, hb'⟩, fun i => ?_, ?_⟩
  · have := hmax _ (List.mem_ofFn.2 ⟨i, rfl⟩)
    rw [hget] at this
    exact this
  · rw [hstep]
    simp only [hget]
    congr 2
    simp only [ofPriorities, Schedule.mk.injEq, and_true]
    refine List.ext_getElem (by simp) fun i h₁ h₂ => ?_
    rw [List.getElem_set, List.getElem_ofFn]
    simp only [Rotation.next, sum_weightAt, List.getElem_map, List.getElem_ofFn, raised,
      Fin.ext_iff]
    by_cases h : b = i
    · subst h
      simp [weightAt]
    · simp [h, Ne.symm h, weightAt]

theorem length_members_le (set : ValidatorSet) : set.members.length ≤ set.total := by
  have hle : ∑ _i : Fin set.members.length, (1 : ℤ) ≤ ∑ i, weightAt set i :=
    sum_le_sum fun i _ => weightAt_pos set i
  rw [sum_weightAt] at hle
  simpa using hle

/-- There are less than `2^100` validators. -/
theorem harmonic_length_le (set : ValidatorSet) : harmonic set.members.length ≤ 101 := by
  rcases Nat.eq_zero_or_pos set.members.length with h0 | hpos
  · simp [h0]
  have hlen : (set.members.length : ℝ) ≤ 2 ^ 100 := by
    have := length_members_le set
    have htotal := set.total_lt
    unfold maxTotalWeight at htotal
    exact_mod_cast (by omega : set.members.length ≤ 2 ^ 100)
  have hlog : Real.log set.members.length ≤ 100 := by
    calc Real.log set.members.length ≤ Real.log (2 ^ 100) :=
          Real.log_le_log (by exact_mod_cast hpos) hlen
      _ = 100 * Real.log 2 := by rw [Real.log_pow]; norm_num
      _ ≤ 100 := by linarith [Real.log_le_sub_one_of_pos (show (0 : ℝ) < 2 by norm_num)]
  have hharm := harmonic_le_one_add_log set.members.length
  have : (harmonic set.members.length : ℝ) ≤ (101 : ℚ) := by
    push_cast
    linarith
  exact_mod_cast this

/-- Credits on a level stay far inside the range of an `i128`. -/
theorem level_le {p : Fin set.members.length → ℤ} {D : ℤ}
    (h : Rotation.Level (weightAt set) p D) (i : Fin set.members.length) :
    p i ≤ 100 * set.total + D := by
  have hhi := h.credit_le i
  rw [sum_weightAt, Fintype.card_fin] at hhi
  have hle : (p i : ℚ) ≤ 100 * set.total + D := by
    refine hhi.trans ?_
    push_cast
    have := harmonic_length_le set
    gcongr
    linarith
  exact_mod_cast hle

theorem credit_bounds {picks : List (Fin set.members.length)} {p : Fin set.members.length → ℤ}
    (h : Rotation.Rotates (weightAt set) picks p) (i : Fin set.members.length) :
    -2 ^ 126 ≤ p i ∧ p i < 2 ^ 126 := by
  have htotal : (set.total : ℤ) < 2 ^ 100 := by exact_mod_cast set.total_lt
  have hlo := h.neg_lt_credit (weightAt_pos set) i
  have hhi := level_le (h.level fun i => (weightAt_pos set i).le) i
  rw [sum_weightAt] at hlo
  omega

/-- Any number of steps from `new` succeeds, and is a rotation. -/
theorem exists_steps (hne : set.members ≠ []) (N : ℕ) :
    ∃ picks p, Rotation.Rotates (weightAt set) picks p ∧ picks.length = N ∧
      (new set).steps N =
        .ok (picks.map fun i => (set.members.get i).1, ofPriorities set p) := by
  induction N with
  | zero =>
    exact ⟨[], fun _ => 0, .nil, rfl, by rw [steps, new_eq_ofPriorities, List.map_nil]⟩
  | succ N ih =>
    obtain ⟨picks, p, hrot, hlen, hsteps⟩ := ih
    obtain ⟨b, hpick, hstep⟩ := step_ofPriorities hne (fun i => (credit_bounds hrot i).1)
      (fun i => (credit_bounds hrot i).2)
    refine ⟨picks ++ [b], _, hrot.snoc hpick, by simp [hlen], ?_⟩
    rw [steps, hsteps, ok_bind]
    simp only [hstep, ok_bind, List.map_append, List.map_cons, List.map_nil]

/-- The worked example of the design: weights 50, 30 and 20. -/
example : ((⟨[⟨0, 50, 0⟩, ⟨1, 30, 0⟩, ⟨2, 20, 0⟩], 100⟩ : Schedule).steps 10).map Prod.fst =
    .ok [0, 1, 2, 0, 0, 1, 0, 2, 1, 0] := by decide +kernel

theorem count_map_key (picks : List (Fin set.members.length)) (i : Fin set.members.length) :
    (picks.map fun i => (set.members.get i).1).count (set.members.get i).1 = picks.count i := by
  refine List.count_map_of_injective picks (fun i => (set.members.get i).1) (fun a b hab => ?_) i
  rcases lt_trichotomy a b with h | h | h
  · exact absurd hab (List.pairwise_iff_get.1 set.sorted a b h).ne
  · exact h
  · exact absurd hab (List.pairwise_iff_get.1 set.sorted b a h).ne'

theorem harmonic_le_of_le_three {n : ℕ} (h : n ≤ 3) : harmonic n ≤ 11 / 6 := by
  interval_cases n <;> norm_num [harmonic, sum_range_succ]

/-- Fairness: after `N` steps from zero priorities, a member of weight `w` that
    was picked `count` times is less than one turn ahead of its share, and at
    most `H_n - 1` turns behind it. Among at most three members, no one is off
    by more than one turn. -/
theorem steps_fairness (hne : set.members ≠ []) (N : ℕ) :
    ∃ keys s, (new set).steps N = .ok (keys, s) ∧ ∀ key w, (key, w) ∈ set.members →
      (keys.count key * set.total - N * w : ℤ) < set.total ∧
      ((N * w - keys.count key * set.total : ℤ) : ℚ) ≤ (harmonic set.len - 1) * set.total ∧
      (set.len ≤ 3 → |(keys.count key * set.total - N * w : ℤ)| ≤ set.total) := by
  obtain ⟨picks, p, hrot, hlen, hsteps⟩ := exists_steps hne N
  refine ⟨_, _, hsteps, fun key w hmem => ?_⟩
  obtain ⟨i, hi⟩ := List.get_of_mem hmem
  have hcount := count_map_key picks i
  have hcredit := hrot.credit_eq i
  have hlo := hrot.neg_lt_credit (weightAt_pos set) i
  have hhi := hrot.credit_le (fun i => (weightAt_pos set i).le) i
  rw [sum_weightAt] at hcredit hlo hhi
  rw [Fintype.card_fin] at hhi
  simp only [weightAt, hi, hlen] at hcredit hcount
  rw [hcount]
  rw [hcredit] at hlo hhi
  refine ⟨by linarith, by exact_mod_cast hhi, fun h3 => ?_⟩
  have hharm := harmonic_le_of_le_three h3
  have hone : (↑((N : ℤ) * w - picks.count i * set.total) : ℚ) ≤ set.total := by
    refine hhi.trans ?_
    have htotal : (0 : ℚ) ≤ (set.total : ℤ) := by exact_mod_cast Nat.zero_le _
    have hlen : harmonic set.members.length ≤ 11 / 6 := hharm
    push_cast at htotal ⊢
    nlinarith
  rw [abs_le]
  have : (N : ℤ) * w - picks.count i * set.total ≤ set.total := by exact_mod_cast hone
  constructor <;> linarith

/-- Four members of weights 1, 5, 53 and 53. -/
def fourMembers : ValidatorSet where
  members := [(0, 1), (1, 5), (2, 53), (3, 53)]
  total := 112
  sorted := by decide
  weight_pos := by decide
  total_eq := rfl
  total_lt := by decide

theorem steps_fairness_fourMembers :
    fourMembers.members ≠ [] ∧
      ∃ keys s, (new fourMembers).steps 36 = .ok (keys, s) ∧
        ∀ key w, (key, w) ∈ fourMembers.members →
          (keys.count key * fourMembers.total - (36 : ℕ) * w : ℤ) < fourMembers.total ∧
          (((36 : ℕ) * w - keys.count key * fourMembers.total : ℤ) : ℚ) ≤
            (harmonic fourMembers.len - 1) * fourMembers.total ∧
          (fourMembers.len ≤ 3 →
            |(keys.count key * fourMembers.total - (36 : ℕ) * w : ℤ)| ≤ fourMembers.total) :=
  ⟨by decide, steps_fairness (by decide) 36⟩

/-- After 36 turns the last of the four has had 16 and is 116/112 of a turn
    behind its share. -/
theorem steps_unfair :
    ∃ keys s, (new fourMembers).steps 36 = .ok (keys, s) ∧ (3, 53) ∈ fourMembers.members ∧
      ¬|(keys.count 3 * fourMembers.total - 36 * 53 : ℤ)| ≤ fourMembers.total := by
  have hcount : ((new fourMembers).steps 36).map (fun r => r.1.count 3) = .ok 16 := by
    decide +kernel
  cases h : (new fourMembers).steps 36 with
  | error e => rw [h] at hcount; cases hcount
  | ok r =>
    rw [h] at hcount
    refine ⟨r.1, r.2, rfl, by decide, ?_⟩
    rw [show r.1.count 3 = 16 from Except.ok.inj hcount]
    decide

end Schedule

end RougeChain.Consensus
