import Mathlib.Tactic

/-!
# Agreement by locked voting

Weighted voters decide on a value in rounds of two phases. A voter that holds a
quorum of prevotes for a value may precommit it; a quorum of precommits decides.
Fewer than a third of the weight is *faulty* and votes without any rule.

A `History` lists the ballots of the other voters in the order in which they
were cast. Each keeps four rules (`Allowed`): one value in a phase of a round; no
ballot in a round below an earlier one; a precommit only on a quorum of prevotes;
and, once a value is precommitted, a prevote for another one only on a quorum of
prevotes for it in a round at or above the precommit.

* `Electorate.exists_correct`: two quorums share a voter that is not faulty;
* `History.prevoted_eq`: above a decision, every quorum of prevotes is for the
  decided value. The induction is on the history, not on the rounds: the quorum
  that allowed a prevote for another value came earlier;
* `History.agreement`: two decisions, of any rounds, are for one value.
-/

namespace LockedVoting

open Finset

/-- Weighted voters, of which less than a third of the weight is faulty. -/
structure Electorate (K : Type*) where
  members : Finset K
  weight : K → ℕ
  weight_eq_zero : ∀ k ∉ members, weight k = 0
  faulty : Set K
  few : ∀ S : Finset K, ↑S ⊆ faulty → 3 * ∑ k ∈ S, weight k < ∑ k ∈ members, weight k

namespace Electorate

variable {K : Type*} (E : Electorate K)

def total : ℕ := ∑ k ∈ E.members, E.weight k

/-- More than two thirds of the weight. -/
def Quorum (S : Finset K) : Prop := 2 * E.total < 3 * ∑ k ∈ S, E.weight k

variable {E} [DecidableEq K]

theorem sum_weight_le (S : Finset K) : ∑ k ∈ S, E.weight k ≤ E.total := by
  refine sum_le_sum_of_ne_zero fun k _ hk => ?_
  by_contra hmem
  exact hk (E.weight_eq_zero k hmem)

/-- Two quorums share a voter that is not faulty. -/
theorem exists_correct {S T : Finset K} (hS : E.Quorum S) (hT : E.Quorum T) :
    ∃ k ∈ S, k ∈ T ∧ k ∉ E.faulty := by
  by_contra hnone
  push Not at hnone
  have hfaulty : ↑(S ∩ T) ⊆ E.faulty := fun k hk =>
    hnone k (mem_inter.1 hk).1 (mem_inter.1 hk).2
  have hfew : 3 * ∑ k ∈ S ∩ T, E.weight k < E.total := E.few _ hfaulty
  have hsum : ∑ k ∈ S ∪ T, E.weight k + ∑ k ∈ S ∩ T, E.weight k =
      ∑ k ∈ S, E.weight k + ∑ k ∈ T, E.weight k := sum_union_inter
  have hle := sum_weight_le (E := E) (S ∪ T)
  rw [Quorum] at hS hT
  omega

end Electorate

/-! ## Ballots and histories -/

inductive Phase
  | prevote
  | precommit
  deriving DecidableEq

/-- A vote of one voter in one phase of one round; `none` is a vote for nothing. -/
structure Ballot (K V : Type*) where
  voter : K
  phase : Phase
  round : ℕ
  value : Option V

variable {K V : Type*} {E : Electorate K} {H A B : List (Ballot K V)} {b : Ballot K V}

/-- A quorum for `v` in a phase of round `r`, where a faulty voter counts for every value. -/
def Supported (E : Electorate K) (H : List (Ballot K V)) (phase : Phase) (r : ℕ) (v : V) : Prop :=
  ∃ S, E.Quorum S ∧ ∀ k ∈ S, k ∈ E.faulty ∨ ⟨k, phase, r, some v⟩ ∈ H

/-- The rules for casting `b` after the ballots of `H`. -/
structure Allowed (E : Electorate K) (H : List (Ballot K V)) (b : Ballot K V) : Prop where
  unique : ∀ v, ⟨b.voter, b.phase, b.round, v⟩ ∈ H → v = b.value
  round_le : ∀ b' ∈ H, b'.voter = b.voter → b'.round ≤ b.round
  supported : ∀ v, b.phase = .precommit → b.value = some v → Supported E H .prevote b.round v
  unlocked : ∀ v r₀ v₀, b.phase = .prevote → b.value = some v →
    ⟨b.voter, .precommit, r₀, some v₀⟩ ∈ H → v = v₀ ∨ ∃ r₁ ≥ r₀, Supported E H .prevote r₁ v

/-- Ballots in the order they were cast, each allowed when it was. -/
inductive History (E : Electorate K) : List (Ballot K V) → Prop
  | nil : History E []
  | snoc {H : List (Ballot K V)} {b : Ballot K V} :
      History E H → Allowed E H b → History E (H ++ [b])

theorem Supported.mono {phase : Phase} {r : ℕ} {v : V} (hs : Supported E A phase r v)
    (hsub : A ⊆ H) : Supported E H phase r v := by
  obtain ⟨S, hS, hvotes⟩ := hs
  exact ⟨S, hS, fun k hk => (hvotes k hk).imp_right fun h => hsub h⟩

namespace History

/-- Every ballot of a history was allowed by the ballots before it. -/
theorem allowed (hH : History E H) (heq : H = A ++ b :: B) : Allowed E A b := by
  induction hH generalizing B with
  | nil => exact absurd heq (by simp)
  | @snoc H b' hH hallowed ih =>
    rcases List.eq_nil_or_concat B with rfl | ⟨B', b'', rfl⟩
    · obtain ⟨rfl, hb⟩ := List.append_inj' heq rfl
      obtain rfl := List.singleton_injective hb
      exact hallowed
    · rw [List.concat_eq_append, ← List.cons_append, ← List.append_assoc] at heq
      exact ih (List.append_inj' heq rfl).1

/-- A voter casts one value in a phase of a round. -/
theorem value_unique (hH : History E H) {k : K} {phase : Phase} {r : ℕ} {v v' : Option V}
    (hv : ⟨k, phase, r, v⟩ ∈ H) (hv' : ⟨k, phase, r, v'⟩ ∈ H) : v = v' := by
  induction hH with
  | nil => exact absurd hv List.not_mem_nil
  | snoc hH hallowed ih =>
    rcases List.mem_append.1 hv with h | h <;> rcases List.mem_append.1 hv' with h' | h'
    · exact ih h h'
    · obtain rfl := List.mem_singleton.1 h'
      exact hallowed.unique v h
    · obtain rfl := List.mem_singleton.1 h
      exact (hallowed.unique v' h').symm
    · rw [List.mem_singleton] at h h'
      exact congrArg Ballot.value (h.trans h'.symm)

variable [DecidableEq K]

/-- Two quorums in a phase of one round are for one value. -/
theorem supported_unique (hH : History E H) {phase : Phase} {r : ℕ} {v v' : V}
    (hv : Supported E H phase r v) (hv' : Supported E H phase r v') : v = v' := by
  obtain ⟨S, hS, hvotes⟩ := hv
  obtain ⟨T, hT, hvotes'⟩ := hv'
  obtain ⟨k, hkS, hkT, hk⟩ := Electorate.exists_correct hS hT
  exact Option.some.inj
    (hH.value_unique ((hvotes k hkS).resolve_left hk) ((hvotes' k hkT).resolve_left hk))

/-- A quorum of precommits rests on a quorum of prevotes of the same round. -/
theorem prevoted (hH : History E H) {r : ℕ} {v : V} (hv : Supported E H .precommit r v) :
    Supported E H .prevote r v := by
  obtain ⟨S, hS, hvotes⟩ := hv
  obtain ⟨k, hk, -, hcorrect⟩ := Electorate.exists_correct hS hS
  obtain ⟨A, B, rfl⟩ := List.append_of_mem ((hvotes k hk).resolve_left hcorrect)
  exact ((hH.allowed rfl).supported v rfl rfl).mono (List.subset_append_left A _)

/-- In a round at or above a decision, every quorum of prevotes is for the decided value. -/
theorem prevoted_eq (hH : History E H) {r r' : ℕ} {v v' : V}
    (hv : Supported E H .precommit r v) (hpre : A <+: H) (hv' : Supported E A .prevote r' v')
    (hle : r ≤ r') : v' = v := by
  -- By induction on the length of the prefix that holds the quorum of prevotes.
  induction hn : A.length using Nat.strong_induction_on generalizing A r' with
  | _ n ih =>
    rcases hle.eq_or_lt with rfl | hlt
    · exact hH.supported_unique (hv'.mono hpre.subset) (hH.prevoted hv)
    · obtain ⟨S, hS, hvotes⟩ := hv
      obtain ⟨T, hT, hvotes'⟩ := hv'
      obtain ⟨k, hkS, hkT, hk⟩ := Electorate.exists_correct hS hT
      have hlock := (hvotes k hkS).resolve_left hk
      obtain ⟨A₁, A₂, rfl⟩ := List.append_of_mem ((hvotes' k hkT).resolve_left hk)
      obtain ⟨B, rfl⟩ := hpre
      rw [List.append_assoc, List.cons_append] at hH hlock
      have hallowed := hH.allowed rfl
      -- The precommit came first: after the prevote of round `r'` it would be too low.
      have hearlier : ⟨k, .precommit, r, some v⟩ ∈ A₁ := by
        rcases List.mem_append.1 hlock with h | h
        · exact h
        · rcases List.mem_cons.1 h with h | h
          · exact absurd (congrArg Ballot.phase h) (by simp)
          · obtain ⟨C, D, hCD⟩ := List.append_of_mem h
            have hlater := hH.allowed (A := A₁ ++ ⟨k, .prevote, r', some v'⟩ :: C) (B := D)
              (b := ⟨k, .precommit, r, some v⟩) (by rw [hCD]; simp)
            have := hlater.round_le ⟨k, .prevote, r', some v'⟩ (by simp) rfl
            exact absurd this (not_le.2 hlt)
      rcases hallowed.unlocked v' r v rfl rfl hearlier with h | ⟨r₁, hr₁, hsup⟩
      · exact h
      · refine ih A₁.length ?_ ?_ hsup hr₁ rfl
        · rw [← hn]
          simp
        · rw [List.append_assoc]
          exact List.prefix_append A₁ _

/-- Two decisions are for one value. -/
theorem agreement (hH : History E H) {r r' : ℕ} {v v' : V}
    (hv : Supported E H .precommit r v) (hv' : Supported E H .precommit r' v') : v = v' := by
  rcases le_total r r' with hle | hle
  · exact (hH.prevoted_eq hv (List.prefix_refl H) (hH.prevoted hv') hle).symm
  · exact hH.prevoted_eq hv' (List.prefix_refl H) (hH.prevoted hv) hle

end History

end LockedVoting
