import RougeChain.Consensus.Passes

/-!
# Every member counts once

A machine adds weights up while the votes come in, in any order, repeated and for several values.
What it has then is what a count of the votes it holds gives: a member counts once for each value it
has voted for, and once in the total of the round, also after a restart.

* `Tally.CountsOnce`: the weights of a tally are those of the members whose votes it holds;
* `Machine.tallies_count_once`: this is so of every tally of every machine.
-/

namespace RougeChain.Consensus

open Finset
open Std (ExtTreeMap)

/-! ## A tally -/

/-- A tally has the weights of the members whose votes it holds. -/
structure Tally.CountsOnce (set : ValidatorSet) (t : Tally) : Prop where
  values : TallyOK set (fun _ k => set.contains k = true) t
  voted : ∀ k, k ∈ t.first ↔ ∃ v, (k, v) ∈ t.votes
  total : t.total = ∑ k ∈ set.keys with k ∈ t.first, set.weight k

namespace Tally.CountsOnce

variable {set : ValidatorSet} {t : Tally}

theorem empty : CountsOnce set {} := ⟨.empty, by simp, by simp⟩

/-- The voter of a first vote is counted in the total. -/
theorem sum_insert_first {voter : KeyId} (hmem : set.contains voter = true) {vote : Vote}
    (hnew : voter ∉ t.first) :
    ∑ k ∈ set.keys with k ∈ t.first.insert voter vote, set.weight k =
      (∑ k ∈ set.keys with k ∈ t.first, set.weight k) + set.weight voter := by
  have hfilter : {k ∈ set.keys | k ∈ t.first.insert voter vote} =
      insert voter {k ∈ set.keys | k ∈ t.first} := by
    ext k
    have hkeys : voter ∈ set.keys := by
      obtain ⟨w, hw⟩ := ValidatorSet.contains_iff.1 hmem
      exact List.mem_toFinset.2 (List.mem_map_of_mem hw)
    rw [mem_filter, mem_insert, mem_filter, mem_insert_eq]
    constructor
    · rintro ⟨hk, rfl | hfirst⟩
      · exact .inl rfl
      · exact .inr ⟨hk, hfirst⟩
    · rintro (rfl | ⟨hk, hfirst⟩)
      · exact ⟨hkeys, .inl rfl⟩
      · exact ⟨hk, .inr hfirst⟩
  rw [hfilter, sum_insert fun h => hnew (mem_filter.1 h).2, Nat.add_comm]

/-- Storing the vote of a member. -/
theorem record (ht : CountsOnce set t) {vote : Vote} (hmem : set.contains vote.voter = true)
    (known : Bool) : CountsOnce set (t.record (set.weight vote.voter) known vote).1 := by
  rw [Tally.record]
  split
  · exact ht
  next hnew =>
  have hvalues := ht.values.count hmem fun h => hnew (ExtTreeMap.contains_iff_mem.2 h)
  have hvotes (k v) : (k, v) ∈ (t.count (set.weight vote.voter) vote).votes ↔
      (vote.voter, vote.block) = (k, v) ∨ (k, v) ∈ t.votes := mem_insert_eq _ _ _ _
  split
  · next prev hprev =>
    dsimp only
    split
    · -- the voter has a first vote already
      have hvoter := (ht.voted vote.voter).1 (ExtTreeMap.mem_iff_isSome_getElem?.2 (by simp [hprev]))
      refine ⟨hvalues, fun k => (ht.voted k).trans ?_, ht.total⟩
      constructor
      · rintro ⟨v, hv⟩
        exact ⟨v, (hvotes k v).2 (.inr hv)⟩
      · rintro ⟨v, hv⟩
        rcases (hvotes k v).1 hv with heq | hv
        · exact (Prod.mk.inj heq).1 ▸ hvoter
        · exact ⟨v, hv⟩
    · exact ht
  · next hprev =>
    have hfirst : vote.voter ∉ t.first := fun h => by
      rw [ExtTreeMap.mem_iff_isSome_getElem?, hprev] at h
      exact absurd h (by simp)
    refine ⟨⟨hvalues.counted, hvalues.heard⟩, fun k => ?_, ?_⟩
    · dsimp only
      rw [mem_insert_eq, ht.voted]
      constructor
      · rintro (rfl | ⟨v, hv⟩)
        · exact ⟨vote.block, (hvotes _ _).2 (.inl rfl)⟩
        · exact ⟨v, (hvotes k v).2 (.inr hv)⟩
      · rintro ⟨v, hv⟩
        rcases (hvotes k v).1 hv with heq | hv
        · exact .inl (Prod.mk.inj heq).1
        · exact .inr ⟨v, hv⟩
    · dsimp only
      rw [sum_insert_first hmem hfirst, ht.total]

/-- The weight of a value, as a sum over the members. -/
theorem weightFor_eq (ht : CountsOnce set t) (v : Option BlockId) :
    t.weightFor v = ∑ k ∈ set.keys with (k, v) ∈ t.votes, set.weight k := by
  obtain ⟨S, hS, hsum⟩ := ht.values.counted v
  rw [hsum]
  refine congrArg (∑ k ∈ ·, set.weight k) ?_
  ext k
  rw [mem_filter, hS, iff_and_self]
  intro hk
  obtain ⟨w, hw⟩ := ValidatorSet.contains_iff.1 (ht.values.heard k v hk)
  exact List.mem_toFinset.2 (List.mem_map_of_mem hw)

end Tally.CountsOnce

/-! ## A machine -/

/-- Every tally of the machine counts its members once. -/
def Machine.CountsOnce (m : Machine) : Prop :=
  ∀ r kind, ((m.book r).tally kind).CountsOnce m.set

namespace Machine

variable {m m' : Machine}

/-- The set, the journal and the votes are as they were. -/
structure SameVotes (m m' : Machine) : Prop where
  cfg_eq : m'.cfg = m.cfg
  set_eq : m'.set = m.set
  journal_eq : m'.journal = m.journal
  tally_eq : ∀ r kind, (m'.book r).tally kind = (m.book r).tally kind

theorem CountsOnce.of_same (hm : m.CountsOnce) (h : SameVotes m m') : m'.CountsOnce := fun r kind => by
  rw [h.tally_eq, h.set_eq]
  exact hm r kind

namespace SameVotes

theorem trans {m'' : Machine} (h : SameVotes m m') (h' : SameVotes m' m'') : SameVotes m m'' :=
  ⟨h'.cfg_eq.trans h.cfg_eq, h'.set_eq.trans h.set_eq, h'.journal_eq.trans h.journal_eq,
    fun r kind => (h'.tally_eq r kind).trans (h.tally_eq r kind)⟩

theorem recordProposal (p : Proposal) (verdict : Verdict) :
    SameVotes m (m.recordProposal p verdict) := by
  have htally := Machine.tally_recordProposal (m := m) p verdict
  obtain ⟨rounds, blocks, heq, -⟩ := Turn.recordProposal_frame m p verdict
  rw [heq] at htally ⊢
  exact ⟨rfl, rfl, rfl, htally⟩

/-- An own proposal is kept. -/
theorem keepProposal (r : ℕ) (p : Proposal) : SameVotes m
    (Machine.recordProposal { m with myProposals := m.myProposals.insert r p } p .valid) :=
  have hown : SameVotes m { m with myProposals := m.myProposals.insert r p } :=
    ⟨rfl, rfl, rfl, fun _ _ => rfl⟩
  hown.trans (recordProposal p .valid)

end SameVotes

theorem CountsOnce.countVote (hm : m.CountsOnce) {v : Vote} (hv : m.Counts v) (known : Bool) :
    (m.countVote v known).CountsOnce := fun r kind => by
  rw [Machine.countVote, book_setBook]
  split
  · next h =>
    by_cases hkind : v.kind = kind
    · subst hkind h
      have htally (b : RoundBook) (t : Tally) : (b.setTally v.kind t).tally v.kind = t := by
        cases v.kind <;> rfl
      rw [htally]
      exact (hm v.round v.kind).record hv.2.1 known
    · have htally (b : RoundBook) (t : Tally) : (b.setTally v.kind t).tally kind = b.tally kind := by
        cases hv : v.kind <;> cases kind <;> first | rfl | exact absurd hv hkind
      rw [htally, h]
      exact hm r kind
  · exact hm r kind

theorem Idle.countsOnce (hm : m.Idle) : m.CountsOnce := fun r kind => by
  rw [hm.book_eq]
  cases kind <;> exact .empty

end Machine

theorem Turn.Change.countsOnce {i : Input} {t t' : Turn} (h : Change i t t') (ht : t.m.CountsOnce) :
    t'.m.CountsOnce := by
  cases h with
  | aside heq =>
    simp only [Machine.main, Prod.mk.injEq] at heq
    obtain ⟨hcfg, -, -, -, -, -, hset, hrounds, -, hjournal, -⟩ := heq
    exact ht.of_same ⟨hcfg, hset, hjournal, fun r kind => by
      rw [Machine.book, hrounds, Machine.book]⟩
  | book htally => exact ht.of_same ⟨rfl, rfl, rfl, Machine.tally_setBook htally⟩
  | proposal p verdict => exact ht.of_same (.recordProposal p verdict)
  | vote known hv => exact ht.countVote hv known
  | ownProposal => exact ht.of_same (.keepProposal _ _)
  | @enter r =>
    rw [beginRound_m]
    exact (ht.of_same ⟨rfl, rfl, rfl, Machine.tally_setBook fun _ => rfl⟩ :
      (t.m.setBook r (t.m.book r)).CountsOnce)
  | valid =>
    rw [persistRoundState_m]
    exact (ht.of_same ⟨rfl, rfl, rfl, Machine.tally_setBook fun kind => by cases kind <;> rfl⟩ :
      (t.m.setBook t.m.round { t.m.book t.m.round with validRuleDone := true }).CountsOnce)
  | lock =>
    rw [lock_m]
    exact ht
  | emit | slot | step | commit | catchUp | late => exact ht

/-! ## Every machine -/

/-- A machine reached from `new`, or from `restore` with whatever the disk holds, by inputs. -/
inductive Machine.Runs : Machine → Prop
  | new {fuel : ℕ} {cfg : Config} {ctx : HeightCtx} {t : Turn} :
      Machine.new fuel cfg ctx = some t → Runs t.m
  | restore {fuel : ℕ} {cfg : Config} {ctx : HeightCtx} {saved : PersistedState} {t : Turn} :
      Machine.restore fuel cfg ctx saved = some t → Runs t.m
  | handle {m : Machine} {fuel : ℕ} {input : Input} {t : Turn} :
      Runs m → m.handle fuel input = some t → Runs t.m

namespace Machine

variable {m : Machine} {t : Turn} {fuel : ℕ}

theorem CountsOnce.prepare (hm : m.CountsOnce) (input : Input) :
    (m.prepare input).turn.m.CountsOnce := by
  by_cases hin : ∀ ctx, input ≠ .startHeight ctx
  · exact (changes_prepare hin).keep Turn.Change.countsOnce hm
  · push Not at hin
    obtain ⟨ctx, rfl⟩ := hin
    rw [Machine.prepare]
    split
    · obtain ⟨lastCommit, wait, heq⟩ := Turn.startHeight_machine ctx { m }
      rw [Prepared.turn, heq]
      exact (ctx.idle_machine _ _ _).countsOnce
    · exact hm

/-- The journaled proposals bring no votes. -/
theorem sameVotes_resendProposals (key : SigningKey) (r : ℕ)
    (slots : List (ℕ × Option ℕ × Block)) :
    SameVotes t.m (slots.foldl (resendProposal key r) t).m := by
  induction slots generalizing t with
  | nil => exact ⟨rfl, rfl, rfl, fun _ _ => rfl⟩
  | cons slot slots ih =>
    have hslot : SameVotes t.m (resendProposal key r t slot).m := .keepProposal _ _
    exact hslot.trans ih

theorem journal_sendVote (key : SigningKey) (kind : VoteType) (r : ℕ) (value : Option BlockId) :
    (t.sendVote key kind r value).m.journal = t.m.journal := by
  rw [Turn.sendVote, Turn.recordVote, noteVoter]
  dsimp only
  split <;> rfl

/-- The journaled votes are those of a member. -/
theorem changes_resendVotes {i : Input} {key : SigningKey} (hkey : t.m.signer = some key)
    (slots : List ((VoteType × ℕ) × Option BlockId))
    (hslots : ∀ s ∈ slots, t.m.journal[s.1]? = some s.2) :
    Turn.Changes i t (slots.foldl (resendVote key) t) := by
  induction slots generalizing t with
  | nil => exact .refl
  | cons slot slots ih =>
    obtain ⟨hslot, hslots⟩ := List.forall_mem_cons.1 hslots
    have hsend := Turn.changes_sendVote (i := i) hkey hslot
    obtain ⟨hcfg, -, hset⟩ := hsend.setting
    have hkey' : (resendVote key t slot).m.signer = some key := by
      rw [← hkey, signer, signer, resendVote, hcfg, hset]
    have hjournal : (resendVote key t slot).m.journal = t.m.journal := journal_sendVote _ _ _ _
    exact hsend.trans (ih hkey' fun s hs => hjournal ▸ hslots s hs)

theorem CountsOnce.enterRound (ht : t.m.CountsOnce) (r : ℕ) : (t.enterRound r).m.CountsOnce := by
  -- entering a round does not read the step
  have hfresh : Turn.Changes .txPending (t.setStep .newHeight)
      ((t.setStep .newHeight).enterRound r) :=
    Turn.changes_enterRound nofun fun h => absurd rfl h
  exact hfresh.keep Turn.Change.countsOnce (I := fun t => t.m.CountsOnce) ht

theorem countsOnce_restore {cfg : Config} {ctx : HeightCtx} {saved : PersistedState}
    (h : restore fuel cfg ctx saved = some t) : t.m.CountsOnce := by
  simp only [restore, Option.bind_eq_bind, Option.bind_eq_some_iff] at h
  obtain ⟨t₀, hnew, h⟩ := h
  have ht₀ : (t₀.m.reload saved).CountsOnce := (idle_new hnew).countsOnce
  split at h
  · exact Option.some.inj h ▸ (idle_new hnew).countsOnce
  have hresume {t₁ t : Turn} (ht₁ : t₁.m.CountsOnce)
      (h : ((Turn.enterRound { t₁ with m := { t₁.m with commitWaitDone := true } }
        saved.round).setStep (Turn.enterRound { t₁ with m := { t₁.m with commitWaitDone := true } }
        saved.round).m.resumedStep).evaluate fuel = some t) : t.m.CountsOnce :=
    (Turn.changes_evaluate (i := .txPending) h).keep (I := fun t => t.m.CountsOnce) Turn.Change.countsOnce
      (CountsOnce.enterRound (t := { t₁ with m := { t₁.m with commitWaitDone := true } }) ht₁ _)
  refine hresume ?_ h
  split
  · exact ht₀
  · next key hkey =>
    have hsame := sameVotes_resendProposals (t := { m := t₀.m.reload saved }) key saved.round
      saved.proposals.toList
    refine (changes_resendVotes (i := .txPending) ?_ _ fun s hs => ?_).keep
      Turn.Change.countsOnce (I := fun t => t.m.CountsOnce) (CountsOnce.of_same ht₀ hsame)
    · rw [← hkey, signer, signer, hsame.cfg_eq, hsame.set_eq]
    · rw [hsame.journal_eq]
      exact ExtTreeMap.mem_toList_iff_getElem?_eq_some.1 hs

theorem Runs.countsOnce (hm : m.Runs) : m.CountsOnce := by
  induction hm with
  | new h => exact (idle_new h).countsOnce
  | restore h => exact countsOnce_restore h
  | handle _ h ih =>
    rw [handle_eq] at h
    exact (changes_finish (i := .txPending) h).keep Turn.Change.countsOnce (ih.prepare _)

end Machine

end RougeChain.Consensus
