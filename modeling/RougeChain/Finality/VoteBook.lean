import RougeChain.Finality.Verifier

/-!
# The vote book

A node collects the votes for one height in a book: each validator has at most one vote of each
type in it, and only valid votes get in. From the book it builds a proof as soon as the recorded
precommits hold a quorum, and checks the proof as any verifier would.

* `VoteBook.Records.submitAll`: what the book holds after any sequence of votes, whether valid or
  not, in any order and with any repetitions;
* `VoteBook.buildProof_of_reached`, `VoteBook.buildProof_of_short`: what is built from it;
* `buildProof_complete_iff`: a quorum of precommits gives an accepted proof and less gives none, if
  and only if the set has a quorum at all and those who reach it are few enough for a proof.
-/

open Fallible

namespace RougeChain.Finality

open Node
open Std (ExtTreeMap)

/-- The votes for one height, by voter and type. -/
structure VoteBook where
  height : UInt64
  votes : ExtTreeMap (String × String) VoteMessage

namespace VoteBook

variable (verify : String → List UInt8 → String → Bool)

def new (height : UInt64) : VoteBook := ⟨height, ∅⟩

/-- Whether the vote is new, and the book with it. -/
def submit (book : VoteBook) (vote : VoteMessage) (ctx : VoteContext) :
    Except FinalityError (Bool × VoteBook) := do
  require (ctx.height = book.height) (.wrongHeight book.height ctx.height)
  let _ ← validateVote verify vote ctx
  let key := (vote.voterPubKey, vote.voteType)
  if key ∈ book.votes then return (false, book)
  else return (true, { book with votes := book.votes.insert key vote })

/-- A vote that is refused leaves the book as it is. -/
def step (ctx : VoteContext) (book : VoteBook) (vote : VoteMessage) : VoteBook :=
  match book.submit verify vote ctx with
  | .ok (_, book) => book
  | .error _ => book

/-- The book after the votes, one after another. -/
def submitAll (ctx : VoteContext) (book : VoteBook) (votes : List VoteMessage) : VoteBook :=
  Runs.run (step verify ctx) book votes

def precommits (book : VoteBook) : List VoteMessage :=
  (book.votes.toList.filter fun e => e.1.2 = precommit).map Prod.snd

/-- The stake of the votes, each counted with that of its voter. -/
def addStakes (ctx : VoteContext) (votes : List VoteMessage) (start : U128) : Option U128 :=
  votes.foldlM (fun a v => do
    let stake ← ctx.validators.stakeOf v.voterPubKey
    U128.checkedAdd a stake) start

/-- A proof, if the recorded precommits hold a quorum. -/
def buildProof (book : VoteBook) (ctx : VoteContext) (createdAt : UInt64) :
    Except FinalityError (Option FinalityProof) := do
  let quorum ← ofOption .emptyValidatorSet ctx.validators.quorum
  let total ← ofOption .stakeOverflow ctx.validators.totalStake
  let voting ← ofOption .stakeOverflow (addStakes ctx book.precommits 0)
  if voting < quorum then return none
  else do
    let proof : FinalityProof := {
      height := ctx.height
      blockHash := ctx.storedBlockHash
      totalStake := total
      votingStake := voting
      quorumThreshold := quorum
      precommitVotes := book.precommits
      createdAt }
    let _ ← verifyFinalityProof verify proof ctx
    return some proof

end VoteBook

/-! ## Stake that fits -/

theorem U128.checkedAdd_of_lt {a b : U128} (h : a.toNat + b.toNat < 2 ^ 128) :
    U128.checkedAdd a b = some (BitVec.ofNat 128 (a.toNat + b.toNat)) := by
  rw [U128.checkedAdd, if_pos h]
  refine congrArg some (BitVec.eq_of_toNat_eq ?_)
  rw [BitVec.toNat_add, BitVec.toNat_ofNat]

namespace ValidatorSetSnapshot

variable {set : ValidatorSetSnapshot}

theorem card_members (set : ValidatorSetSnapshot) : set.members.card = set.stakes.size := by
  rw [members, List.toFinset_card_of_nodup set.nodup_keys, List.length_map,
    ExtTreeMap.length_toList]

theorem foldlM_of_lt {entries : List (String × U128)} {start : U128}
    (h : start.toNat + (entries.map fun e => e.2.toNat).sum < 2 ^ 128) :
    ∃ total, entries.foldlM (fun total entry => U128.checkedAdd total entry.2) start =
      some total := by
  induction entries generalizing start with
  | nil => exact ⟨start, rfl⟩
  | cons e entries ih =>
    rw [List.map_cons, List.sum_cons, ← Nat.add_assoc] at h
    have hnext : start.toNat + e.2.toNat < 2 ^ 128 := by omega
    rw [List.foldlM_cons, U128.checkedAdd_of_lt hnext]
    refine ih ?_
    rwa [BitVec.toNat_ofNat, Nat.mod_eq_of_lt hnext]

theorem exists_totalStake_of_lt (h : ∑ k ∈ set.members, set.weight k < 2 ^ 128) :
    ∃ total, set.totalStake = some total := by
  refine foldlM_of_lt ?_
  rw [members, List.sum_toFinset _ set.nodup_keys, List.map_map] at h
  change 0 + _ < _
  rw [Nat.zero_add]
  refine lt_of_eq_of_lt (congrArg List.sum (List.map_congr_left fun e he => ?_)) h
  exact (weight_of_stakeOf (ExtTreeMap.mem_toList_iff_getElem?_eq_some.1 he)).symm

/-- There is a quorum where there is stake, and twice the stake fits. -/
theorem exists_quorum (hpos : 0 < ∑ k ∈ set.members, set.weight k)
    (hfits : 2 * ∑ k ∈ set.members, set.weight k < 2 ^ 128) :
    ∃ q, set.quorum = some q ∧ q.toNat = 2 * (∑ k ∈ set.members, set.weight k) / 3 + 1 := by
  have hlt : ∑ k ∈ set.members, set.weight k < 2 ^ 128 := by omega
  obtain ⟨total, htotal⟩ := exists_totalStake_of_lt hlt
  have hsum := totalStake_eq_some htotal
  have hne : total ≠ 0 := by
    rintro rfl
    rw [← hsum] at hpos
    exact absurd hpos (by decide)
  have hdouble : total.toNat * (2 : U128).toNat < 2 ^ 128 := by
    change total.toNat * 2 < _
    omega
  have hval : (total * 2).toNat = 2 * total.toNat := by
    rw [BitVec.toNat_mul, Nat.mod_eq_of_lt hdouble]
    exact Nat.mul_comm _ _
  have hone : (total * 2 / 3).toNat + (1 : U128).toNat < 2 ^ 128 := by
    rw [BitVec.toNat_udiv, hval]
    change 2 * total.toNat / 3 + 1 < _
    omega
  have hq : set.quorum = some (BitVec.ofNat 128 ((total * 2 / 3).toNat + (1 : U128).toNat)) := by
    rw [quorum, htotal, Option.bind_eq_bind, Option.bind_some, if_neg hne, U128.checkedMul,
      if_pos hdouble, Option.bind_some, U128.checkedAdd_of_lt hone]
  exact ⟨_, hq, hsum ▸ quorum_eq_some htotal hq⟩

theorem exists_totalStake {q : U128} (hq : set.quorum = some q) :
    ∃ total, set.totalStake = some total := by
  obtain ⟨total, htotal, -⟩ := Option.bind_eq_some_iff.1 hq
  exact ⟨total, htotal⟩

/-- A quorum is never nothing. -/
theorem quorum_pos {q : U128} (hq : set.quorum = some q) : 0 < q.toNat := by
  obtain ⟨total, htotal⟩ := exists_totalStake hq
  rw [quorum_eq_some htotal hq]
  exact Nat.succ_pos _

/-- Where there is a quorum, the stake of any validators can be added up. -/
theorem sum_weight_lt {q : U128} (hq : set.quorum = some q) {S : Finset String}
    (hS : S ⊆ set.members) : ∑ k ∈ S, set.weight k < 2 ^ 128 := by
  obtain ⟨total, htotal⟩ := exists_totalStake hq
  calc ∑ k ∈ S, set.weight k
      ≤ ∑ k ∈ set.members, set.weight k := Finset.sum_le_sum_of_subset hS
    _ = total.toNat := (totalStake_eq_some htotal).symm
    _ < 2 ^ 128 := total.isLt

end ValidatorSetSnapshot

section Counting

variable {verify : String → List UInt8 → String → Bool} {ctx : VoteContext}

/-- A precommit that the verifier takes. -/
def IsPrecommit (verify : String → List UInt8 → String → Bool) (ctx : VoteContext)
    (v : VoteMessage) : Prop :=
  v.voteType = precommit ∧ ∃ stake, validateVote verify v ctx = .ok stake

theorem IsPrecommit.eligible {v : VoteMessage} (h : IsPrecommit verify ctx v) :
    ∃ stake, ctx.validators.stakeOf v.voterPubKey = some stake := by
  obtain ⟨htype, stake, hstake⟩ := h
  exact ⟨stake, (validateVote_eq_ok hstake htype).1⟩

theorem addStakes_eq {votes : List VoteMessage} {start : U128}
    (heligible : ∀ v ∈ votes, ∃ stake, ctx.validators.stakeOf v.voterPubKey = some stake)
    (hfits : start.toNat + (votes.map fun v => ctx.validators.weight v.voterPubKey).sum < 2 ^ 128) :
    VoteBook.addStakes ctx votes start = some (BitVec.ofNat 128
      (start.toNat + (votes.map fun v => ctx.validators.weight v.voterPubKey).sum)) := by
  induction votes generalizing start with
  | nil =>
    refine congrArg some (BitVec.eq_of_toNat_eq ?_)
    rw [List.map_nil, List.sum_nil, Nat.add_zero, BitVec.ofNat_toNat, BitVec.setWidth_eq]
  | cons v votes ih =>
    obtain ⟨stake, hstake⟩ := heligible v List.mem_cons_self
    rw [List.map_cons, List.sum_cons, ValidatorSetSnapshot.weight_of_stakeOf hstake,
      ← Nat.add_assoc] at hfits ⊢
    have hnext : start.toNat + stake.toNat < 2 ^ 128 := by omega
    have hval : (BitVec.ofNat 128 (start.toNat + stake.toNat)).toNat = start.toNat + stake.toNat := by
      rw [BitVec.toNat_ofNat, Nat.mod_eq_of_lt hnext]
    have htail := @ih (BitVec.ofNat 128 (start.toNat + stake.toNat))
      (fun u hu => heligible u (List.mem_cons_of_mem _ hu)) (by rwa [hval])
    rw [hval] at htail
    rw [← htail, VoteBook.addStakes, List.foldlM_cons]
    simp only [hstake, Option.bind_eq_bind, Option.bind_some, U128.checkedAdd_of_lt hnext]
    rfl

/-- Valid precommits of different voters are all counted. -/
theorem countVotes_of_valid {votes : List VoteMessage} {voters : Finset String} {voting : U128}
    (hvalid : ∀ v ∈ votes, IsPrecommit verify ctx v)
    (hnodup : (votes.map VoteMessage.voterPubKey).Nodup)
    (hnew : ∀ v ∈ votes, v.voterPubKey ∉ voters)
    (hfits : voting.toNat + (votes.map fun v => ctx.validators.weight v.voterPubKey).sum < 2 ^ 128) :
    ∃ voters', countVotes verify ctx votes voters voting = .ok (voters', BitVec.ofNat 128
      (voting.toNat + (votes.map fun v => ctx.validators.weight v.voterPubKey).sum)) := by
  induction votes generalizing voters voting with
  | nil =>
    refine ⟨voters, congrArg (fun s => Except.ok (voters, s)) (BitVec.eq_of_toNat_eq ?_)⟩
    rw [List.map_nil, List.sum_nil, Nat.add_zero, BitVec.ofNat_toNat, BitVec.setWidth_eq]
  | cons v votes ih =>
    obtain ⟨htype, stake, hstake⟩ := hvalid v List.mem_cons_self
    rw [List.map_cons, List.nodup_cons] at hnodup
    rw [List.map_cons, List.sum_cons,
      ValidatorSetSnapshot.weight_of_stakeOf (validateVote_eq_ok hstake htype).1,
      ← Nat.add_assoc] at hfits ⊢
    have hnext : voting.toNat + stake.toNat < 2 ^ 128 := by omega
    have hval : (BitVec.ofNat 128 (voting.toNat + stake.toNat)).toNat =
        voting.toNat + stake.toNat := by
      rw [BitVec.toNat_ofNat, Nat.mod_eq_of_lt hnext]
    obtain ⟨voters', hcount⟩ := @ih (insert v.voterPubKey voters)
      (BitVec.ofNat 128 (voting.toNat + stake.toNat))
      (fun u hu => hvalid u (List.mem_cons_of_mem _ hu)) hnodup.2 (fun u hu => by
        rw [Finset.mem_insert, not_or]
        refine ⟨fun heq => hnodup.1 ?_, hnew u (List.mem_cons_of_mem _ hu)⟩
        exact heq ▸ List.mem_map_of_mem hu) (by rwa [hval])
    rw [hval] at hcount
    refine ⟨voters', ?_⟩
    rw [← hcount, countVotes]
    simp only [require, htype, if_true, hstake, ok_bind,
      hnew v List.mem_cons_self, not_false_eq_true, U128.checkedAdd_of_lt hnext,
      ofOption_some]

end Counting

/-! ## What the book holds -/

section Book

variable {verify : String → List UInt8 → String → Bool} {ctx : VoteContext}

namespace VoteBook

variable {book : VoteBook} {votes : List VoteMessage}

/-- The book holds a vote for each voter and type that a valid one of the votes has, and it is one
    of them. -/
structure Records (verify : String → List UInt8 → String → Bool) (ctx : VoteContext)
    (book : VoteBook) (votes : List VoteMessage) : Prop where
  height : book.height = ctx.height
  recorded : ∀ k t v, book.votes[(k, t)]? = some v →
    v.voterPubKey = k ∧ v.voteType = t ∧ v ∈ votes ∧ ∃ stake, validateVote verify v ctx = .ok stake
  complete : ∀ v ∈ votes, (∃ stake, validateVote verify v ctx = .ok stake) →
    (v.voterPubKey, v.voteType) ∈ book.votes

theorem Records.new : Records verify ctx (VoteBook.new ctx.height) [] where
  height := rfl
  recorded k t v h := by
    rw [VoteBook.new, ExtTreeMap.getElem?_empty] at h
    cases h
  complete v hv := by cases hv

/-- A refused vote is one that is not valid. -/
theorem step_eq (h : book.height = ctx.height) (v : VoteMessage) :
    book.step verify ctx v = match validateVote verify v ctx with
      | .error _ => book
      | .ok _ => if (v.voterPubKey, v.voteType) ∈ book.votes then book
        else { book with votes := book.votes.insert (v.voterPubKey, v.voteType) v } := by
  rw [step, submit, h, require, if_pos rfl, ok_bind]
  cases validateVote verify v ctx with
  | error e => rfl
  | ok stake =>
    rw [ok_bind]
    by_cases hmem : (v.voterPubKey, v.voteType) ∈ book.votes
    · simp only [if_pos hmem]
      rfl
    · simp only [if_neg hmem]
      rfl

theorem Records.step (h : Records verify ctx book votes) (v : VoteMessage) :
    Records verify ctx (book.step verify ctx v) (votes ++ [v]) := by
  rw [step_eq h.height]
  -- what was recorded before still is one of the votes
  have hold (k t : String) (u : VoteMessage) (hu : book.votes[(k, t)]? = some u) :
      u.voterPubKey = k ∧ u.voteType = t ∧ u ∈ votes ++ [v] ∧
        ∃ stake, validateVote verify u ctx = .ok stake := by
    obtain ⟨hkey, htype, hmem, hvalid⟩ := h.recorded k t u hu
    exact ⟨hkey, htype, List.mem_append_left _ hmem, hvalid⟩
  cases hvalid : validateVote verify v ctx with
  | error e =>
    refine ⟨h.height, hold, fun u hu hstake => ?_⟩
    rcases List.mem_append.1 hu with hu | hu
    · exact h.complete u hu hstake
    · obtain ⟨stake, hstake⟩ := hstake
      rw [List.mem_singleton.1 hu, hvalid] at hstake
      cases hstake
  | ok stake =>
    by_cases hmem : (v.voterPubKey, v.voteType) ∈ book.votes
    · rw [if_pos hmem]
      refine ⟨h.height, hold, fun u hu hstake => ?_⟩
      rcases List.mem_append.1 hu with hu | hu
      · exact h.complete u hu hstake
      · rwa [List.mem_singleton.1 hu]
    · rw [if_neg hmem]
      refine ⟨h.height, fun k t u hu => ?_, fun u hu hstake => ?_⟩
      · rw [getElem?_insert_eq] at hu
        split at hu
        next heq =>
          obtain rfl := Option.some.inj hu
          obtain ⟨rfl, rfl⟩ := Prod.mk.inj heq
          exact ⟨rfl, rfl, List.mem_append_right _ List.mem_cons_self, stake, hvalid⟩
        · exact hold k t u hu
      · rw [mem_insert_eq]
        rcases List.mem_append.1 hu with hu | hu
        · exact .inr (h.complete u hu hstake)
        · exact .inl (by rw [List.mem_singleton.1 hu])

/-- What the book holds after any votes. -/
theorem Records.submitAll (verify : String → List UInt8 → String → Bool) (ctx : VoteContext)
    (votes : List VoteMessage) : Records verify ctx ((VoteBook.new ctx.height).submitAll verify ctx votes) votes := by
  induction votes using List.reverseRecOn with
  | nil => exact Records.new
  | append_singleton votes v ih =>
    rw [VoteBook.submitAll, Runs.run_append]
    exact ih.step v

end VoteBook

/-- The voters whose valid precommits are among the votes. -/
def precommitters (verify : String → List UInt8 → String → Bool) (ctx : VoteContext)
    (votes : List VoteMessage) : Finset String :=
  ((votes.filter fun v => v.voteType = precommit ∧ (validateVote verify v ctx).isOk = true).map
    VoteMessage.voterPubKey).toFinset

/-- The voters hold a quorum of the stake. -/
def ValidatorSetSnapshot.Reached (set : ValidatorSetSnapshot) (voters : Finset String) : Prop :=
  ∃ q, set.quorum = some q ∧ q.toNat ≤ ∑ k ∈ voters, set.weight k

theorem isOk_iff {ε α : Type} {x : Except ε α} : x.isOk = true ↔ ∃ a, x = .ok a := by
  cases x with
  | error e => exact ⟨(fun h => nomatch h), fun ⟨_, h⟩ => nomatch h⟩
  | ok a => exact ⟨fun _ => ⟨a, rfl⟩, fun _ => rfl⟩

theorem mem_precommitters {votes : List VoteMessage} {k : String} :
    k ∈ precommitters verify ctx votes ↔ ∃ v ∈ votes, IsPrecommit verify ctx v ∧
      v.voterPubKey = k := by
  rw [precommitters, List.mem_toFinset, List.mem_map]
  constructor
  · rintro ⟨v, hv, rfl⟩
    rw [List.mem_filter, decide_eq_true_eq] at hv
    exact ⟨v, hv.1, ⟨hv.2.1, isOk_iff.1 hv.2.2⟩, rfl⟩
  · rintro ⟨v, hv, ⟨htype, hstake⟩, rfl⟩
    refine ⟨v, List.mem_filter.2 ⟨hv, ?_⟩, rfl⟩
    exact decide_eq_true ⟨htype, isOk_iff.2 hstake⟩

theorem precommitters_subset (verify : String → List UInt8 → String → Bool) (ctx : VoteContext)
    (votes : List VoteMessage) : precommitters verify ctx votes ⊆ ctx.validators.members := by
  intro k hk
  obtain ⟨v, -, hv, rfl⟩ := mem_precommitters.1 hk
  obtain ⟨stake, hstake⟩ := hv.eligible
  exact ValidatorSetSnapshot.mem_members hstake

namespace VoteBook.Records

variable {book : VoteBook} {votes : List VoteMessage}

theorem mem_precommits (h : Records verify ctx book votes) {v : VoteMessage}
    (hv : v ∈ book.precommits) :
    book.votes[(v.voterPubKey, precommit)]? = some v ∧ IsPrecommit verify ctx v ∧ v ∈ votes := by
  rw [precommits, List.mem_map] at hv
  obtain ⟨⟨⟨k, t⟩, u⟩, hmem, rfl⟩ := hv
  rw [List.mem_filter, decide_eq_true_eq, ExtTreeMap.mem_toList_iff_getElem?_eq_some] at hmem
  obtain ⟨hentry, rfl⟩ := hmem
  obtain ⟨rfl, htype, hvote, hvalid⟩ := h.recorded k precommit u hentry
  exact ⟨hentry, ⟨htype, hvalid⟩, hvote⟩

/-- Each voter has one precommit in the book. -/
theorem nodup_precommits (h : Records verify ctx book votes) :
    (book.precommits.map VoteMessage.voterPubKey).Nodup := by
  rw [precommits, List.map_map]
  refine List.Nodup.map_on ?_ ((nodup_toList book.votes).filter _)
  rintro ⟨⟨k, t⟩, u⟩ hu ⟨⟨k', t'⟩, u'⟩ hu' heq
  rw [List.mem_filter, decide_eq_true_eq, ExtTreeMap.mem_toList_iff_getElem?_eq_some] at hu hu'
  obtain ⟨hentry, rfl⟩ := hu
  obtain ⟨hentry', rfl⟩ := hu'
  -- the key of an entry is the voter of its vote
  obtain ⟨rfl, -⟩ := h.recorded k _ u hentry
  obtain ⟨rfl, -⟩ := h.recorded k' _ u' hentry'
  change u.voterPubKey = u'.voterPubKey at heq
  rw [heq, hentry'] at hentry
  rw [heq, Option.some.inj hentry]

theorem toFinset_precommits (h : Records verify ctx book votes) :
    (book.precommits.map VoteMessage.voterPubKey).toFinset = precommitters verify ctx votes := by
  ext k
  rw [List.mem_toFinset, List.mem_map, mem_precommitters]
  constructor
  · rintro ⟨v, hv, rfl⟩
    obtain ⟨-, hvalid, hmem⟩ := h.mem_precommits hv
    exact ⟨v, hmem, hvalid, rfl⟩
  · rintro ⟨v, hv, hvalid, rfl⟩
    -- the recorded vote may be another one of the same voter
    have hmem := h.complete v hv hvalid.2
    rw [hvalid.1, ExtTreeMap.mem_iff_isSome_getElem?, Option.isSome_iff_exists] at hmem
    obtain ⟨u, hu⟩ := hmem
    refine ⟨u, ?_, (h.recorded _ _ u hu).1⟩
    refine List.mem_map.2 ⟨((v.voterPubKey, precommit), u), List.mem_filter.2 ⟨?_, by simp⟩, rfl⟩
    exact ExtTreeMap.mem_toList_iff_getElem?_eq_some.2 hu

theorem length_precommits (h : Records verify ctx book votes) :
    book.precommits.length = (precommitters verify ctx votes).card := by
  rw [← h.toFinset_precommits, List.toFinset_card_of_nodup h.nodup_precommits, List.length_map]

theorem sum_precommits (h : Records verify ctx book votes) :
    (book.precommits.map fun v => ctx.validators.weight v.voterPubKey).sum =
      ∑ k ∈ precommitters verify ctx votes, ctx.validators.weight k := by
  rw [← h.toFinset_precommits, List.sum_toFinset _ h.nodup_precommits, List.map_map]
  rfl

/-- What the builder counts is the stake of the precommitters. -/
theorem addStakes_precommits (h : Records verify ctx book votes) {q : U128}
    (hq : ctx.validators.quorum = some q) :
    ∃ voting, addStakes ctx book.precommits 0 = some voting ∧
      voting.toNat = ∑ k ∈ precommitters verify ctx votes, ctx.validators.weight k := by
  have hsum := h.sum_precommits
  have hlt := ValidatorSetSnapshot.sum_weight_lt hq (precommitters_subset verify ctx votes)
  have hzero : (0 : U128).toNat = 0 := rfl
  refine ⟨_, addStakes_eq (fun v hv => (h.mem_precommits hv).2.1.eligible) ?_, ?_⟩
  · rw [hzero, Nat.zero_add, hsum]
    exact hlt
  · rw [hzero, Nat.zero_add, hsum, BitVec.toNat_ofNat, Nat.mod_eq_of_lt hlt]

/-- The stored hash is well formed once somebody has precommitted it. -/
theorem isHash_of_reached {q : U128} (hq : ctx.validators.quorum = some q)
    (hreached : q.toNat ≤ ∑ k ∈ precommitters verify ctx votes, ctx.validators.weight k) :
    isHash ctx.storedBlockHash = true := by
  have hpos := ValidatorSetSnapshot.quorum_pos hq
  obtain ⟨k, hk⟩ : (precommitters verify ctx votes).Nonempty := by
    rw [Finset.nonempty_iff_ne_empty]
    intro hempty
    rw [hempty, Finset.sum_empty] at hreached
    exact absurd hreached (Nat.not_le.2 hpos)
  obtain ⟨v, -, ⟨htype, stake, hstake⟩, -⟩ := mem_precommitters.1 hk
  exact (validateVote_eq_ok hstake htype).2.hash

/-- The verifier takes the proof that was built, if it is not too long. -/
theorem verify_precommits (h : Records verify ctx book votes) {q total voting : U128}
    (hq : ctx.validators.quorum = some q) (htotal : ctx.validators.totalStake = some total)
    (hvoting : voting.toNat = ∑ k ∈ precommitters verify ctx votes, ctx.validators.weight k)
    (hreached : q ≤ voting) (createdAt : UInt64) :
    let proof : FinalityProof := ⟨ctx.height, ctx.storedBlockHash, total, voting, q,
      book.precommits, createdAt⟩
    if (precommitters verify ctx votes).card ≤ maxProofVotes
    then ∃ r, verifyFinalityProof verify proof ctx = .ok r
    else verifyFinalityProof verify proof ctx = .error .tooManyVotes := by
  have hhash : isHash ctx.storedBlockHash = true :=
    isHash_of_reached hq (hvoting ▸ BitVec.le_def.1 hreached)
  have hsize : book.precommits.length ≤ ctx.validators.stakes.size := by
    rw [h.length_precommits, ← ValidatorSetSnapshot.card_members]
    exact Finset.card_le_card (precommitters_subset verify ctx votes)
  split
  next hfew =>
    rw [← h.length_precommits] at hfew
    have hzero : (0 : U128).toNat = 0 := rfl
    have hfits : (0 : U128).toNat +
        (book.precommits.map fun v => ctx.validators.weight v.voterPubKey).sum < 2 ^ 128 := by
      rw [hzero, Nat.zero_add, h.sum_precommits, ← hvoting]
      exact voting.isLt
    obtain ⟨voters, hcount⟩ := countVotes_of_valid (fun v hv => (h.mem_precommits hv).2.1)
      h.nodup_precommits (fun v _ => Finset.notMem_empty v.voterPubKey) hfits
    rw [hzero, Nat.zero_add, h.sum_precommits, ← hvoting, BitVec.ofNat_toNat,
      BitVec.setWidth_eq] at hcount
    refine ⟨⟨ctx.height, ctx.storedBlockHash, voting, total, q, voters⟩, ?_⟩
    simp only [verifyFinalityProof, require, hhash, hfew, hsize, htotal, hq, hcount,
      hreached, ofOption_some, ok_bind, and_self, if_true]
    rfl
  next hmany =>
    rw [← h.length_precommits] at hmany
    simp only [verifyFinalityProof, require, hhash, hmany, false_and, if_true, if_false,
      ok_bind, error_bind]

theorem buildProof_of_none (verify : String → List UInt8 → String → Bool) (book : VoteBook)
    (hq : ctx.validators.quorum = none) (createdAt : UInt64) :
    book.buildProof verify ctx createdAt = .error .emptyValidatorSet := by
  rw [buildProof, hq, ofOption_none, error_bind]

theorem buildProof_of_short (h : Records verify ctx book votes) {q : U128}
    (hq : ctx.validators.quorum = some q)
    (hshort : ∑ k ∈ precommitters verify ctx votes, ctx.validators.weight k < q.toNat)
    (createdAt : UInt64) : book.buildProof verify ctx createdAt = .ok none := by
  obtain ⟨total, htotal⟩ := ValidatorSetSnapshot.exists_totalStake hq
  obtain ⟨voting, hadd, hvoting⟩ := h.addStakes_precommits hq
  have hlt : voting < q := BitVec.lt_def.2 (hvoting ▸ hshort)
  simp only [buildProof, hq, htotal, hadd, ofOption_some, ok_bind, if_pos hlt]
  rfl

theorem buildProof_of_reached (h : Records verify ctx book votes) {q : U128}
    (hq : ctx.validators.quorum = some q)
    (hreached : q.toNat ≤ ∑ k ∈ precommitters verify ctx votes, ctx.validators.weight k)
    (createdAt : UInt64) :
    if (precommitters verify ctx votes).card ≤ maxProofVotes
    then ∃ proof r, book.buildProof verify ctx createdAt = .ok (some proof) ∧
      verifyFinalityProof verify proof ctx = .ok r
    else book.buildProof verify ctx createdAt = .error .tooManyVotes := by
  obtain ⟨total, htotal⟩ := ValidatorSetSnapshot.exists_totalStake hq
  obtain ⟨voting, hadd, hvoting⟩ := h.addStakes_precommits hq
  have hle : q ≤ voting := BitVec.le_def.2 (hvoting ▸ hreached)
  have hverify := h.verify_precommits hq htotal hvoting hle createdAt
  split
  next hfew =>
    obtain ⟨r, hr⟩ := (if_pos hfew).mp hverify
    refine ⟨_, r, ?_, hr⟩
    simp only [buildProof, hq, htotal, hadd, ofOption_some, ok_bind,
      if_neg (BitVec.not_lt.2 hle), hr]
    rfl
  next hmany =>
    have herror := (if_neg hmany).mp hverify
    simp only [buildProof, hq, htotal, hadd, ofOption_some, ok_bind,
      if_neg (BitVec.not_lt.2 hle), herror, error_bind]

end VoteBook.Records

/-- After any votes, in any order: a quorum of valid precommits gives a proof that the verifier
    accepts and less gives none, if and only if the validators have a quorum (there are some, and
    twice their stake fits its type) and no more than 1024 of them reach it together. -/
theorem buildProof_complete_iff (verify : String → List UInt8 → String → Bool) (ctx : VoteContext)
    (votes : List VoteMessage) (createdAt : UInt64) :
    ((ctx.validators.Reached (precommitters verify ctx votes) →
        ∃ proof r, ((VoteBook.new ctx.height).submitAll verify ctx votes).buildProof verify ctx
            createdAt = .ok (some proof) ∧ verifyFinalityProof verify proof ctx = .ok r) ∧
      (¬ctx.validators.Reached (precommitters verify ctx votes) →
        ((VoteBook.new ctx.height).submitAll verify ctx votes).buildProof verify ctx createdAt =
          .ok none)) ↔
    (∃ q, ctx.validators.quorum = some q) ∧
      (ctx.validators.Reached (precommitters verify ctx votes) →
        (precommitters verify ctx votes).card ≤ maxProofVotes) := by
  have hrecords := VoteBook.Records.submitAll verify ctx votes
  constructor
  · rintro ⟨hreached, hshort⟩
    cases hq : ctx.validators.quorum with
    | none =>
      have herror := VoteBook.Records.buildProof_of_none verify
        ((VoteBook.new ctx.height).submitAll verify ctx votes) hq createdAt
      have hnot : ¬ctx.validators.Reached (precommitters verify ctx votes) := by
        rintro ⟨q, hq', -⟩
        rw [hq] at hq'
        cases hq'
      rw [hshort hnot] at herror
      cases herror
    | some q =>
      refine ⟨⟨q, rfl⟩, fun hr => ?_⟩
      obtain ⟨q', hq', hle⟩ := hr
      by_contra hmany
      have herror := (if_neg hmany).mp (hrecords.buildProof_of_reached hq' hle createdAt)
      obtain ⟨proof, r, hproof, -⟩ := hreached ⟨q', hq', hle⟩
      rw [hproof] at herror
      cases herror
  · rintro ⟨⟨q, hq⟩, hfew⟩
    refine ⟨fun hr => ?_, fun hnot => ?_⟩
    · obtain ⟨q', hq', hle⟩ := hr
      exact (if_pos (hfew ⟨q', hq', hle⟩)).mp (hrecords.buildProof_of_reached hq' hle createdAt)
    · refine hrecords.buildProof_of_short hq ?_ createdAt
      by_contra hle
      exact hnot ⟨q, hq, Nat.le_of_not_lt hle⟩

end Book

/-! ## A crowd of validators -/

def crowdKey (i : ℕ) : String := .ofList (Nat.toDigits 10 i)

theorem crowdKey_injective : Function.Injective crowdKey := fun _ _ h =>
  Text.toDigits_injective (String.ofList_injective h)

/-- Validators with a stake of one each. -/
def crowdStakes : ℕ → ExtTreeMap String U128
  | 0 => ∅
  | n + 1 => (crowdStakes n).insert (crowdKey n) 1

theorem getElem?_crowdStakes {n : ℕ} {k : String} {s : U128} :
    (crowdStakes n)[k]? = some s ↔ s = 1 ∧ ∃ i < n, crowdKey i = k := by
  induction n with
  | zero =>
    rw [crowdStakes, ExtTreeMap.getElem?_empty]
    simp
  | succ n ih =>
    rw [crowdStakes, getElem?_insert_eq]
    by_cases hk : crowdKey n = k
    · rw [if_pos hk]
      constructor
      · intro h
        exact ⟨(Option.some.inj h).symm, n, Nat.lt_succ_self n, hk⟩
      · rintro ⟨rfl, -⟩
        rfl
    · rw [if_neg hk, ih]
      refine and_congr_right fun _ => ⟨?_, ?_⟩
      · rintro ⟨i, hi, hik⟩
        exact ⟨i, Nat.lt_succ_of_lt hi, hik⟩
      · rintro ⟨i, hi, hik⟩
        refine ⟨i, Nat.lt_of_le_of_ne (Nat.le_of_lt_succ hi) ?_, hik⟩
        rintro rfl
        exact hk hik

def crowdContext (n : ℕ) : VoteContext where
  chainId := sampleIntent.chainId
  height := 7
  storedBlockHash := sampleIntent.blockHash
  validators := {
    height := 7
    stakes := crowdStakes n
    stakes_ne_zero := by
      intro k s h
      rw [(getElem?_crowdStakes.1 h).1]
      decide }

/-- Each of them precommits the stored block. -/
def crowdVotes (n : ℕ) : List VoteMessage :=
  (List.range n).map fun i => ⟨precommit, 7, onlyRound, sampleIntent.blockHash, crowdKey i, "s"⟩

theorem stakeOf_crowd {n i : ℕ} (hi : i < n) :
    (crowdContext n).validators.stakeOf (crowdKey i) = some 1 :=
  getElem?_crowdStakes.2 ⟨rfl, i, hi, rfl⟩

theorem members_crowd (n : ℕ) :
    (crowdContext n).validators.members = (Finset.range n).image crowdKey := by
  ext k
  rw [ValidatorSetSnapshot.members, List.mem_toFinset, List.mem_map, Finset.mem_image]
  constructor
  · rintro ⟨⟨k, s⟩, hmem, rfl⟩
    obtain ⟨-, i, hi, hik⟩ :=
      getElem?_crowdStakes.1 (ExtTreeMap.mem_toList_iff_getElem?_eq_some.1 hmem)
    exact ⟨i, Finset.mem_range.2 hi, hik⟩
  · rintro ⟨i, hi, rfl⟩
    exact ⟨(crowdKey i, 1), ExtTreeMap.mem_toList_iff_getElem?_eq_some.2
      (stakeOf_crowd (Finset.mem_range.1 hi)), rfl⟩

theorem sum_crowd (n : ℕ) :
    ∑ k ∈ (crowdContext n).validators.members, (crowdContext n).validators.weight k = n := by
  rw [members_crowd, Finset.sum_image (crowdKey_injective.injOn)]
  calc ∑ i ∈ Finset.range n, (crowdContext n).validators.weight (crowdKey i)
      = ∑ i ∈ Finset.range n, 1 := Finset.sum_congr rfl fun i hi =>
        ValidatorSetSnapshot.weight_of_stakeOf (stakeOf_crowd (Finset.mem_range.1 hi))
    _ = n := by rw [Finset.sum_const, Finset.card_range, Nat.nsmul_eq_mul, Nat.mul_one]

/-- A library that takes every signature. -/
def acceptAll (_ : String) (_ : List UInt8) (_ : String) : Bool := true

theorem precommitters_crowd (n : ℕ) :
    precommitters acceptAll (crowdContext n) (crowdVotes n) =
      (crowdContext n).validators.members := by
  refine Finset.Subset.antisymm (precommitters_subset ..) fun k hk => ?_
  rw [members_crowd, Finset.mem_image] at hk
  obtain ⟨i, hi, rfl⟩ := hk
  rw [mem_precommitters]
  refine ⟨_, List.mem_map.2 ⟨i, List.mem_range.2 (Finset.mem_range.1 hi), rfl⟩, ⟨rfl, 1, ?_⟩, rfl⟩
  have hhash : isHash sampleIntent.blockHash = true := by decide +kernel
  have hstake := stakeOf_crowd (Finset.mem_range.1 hi)
  simp only [validateVote, require, crowdContext, acceptAll, hhash, or_true,
    and_self, if_true, ok_bind]
  simp only [crowdContext] at hstake
  rw [hstake]
  rfl

/-- What becomes of the votes of a crowd that is too large for a proof. -/
theorem buildProof_crowd {n : ℕ} (hmany : maxProofVotes < n) (hfits : 2 * n < 2 ^ 128) :
    (crowdContext n).validators.Reached (precommitters acceptAll (crowdContext n) (crowdVotes n)) ∧
      ((VoteBook.new (crowdContext n).height).submitAll acceptAll (crowdContext n)
        (crowdVotes n)).buildProof acceptAll (crowdContext n) 0 = .error .tooManyVotes := by
  have hsum := sum_crowd n
  have hpos : 0 < ∑ k ∈ (crowdContext n).validators.members,
      (crowdContext n).validators.weight k := by
    rw [hsum]
    exact Nat.lt_of_le_of_lt (Nat.zero_le _) hmany
  obtain ⟨q, hq, hval⟩ := ValidatorSetSnapshot.exists_quorum hpos (by rwa [hsum])
  have hreached : q.toNat ≤ ∑ k ∈ precommitters acceptAll (crowdContext n) (crowdVotes n),
      (crowdContext n).validators.weight k := by
    rw [precommitters_crowd, hval, hsum]
    rw [maxProofVotes] at hmany
    omega
  refine ⟨⟨q, hq, hreached⟩, ?_⟩
  have hcard : ¬(precommitters acceptAll (crowdContext n) (crowdVotes n)).card ≤ maxProofVotes := by
    rw [precommitters_crowd, members_crowd, Finset.card_image_of_injective _ crowdKey_injective,
      Finset.card_range]
    exact Nat.not_le.2 hmany
  have hrecords := VoteBook.Records.submitAll acceptAll (crowdContext n) (crowdVotes n)
  exact (if_neg hcard).mp (hrecords.buildProof_of_reached hq hreached 0)

/-- A thousand and twenty-five validators of equal stake all precommit, and no proof comes of it. -/
theorem crowd_gets_no_proof :
    (crowdContext 1025).validators.Reached
        (precommitters acceptAll (crowdContext 1025) (crowdVotes 1025)) ∧
      ((VoteBook.new (crowdContext 1025).height).submitAll acceptAll (crowdContext 1025)
        (crowdVotes 1025)).buildProof acceptAll (crowdContext 1025) 0 = .error .tooManyVotes :=
  buildProof_crowd (by rw [maxProofVotes]; omega) (by omega)

end RougeChain.Finality
