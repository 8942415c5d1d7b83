import RougeChain.Finality.Journal

/-!
# Finality proofs

A block is final when validators with more than two thirds of the stake have precommitted it. The
verifier trusts nothing a proof claims: it counts the stake of the signers again, from the votes
and from the validators it knows for the height.

* `verifyFinalityProof_spec`: what an accepted proof consists of;
* `shared_stake`: two accepted proofs for one height share signers with more than a third of the
  stake;
* `finality_safety`: so no two accepted proofs for one height name different blocks, if all but a
  third of the stake signs only through the journal.
-/

open Fallible

namespace RougeChain.Finality

open Node
open Std (ExtTreeMap)

/-! ## Validators and their stake -/

def U128.checkedAdd (a b : U128) : Option U128 :=
  if a.toNat + b.toNat < 2 ^ 128 then some (a + b) else none

def U128.checkedMul (a b : U128) : Option U128 :=
  if a.toNat * b.toNat < 2 ^ 128 then some (a * b) else none

/-- The validators that count at one height; none has no stake. -/
structure ValidatorSetSnapshot where
  height : UInt64
  stakes : ExtTreeMap String U128
  stakes_ne_zero : ∀ (k : String) (s : U128), stakes[k]? = some s → s ≠ 0

namespace ValidatorSetSnapshot

variable (set : ValidatorSetSnapshot)

def stakeOf (pubKey : String) : Option U128 := set.stakes[pubKey]?

def totalStake : Option U128 :=
  set.stakes.toList.foldlM (fun total entry => U128.checkedAdd total entry.2) 0

/-- Two thirds of the stake, and one more. -/
def quorum : Option U128 := do
  let total ← set.totalStake
  if total = 0 then none
  else do
    let doubled ← U128.checkedMul total 2
    U128.checkedAdd (doubled / 3) 1

end ValidatorSetSnapshot

/-! ## Votes and proofs -/

inductive FinalityError where
  | badVoteType
  | wrongRound (round : UInt32)
  | wrongHeight (expected got : UInt64)
  | malformedBlockHash
  | blockHashMismatch
  | snapshotHeightMismatch (snapshot height : UInt64)
  | unknownOrIneligibleValidator
  | badSignature
  | emptyValidatorSet
  | stakeOverflow
  | proofHeightMismatch
  | proofBlockHashMismatch
  | tooManyVotes
  | nonPrecommitInProof
  | duplicateVoterInProof
  | belowQuorum (votingStake quorum : U128)
  | aggregateClaimMismatch (field : String)
  deriving DecidableEq

/-- What a vote is validated against, none of it taken from the vote. -/
structure VoteContext where
  chainId : String
  height : UInt64
  storedBlockHash : String
  validators : ValidatorSetSnapshot

def maxProofVotes : ℕ := 1024

structure VerifiedFinality where
  height : UInt64
  blockHash : String
  votingStake : U128
  totalStake : U128
  quorum : U128
  voters : Finset String
  deriving DecidableEq

section Verifier

-- `verify key message signature`, as the signature library answers it
variable (verify : String → List UInt8 → String → Bool)

/-- The stake of the voter, if the vote is valid. -/
def validateVote (vote : VoteMessage) (ctx : VoteContext) : Except FinalityError U128 := do
  require (vote.voteType = prevote ∨ vote.voteType = precommit) .badVoteType
  require (vote.round = onlyRound) (.wrongRound vote.round)
  require (vote.height = ctx.height) (.wrongHeight ctx.height vote.height)
  require (ctx.validators.height = ctx.height)
    (.snapshotHeightMismatch ctx.validators.height ctx.height)
  require (isHash vote.blockHash = true ∧ isHash ctx.storedBlockHash = true)
    .malformedBlockHash
  require (vote.blockHash = ctx.storedBlockHash) .blockHashMismatch
  let stake ← ofOption .unknownOrIneligibleValidator
    (ctx.validators.stakeOf vote.voterPubKey)
  let msg := voteSigningMessage ctx.chainId vote.voteType vote.height vote.round vote.blockHash
  require (verify vote.voterPubKey msg vote.signature = true) .badSignature
  return stake

/-- The loop over the votes of a proof. -/
def countVotes (ctx : VoteContext) : List VoteMessage → Finset String → U128 →
    Except FinalityError (Finset String × U128)
  | [], voters, voting => .ok (voters, voting)
  | v :: votes, voters, voting => do
    require (v.voteType = precommit) .nonPrecommitInProof
    let stake ← validateVote verify v ctx
    require (v.voterPubKey ∉ voters) .duplicateVoterInProof
    let voting ← ofOption .stakeOverflow (U128.checkedAdd voting stake)
    countVotes ctx votes (insert v.voterPubKey voters) voting

def verifyFinalityProof (proof : FinalityProof) (ctx : VoteContext) :
    Except FinalityError VerifiedFinality := do
  require (proof.height = ctx.height) .proofHeightMismatch
  require (isHash proof.blockHash = true) .malformedBlockHash
  require (proof.blockHash = ctx.storedBlockHash) .proofBlockHashMismatch
  require (proof.precommitVotes.length ≤ maxProofVotes ∧
    proof.precommitVotes.length ≤ ctx.validators.stakes.size) .tooManyVotes
  let total ← ofOption .stakeOverflow ctx.validators.totalStake
  let quorum ← ofOption .emptyValidatorSet ctx.validators.quorum
  let (voters, voting) ← countVotes verify ctx proof.precommitVotes ∅ 0
  require (quorum ≤ voting) (.belowQuorum voting quorum)
  require (proof.votingStake = voting) (.aggregateClaimMismatch "voting_stake")
  require (proof.totalStake = total) (.aggregateClaimMismatch "total_stake")
  require (proof.quorumThreshold = quorum) (.aggregateClaimMismatch "quorum_threshold")
  return {
    height := proof.height
    blockHash := proof.blockHash
    votingStake := voting
    totalStake := total
    quorum
    voters }

end Verifier

/-! ## Stake as a number -/

theorem U128.checkedAdd_eq_some {a b c : U128} (h : U128.checkedAdd a b = some c) :
    c.toNat = a.toNat + b.toNat := by
  rw [U128.checkedAdd] at h
  split at h
  next hlt => rw [← Option.some.inj h, BitVec.toNat_add, Nat.mod_eq_of_lt hlt]
  · cases h

theorem U128.checkedMul_eq_some {a b c : U128} (h : U128.checkedMul a b = some c) :
    c.toNat = a.toNat * b.toNat := by
  rw [U128.checkedMul] at h
  split at h
  next hlt => rw [← Option.some.inj h, BitVec.toNat_mul, Nat.mod_eq_of_lt hlt]
  · cases h

namespace ValidatorSetSnapshot

variable {set : ValidatorSetSnapshot}

/-- The stake of a key, zero if it is no validator. -/
def weight (set : ValidatorSetSnapshot) (k : String) : ℕ := ((set.stakeOf k).map BitVec.toNat).getD 0

def members (set : ValidatorSetSnapshot) : Finset String := (set.stakes.toList.map Prod.fst).toFinset

theorem weight_of_stakeOf {k : String} {s : U128} (h : set.stakeOf k = some s) :
    set.weight k = s.toNat := by
  rw [weight, h]
  rfl

theorem mem_members {k : String} {s : U128} (h : set.stakeOf k = some s) : k ∈ set.members := by
  rw [members, List.mem_toFinset, List.mem_map]
  exact ⟨(k, s), ExtTreeMap.mem_toList_iff_getElem?_eq_some.2 h, rfl⟩

theorem nodup_keys (set : ValidatorSetSnapshot) : (set.stakes.toList.map Prod.fst).Nodup := by
  refine List.Pairwise.map _ (fun a b h => ?_) set.stakes.distinct_keys_toList
  rintro hab
  exact h (compare_eq_iff_eq.2 hab)

theorem sum_foldlM {entries : List (String × U128)} {start total : U128}
    (h : entries.foldlM (fun total entry => U128.checkedAdd total entry.2) start = some total) :
    total.toNat = start.toNat + (entries.map fun e => e.2.toNat).sum := by
  induction entries generalizing start with
  | nil =>
    obtain rfl := Option.some.inj h
    rfl
  | cons e entries ih =>
    rw [List.foldlM_cons, Option.bind_eq_bind, Option.bind_eq_some_iff] at h
    obtain ⟨next, hnext, h⟩ := h
    rw [ih h, U128.checkedAdd_eq_some hnext, List.map_cons, List.sum_cons, Nat.add_assoc]

theorem totalStake_eq_some {total : U128} (h : set.totalStake = some total) :
    total.toNat = ∑ k ∈ set.members, set.weight k := by
  have hsum := sum_foldlM h
  rw [members, List.sum_toFinset _ set.nodup_keys, List.map_map, hsum]
  change 0 + _ = _
  rw [Nat.zero_add]
  refine congrArg List.sum (List.map_congr_left fun e he => ?_)
  exact (weight_of_stakeOf (ExtTreeMap.mem_toList_iff_getElem?_eq_some.1 he)).symm

theorem quorum_eq_some {total q : U128} (htotal : set.totalStake = some total)
    (hq : set.quorum = some q) : q.toNat = 2 * total.toNat / 3 + 1 := by
  rw [quorum, htotal, Option.bind_eq_bind, Option.bind_some] at hq
  split at hq
  · cases hq
  · obtain ⟨doubled, hdoubled, hq⟩ := Option.bind_eq_some_iff.1 hq
    rw [U128.checkedAdd_eq_some hq, BitVec.toNat_udiv, U128.checkedMul_eq_some hdoubled, Nat.mul_comm]
    rfl

/-- What two sets of validators share, at least. -/
theorem sum_inter {S S' : Finset String} (hS : S ⊆ set.members) (hS' : S' ⊆ set.members) :
    ∑ k ∈ S, set.weight k + ∑ k ∈ S', set.weight k ≤
      ∑ k ∈ set.members, set.weight k + ∑ k ∈ S ∩ S', set.weight k := by
  rw [← Finset.sum_union_inter]
  exact Nat.add_le_add_right (Finset.sum_le_sum_of_subset (Finset.union_subset hS hS')) _

end ValidatorSetSnapshot

/-! ## What an accepted proof consists of -/

section Accepted

variable {verify : String → List UInt8 → String → Bool} {ctx : VoteContext}

/-- A precommit of `k` for the stored block, with the signature that was checked. -/
structure Precommitted (verify : String → List UInt8 → String → Bool) (ctx : VoteContext)
    (k : String) : Prop where
  eligible : ∃ s, ctx.validators.stakeOf k = some s
  hash : isHash ctx.storedBlockHash = true
  signed : ∃ sig, verify k
    (voteSigningMessage ctx.chainId precommit ctx.height onlyRound ctx.storedBlockHash) sig = true

theorem validateVote_eq_ok {vote : VoteMessage} {stake : U128}
    (h : validateVote verify vote ctx = .ok stake) (htype : vote.voteType = precommit) :
    ctx.validators.stakeOf vote.voterPubKey = some stake ∧
      Precommitted verify ctx vote.voterPubKey := by
  obtain ⟨_, -, h⟩ := bind_eq_ok.1 h
  obtain ⟨_, hround, h⟩ := bind_eq_ok.1 h
  obtain ⟨_, hheight, h⟩ := bind_eq_ok.1 h
  obtain ⟨_, -, h⟩ := bind_eq_ok.1 h
  obtain ⟨_, hhash, h⟩ := bind_eq_ok.1 h
  obtain ⟨_, hblock, h⟩ := bind_eq_ok.1 h
  obtain ⟨s, hs, h⟩ := bind_eq_ok.1 h
  obtain ⟨_, hverify, h⟩ := bind_eq_ok.1 h
  rw [require_eq_ok] at hround hheight hhash hblock hverify
  rw [ofOption_eq_ok] at hs
  obtain rfl := Except.ok.inj h
  rw [htype, hround, hheight, hblock] at hverify
  exact ⟨hs, ⟨s, hs⟩, hhash.2, vote.signature, hverify⟩

/-- The loop counts each voter once, with its stake. -/
theorem countVotes_eq_ok {votes : List VoteMessage} {voters voters' : Finset String}
    {voting voting' : U128}
    (h : countVotes verify ctx votes voters voting = .ok (voters', voting'))
    (hvoters : ∀ k ∈ voters, Precommitted verify ctx k)
    (hvoting : voting.toNat = ∑ k ∈ voters, ctx.validators.weight k) :
    (∀ k ∈ voters', Precommitted verify ctx k) ∧
      voting'.toNat = ∑ k ∈ voters', ctx.validators.weight k := by
  induction votes generalizing voters voting with
  | nil =>
    obtain ⟨rfl, rfl⟩ := Prod.mk.inj (Except.ok.inj h)
    exact ⟨hvoters, hvoting⟩
  | cons v votes ih =>
    obtain ⟨_, htype, h⟩ := bind_eq_ok.1 h
    obtain ⟨stake, hvote, h⟩ := bind_eq_ok.1 h
    obtain ⟨_, hnew, h⟩ := bind_eq_ok.1 h
    obtain ⟨next, hnext, h⟩ := bind_eq_ok.1 h
    rw [require_eq_ok] at htype hnew
    rw [ofOption_eq_ok] at hnext
    obtain ⟨hstake, hprecommitted⟩ := validateVote_eq_ok hvote htype
    refine ih h (Finset.forall_mem_insert .. |>.2 ⟨hprecommitted, hvoters⟩) ?_
    rw [Finset.sum_insert hnew, U128.checkedAdd_eq_some hnext, hvoting,
      ValidatorSetSnapshot.weight_of_stakeOf hstake, Nat.add_comm]

/-- An accepted proof: its block is the stored one, and its voters have precommitted it with a
    quorum of the stake. -/
theorem verifyFinalityProof_spec {proof : FinalityProof} {r : VerifiedFinality}
    (h : verifyFinalityProof verify proof ctx = .ok r) :
    proof.blockHash = ctx.storedBlockHash ∧ ctx.validators.totalStake = some r.totalStake ∧
      ctx.validators.quorum = some r.quorum ∧ (∀ k ∈ r.voters, Precommitted verify ctx k) ∧
      r.quorum.toNat ≤ ∑ k ∈ r.voters, ctx.validators.weight k := by
  obtain ⟨_, -, h⟩ := bind_eq_ok.1 h
  obtain ⟨_, -, h⟩ := bind_eq_ok.1 h
  obtain ⟨_, hblock, h⟩ := bind_eq_ok.1 h
  obtain ⟨_, -, h⟩ := bind_eq_ok.1 h
  obtain ⟨total, htotal, h⟩ := bind_eq_ok.1 h
  obtain ⟨quorum, hquorum, h⟩ := bind_eq_ok.1 h
  obtain ⟨⟨voters, voting⟩, hcount, h⟩ := bind_eq_ok.1 h
  obtain ⟨_, hreached, h⟩ := bind_eq_ok.1 h
  obtain ⟨_, -, h⟩ := bind_eq_ok.1 h
  obtain ⟨_, -, h⟩ := bind_eq_ok.1 h
  obtain ⟨_, -, h⟩ := bind_eq_ok.1 h
  obtain rfl := Except.ok.inj h
  rw [require_eq_ok] at hblock hreached
  rw [ofOption_eq_ok] at htotal hquorum
  obtain ⟨hvoters, hvoting⟩ := countVotes_eq_ok hcount (by simp) rfl
  exact ⟨hblock, htotal, hquorum, hvoters, hvoting ▸ BitVec.le_def.1 hreached⟩

end Accepted

/-! ## What a signature says -/

theorem bar_notMem_of_isHash {s : String} (h : isHash s = true) : '|' ∉ s.toList :=
  VoteIntent.notMem_of_all (Bool.and_eq_true_iff.1 h).2 (by decide)

theorem voteSigningText_eq (c t : String) (h : UInt64) (r : UInt32) (b : String) :
    voteSigningText c t h r b = "ROUGECHAIN_FINALITY_VOTE_V2|chain=".toList ++ c.toList ++
      '|' :: "type=".toList ++ t.toList ++ '|' :: "height=".toList ++ Nat.toDigits 10 h.toNat ++
      '|' :: "round=".toList ++ Nat.toDigits 10 r.toNat ++ '|' :: "block=".toList ++ b.toList := rfl

/-- The text of a vote says which vote it is. -/
theorem voteSigningText_inj {c c' t t' b b' : String} {h h' : UInt64} {r r' : UInt32}
    (ht : '|' ∉ t.toList) (ht' : '|' ∉ t'.toList) (hb : '|' ∉ b.toList) (hb' : '|' ∉ b'.toList)
    (heq : voteSigningText c t h r b = voteSigningText c' t' h' r' b') :
    c = c' ∧ t = t' ∧ h = h' ∧ r = r' ∧ b = b' := by
  have hdigits (n : ℕ) : '|' ∉ Nat.toDigits 10 n := Text.notMem_toDigits (by decide) n
  -- a field is what stands after the last bar
  have hfield {A A' k v v' : List Char} (hk : '|' ∉ k) (hv : '|' ∉ v) (hv' : '|' ∉ v')
      (hA : A ++ '|' :: k ++ v = A' ++ '|' :: k ++ v') : A = A' ∧ v = v' := by
    simp only [List.append_assoc, List.cons_append] at hA
    have hkv : '|' ∉ k ++ v := by simp [hk, hv]
    have hkv' : '|' ∉ k ++ v' := by simp [hk, hv']
    obtain ⟨hhead, htail⟩ := Text.sep_append_inj hkv hkv' hA
    exact ⟨hhead, List.append_cancel_left htail⟩
  rw [voteSigningText_eq, voteSigningText_eq] at heq
  obtain ⟨heq, hblock⟩ := hfield (k := "block=".toList) (by decide) hb hb' heq
  obtain ⟨heq, hround⟩ := hfield (k := "round=".toList) (by decide) (hdigits _) (hdigits _) heq
  obtain ⟨heq, hheight⟩ := hfield (k := "height=".toList) (by decide) (hdigits _) (hdigits _) heq
  obtain ⟨heq, htype⟩ := hfield (k := "type=".toList) (by decide) ht ht' heq
  refine ⟨String.toList_injective (List.append_cancel_left heq), String.toList_injective htype,
    UInt64.toNat_inj.1 (Text.toDigits_injective hheight),
    UInt32.toNat_inj.1 (Text.toDigits_injective hround), String.toList_injective hblock⟩

/-- The key signs votes only through a journal, and its signatures cannot be forged: what verifies
    as a vote of the key is a vote that a run of its journal has returned. -/
def JournalOnly (verify : String → List UInt8 → String → Bool) (k : String) : Prop :=
  ∃ (sha256 : List UInt8 → Vector UInt8 32) (dir : String) (d : Links (List Char))
    (acts : List JournalAction), ∀ chainId voteType height round blockHash sig,
      verify k (voteSigningMessage chainId voteType height round blockHash) sig = true →
      ∃ v ∈ (Runs.run (SigningJournal.step sha256 dir) { disk := d } acts).signed,
        v.intent.validatorPubKey = k ∧
        voteSigningMessage chainId voteType height round blockHash =
          voteSigningMessage v.intent.chainId v.intent.voteType v.intent.height v.intent.round
            v.intent.blockHash

section Safety

variable {verify : String → List UInt8 → String → Bool} {ctx ctx' : VoteContext}

/-- A vote that verifies for a key with a journal is one that the journal has returned. -/
theorem Precommitted.intent {k : String} {j : SigningJournal}
    {sha256 : List UInt8 → Vector UInt8 32} (hinv : SigningJournal.Inv sha256 j)
    (h : Precommitted verify ctx k)
    (hjournal : ∀ chainId voteType height round blockHash sig,
      verify k (voteSigningMessage chainId voteType height round blockHash) sig = true →
      ∃ v ∈ j.signed, v.intent.validatorPubKey = k ∧
        voteSigningMessage chainId voteType height round blockHash =
          voteSigningMessage v.intent.chainId v.intent.voteType v.intent.height v.intent.round
            v.intent.blockHash) :
    ∃ v ∈ j.signed, v.intent =
      ⟨ctx.chainId, k, precommit, ctx.height, onlyRound, ctx.storedBlockHash⟩ := by
  obtain ⟨sig, hsig⟩ := h.signed
  obtain ⟨v, hv, hkey, hmsg⟩ := hjournal _ _ _ _ _ sig hsig
  obtain ⟨hvalid, -⟩ := hinv.signed v hv
  have htype : '|' ∉ v.intent.voteType.toList := by
    rcases hvalid.voteType with htype | htype <;> rw [htype] <;> decide
  obtain ⟨hchain, htype', hheight, hround, hblock⟩ := voteSigningText_inj (by decide) htype
    (bar_notMem_of_isHash h.hash) (bar_notMem_of_isHash hvalid.blockHash) (Json.utf8_inj hmsg)
  refine ⟨v, hv, ?_⟩
  rw [hchain, htype', hheight, hround, hblock, ← hkey]

/-- A key with a journal precommits one block at a height. -/
theorem JournalOnly.block_unique {k : String} (hk : JournalOnly verify k)
    (h : Precommitted verify ctx k) (h' : Precommitted verify ctx' k)
    (hchain : ctx.chainId = ctx'.chainId) (hheight : ctx.height = ctx'.height) :
    ctx.storedBlockHash = ctx'.storedBlockHash := by
  obtain ⟨sha256, dir, d, acts, hjournal⟩ := hk
  have hinv : SigningJournal.Inv sha256
      (Runs.run (SigningJournal.step sha256 dir) { disk := d } acts) := SigningJournal.Inv.run d acts
  obtain ⟨v, hv, hintent⟩ := h.intent hinv hjournal
  obtain ⟨v', hv', hintent'⟩ := h'.intent hinv hjournal
  have hblock := hinv.block_unique hv hv' <| by
    rw [hintent, hintent']
    exact VoteIntent.slotName_congr hchain rfl rfl hheight rfl
  rwa [hintent, hintent'] at hblock

theorem Precommitted.mem_members {k : String} (h : Precommitted verify ctx k) :
    k ∈ ctx.validators.members := by
  obtain ⟨s, hs⟩ := h.eligible
  exact ValidatorSetSnapshot.mem_members hs

/-- The stake that two accepted proofs share. -/
theorem shared_stake {proof proof' : FinalityProof} {r r' : VerifiedFinality}
    (hset : ctx.validators = ctx'.validators)
    (h : verifyFinalityProof verify proof ctx = .ok r)
    (h' : verifyFinalityProof verify proof' ctx' = .ok r') :
    2 * r.quorum.toNat ≤
      r.totalStake.toNat + ∑ k ∈ r.voters ∩ r'.voters, ctx.validators.weight k := by
  obtain ⟨-, htotal, hquorum, hvoters, hreached⟩ := verifyFinalityProof_spec h
  obtain ⟨-, -, hquorum', hvoters', hreached'⟩ := verifyFinalityProof_spec h'
  rw [← hset, hquorum] at hquorum'
  rw [← hset, ← Option.some.inj hquorum'] at hreached'
  rw [ValidatorSetSnapshot.totalStake_eq_some htotal]
  calc 2 * r.quorum.toNat
      ≤ ∑ k ∈ r.voters, ctx.validators.weight k + ∑ k ∈ r'.voters, ctx.validators.weight k := by
        rw [Nat.two_mul]
        exact Nat.add_le_add hreached hreached'
    _ ≤ _ := ValidatorSetSnapshot.sum_inter (fun k hk => (hvoters k hk).mem_members)
        fun k hk => hset ▸ (hvoters' k hk).mem_members

/-- Two accepted proofs for one chain, height and set of validators share signers with at least
    `2q - T` of the stake, which is more than a third; and they name the same block, if every
    validator outside a set with at most a third of the stake signs only through a journal. -/
theorem finality_safety {proof proof' : FinalityProof} {r r' : VerifiedFinality} {T q : U128}
    (hchain : ctx.chainId = ctx'.chainId) (hheight : ctx.height = ctx'.height)
    (hset : ctx.validators = ctx'.validators) (hT : ctx.validators.totalStake = some T)
    (hq : ctx.validators.quorum = some q) (h : verifyFinalityProof verify proof ctx = .ok r)
    (h' : verifyFinalityProof verify proof' ctx' = .ok r') :
    (2 * q.toNat - T.toNat ≤ ∑ k ∈ r.voters ∩ r'.voters, ctx.validators.weight k ∧
        T.toNat < 3 * (2 * q.toNat - T.toNat)) ∧
      ∀ faulty : Set String,
        (∀ S : Finset String, ↑S ⊆ faulty → 3 * ∑ k ∈ S, ctx.validators.weight k ≤ T.toNat) →
        (∀ k ∈ ctx.validators.members, k ∉ faulty → JournalOnly verify k) →
        proof.blockHash = proof'.blockHash := by
  obtain ⟨hblock, htotal, hquorum, hvoters, -⟩ := verifyFinalityProof_spec h
  obtain ⟨hblock', -, -, hvoters', -⟩ := verifyFinalityProof_spec h'
  have hshared := shared_stake hset h h'
  obtain rfl := Option.some.inj (htotal.symm.trans hT)
  obtain rfl := Option.some.inj (hquorum.symm.trans hq)
  have hthird : r.totalStake.toNat < 3 * (2 * r.quorum.toNat - r.totalStake.toNat) := by
    rw [ValidatorSetSnapshot.quorum_eq_some htotal hquorum]
    omega
  refine ⟨⟨by omega, hthird⟩, fun faulty hfew hhonest => ?_⟩
  -- the shared signers cannot all be among the faulty ones
  obtain ⟨k, hk, hkfaulty⟩ : ∃ k ∈ r.voters ∩ r'.voters, k ∉ faulty := by
    by_contra hall
    push Not at hall
    have := hfew (r.voters ∩ r'.voters) hall
    omega
  rw [Finset.mem_inter] at hk
  have hkey := hhonest k (hvoters k hk.1).mem_members hkfaulty
  rw [hblock, hblock']
  exact hkey.block_unique (hvoters k hk.1) (hvoters' k hk.2) hchain hheight

/-- A validator with all the stake. -/
def soloContext : VoteContext where
  chainId := sampleIntent.chainId
  height := 7
  storedBlockHash := sampleIntent.blockHash
  validators := {
    height := 7
    stakes := (∅ : ExtTreeMap String U128).insert "ab" 3
    stakes_ne_zero := by
      intro k s h
      rw [getElem?_insert_eq] at h
      split at h
      · obtain rfl := Option.some.inj h
        decide
      · simp at h }

def soloProof (createdAt : UInt64) : FinalityProof where
  height := 7
  blockHash := sampleIntent.blockHash
  totalStake := 3
  votingStake := 3
  quorumThreshold := 3
  precommitVotes := [(⟨sampleIntent, "s"⟩ : SignedVote).vote]
  createdAt

/-- Signatures of the one vote that the journal has returned. -/
def soloVerify (k : String) (msg : List UInt8) (_sig : String) : Bool :=
  k == "ab" && msg == voteSigningMessage sampleIntent.chainId sampleIntent.voteType
    sampleIntent.height sampleIntent.round sampleIntent.blockHash

theorem soloVerify_journalOnly (k : String) : JournalOnly soloVerify k := by
  have hsigned : ⟨sampleIntent, "s"⟩ ∈ raced.signed := by simp [signed_raced]
  refine ⟨fun _ => .replicate 32 0, "journal", emptyDisk, sampleRace,
    fun chainId voteType height round blockHash sig hsig => ?_⟩
  rw [soloVerify, Bool.and_eq_true, beq_iff_eq, beq_iff_eq] at hsig
  exact ⟨_, hsigned, hsig.1.symm, hsig.2⟩

theorem finality_safety_solo :
    1 < ∑ k ∈ ({"ab"} : Finset String) ∩ {"ab"}, soloContext.validators.weight k ∧
      (soloProof 0).blockHash = (soloProof 1).blockHash := by
  have haccepted (createdAt : UInt64) :
      verifyFinalityProof soloVerify (soloProof createdAt) soloContext =
        .ok ⟨7, sampleIntent.blockHash, 3, 3, 3, {"ab"}⟩ := by
    change verifyFinalityProof soloVerify (soloProof 0) soloContext = _
    decide +kernel
  have hsafe := finality_safety (T := 3) (q := 3) rfl rfl rfl (by decide +kernel) (by decide +kernel)
    (haccepted 0) (haccepted 1)
  refine ⟨lt_of_lt_of_le (by decide) hsafe.1.1, hsafe.2 ∅ (fun S hS => ?_) fun k _ _ =>
    soloVerify_journalOnly k⟩
  rw [Finset.coe_eq_empty.1 (Set.subset_empty_iff.1 hS)]
  exact Nat.zero_le _

end Safety

end RougeChain.Finality
