import RougeChain.Consensus.SignedText
import RougeChain.Consensus.Signing
import RougeChain.Library.LockedVoting

/-!
# Agreement

Validators run one height over a network that delays, loses, repeats and reorders
messages, next to validators that do anything at all with less than a third of
the weight.

A `System` holds, for every node that has started, its machine and the outputs
that its driver has not carried out yet, and the `trace` of all outputs carried
out so far. A driver carries outputs out in order: a record becomes durable, a
message is sent, a decision is made. A crash loses the outputs that were not
carried out, and the node starts again from the durable records (`Step.restart`).
Inputs are arbitrary, except that signatures cannot be forged: a signature of a
node that verifies is over a text that the node has signed and sent (`Unforged`).

The records of vote slots, in the order of the trace, are the ballots of a locked
voting (`Inv.history`), where every output is justified by what was carried out
before (`Inv`). So the decisions agree (`decisions_agree`).
-/

namespace RougeChain.Consensus

open Finset
open LockedVoting (Ballot Phase Electorate Supported Allowed History)

/-- The nodes that follow the machine, on one chain and at one height. They sign
    with different keys, and the other keys hold less than a third of the weight. -/
structure Network (ι : Type) where
  cfg : ι → Config
  chainId : String
  height : ℕ
  set : ValidatorSet
  chainId_eq : ∀ i, (cfg i).chainId = chainId
  key_inj : ∀ i j k, (cfg i).key = some k → (cfg j).key = some k → i = j
  few : ∀ S : Finset KeyId, (∀ k ∈ S, ∀ i, (cfg i).key ≠ some ⟨k⟩) →
    3 * ∑ k ∈ S, set.weight k < set.total

/-- The machines with the outputs not carried out yet, and the outputs carried out. -/
structure System (ι : Type) where
  nodes : ι → Option (Machine × List Output)
  trace : List (ι × Output)

/-- The signatures in an input, with the signer and the text they are checked against. -/
def Input.signatures (chainId : String) : Input → List (KeyId × List Char × Sig)
  | .vote v => [(v.voter, v.signBytes .V3 chainId, v.sig)]
  | .proposal p _ => [(p.proposer, p.signBytes chainId, p.sig)]
  | .catchUp _ cert _ => cert.sigs.map fun s =>
      (s.1, voteSignBytes cert.domain chainId .precommit cert.height cert.round (some cert.block), s.2)
  | _ => []

/-- The text that the sender of a message signed. -/
def Message.signBytes (chainId : String) : Message → List Char
  | .vote v => v.signBytes .V3 chainId
  | .proposal p => p.signBytes chainId

variable {ι : Type}

/-- The phase of a vote type in the locked voting. -/
def VoteType.phase : VoteType → Phase
  | .prevote => .prevote
  | .precommit => .precommit

theorem VoteType.phase_surjective : Function.Surjective VoteType.phase
  | .prevote => ⟨.prevote, rfl⟩
  | .precommit => ⟨.precommit, rfl⟩

theorem VoteType.phase_injective : Function.Injective VoteType.phase := by
  intro a b h
  cases a <;> cases b <;> first | rfl | exact absurd h Phase.noConfusion

namespace Network

variable (N : Network ι)

def setting (i : ι) : Setting := ⟨N.cfg i, N.height, N.set⟩

/-- A verifying signature of a node is over a text that it has signed and sent. -/
def Unforged (trace : List (ι × Output)) (input : Input) : Prop :=
  ∀ s ∈ input.signatures N.chainId, verifySig s.1 s.2.1 s.2.2 = true →
    ∀ i, (N.cfg i).key = some ⟨s.1⟩ →
      ∃ msg, (i, .broadcast msg) ∈ trace ∧ msg.signBytes N.chainId = s.2.1

/-! ## The ballots of a trace -/

/-- The voters of the locked voting: the members of the set, of which those
    without a node are faulty. -/
def electorate : Electorate KeyId where
  members := N.set.keys
  weight := N.set.weight
  weight_eq_zero k hk := by
    by_contra h
    exact hk (N.set.mem_keys_of_weight_pos (Nat.pos_of_ne_zero h))
  faulty := {k | ∀ i, (N.cfg i).key ≠ some ⟨k⟩}
  few S hS := by
    rw [N.set.sum_keys]
    exact N.few S fun k hk => hS hk

def ballotOf (e : ι × Output) : Option (Ballot KeyId BlockId) :=
  match e.2 with
  | .persist (.voteSlot kind _ r v) => (N.cfg e.1).key.map fun k => ⟨k.id, kind.phase, r, v⟩
  | _ => none

/-- The votes recorded in a trace, in order. -/
def ballots (trace : List (ι × Output)) : List (Ballot KeyId BlockId) :=
  trace.filterMap N.ballotOf

/-- What can be heard after a trace: anything of a faulty voter, and the recorded
    votes of the others. -/
def hearing (trace : List (ι × Output)) : Hearing := fun kind r v k =>
  k ∈ N.electorate.faulty ∨ ⟨k, kind.phase, r, v⟩ ∈ N.ballots trace

variable {N} {trace : List (ι × Output)}

theorem mem_ballotOf {i : ι} {o : Output} {b : Ballot KeyId BlockId} :
    b ∈ (N.ballotOf (i, o)).toList ↔ ∃ key kind h r v, (N.cfg i).key = some key ∧
      o = .persist (.voteSlot kind h r v) ∧ b = ⟨key.id, kind.phase, r, v⟩ := by
  rw [Option.mem_toList, ballotOf]
  constructor
  · intro h
    split at h
    · next kind height r v ho =>
      obtain ⟨key, hkey, rfl⟩ := Option.map_eq_some_iff.1 h
      exact ⟨key, kind, height, r, v, hkey, ho, rfl⟩
    · exact absurd h (by simp)
  · rintro ⟨key, kind, h, r, v, hkey, rfl, rfl⟩
    simp [hkey]

theorem ballots_snoc (e : ι × Output) :
    N.ballots (trace ++ [e]) = N.ballots trace ++ (N.ballotOf e).toList := by
  rw [ballots, List.filterMap_append, ballots]
  cases h : N.ballotOf e <;> simp [h]

theorem hearing_snoc (e : ι × Output) : N.hearing trace ≤ N.hearing (trace ++ [e]) := by
  intro kind r v k hk
  refine hk.imp_right fun h => ?_
  rw [ballots_snoc]
  exact List.mem_append_left _ h

theorem signer_setting {i : ι} {key : SigningKey} (h : (N.setting i).signer = some key) :
    (N.cfg i).key = some key := (Option.filter_eq_some_iff.1 h).1

theorem ballots_subset {pre : List (ι × Output)} (hpre : pre <+: trace) :
    N.ballots pre ⊆ N.ballots trace := (hpre.filterMap _).subset

end Network

/-! ## Systems and runs -/

variable [DecidableEq ι]

/-- The outputs of one node. -/
def outputsOf (i : ι) (trace : List (ι × Output)) : List Output :=
  (trace.filter fun e => e.1 = i).map Prod.snd

/-- What is durable at a node. -/
def durableOf (i : ι) (trace : List (ι × Output)) : PersistedState :=
  ({} : PersistedState).afterAll (outputsOf i trace)

namespace Network

variable (N : Network ι)

/-- One step of the system. -/
inductive Step : System ι → System ι → Prop
  | start {s : System ι} {i : ι} {ctx : HeightCtx} {fuel : ℕ} {t : Turn} :
      s.nodes i = none → ctx.height = N.height → ctx.set = N.set →
      Machine.new fuel (N.cfg i) ctx = some t →
      Step s { s with nodes := Function.update s.nodes i (some (t.m, t.out)) }
  | handle {s : System ι} {i : ι} {m : Machine} {q : List Output} {input : Input} {fuel : ℕ}
      {t : Turn} :
      s.nodes i = some (m, q) → (∀ ctx, input ≠ .startHeight ctx) → N.Unforged s.trace input →
      m.handle fuel input = some t →
      Step s { s with nodes := Function.update s.nodes i (some (t.m, q ++ t.out)) }
  | carryOut {s : System ι} {i : ι} {m : Machine} {o : Output} {q : List Output} :
      s.nodes i = some (m, o :: q) →
      Step s ⟨Function.update s.nodes i (some (m, q)), s.trace ++ [(i, o)]⟩
  | restart {s : System ι} {i : ι} {m : Machine} {q : List Output} {ctx : HeightCtx} {fuel : ℕ}
      {t : Turn} :
      s.nodes i = some (m, q) → ctx.height = N.height → ctx.set = N.set →
      Machine.restore fuel (N.cfg i) ctx (durableOf i s.trace) = some t →
      Step s { s with nodes := Function.update s.nodes i (some (t.m, t.out)) }

/-- The systems that can be reached. -/
inductive Run : System ι → Prop
  | init : Run ⟨fun _ => none, []⟩
  | step {s s' : System ι} : Run s → N.Step s s' → Run s'

/-- Every output of a trace is justified by those before it. -/
inductive Just : List (ι × Output) → Prop
  | nil : Just []
  | snoc {trace : List (ι × Output)} {i : ι} {o : Output} : Just trace →
      Justified (N.setting i) (N.hearing trace) (durableOf i trace) o → Just (trace ++ [(i, o)])

end Network

theorem durableOf_snoc (i j : ι) (o : Output) (trace : List (ι × Output)) :
    durableOf i (trace ++ [(j, o)]) =
      if j = i then (durableOf i trace).after o else durableOf i trace := by
  simp only [durableOf, outputsOf, List.filter_append, List.filter_singleton, List.map_append,
    PersistedState.afterAll_append]
  by_cases h : j = i <;> simp [h]

/-- Only a vote slot changes the journal, and only its own slot. -/
theorem Durable.votes_after {x : Setting} {H : Hearing} {P : PersistedState} (hd : Durable x H P)
    {o : Output} (hj : Justified x H P o) (slot : VoteType × ℕ) (v : Option BlockId) :
    (P.after o).votes[slot]? = some v ↔ P.votes[slot]? = some v ∨
      ∃ h, o = .persist (.voteSlot slot.1 h slot.2 v) := by
  cases o with
  | broadcast | setTimer | wakeAtHeaderTime | needBlock | commit | evidence =>
    simp [PersistedState.after]
  | persist record =>
    rw [PersistedState.after]
    rcases hd.apply_cases hj with ⟨happly, rfl⟩ | ⟨-, happly⟩
    · rw [happly]
      refine ⟨.inl, ?_⟩
      rintro (h | ⟨h, heq⟩)
      · exact h
      · obtain rfl := Output.persist.inj heq
        exact absurd hj.2.2.2.1 (by simp)
    · rw [happly]
      cases record with
      | height | proposalSlot | lock | roundState => simp [PersistedState.write]
      | voteSlot kind height r value =>
        have hfree := hj.2.2.2.2.2.1
        rw [PersistedState.write, getElem?_insertIfNew_eq]
        by_cases hslot : (kind, r) = slot
        · subst hslot
          simp [hfree, eq_comm]
        · simp only [hslot, false_and, if_false, Output.persist.injEq, PersistRecord.voteSlot.injEq]
          refine ⟨.inl, ?_⟩
          rintro (h | ⟨h, hkind, -, hr, -⟩)
          · exact h
          · exact absurd (Prod.ext hkind hr) hslot

namespace Network

variable {N : Network ι} {trace : List (ι × Output)}

namespace Just

/-- What is durable at a node is in order. -/
theorem durable (ht : N.Just trace) (i : ι) :
    Durable (N.setting i) (N.hearing trace) (durableOf i trace) := by
  induction ht with
  | nil => exact .empty
  | @snoc trace j o _ hj ih =>
    rw [durableOf_snoc]
    split
    · next h =>
      subst h
      exact (ih.after hj).hear (hearing_snoc _)
    · exact ih.hear (hearing_snoc _)

/-- The ballots of a node are its durable journal. -/
theorem votes_iff (ht : N.Just trace) {i : ι} {k : KeyId} (hk : (N.cfg i).key = some ⟨k⟩)
    {kind : VoteType} {r : ℕ} {v : Option BlockId} :
    (durableOf i trace).votes[(kind, r)]? = some v ↔ ⟨k, kind.phase, r, v⟩ ∈ N.ballots trace := by
  induction ht with
  | nil => simp [durableOf, outputsOf, ballots]
  | @snoc trace j o ht hj ih =>
    rw [durableOf_snoc, ballots_snoc, List.mem_append, ← ih]
    split
    · next h =>
      subst h
      rw [(ht.durable j).votes_after hj, mem_ballotOf]
      refine or_congr_right ⟨?_, ?_⟩
      · rintro ⟨h, rfl⟩
        exact ⟨⟨k⟩, kind, h, r, v, hk, rfl, rfl⟩
      · rintro ⟨key, kind', h, r', v', -, rfl, hb⟩
        obtain ⟨-, hphase, rfl, rfl⟩ := Ballot.mk.inj hb
        exact ⟨h, by rw [VoteType.phase_injective hphase]⟩
    · next h =>
      -- A ballot of another node has another voter.
      refine (or_iff_left fun hmem => h ?_).symm
      obtain ⟨key, kind', h, r', v', hkey, -, hb⟩ := mem_ballotOf.1 hmem
      exact N.key_inj j i key hkey (by rw [hk, (Ballot.mk.inj hb).1])

/-- An output of the trace was justified when it was carried out. -/
theorem justified (ht : N.Just trace) {i : ι} {o : Output} (hmem : (i, o) ∈ trace) :
    ∃ pre, pre <+: trace ∧ N.Just pre ∧
      Justified (N.setting i) (N.hearing pre) (durableOf i pre) o := by
  induction ht with
  | nil => exact absurd hmem List.not_mem_nil
  | @snoc trace j o' ht hj ih =>
    rcases List.mem_append.1 hmem with hmem | hmem
    · obtain ⟨pre, hpre, hjust⟩ := ih hmem
      exact ⟨pre, hpre.trans (List.prefix_append _ _), hjust⟩
    · obtain ⟨rfl, rfl⟩ := Prod.mk.inj (List.mem_singleton.1 hmem)
      exact ⟨trace, List.prefix_append _ _, ht, hj⟩

/-- A quorum that a node counts is one of ballots. -/
theorem supported (ht : N.Just trace) {i : ι} {kind : VoteType} {r : ℕ} {id : BlockId}
    (hq : Quorum (N.setting i) (N.hearing trace) (durableOf i trace) kind r id) :
    Supported N.electorate (N.ballots trace) kind.phase r id := by
  obtain ⟨S, hS, hvotes⟩ := hq
  refine ⟨S, ?_, fun k hk => ?_⟩
  · have htotal : N.electorate.total = N.set.total := N.set.sum_keys
    have hS : N.set.total * 2 / 3 + 1 ≤ ∑ k ∈ S, N.electorate.weight k := hS
    rw [Electorate.Quorum, htotal]
    omega
  · rcases hvotes k hk with h | ⟨hkey, hslot⟩
    · exact h
    · exact .inr ((ht.votes_iff (signer_setting hkey)).1 hslot)

/-- A justified vote slot is an allowed ballot. -/
theorem allowed (ht : N.Just trace) {i : ι} {k : KeyId} (hk : (N.cfg i).key = some ⟨k⟩)
    {kind : VoteType} {h r : ℕ} {v : Option BlockId}
    (hj : Justified (N.setting i) (N.hearing trace) (durableOf i trace)
      (.persist (.voteSlot kind h r v))) :
    Allowed N.electorate (N.ballots trace) ⟨k, kind.phase, r, v⟩ := by
  have hd := ht.durable i
  obtain ⟨-, -, -, -, rfl, hfree, hmay⟩ := hj
  refine ⟨fun v' hmem => ?_, ?_, fun id hphase hv => ?_, fun id r₀ v₀ hphase hv hmem => ?_⟩
  · have hslot := (ht.votes_iff hk).2 hmem
    exact absurd (hfree.symm.trans hslot) (by simp)
  · rintro ⟨k', phase, r', v'⟩ hmem rfl
    obtain ⟨kind', rfl⟩ := VoteType.phase_surjective phase
    exact hd.voted kind' r' v' ((ht.votes_iff hk).2 hmem)
  · obtain rfl : kind = .precommit := VoteType.phase_injective hphase
    exact ht.supported (hmay id hv).1
  · obtain rfl : kind = .prevote := VoteType.phase_injective hphase
    -- The lock is at or above the precommit, and rests on a quorum of prevotes itself.
    obtain ⟨lr, lb, hl, hle⟩ := hd.precommitted r₀ v₀ ((ht.votes_iff hk).2 hmem)
    rcases hmay id hv lr lb hl with rfl | ⟨vr, hvr, hq⟩
    · exact .inr ⟨lr, hle, ht.supported (hd.locked lr lb hl).2⟩
    · exact .inr ⟨vr, hle.trans hvr, ht.supported hq⟩

/-- The ballots of a trace are a history of locked voting. -/
theorem history (ht : N.Just trace) : History N.electorate (N.ballots trace) := by
  induction ht with
  | nil => exact .nil
  | @snoc trace i o ht hj ih =>
    rw [ballots_snoc]
    cases hb : N.ballotOf (i, o) with
    | none => simpa using ih
    | some b =>
      obtain ⟨key, kind, h, r, v, hk, rfl, rfl⟩ := mem_ballotOf.1 (Option.mem_toList.2 hb)
      exact .snoc ih (ht.allowed hk hj)

/-- Decisions in one trace are for one block. -/
theorem commit_unique (ht : N.Just trace) {i j : ι} {b b' : Block} {cert cert' : CommitCert}
    (hb : (i, .commit b cert) ∈ trace) (hb' : (j, .commit b' cert') ∈ trace) : b.id = b'.id := by
  have hdecided : ∀ {i : ι} {b : Block} {cert : CommitCert}, (i, .commit b cert) ∈ trace →
      ∃ r, Supported N.electorate (N.ballots trace) .precommit r b.id := by
    intro i b cert hmem
    obtain ⟨pre, hpre, htpre, r, hq⟩ := ht.justified hmem
    exact ⟨r, (htpre.supported hq).mono (ballots_subset hpre)⟩
  obtain ⟨r, hr⟩ := hdecided hb
  obtain ⟨r', hr'⟩ := hdecided hb'
  exact ht.history.agreement hr hr'

/-! ## Every run is justified -/

/-- A verified signature over a vote's text is heard. -/
theorem hearing_of_signed (ht : N.Just trace) {kind : VoteType} {r : ℕ} {v : Option BlockId}
    {k : KeyId} (hsigned : ∀ i, (N.cfg i).key = some ⟨k⟩ → ∃ msg, (i, .broadcast msg) ∈ trace ∧
      msg.signBytes N.chainId = voteSignBytes .V3 N.chainId kind N.height r v) :
    N.hearing trace kind r v k := by
  by_cases hk : k ∈ N.electorate.faulty
  · exact .inl hk
  · have hnode : ¬∀ i, (N.cfg i).key ≠ some ⟨k⟩ := hk
    push Not at hnode
    obtain ⟨i, hi⟩ := hnode
    obtain ⟨msg, hmem, htext⟩ := hsigned i hi
    obtain ⟨pre, hpre, htpre, hj⟩ := ht.justified hmem
    refine .inr (ballots_subset hpre ?_)
    cases msg with
    | proposal p =>
      obtain ⟨key, r', pol, b, -, rfl⟩ := hj
      exact absurd htext proposalSignBytes_ne_voteSignBytes
    | vote w =>
      obtain ⟨key, kind', r', v', -, rfl, hslot⟩ := hj
      obtain ⟨rfl, -, rfl, rfl⟩ := voteSignBytes_inj htext
      exact (htpre.votes_iff hi).1 hslot

/-- The inputs of a run are admissible. -/
theorem admissible (ht : N.Just trace) (i : ι) {input : Input}
    (hin : ∀ ctx, input ≠ .startHeight ctx) (hunforged : N.Unforged trace input) :
    input.Admissible (N.setting i) (N.hearing trace) := by
  have hchain : (N.setting i).cfg.chainId = N.chainId := N.chainId_eq i
  cases input with
  | startHeight ctx => exact hin ctx rfl
  | vote v =>
    intro hheight hverify
    rw [hchain] at hverify
    refine ht.hearing_of_signed fun j hj => ?_
    rw [← show v.height = N.height from hheight]
    exact hunforged _ List.mem_cons_self hverify j hj
  | catchUp b cert verdict =>
    intro hdomain hheight s hs hverify
    rw [hchain] at hverify
    refine ht.hearing_of_signed fun j hj => ?_
    rw [← show cert.height = N.height from hheight]
    rw [← hdomain] at hverify ⊢
    exact hunforged _ (List.mem_map_of_mem hs) hverify j hj
  | proposal | timeout | txPending | heartbeatDue | blockBuilt => exact trivial

end Just

theorem update_eq_some {α : Type} {f : ι → Option α} {i j : ι} {a b : α}
    (h : Function.update f i (some a) j = some b) : j = i ∧ a = b ∨ j ≠ i ∧ f j = some b := by
  by_cases hj : j = i
  · rw [hj, Function.update_self] at h
    exact .inl ⟨hj, Option.some.inj h⟩
  · rw [Function.update_of_ne hj] at h
    exact .inr ⟨hj, h⟩

theorem update_eq_none {α : Type} {f : ι → Option α} {i j : ι} {a : α}
    (h : Function.update f i (some a) j = none) : j ≠ i ∧ f j = none := by
  by_cases hj : j = i
  · rw [hj, Function.update_self] at h
    exact absurd h (by simp)
  · rw [Function.update_of_ne hj] at h
    exact ⟨hj, h⟩

/-- What holds of every system that can be reached. -/
structure Inv (N : Network ι) (s : System ι) : Prop where
  just : N.Just s.trace
  nodes : ∀ i m q, s.nodes i = some (m, q) →
    Turn.OK (N.setting i) (N.hearing s.trace) (durableOf i s.trace) ⟨m, q⟩
  unstarted : ∀ i, s.nodes i = none → durableOf i s.trace = {}

/-- A node changes its machine and its queue, and nothing is carried out. -/
theorem Inv.update {s : System ι} (hs : N.Inv s) {i : ι} {t : Turn}
    (ht : t.OK (N.setting i) (N.hearing s.trace) (durableOf i s.trace)) :
    N.Inv { s with nodes := Function.update s.nodes i (some (t.m, t.out)) } where
  just := hs.just
  nodes j m q hj := by
    rcases update_eq_some hj with ⟨rfl, heq⟩ | ⟨-, hj⟩
    · obtain ⟨rfl, rfl⟩ := Prod.mk.inj heq
      exact ht
    · exact hs.nodes j m q hj
  unstarted j hj := hs.unstarted j (update_eq_none hj).2

/-- The next output of a node is carried out. -/
theorem Inv.carryOut {s : System ι} (hs : N.Inv s) {i : ι} {m : Machine} {o : Output}
    {q : List Output} (hi : s.nodes i = some (m, o :: q)) :
    N.Inv ⟨Function.update s.nodes i (some (m, q)), s.trace ++ [(i, o)]⟩ where
  just := .snoc hs.just (hs.nodes i m _ hi).emits.1
  nodes j m' q' hj := by
    refine Turn.OK.hear (hearing_snoc (i, o)) ?_
    rw [durableOf_snoc]
    rcases update_eq_some hj with ⟨rfl, heq⟩ | ⟨hne, hj⟩
    · obtain ⟨rfl, rfl⟩ := Prod.mk.inj heq
      rw [if_pos rfl]
      have hok := hs.nodes j m _ hi
      exact ⟨⟨hok.emits.2, hok.base⟩, hok.placed⟩
    · rw [if_neg hne.symm]
      exact hs.nodes j m' q' hj
  unstarted j hj := by
    obtain ⟨hne, hj⟩ := update_eq_none hj
    rw [durableOf_snoc, if_neg hne.symm]
    exact hs.unstarted j hj

/-- Every step keeps the invariant. -/
theorem Inv.step {s s' : System ι} (hs : N.Inv s) (hstep : N.Step s s') : N.Inv s' := by
  cases hstep with
  | @start i ctx fuel t hi hheight hset hnew =>
    refine hs.update ?_
    rw [hs.unstarted i hi]
    exact Machine.new_ok (x := N.setting i) hheight hset .empty rfl hnew
  | @handle i m q input fuel t hi hin hunforged hhandle =>
    have hok := hs.nodes i m q hi
    exact hs.update (hok.append (Machine.handle_ok hok.next
      (hs.just.admissible i hin hunforged) hhandle))
  | carryOut hi => exact hs.carryOut hi
  | @restart i m q ctx fuel t hi hheight hset hrestore =>
    exact hs.update (Machine.restore_ok (x := N.setting i) hheight hset (hs.just.durable i) hrestore)

theorem Run.inv {s : System ι} (hrun : N.Run s) : N.Inv s := by
  induction hrun with
  | init => exact ⟨.nil, fun _ _ _ h => absurd h (by simp), fun _ _ => rfl⟩
  | step _ hstep ih => exact ih.step hstep

/-- In every run, over any inputs and any crashes, no two nodes decide on blocks
    with different ids. -/
theorem decisions_agree {s : System ι} (hrun : N.Run s) {i j : ι} {b b' : Block}
    {cert cert' : CommitCert} (hb : (i, .commit b cert) ∈ s.trace)
    (hb' : (j, .commit b' cert') ∈ s.trace) : b.id = b'.id :=
  hrun.inv.just.commit_unique hb hb'

/-- A driver may carry out everything that waits. -/
theorem Run.carryAll {s : System ι} (hrun : N.Run s) {i : ι} {m : Machine} {q : List Output}
    (hi : s.nodes i = some (m, q)) :
    N.Run ⟨Function.update s.nodes i (some (m, [])), s.trace ++ q.map fun o => (i, o)⟩ := by
  induction q generalizing s with
  | nil => rwa [List.map_nil, List.append_nil, ← hi, Function.update_eq_self]
  | cons o q ih =>
    have hnext := ih (hrun.step (.carryOut hi)) (Function.update_self _ _ _)
    rwa [Function.update_idem, List.append_assoc] at hnext

end Network

/-- A validator with all the weight, and an observer. -/
def soloNetwork : Network Bool where
  cfg validates := ⟨"solo", if validates then some ⟨0⟩ else none, .moderate, 10000⟩
  chainId := "solo"
  height := 1
  set := soloSet
  chainId_eq _ := rfl
  key_inj i j k hi hj := by cases i <;> cases j <;> simp_all
  few S hS := by
    have hzero : ∑ k ∈ S, soloSet.weight k = 0 := by
      refine sum_eq_zero fun k hk => ?_
      have hne : k ≠ 0 := fun h => hS k hk true (by simp [h])
      simp [ValidatorSet.weight, soloSet, List.lookup_cons, beq_eq_false_iff_ne.2 hne]
    rw [hzero]
    decide

/-- The precommit of the validator for its first block. -/
def soloPrecommit : Vote := .sign ⟨0⟩ "solo" .precommit 1 0 (some Ledger.soloBlock.id)

def soloCert : CommitCert := ⟨.V3, 1, 0, Ledger.soloBlock.id, 1, [(0, soloPrecommit.sig)]⟩

/-- The decisions among outputs. -/
def decisions (out : List Output) : List (Block × CommitCert) :=
  out.filterMap fun
    | .commit b cert => some (b, cert)
    | _ => none

/-- The validator builds and decides its block, and the observer catches up. -/
def soloDecisions : Option (Turn × Turn × Turn × Turn × Turn) := do
  let t₀ ← Machine.new 10 (soloNetwork.cfg true) soloCtx
  let t₁ ← t₀.m.handle 10 .txPending
  let t₂ ← t₁.m.handle 10 (.blockBuilt 1 0 Ledger.soloBlock)
  let u₀ ← Machine.new 10 (soloNetwork.cfg false) soloCtx
  let u₁ ← u₀.m.handle 10 (.catchUp Ledger.soloBlock soloCert .valid)
  some (t₀, t₁, t₂, u₀, u₁)

theorem soloDecisions_eq : (soloDecisions.map fun (_, _, t₂, _, u₁) =>
    decide (soloPrecommit ∈ broadcastVotes t₂.out) &&
      decide ((Ledger.soloBlock, soloCert) ∈ decisions t₂.out) &&
      decide ((Ledger.soloBlock, soloCert) ∈ decisions u₁.out)) = some true := by
  decide +kernel

theorem mem_decisions {out : List Output} {b : Block} {cert : CommitCert}
    (h : (b, cert) ∈ decisions out) : .commit b cert ∈ out := by
  obtain ⟨o, ho, heq⟩ := List.mem_filterMap.1 h
  split at heq
  · obtain ⟨rfl, rfl⟩ := Prod.mk.inj (Option.some.inj heq)
    exact ho
  · exact absurd heq (by simp)

theorem decisions_agree_solo : ∃ s cert cert', soloNetwork.Run s ∧
    (true, .commit Ledger.soloBlock cert) ∈ s.trace ∧
    (false, .commit Ledger.soloBlock cert') ∈ s.trace ∧ Ledger.soloBlock.id = Ledger.soloBlock.id := by
  obtain ⟨⟨_, _, _, _, _⟩, hrun, hout⟩ := Option.map_eq_some_iff.1 soloDecisions_eq
  simp only [Bool.and_eq_true, decide_eq_true_eq] at hout
  obtain ⟨⟨hvote, hdecided⟩, hcaught⟩ := hout
  simp only [soloDecisions, Option.bind_eq_bind, Option.bind_eq_some_iff, Option.some.injEq,
    Prod.mk.injEq] at hrun
  obtain ⟨t₀, h₀, t₁, h₁, t₂, h₂, u₀, h₃, u₁, h₄, rfl, rfl, rfl, rfl, rfl⟩ := hrun
  -- The validator decides, and everything it output is carried out.
  have hstart := Network.Run.init.step (.start (N := soloNetwork) (i := true) rfl rfl rfl h₀)
  have hwork := hstart.step (.handle (Function.update_self _ _ _)
    (fun _ => Input.noConfusion) (by simp [Network.Unforged, Input.signatures]) h₁)
  have hbuilt := hwork.step (.handle (Function.update_self _ _ _)
    (fun _ => Input.noConfusion) (by simp [Network.Unforged, Input.signatures]) h₂)
  have hsent := hbuilt.carryAll (Function.update_self _ _ _)
  -- The observer catches up from the certificate.
  have hobserver := hsent.step (.start (i := false) (by simp) rfl rfl h₃)
  have hunforged : soloNetwork.Unforged
      (([] : List (Bool × Output)) ++ (t₀.out ++ t₁.out ++ t₂.out).map fun o => (true, o))
      (.catchUp Ledger.soloBlock soloCert .valid) := by
    intro x hx _ i hi
    obtain rfl := List.mem_singleton.1 hx
    cases i with
    | false => exact absurd hi (by simp [soloNetwork])
    | true =>
      refine ⟨.vote soloPrecommit, ?_, rfl⟩
      rw [List.nil_append]
      exact List.mem_map_of_mem (List.mem_append_right _ (mem_broadcastVotes.1 hvote))
  have hcatch := hobserver.step (.handle (Function.update_self _ _ _)
    (fun _ => Input.noConfusion) hunforged h₄)
  have hdone := hcatch.carryAll (Function.update_self _ _ _)
  have hvalidator := List.mem_append_right ([] : List (Bool × Output))
    (List.mem_map_of_mem (f := fun o => (true, o))
      (List.mem_append_right (t₀.out ++ t₁.out) (mem_decisions hdecided)))
  have hobserved := List.mem_map_of_mem (f := fun o => (false, o))
    (List.mem_append_right u₀.out (mem_decisions hcaught))
  exact ⟨_, soloCert, soloCert, hdone, List.mem_append_left _ hvalidator,
    List.mem_append_right _ hobserved, Network.decisions_agree hdone
      (List.mem_append_left _ hvalidator) (List.mem_append_right _ hobserved)⟩

end RougeChain.Consensus
