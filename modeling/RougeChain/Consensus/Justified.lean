import RougeChain.Consensus.Machine
import RougeChain.Library.Basic

/-!
# What a machine may output

A machine outputs records, which become durable one after the other, and
messages. Each output is `Justified` by the durable state that the records
before it leave:

* a vote slot is written once, in the current round; a precommit for a block
  needs a quorum of prevotes for it and the lock on it, and a prevote for a block
  other than the locked one needs a quorum of prevotes for it in a round at or
  above the lock;
* a vote is sent only for a slot that is durable, and a decision needs a quorum
  of precommits.

What has been *heard* is a parameter here: the votes that a machine may find in
its inputs. It hears its own votes from its journal.

* `Justified`, `Emits`: what allows an output, and a list of outputs;
* `Durable`: what justified records leave (`Durable.apply`): the lock is at or
  above every precommit for a block, and rests on a quorum of prevotes.
-/

namespace RougeChain.Consensus

open Finset
open Std (ExtTreeMap)

/-- What a machine runs with at one height. -/
structure Setting where
  cfg : Config
  height : ℕ
  set : ValidatorSet

/-- The key the machine signs with. -/
def Setting.signer (x : Setting) : Option SigningKey :=
  x.cfg.key.filter fun k => x.set.contains k.id

/-- The votes of the height that a machine may hear: type, round, value and voter. -/
abbrev Hearing := VoteType → ℕ → Option BlockId → KeyId → Prop

namespace PersistedState

/-- The durable state after an output. -/
def after (P : PersistedState) : Output → PersistedState
  | .persist record => P.apply record
  | _ => P

/-- The durable state after a list of outputs. -/
def afterAll (P : PersistedState) (out : List Output) : PersistedState := out.foldl after P

@[simp]
theorem afterAll_nil (P : PersistedState) : P.afterAll [] = P := rfl

@[simp]
theorem afterAll_cons (P : PersistedState) (o : Output) (out : List Output) :
    P.afterAll (o :: out) = (P.after o).afterAll out := rfl

@[simp]
theorem afterAll_append (P : PersistedState) (out out' : List Output) :
    P.afterAll (out ++ out') = (P.afterAll out).afterAll out' := List.foldl_append

end PersistedState

section Justified

variable (x : Setting) (H : Hearing) (P : PersistedState)

/-- A vote is heard from its voter, or is in the own journal. -/
def Heard (kind : VoteType) (r : ℕ) (v : Option BlockId) (k : KeyId) : Prop :=
  H kind r v k ∨ x.signer = some ⟨k⟩ ∧ P.votes[(kind, r)]? = some v

/-- A quorum of votes for a block. -/
def Quorum (kind : VoteType) (r : ℕ) (id : BlockId) : Prop :=
  ∃ S : Finset KeyId, x.set.quorum ≤ ∑ k ∈ S, x.set.weight k ∧
    ∀ k ∈ S, Heard x H P kind r (some id) k

/-- What allows a vote for a block in round `r`. -/
def MayVote (r : ℕ) (id : BlockId) : VoteType → Prop
  | .prevote => ∀ lr lb, P.locked = some (lr, lb) →
      lb.id = id ∨ ∃ vr ≥ lr, Quorum x H P .prevote vr id
  | .precommit => Quorum x H P .prevote r id ∧ ∃ b, P.locked = some (r, b) ∧ b.id = id

/-- What allows a record, after the height itself was recorded. -/
def RecordJustified : PersistRecord → Prop
  | .height _ => P.started = false
  | .voteSlot kind _ r v => P.height = x.height ∧ P.started = true ∧ r = P.round ∧
      P.votes[(kind, r)]? = none ∧ ∀ id, v = some id → MayVote x H P r id kind
  | .proposalSlot _ _ _ _ => P.height = x.height
  | .lock _ r b => P.height = x.height ∧ P.started = true ∧ r = P.round ∧
      Quorum x H P .prevote r b.id
  | .roundState _ r _ => P.height = x.height ∧ P.round ≤ r

/-- What allows an output in the durable state `P`. -/
def Justified : Output → Prop
  | .persist record => x.signer.isSome ∧ record.recordHeight = x.height ∧ RecordJustified x H P record
  | .broadcast (.vote v) => ∃ key kind r value, x.signer = some key ∧
      v = .sign key x.cfg.chainId kind x.height r value ∧ P.votes[(kind, r)]? = some value
  | .broadcast (.proposal p) => ∃ key r pol b, x.signer = some key ∧
      p = .sign key x.cfg.chainId x.height r pol b
  | .commit b _ => ∃ r, Quorum x H P .precommit r b.id
  | _ => True

/-- Outputs that are justified one after the other. -/
def Emits : PersistedState → List Output → Prop
  | _, [] => True
  | P, o :: out => Justified x H P o ∧ Emits (P.after o) out

/-- What justified records leave behind. -/
structure Durable : Prop where
  height : P.height = x.height ∨ P = {}
  signer : P.started = true → x.signer.isSome
  idle : P.started = false → P.votes = ∅ ∧ P.locked = none ∧ P.round = 0
  voted : ∀ (kind : VoteType) (r : ℕ) v, P.votes[(kind, r)]? = some v → r ≤ P.round
  locked : ∀ r b, P.locked = some (r, b) → r ≤ P.round ∧ Quorum x H P .prevote r b.id
  precommitted : ∀ r id, P.votes[(VoteType.precommit, r)]? = some (some id) →
    ∃ lr lb, P.locked = some (lr, lb) ∧ r ≤ lr

end Justified

variable {x : Setting} {H H' : Hearing} {P P' : PersistedState} {out out' : List Output}

theorem emits_append : Emits x H P (out ++ out') ↔
    Emits x H P out ∧ Emits x H (P.afterAll out) out' := by
  induction out generalizing P with
  | nil => simp [Emits]
  | cons o out ih => simp [Emits, ih, and_assoc]

theorem emits_evidence (ev : Option Evidence) : Emits x H P (ev.toList.map .evidence) := by
  cases ev with
  | none => exact trivial
  | some ev => exact ⟨trivial, trivial⟩

@[simp]
theorem PersistedState.afterAll_evidence (ev : Option Evidence) :
    P.afterAll (ev.toList.map .evidence) = P := by
  cases ev <;> rfl

theorem Quorum.mono {kind : VoteType} {r : ℕ} {id : BlockId} (hq : Quorum x H P kind r id)
    (hheard : ∀ k, Heard x H P kind r (some id) k → Heard x H' P' kind r (some id) k) :
    Quorum x H' P' kind r id := by
  obtain ⟨S, hS, hvotes⟩ := hq
  exact ⟨S, hS, fun k hk => hheard k (hvotes k hk)⟩

/-! ## Hearing more -/

theorem Quorum.hear (hH : H ≤ H') {kind : VoteType} {r : ℕ} {id : BlockId}
    (hq : Quorum x H P kind r id) : Quorum x H' P kind r id :=
  hq.mono fun k hk => hk.imp_left (hH kind r (some id) k)

theorem MayVote.hear (hH : H ≤ H') {r : ℕ} {id : BlockId} {kind : VoteType}
    (hm : MayVote x H P r id kind) : MayVote x H' P r id kind := by
  cases kind with
  | prevote =>
    intro lr lb hl
    rcases hm lr lb hl with heq | ⟨vr, hle, hq⟩
    · exact .inl heq
    · exact .inr ⟨vr, hle, hq.hear hH⟩
  | precommit => exact ⟨hm.1.hear hH, hm.2⟩

/-- Hearing more votes does not take a justification away. -/
theorem Justified.hear (hH : H ≤ H') {o : Output} (hj : Justified x H P o) :
    Justified x H' P o := by
  cases o with
  | persist record =>
    obtain ⟨hs, hheight, hj⟩ := hj
    refine ⟨hs, hheight, ?_⟩
    cases record with
    | voteSlot =>
      obtain ⟨h₁, h₂, h₃, h₄, hmay⟩ := hj
      exact ⟨h₁, h₂, h₃, h₄, fun id hid => (hmay id hid).hear hH⟩
    | lock => exact ⟨hj.1, hj.2.1, hj.2.2.1, hj.2.2.2.hear hH⟩
    | height | proposalSlot | roundState => exact hj
  | commit =>
    obtain ⟨r, hq⟩ := hj
    exact ⟨r, hq.hear hH⟩
  | broadcast msg =>
    cases msg with
    | vote | proposal => exact hj
  | setTimer | wakeAtHeaderTime | needBlock | evidence => exact hj

theorem Emits.hear (hH : H ≤ H') (he : Emits x H P out) : Emits x H' P out := by
  induction out generalizing P with
  | nil => exact trivial
  | cons o out ih => exact ⟨he.1.hear hH, ih he.2⟩

theorem Durable.hear (hH : H ≤ H') (hd : Durable x H P) : Durable x H' P where
  __ := hd
  locked r b hl := ⟨(hd.locked r b hl).1, (hd.locked r b hl).2.hear hH⟩

/-! ## Records -/

theorem apply_eq_write {record : PersistRecord} (h : record.recordHeight = P.height) :
    P.apply record = P.write record := by
  rw [PersistedState.apply, h, if_neg (lt_irrefl _), if_neg (lt_irrefl _)]

theorem votes_write {record : PersistRecord} {slot : VoteType × ℕ} {v : Option BlockId}
    (h : P.votes[slot]? = some v) : (P.write record).votes[slot]? = some v := by
  cases record with
  | voteSlot kind _ r value =>
    rw [PersistedState.write, getElem?_insertIfNew_eq, if_neg]
    · exact h
    · rintro ⟨rfl, hnone⟩
      exact absurd (hnone.symm.trans h) (by simp)
  | height | proposalSlot | lock | roundState => exact h

namespace Durable

/-- Only the record of the height can find a state of another height, and then an empty one. -/
theorem apply_cases (hd : Durable x H P) {record : PersistRecord}
    (hj : Justified x H P (.persist record)) :
    P.apply record = { height := x.height } ∧ P = {} ∨
      P.height = x.height ∧ P.apply record = P.write record := by
  obtain ⟨-, hheight, hj⟩ := hj
  by_cases hP : P.height = x.height
  · exact .inr ⟨hP, apply_eq_write (hheight.trans hP.symm)⟩
  · obtain rfl := hd.height.resolve_left hP
    cases record with
    | height n =>
      obtain rfl : n = x.height := hheight
      have hlt : 0 < x.height := Nat.pos_of_ne_zero fun h => hP h.symm
      refine .inl ⟨?_, rfl⟩
      rw [PersistedState.apply, PersistRecord.recordHeight, if_neg (Nat.not_lt_zero _), if_pos hlt]
      rfl
    | voteSlot => exact absurd hj.1 hP
    | proposalSlot => exact absurd hj hP
    | lock => exact absurd hj.1 hP
    | roundState => exact absurd hj.1 hP

/-- A slot, once durable, keeps its value. -/
theorem votes_apply (hd : Durable x H P) {record : PersistRecord}
    (hj : Justified x H P (.persist record)) {slot : VoteType × ℕ} {v : Option BlockId}
    (h : P.votes[slot]? = some v) : (P.apply record).votes[slot]? = some v := by
  rcases hd.apply_cases hj with ⟨-, rfl⟩ | ⟨-, happly⟩
  · exact absurd h (by simp)
  · rw [happly]
    exact votes_write h

theorem heard_apply (hd : Durable x H P) {record : PersistRecord}
    (hj : Justified x H P (.persist record)) {kind : VoteType} {r : ℕ} {v : Option BlockId}
    {k : KeyId} (h : Heard x H P kind r v k) : Heard x H (P.apply record) kind r v k :=
  h.imp_right fun hown => ⟨hown.1, hd.votes_apply hj hown.2⟩

theorem quorum_apply (hd : Durable x H P) {record : PersistRecord}
    (hj : Justified x H P (.persist record)) {kind : VoteType} {r : ℕ} {id : BlockId}
    (h : Quorum x H P kind r id) : Quorum x H (P.apply record) kind r id :=
  h.mono fun _ => hd.heard_apply hj

theorem of_height : Durable x H { height := x.height } where
  height := .inl rfl
  signer := by simp
  idle := by simp
  voted := by simp
  locked := by simp
  precommitted := by simp

/-- A justified record keeps the durable state in order. -/
theorem apply (hd : Durable x H P) {record : PersistRecord}
    (hj : Justified x H P (.persist record)) : Durable x H (P.apply record) := by
  have hquorum : ∀ {r id}, Quorum x H P .prevote r id →
      Quorum x H (P.apply record) .prevote r id := hd.quorum_apply hj
  rcases hd.apply_cases hj with ⟨happly, -⟩ | ⟨hP, happly⟩
  · rw [happly]
    exact of_height
  · rw [happly] at hquorum ⊢
    obtain ⟨hsigner, -, hj⟩ := hj
    cases record with
    | height => exact hd
    | proposalSlot h r pol b =>
      exact ⟨.inl hP, hd.signer, hd.idle, hd.voted,
        fun r b hl => ⟨(hd.locked r b hl).1, hquorum (hd.locked r b hl).2⟩, hd.precommitted⟩
    | roundState h r valid =>
      have hle : P.round ≤ max P.round r := le_max_left _ _
      exact ⟨.inl hP, fun _ => hsigner, by simp [PersistedState.write],
        fun kind r v hv => (hd.voted kind r v hv).trans hle,
        fun r b hl => ⟨(hd.locked r b hl).1.trans hle, hquorum (hd.locked r b hl).2⟩,
        hd.precommitted⟩
    | lock h r b =>
      obtain ⟨-, hstarted, rfl, hq⟩ := hj
      refine ⟨.inl hP, hd.signer, fun h => absurd (h.symm.trans hstarted) (by simp), hd.voted, ?_, ?_⟩
      · rintro _ _ ⟨⟩
        exact ⟨le_rfl, hquorum hq⟩
      · exact fun r id hv => ⟨P.round, b, rfl, hd.voted _ r _ hv⟩
    | voteSlot kind h r value =>
      obtain ⟨-, hstarted, rfl, hfree, hmay⟩ := hj
      refine ⟨.inl hP, hd.signer, fun h => absurd (h.symm.trans hstarted) (by simp), ?_,
        fun r b hl => ⟨(hd.locked r b hl).1, hquorum (hd.locked r b hl).2⟩, ?_⟩
      · intro kind' r' v hv
        rw [PersistedState.write, getElem?_insertIfNew_eq] at hv
        split at hv
        · next heq => exact (congrArg Prod.snd heq.1).ge
        · exact hd.voted kind' r' v hv
      · intro r' id hv
        rw [PersistedState.write, getElem?_insertIfNew_eq] at hv
        split at hv
        · -- The new slot: the lock was taken in this very round.
          next heq =>
          obtain ⟨rfl, rfl⟩ := Prod.mk.inj heq.1
          obtain ⟨b, hb, -⟩ := (hmay id (Option.some.inj hv)).2
          exact ⟨P.round, b, hb, le_rfl⟩
        · exact hd.precommitted r' id hv

theorem after (hd : Durable x H P) {o : Output} (hj : Justified x H P o) :
    Durable x H (P.after o) := by
  cases o with
  | persist record => exact hd.apply hj
  | broadcast | setTimer | wakeAtHeaderTime | needBlock | commit | evidence => exact hd

theorem afterAll (hd : Durable x H P) (he : Emits x H P out) : Durable x H (P.afterAll out) := by
  induction out generalizing P with
  | nil => exact hd
  | cons o out ih => exact ih (hd.after he.1) he.2

end Durable

end RougeChain.Consensus
