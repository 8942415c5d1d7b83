import RougeChain.Consensus.Machine
import Mathlib.Logic.Relation

/-!
# What the rules change

Whatever a machine does with an input is a chain of small changes, each of which
touches one part of the machine and writes at most the record that belongs to it.

* `Turn.Change`: the changes that an input can lead to, with what the rule that makes them has
  checked;
* `Turn.changes_pass`, `Turn.changes_evaluate`: the rules make nothing but changes;
* `Machine.prepare`: what `handle` does before it runs the rules
  (`Machine.handle_eq`), again a chain of changes (`Machine.changes_prepare`).

An invariant of the machine is then shown change by change.
-/

namespace RougeChain.Consensus

open Relation (ReflTransGen)
open Std (ExtTreeMap)

/-- The machine is in a round of the height. -/
def Step.Active (s : Step) : Prop := s ≠ .newHeight ∧ s ≠ .committed

theorem Step.active_propose : Active .propose := ⟨nofun, nofun⟩

theorem Step.active_prevote : Active .prevote := ⟨nofun, nofun⟩

theorem Step.active_precommit : Active .precommit := ⟨nofun, nofun⟩

namespace Machine

/-- The fields that the changes below are about. -/
def main (m : Machine) :=
  (m.cfg, m.height, m.round, m.step, m.locked, m.valid, m.set, m.rounds, m.blocks, m.journal,
    m.myProposals, m.lastCommit)

/-- A vote of the height by a member, with its signature. -/
def Counts (m : Machine) (v : Vote) : Prop :=
  v.height = m.height ∧ m.set.contains v.voter = true ∧ v.verify .V3 m.cfg.chainId = true

/-- An own vote, which is in the journal. -/
def OwnVote (m : Machine) (v : Vote) : Prop :=
  ∃ key kind r value, m.signer = some key ∧ v = .sign key m.cfg.chainId kind m.height r value ∧
    m.journal[(kind, r)]? = some value

/-- Outputs that are neither records nor decisions, and do not start a round; a message is one
    that the machine has kept. -/
def MaySend (m : Machine) : Output → Prop
  | .persist _ => False
  | .commit _ _ => False
  | .setTimer kind _ _ _ => kind ≠ .propose
  | .broadcast (.vote v) => m.OwnVote v
  | .broadcast (.proposal p) => m.signer.isSome ∧ ∃ r : ℕ, m.myProposals[r]? = some p
  | _ => True

/-- What a vote for a block is journaled on: a prevote on the decision about the proposals, a
    precommit on the lock, with the quorum that the lock rests on. -/
def MayCast (m : Machine) (id : BlockId) : VoteType → Prop
  | .prevote => m.prevoteDecision = some (some id)
  | .precommit => m.locked = some (m.round, id) ∧
      m.set.quorum ≤ (m.book m.round).prevotes.weightFor (some id)

/-- Store the outcome of counting a vote. -/
def countVote (m : Machine) (v : Vote) (known : Bool) : Machine :=
  let b := m.book v.round
  m.setBook v.round
    (b.setTally v.kind ((b.tally v.kind).record (m.set.weight v.voter) known v).1)

/-- Take a late precommit for the block below. -/
def takeLate (m : Machine) (lc : LastCommit) (vote : Vote) : Machine :=
  { m with lastCommit := some { lc with sigs := lc.sigs.insert vote.voter vote.sig } }

variable {m : Machine}

@[simp]
theorem book_setBook (m : Machine) (r r' : ℕ) (b : RoundBook) :
    (m.setBook r b).book r' = if r = r' then b else m.book r' := by
  simp only [book, setBook, getElem?_insert_eq]
  split <;> rfl

/-- Writing a book with the same votes. -/
theorem tally_setBook {r : ℕ} {b : RoundBook} (hb : ∀ kind, b.tally kind = (m.book r).tally kind)
    (r' : ℕ) (kind : VoteType) :
    ((m.setBook r b).book r').tally kind = (m.book r').tally kind := by
  rw [book_setBook]
  split
  · next h => rw [hb, h]
  · rfl

theorem tally_noteSender (r : ℕ) (key : KeyId) (r' : ℕ) (kind : VoteType) :
    ((m.noteSender r key).book r').tally kind = (m.book r').tally kind := by
  refine tally_setBook (fun kind => ?_) r' kind
  split
  · rfl
  · cases kind <;> rfl

/-- Recording a proposal touches no vote. -/
theorem tally_recordProposal (p : Proposal) (verdict : Verdict) (r : ℕ) (kind : VoteType) :
    ((m.recordProposal p verdict).book r).tally kind = (m.book r).tally kind := by
  refine Eq.trans ?_ (tally_noteSender p.round p.proposer r kind)
  rw [recordProposal]
  dsimp only
  split
  · exact tally_setBook (fun kind => by cases kind <;> rfl) r kind
  · split
    · rfl
    · exact tally_setBook (m := { m.noteSender p.round p.proposer with
        blocks := (m.noteSender p.round p.proposer).blocks.insert p.block.id p.block })
        (fun kind => by cases kind <;> rfl) r kind

theorem succRound_le {r : ℕ} : r ≤ succRound r := by
  rw [succRound]
  split
  · exact Nat.le_succ r
  · exact le_rfl

theorem skipTarget_spec {r : ℕ} (h : m.skipTarget = some r) : m.round ≤ r := by
  obtain ⟨⟨r', b⟩, hmem, rfl⟩ := List.mem_map.1 (List.mem_of_getLast? h)
  have hr := (List.mem_filter.1 hmem).2
  simp only [Bool.and_eq_true, decide_eq_true_eq] at hr
  exact succRound_le.trans hr.1

theorem recordProposal_place (m : Machine) (p : Proposal) (verdict : Verdict) :
    (m.recordProposal p verdict).step = m.step ∧ (m.recordProposal p verdict).round = m.round := by
  rw [Machine.recordProposal]
  dsimp only
  split
  · exact ⟨rfl, rfl⟩
  · split <;> exact ⟨rfl, rfl⟩

end Machine

/-- A late precommit: of the block below, by a member who was not heard yet. -/
def LastCommit.Awaits (lc : LastCommit) (chainId : String) (vote : Vote) : Prop :=
  vote.height = lc.height ∧ vote.kind = .precommit ∧ vote.round = lc.round ∧
    vote.block = some lc.block ∧ lc.set.contains vote.voter = true ∧
    (!lc.sigs.contains vote.voter) = true ∧ vote.verify .V3 chainId = true

instance (lc : LastCommit) (chainId : String) (vote : Vote) : Decidable (lc.Awaits chainId vote) :=
  inferInstanceAs (Decidable (_ ∧ _))

namespace Turn

/-- Journal an own proposal, and keep it. -/
def journalProposal (t : Turn) (key : SigningKey) (r : ℕ) (pol : Option ℕ) (block : Block) : Turn :=
  let p := Proposal.sign key t.m.cfg.chainId t.m.height r pol block
  let m := { t.m with myProposals := t.m.myProposals.insert r p }
  { m := m.recordProposal p .valid
    out := t.out ++ [.persist (.proposalSlot t.m.height r pol block)] }

/-- Be in `round`; a signer records it. -/
def beginRound (t : Turn) (round : ℕ) : Turn :=
  let t := ({ t with m := t.m.toRound round } : Turn).persistRoundState
  t.emit (.setTimer .propose t.m.height round (t.m.cfg.timeouts.propose round))

/-- Lock a block; a signer records the lock. -/
def lock (t : Turn) (id : BlockId) (block : Block) : Turn :=
  let t : Turn := { t with m := t.m.setLocked t.m.round id }
  if t.m.signer.isSome then t.emit (.persist (.lock t.m.height t.m.round block)) else t

/-- One change on the way of an input. -/
inductive Change (i : Input) : Turn → Turn → Prop
  | emit {t : Turn} {o : Output} : t.m.MaySend o → Change i t (t.emit o)
  /-- A field that the other changes do not touch. -/
  | aside {t : Turn} {m : Machine} : m.main = t.m.main → Change i t { t with m }
  /-- The senders, the invalid blocks or the timers of a round. -/
  | book {t : Turn} {r : ℕ} {b : RoundBook} :
      (∀ kind, b.tally kind = (t.m.book r).tally kind) →
      b.proposals = (t.m.book r).proposals → Change i t { t with m := t.m.setBook r b }
  | proposal {t : Turn} (p : Proposal) (verdict : Verdict) :
      Change i t { t with m := t.m.recordProposal p verdict }
  | vote {t : Turn} {v : Vote} (known : Bool) :
      t.m.Counts v → t.m.OwnVote v ∨ i = .vote v → Change i t { t with m := t.m.countVote v known }
  | slot {t : Turn} {kind : VoteType} {value : Option BlockId} :
      t.m.step.Active → t.m.signer.isSome → t.m.journal[(kind, t.m.round)]? = none →
      (∀ id, value = some id → t.m.MayCast id kind) → Change i t (t.journalVote kind value)
  | ownProposal {t : Turn} {key : SigningKey} {r : ℕ} (pol : Option ℕ) (block : Block) :
      t.m.step.Active → t.m.signer = some key → t.m.myProposals[r]? = none →
      Change i t (t.journalProposal key r pol block)
  | enter {t : Turn} {r : ℕ} :
      t.m.step ≠ .committed → (t.m.step ≠ .newHeight → t.m.round ≤ r) →
      Change i t (t.beginRound r)
  | valid {t : Turn} {id : BlockId} {block : Block} :
      t.m.step.Active → t.m.blocks[id]? = some block →
      Change i t ({ t with m := t.m.markValid id } : Turn).persistRoundState
  | lock {t : Turn} {id : BlockId} {block : Block} :
      t.m.step.Active → t.m.blocks[id]? = some block → t.m.valid = some (t.m.round, id) →
      t.m.set.quorum ≤ (t.m.book t.m.round).prevotes.weightFor (some id) →
      Change i t (t.lock id block)
  | step {t : Turn} {s : Step} : t.m.step.Active → s.Active → Change i t (t.setStep s)
  | commit {t : Turn} {r : ℕ} {id : BlockId} {block : Block} :
      t.m.step ≠ .committed → t.m.commitTarget = some (r, id) → t.m.blocks[id]? = some block →
      Change i t (t.decideBlock block r (t.m.commitSigs r id))
  | catchUp {t : Turn} {block : Block} {cert : CommitCert} {verdict : Verdict} {stake : ℕ} :
      i = .catchUp block cert verdict → t.m.step ≠ .committed → cert.height = t.m.height →
      cert.block = block.id → cert.verify .V3 t.m.cfg.chainId t.m.set = .ok stake →
      Change i t (t.decideBlock block cert.round (.ofList cert.sigs))
  | late {t : Turn} {lc : LastCommit} {vote : Vote} :
      t.m.lastCommit = some lc → lc.Awaits t.m.cfg.chainId vote →
      Change i t { t with m := t.m.takeLate lc vote }

/-- Changes one after the other. -/
abbrev Changes (i : Input) : Turn → Turn → Prop := ReflTransGen (Change i)

variable {i : Input} {t t' : Turn} {fuel : ℕ}

/-- What every change keeps, a chain of changes keeps. -/
theorem Changes.keep {I : Turn → Prop} (hstep : ∀ {t t'}, Change i t t' → I t → I t')
    (h : Changes i t t') (ht : I t) : I t' := by
  induction h with
  | refl => exact ht
  | tail _ hchange ih => exact hstep hchange ih

/-- A relation to the turn before that every change prolongs. -/
theorem Changes.relate {R : Turn → Turn → Prop} (hrefl : ∀ t, R t t)
    (hstep : ∀ {t t₁ t₂}, R t t₁ → Change i t₁ t₂ → R t t₂) (h : Changes i t t') : R t t' := by
  induction h with
  | refl => exact hrefl t
  | tail _ hchange ih => exact hstep ih hchange

/-! ## Votes and proposals -/

theorem persistRoundState_m (t : Turn) : t.persistRoundState.m = t.m := by
  rw [persistRoundState]
  split <;> rfl

theorem changes_noteSender (r : ℕ) (key : KeyId) :
    Change i t { t with m := t.m.noteSender r key } := by
  refine .book (fun kind => ?_) ?_
  · split
    · rfl
    · cases kind <;> rfl
  · split <;> rfl

theorem main_noteVoter (m : Machine) (key : KeyId) : (m.noteVoter key).main = m.main := by
  rw [Machine.noteVoter]
  split <;> rfl

/-- Recording a proposal touches the book of its round, and may add its block. -/
theorem recordProposal_frame (m : Machine) (p : Proposal) (verdict : Verdict) :
    ∃ rounds blocks, m.recordProposal p verdict = { m with rounds, blocks } ∧
      (blocks = m.blocks ∨ blocks = m.blocks.insert p.block.id p.block) := by
  rw [Machine.recordProposal]
  dsimp only
  split
  · exact ⟨_, _, rfl, .inl rfl⟩
  · split
    · exact ⟨_, _, rfl, .inl rfl⟩
    · exact ⟨_, _, rfl, .inr rfl⟩

theorem journalProposal_frame (t : Turn) (key : SigningKey) (r : ℕ) (pol : Option ℕ)
    (block : Block) : ∃ rounds blocks, (t.journalProposal key r pol block).m = { t.m with
      rounds, blocks
      myProposals := t.m.myProposals.insert r
        (.sign key t.m.cfg.chainId t.m.height r pol block) } := by
  obtain ⟨rounds, blocks, heq, -⟩ := recordProposal_frame { t.m with
    myProposals := t.m.myProposals.insert r
      (.sign key t.m.cfg.chainId t.m.height r pol block) }
    (.sign key t.m.cfg.chainId t.m.height r pol block) .valid
  exact ⟨rounds, blocks, heq⟩

theorem changes_evidence (ev : Option Evidence) :
    Changes i t { t with out := t.out ++ ev.toList.map .evidence } := by
  cases ev with
  | none => simpa using ReflTransGen.refl
  | some ev => exact .single (.emit (o := .evidence ev) trivial)

theorem changes_recordVote {vote : Vote} (hvote : t.m.Counts vote)
    (hfrom : t.m.OwnVote vote ∨ i = .vote vote) : Changes i t (t.recordVote vote) := by
  have hsender : Change i t _ := changes_noteSender vote.round vote.voter
  have hvoter : Change i { t with m := t.m.noteSender vote.round vote.voter } _ :=
    .aside (main_noteVoter (t.m.noteSender vote.round vote.voter) vote.voter)
  have hcounts : ((t.m.noteSender vote.round vote.voter).noteVoter vote.voter).Counts vote ∧
      (((t.m.noteSender vote.round vote.voter).noteVoter vote.voter).OwnVote vote ∨
        i = .vote vote) := by
    rw [Machine.noteVoter]
    split <;> exact ⟨hvote, hfrom⟩
  have hcount := Change.vote (t := { t with
    m := (t.m.noteSender vote.round vote.voter).noteVoter vote.voter })
    (vote.block.all fun id =>
      ((t.m.noteSender vote.round vote.voter).noteVoter vote.voter).blocks.contains id)
    hcounts.1 hcounts.2
  exact (((ReflTransGen.single hsender).tail hvoter).tail hcount).trans (changes_evidence _)

theorem signer_mem {key : SigningKey} (h : t.m.signer = some key) :
    t.m.set.contains key.id = true :=
  (Option.filter_eq_some_iff.1 h).2

theorem changes_sendVote {key : SigningKey} (hkey : t.m.signer = some key) {kind : VoteType} {r : ℕ}
    {value : Option BlockId} (hslot : t.m.journal[(kind, r)]? = some value) :
    Changes i t (t.sendVote key kind r value) := by
  have hown : t.m.OwnVote (.sign key t.m.cfg.chainId kind t.m.height r value) :=
    ⟨key, kind, r, value, hkey, rfl, hslot⟩
  have hcounts : (t.emit (.broadcast (.vote (.sign key t.m.cfg.chainId kind t.m.height r
      value)))).m.Counts (.sign key t.m.cfg.chainId kind t.m.height r value) :=
    ⟨rfl, signer_mem hkey, Vote.verify_signIn _ _ _ _ _ _ _⟩
  exact (ReflTransGen.single (.emit hown)).trans (changes_recordVote hcounts (.inl hown))

/-- Casting a vote that may be cast. -/
theorem changes_cast (hactive : t.m.step.Active) {kind : VoteType} {value : Option BlockId}
    (hmay : ∀ id, value = some id → t.m.MayCast id kind) : Changes i t (t.cast kind value) := by
  rw [cast]
  split
  · exact .refl
  · next key hkey =>
    split
    · next hslot => exact changes_sendVote hkey hslot
    · next hfree =>
      have hjournal : Change i t (t.journalVote kind value) :=
        .slot hactive (by simp [hkey]) hfree hmay
      have hkey' : (t.journalVote kind value).m.signer = some key := hkey
      exact (ReflTransGen.single hjournal).trans
        (changes_sendVote hkey' ExtTreeMap.getElem?_insert_self)

theorem changes_propose (hactive : t.m.step.Active) {key : SigningKey} {r : ℕ}
    (hkey : t.m.signer = some key) (hfree : t.m.myProposals[r]? = none) (pol : Option ℕ)
    (block : Block) : Changes i t (t.propose key r pol block) := by
  have hmay : (t.journalProposal key r pol block).m.MaySend (.broadcast (.proposal
      (.sign key t.m.cfg.chainId t.m.height r pol block))) := by
    obtain ⟨_, _, hm⟩ := journalProposal_frame t key r pol block
    rw [hm]
    exact ⟨Option.isSome_iff_exists.2 ⟨key, hkey⟩, r, ExtTreeMap.getElem?_insert_self⟩
  have heq : (t.journalProposal key r pol block).emit (.broadcast (.proposal
      (.sign key t.m.cfg.chainId t.m.height r pol block))) = t.propose key r pol block := by
    simp [journalProposal, propose, emit]
  exact heq ▸ (ReflTransGen.single (.ownProposal pol block hactive hkey hfree)).tail
    (.emit hmay)

theorem changes_proposeIn (hactive : t.m.step.Active) {key : SigningKey}
    (hkey : t.m.signer = some key) (r : ℕ) : Changes i t (t.proposeIn key r) := by
  rw [proposeIn]
  split
  · next p hp =>
    have hmay : t.m.MaySend (.broadcast (.proposal p)) :=
      ⟨Option.isSome_iff_exists.2 ⟨key, hkey⟩, r, hp⟩
    exact (ReflTransGen.single (.emit hmay)).tail (.proposal p .valid)
  · next hfree =>
    split
    · split
      · exact changes_propose hactive hkey hfree _ _
      · exact .refl
    · exact (ReflTransGen.single (.emit (o := .needBlock t.m.height r) trivial)).tail (.aside rfl)

theorem changes_proposeIfDue (hactive : t.m.step.Active) (r : ℕ) :
    Changes i t (t.proposeIfDue r) := by
  rw [proposeIfDue]
  split
  · exact .refl
  · next key hkey =>
    have hcache : Change i t { t with m := { t.m with proposers := (t.m.proposers.get r).2 } } :=
      .aside rfl
    dsimp only
    split
    · exact (ReflTransGen.single hcache).trans (changes_proposeIn (t := { t with
        m := { t.m with proposers := (t.m.proposers.get r).2 } }) hactive hkey r)
    · exact .single hcache

theorem place_proposeIfDue (t : Turn) (r : ℕ) :
    (t.proposeIfDue r).m.round = t.m.round ∧ (t.proposeIfDue r).m.step = t.m.step := by
  have hrecord (m : Machine) (p : Proposal) :
      (m.recordProposal p .valid).round = m.round ∧ (m.recordProposal p .valid).step = m.step :=
    (m.recordProposal_place p .valid).symm
  rw [proposeIfDue]
  split
  · exact ⟨rfl, rfl⟩
  · dsimp only
    split
    · rw [proposeIn]
      split
      · exact hrecord _ _
      · split
        · split
          · exact hrecord _ _
          · exact ⟨rfl, rfl⟩
        · exact ⟨rfl, rfl⟩
    · exact ⟨rfl, rfl⟩

theorem beginRound_m (r : ℕ) : (t.beginRound r).m = t.m.toRound r :=
  persistRoundState_m { t with m := t.m.toRound r }

theorem changes_enterRound {r : ℕ} (hcom : t.m.step ≠ .committed)
    (hr : t.m.step ≠ .newHeight → t.m.round ≤ r) : Changes i t (t.enterRound r) := by
  have hactive : (t.beginRound r).m.step.Active := by
    rw [beginRound_m]
    exact Step.active_propose
  exact (ReflTransGen.single (.enter hcom hr)).trans (changes_proposeIfDue hactive r)

/-! ## The rules -/

theorem changes_tryCommit (hcom : t.m.step ≠ .committed) (h : t.tryCommit = some t') :
    Change i t t' := by
  simp only [tryCommit, Option.bind_eq_bind, Option.bind_eq_some_iff] at h
  obtain ⟨⟨r, id⟩, htarget, block, hblock, h⟩ := h
  exact Option.some.inj h ▸ .commit hcom htarget hblock

theorem place_recordVote (vote : Vote) :
    (t.recordVote vote).m.step = t.m.step ∧ (t.recordVote vote).m.round = t.m.round := by
  rw [recordVote, Machine.noteVoter]
  dsimp only
  split <;> exact ⟨rfl, rfl⟩

theorem place_cast (kind : VoteType) (value : Option BlockId) :
    (t.cast kind value).m.step = t.m.step ∧ (t.cast kind value).m.round = t.m.round := by
  rw [cast]
  split
  · exact ⟨rfl, rfl⟩
  · split
    · exact place_recordVote (t := t.emit _) _
    · exact place_recordVote (t := (t.journalVote kind value).emit _) _

/-- Casting a vote, and going a step further. -/
theorem changes_castStep (hactive : t.m.step.Active) {kind : VoteType} {value : Option BlockId}
    {s : Step} (hs : s.Active) (hmay : ∀ id, value = some id → t.m.MayCast id kind) :
    Changes i t ((t.cast kind value).setStep s) := by
  refine (changes_cast hactive hmay).tail (.step ?_ hs)
  rw [(place_cast kind value).1]
  exact hactive

theorem changes_tryPrevote (hstep : t.m.step = .propose) (h : t.tryPrevote = some t') :
    Changes i t t' := by
  simp only [tryPrevote, Option.bind_eq_bind, Option.bind_eq_some_iff] at h
  obtain ⟨value, hvalue, h⟩ := h
  refine Option.some.inj h ▸ changes_castStep ?_ Step.active_prevote fun id hid => ?_
  · rw [hstep]
    exact Step.active_propose
  · rw [Machine.MayCast, hvalue, hid]

theorem lock_m (id : BlockId) (block : Block) :
    (t.lock id block).m = t.m.setLocked t.m.round id := by
  rw [lock]
  dsimp only
  split <;> rfl

/-- Locking the block that just became the valid one, and precommitting it. -/
theorem changes_lockOn (hactive : t.m.step.Active) {id : BlockId} {block : Block}
    (hblock : t.m.blocks[id]? = some block)
    (hvalid : t.m.valid = some (t.m.round, id))
    (hq : t.m.set.quorum ≤ (t.m.book t.m.round).prevotes.weightFor (some id)) :
    Changes i t (t.lockOn t.m.round id block) := by
  have hlock : Change i t (t.lock id block) := .lock hactive hblock hvalid hq
  have hm := lock_m (t := t) id block
  have hactive' : (t.lock id block).m.step.Active := by
    rw [hm]
    exact hactive
  have hcast : Changes i (t.lock id block) ((t.lock id block).cast .precommit (some id)) := by
    refine changes_cast hactive' fun id' hid' => ?_
    obtain rfl := Option.some.inj hid'
    rw [hm]
    exact ⟨rfl, hq⟩
  refine ((ReflTransGen.single hlock).trans hcast).tail (.step ?_ Step.active_precommit)
  rw [(place_cast _ _).1]
  exact hactive'

theorem changes_tryLock (hcom : t.m.step ≠ .committed) (h : t.tryLock = some t') :
    Changes i t t' := by
  rw [tryLock] at h
  dsimp only at h
  split at h
  · exact absurd h (by simp)
  · next hstep =>
    push Not at hstep
    simp only [Option.bind_eq_bind, Option.bind_eq_some_iff] at h
    obtain ⟨id, hid, block, hblock, h⟩ := h
    obtain rfl := Option.some.inj h
    have hq : t.m.set.quorum ≤ (t.m.book t.m.round).prevotes.weightFor (some id) := by
      simpa using List.find?_some hid
    have hactive : t.m.step.Active := ⟨hstep.1, hcom⟩
    have hvalid : Change i t ({ t with m := t.m.markValid id } : Turn).persistRoundState :=
      .valid hactive hblock
    have hm := persistRoundState_m { t with m := t.m.markValid id }
    generalize persistRoundState _ = t₁ at hvalid hm ⊢
    have hm : t₁.m = t.m.markValid id := hm
    have hround : t₁.m.round = t.m.round := by rw [hm]; rfl
    split
    · rw [← hround]
      refine (ReflTransGen.single hvalid).trans (changes_lockOn ?_ ?_ ?_ ?_)
      · rw [hm]
        exact hactive
      · rw [hm]
        exact hblock
      · rw [hround, hm]
        rfl
      · have hbook : (t.m.markValid id).book t.m.round =
            { t.m.book t.m.round with validRuleDone := true } :=
          (Machine.book_setBook _ _ _ _).trans (if_pos rfl)
        rw [hround, hm, hbook]
        exact hq
    · exact .single hvalid

theorem changes_startTimer {kind : TimerKind} (hkind : kind ≠ .propose) {b : RoundBook}
    (hb : ∀ kind, b.tally kind = (t.m.book t.m.round).tally kind)
    (hp : b.proposals = (t.m.book t.m.round).proposals) : Changes i t (t.startTimer kind b) :=
  (ReflTransGen.single (.book hb hp)).tail (.emit hkind)

theorem changes_prevoteTimer : Changes i t t.prevoteTimer := by
  rw [prevoteTimer]
  split
  · exact changes_startTimer (by decide) (fun kind => by cases kind <;> rfl) rfl
  · exact .refl

theorem changes_precommitTimer : Changes i t t.precommitTimer := by
  rw [precommitTimer]
  split
  · exact changes_startTimer (by decide) (fun kind => by cases kind <;> rfl) rfl
  · exact .refl

theorem changes_voteRules (hactive : t.m.step.Active) : Changes i t t.voteRules.1 := by
  have hbook : Change i t { t with m := t.m.setBook t.m.round (t.m.book t.m.round) } :=
    .book (fun _ => rfl) rfl
  rw [voteRules]
  dsimp only
  refine (ReflTransGen.single hbook).trans ?_
  split
  · exact changes_castStep (t := { t with m := t.m.setBook t.m.round (t.m.book t.m.round) })
      hactive Step.active_precommit (by simp)
  · exact changes_prevoteTimer.trans changes_precommitTimer

/-- One pass over the rules. -/
theorem changes_pass : Changes i t t.pass.1 := by
  rw [pass]
  split
  · exact .refl
  · next hcom =>
    split
    · next h => exact .single (changes_tryCommit hcom h)
    · split
      · next hnew =>
        split
        · exact changes_enterRound hcom fun h => absurd hnew h
        · exact .refl
      · next hnew =>
        split
        · next r hr => exact changes_enterRound hcom fun _ => Machine.skipTarget_spec hr
        · split
          · next h =>
            split at h
            · next hstep => exact changes_tryPrevote hstep h
            · exact absurd h (by simp)
          · split
            · next h => exact changes_tryLock hcom h
            · exact changes_voteRules ⟨hnew, hcom⟩

/-- What every pass over the rules keeps, the whole loop keeps. -/
theorem evaluate_induction {motive : Turn → Prop}
    (hpass : ∀ t : Turn, motive t → motive t.pass.1) {t t' : Turn} {fuel : ℕ} (ht : motive t)
    (h : t.evaluate fuel = some t') : motive t' := by
  induction fuel generalizing t with
  | zero => exact absurd h (by simp [evaluate])
  | succ fuel ih =>
    have hnext := hpass t ht
    rw [evaluate] at h
    split at h
    · next t₁ heq =>
      rw [heq] at hnext
      exact ih hnext h
    · next t₁ heq =>
      rw [heq] at hnext
      exact Option.some.inj h ▸ hnext

/-- All passes over the rules. -/
theorem changes_evaluate (h : t.evaluate fuel = some t') : Changes i t t' :=
  evaluate_induction (motive := fun t' => Changes i t t') (fun _ h => h.trans changes_pass) .refl h

/-- What no change touches. -/
theorem Change.setting (h : Change i t t') :
    t'.m.cfg = t.m.cfg ∧ t'.m.height = t.m.height ∧ t'.m.set = t.m.set := by
  cases h with
  | aside heq =>
    simp only [Machine.main, Prod.mk.injEq] at heq
    exact ⟨heq.1, heq.2.1, heq.2.2.2.2.2.2.1⟩
  | proposal p verdict =>
    obtain ⟨_, _, heq, -⟩ := recordProposal_frame t.m p verdict
    rw [heq]
    exact ⟨rfl, rfl, rfl⟩
  | @ownProposal key r pol block =>
    obtain ⟨_, _, heq⟩ := journalProposal_frame t key r pol block
    rw [heq]
    exact ⟨rfl, rfl, rfl⟩
  | enter =>
    rw [beginRound_m]
    exact ⟨rfl, rfl, rfl⟩
  | valid =>
    rw [persistRoundState_m]
    exact ⟨rfl, rfl, rfl⟩
  | lock =>
    rw [lock_m]
    exact ⟨rfl, rfl, rfl⟩
  | emit | book | vote | slot | step | commit | catchUp | late => exact ⟨rfl, rfl, rfl⟩

theorem Changes.setting (h : Changes i t t') :
    t'.m.cfg = t.m.cfg ∧ t'.m.height = t.m.height ∧ t'.m.set = t.m.set := by
  refine h.relate (R := fun t t' => t'.m.cfg = t.m.cfg ∧ t'.m.height = t.m.height ∧
    t'.m.set = t.m.set) (fun _ => ⟨rfl, rfl, rfl⟩) ?_
  rintro t t₁ t₂ ⟨hcfg, hheight, hset⟩ hchange
  obtain ⟨hcfg', hheight', hset'⟩ := hchange.setting
  exact ⟨hcfg'.trans hcfg, hheight'.trans hheight, hset'.trans hset⟩

end Turn

/-! ## Inputs -/

/-- The outcome of an input before the rules run: they do not run, or run on a turn. -/
inductive Prepared
  | rest (t : Turn)
  | rules (t : Turn)

namespace Prepared

def turn : Prepared → Turn
  | rest t => t
  | rules t => t

/-- Run the rules, if they are to run. -/
def finish (fuel : ℕ) : Prepared → Option Turn
  | rest t => some t
  | rules t => t.evaluate fuel

end Prepared

/-- A late precommit for the block below, before the rules run; they run for the last one. -/
def Turn.prepareLate (vote : Vote) (t : Turn) : Prepared :=
  match t.m.lastCommit with
  | none => .rest t
  | some lc =>
    if lc.Awaits t.m.cfg.chainId vote then
      let m := t.m.takeLate lc vote
      if lc.set.len ≤ (lc.sigs.insert vote.voter vote.sig).size ∧ lc.height + 1 = m.height ∧
          !m.commitWaitDone then
        .rules { t with m := { m with commitWaitDone := true } }
      else .rest { t with m }
    else .rest t

/-- A vote, before the rules run. -/
def Turn.prepareVote (vote : Vote) (t : Turn) : Prepared :=
  match t.prepareLate vote with
  | .rules t => .rules t
  | .rest t =>
    if vote.height ≠ t.m.height ∨ !t.m.set.contains vote.voter ∨
        !vote.verify .V3 t.m.cfg.chainId then .rest t
    else
      let t := t.recordVote vote
      if t.m.step = .committed then .rest t else .rules t

/-- An own block, before the rules run. -/
def Turn.prepareBlock (height round : ℕ) (block : Block) (t : Turn) : Prepared :=
  match t.m.signer with
  | none => .rest t
  | some key =>
    let hd := block.header
    if height = t.m.height ∧ round = t.m.round ∧ t.m.step = .propose ∧
        t.m.awaitingBlock = some round ∧ t.m.valid = none ∧ !t.m.myProposals.contains round ∧
        hd.height = height ∧ hd.round = round ∧ hd.builder = key.id ∧ hd.parent = t.m.parent then
      let t : Turn := { t with m := { t.m with awaitingBlock := none } }
      .rules (t.propose key round none block)
    else .rest t

namespace Machine

/-- What `handle` does before it runs the rules. -/
def prepare (m : Machine) (input : Input) : Prepared :=
  let t : Turn := { m }
  match input with
  | .startHeight ctx =>
    if ctx.height = m.height + 1 ∧ m.step = .committed then .rules (t.startHeight ctx) else .rest t
  | .proposal p verdict =>
    let (counted, m) := m.checkProposal p
    if counted then
      let (verdict, m) := m.structuralVerdict p verdict
      .rules { m := m.recordProposal p verdict }
    else .rest { m }
  | .vote v => t.prepareVote v
  | .timeout kind height round =>
    if height ≠ m.height ∨ m.step = .committed then .rest t else .rules (t.expire kind round)
  | .txPending => .rules { m := { m with pendingWork := true } }
  | .heartbeatDue height =>
    if height = m.height ∧ m.step ≠ .committed then .rules { m := { m with heartbeatDue := true } }
    else .rest t
  | .blockBuilt height round block => t.prepareBlock height round block
  | .catchUp block cert verdict => .rest (t.onCatchUp block cert verdict)

end Machine

namespace Turn

variable {i : Input} {t t' : Turn} {fuel : ℕ}

theorem lateVote_eq (vote : Vote) : t.lateVote fuel vote = (t.prepareLate vote).finish fuel := by
  rw [lateVote, prepareLate]
  cases t.m.lastCommit with
  | none => rfl
  | some lc =>
    dsimp only
    by_cases hawaits : lc.Awaits t.m.cfg.chainId vote
    · rw [if_pos hawaits]
      refine (if_pos hawaits).trans ?_
      dsimp only [Machine.takeLate]
      by_cases hlast : lc.set.len ≤ (lc.sigs.insert vote.voter vote.sig).size ∧
          lc.height + 1 = t.m.height ∧ (!t.m.commitWaitDone) = true
      · rw [if_pos hlast]
        refine ((congrArg (Prepared.finish fuel) (if_pos hlast)).trans ?_).symm
        rfl
      · rw [if_neg hlast]
        refine ((congrArg (Prepared.finish fuel) (if_neg hlast)).trans ?_).symm
        rfl
    · rw [if_neg hawaits]
      exact if_neg hawaits

/-- The last late precommit is of the height below. -/
theorem height_prepareLate {vote : Vote} (h : t.prepareLate vote = .rules t') :
    t'.m.height = t.m.height ∧ vote.height ≠ t.m.height := by
  rw [prepareLate] at h
  split at h
  · exact absurd h (by simp)
  · next lc hlc =>
    split at h
    · next hawaits =>
      dsimp only at h
      split at h
      · next hlast =>
        cases h
        have hheight : lc.height + 1 = t.m.height := hlast.2.1
        exact ⟨rfl, by rw [hawaits.1]; omega⟩
      · exact absurd h (by simp)
    · exact absurd h (by simp)

theorem onVote_eq (vote : Vote) : t.onVote fuel vote = (t.prepareVote vote).finish fuel := by
  rw [onVote, lateVote_eq, prepareVote]
  cases hlate : t.prepareLate vote with
  | rules t₁ =>
    obtain ⟨hheight, hne⟩ := height_prepareLate hlate
    simp only [Prepared.finish, Option.bind_eq_bind]
    cases heval : t₁.evaluate fuel with
    | none => rfl
    | some t₂ =>
      have hsame := (changes_evaluate (i := .vote vote) heval).setting.2.1
      rw [Option.bind_some, if_pos (.inl (by rw [hsame, hheight]; exact hne))]
  | rest t₁ =>
    simp only [Prepared.finish, Option.bind_eq_bind, Option.bind_some]
    split
    · rfl
    · split <;> rfl

theorem onBlockBuilt_eq (height round : ℕ) (block : Block) :
    t.onBlockBuilt fuel height round block = (t.prepareBlock height round block).finish fuel := by
  rw [onBlockBuilt, prepareBlock]
  cases t.m.signer with
  | none => rfl
  | some key =>
    dsimp only
    split <;> rfl

end Turn

namespace Machine

variable {m : Machine} {t : Turn} {fuel : ℕ}

/-- Handling an input: prepare, then run the rules. -/
theorem handle_eq (input : Input) : m.handle fuel input = (m.prepare input).finish fuel := by
  cases input with
  | vote v => exact Turn.onVote_eq v
  | blockBuilt height round block => exact Turn.onBlockBuilt_eq height round block
  | timeout kind height round =>
    rw [handle, prepare, Turn.onTimeout]
    split <;> rfl
  | startHeight | heartbeatDue =>
    rw [handle, prepare]
    split <;> rfl
  | proposal p verdict =>
    rw [handle, prepare]
    dsimp only
    split <;> rfl
  | txPending | catchUp => rfl

end Machine

namespace Turn

variable {i : Input} {t t' : Turn} {fuel : ℕ}

theorem changes_prepareLate (vote : Vote) : Changes i t (t.prepareLate vote).turn := by
  rw [prepareLate]
  split
  · exact .refl
  · next lc hlc =>
    split
    · next hawaits =>
      have hlate : Change i t { t with m := t.m.takeLate lc vote } := .late hlc hawaits
      dsimp only
      split
      · exact (ReflTransGen.single hlate).tail (.aside rfl)
      · exact .single hlate
    · exact .refl

theorem changes_prepareVote (vote : Vote) : Changes (.vote vote) t (t.prepareVote vote).turn := by
  have hlate := changes_prepareLate (i := .vote vote) (t := t) vote
  rw [prepareVote]
  split
  · next t₁ heq =>
    rw [heq] at hlate
    exact hlate
  · next t₁ heq =>
    rw [heq] at hlate
    have hlate : Changes (.vote vote) t t₁ := hlate
    split
    · exact hlate
    · next hcheck =>
      simp only [not_or, not_not, Bool.not_eq_true', Bool.not_eq_false] at hcheck
      have hrecord := hlate.trans (changes_recordVote hcheck (.inr rfl))
      dsimp only
      split <;> exact hrecord

theorem changes_prepareBlock (height round : ℕ) (block : Block) :
    Changes i t (t.prepareBlock height round block).turn := by
  rw [prepareBlock]
  split
  · exact .refl
  · next key hkey =>
    dsimp only
    split
    · next h =>
      obtain ⟨-, -, hstep, -, -, hfree, -⟩ := h
      have haside : Change i t { t with m := { t.m with awaitingBlock := none } } := .aside rfl
      refine (ReflTransGen.single haside).trans (changes_propose (t := { t with
        m := { t.m with awaitingBlock := none } }) ?_ hkey ?_ _ _)
      · rw [hstep]
        exact Step.active_propose
      · refine ExtTreeMap.getElem?_eq_none fun hmem => ?_
        rw [← ExtTreeMap.contains_iff_mem] at hmem
        simp [hmem] at hfree
    · exact .refl

theorem changes_expire (hcom : t.m.step ≠ .committed) (kind : TimerKind) (round : ℕ) :
    Changes i t (t.expire kind round) := by
  cases kind with
  | commitWait => exact .single (.aside rfl)
  | propose =>
    rw [expire]
    split
    · next h =>
      exact changes_castStep (h.2 ▸ Step.active_propose) Step.active_prevote (by simp)
    · exact .refl
  | prevote =>
    rw [expire]
    split
    · next h =>
      exact changes_castStep (h.2 ▸ Step.active_prevote) Step.active_precommit (by simp)
    · exact .refl
  | precommit =>
    rw [expire]
    split
    · next h => exact changes_enterRound hcom fun _ => h.1 ▸ Machine.succRound_le
    · exact .refl

theorem changes_onCatchUp (block : Block) (cert : CommitCert) (verdict : Verdict) :
    Changes (.catchUp block cert verdict) t (t.onCatchUp block cert verdict) := by
  rw [onCatchUp]
  split
  · next h =>
    obtain ⟨hcom, -, -, -, hheight, hblock, -, hverify⟩ := h
    cases hstake : cert.verify .V3 t.m.cfg.chainId t.m.set with
    | error e => exact absurd hverify (by simp [hstake, Except.isOk, Except.toBool])
    | ok stake => exact .single (.catchUp rfl hcom hheight hblock hstake)
  · exact .refl

end Turn

namespace Machine

variable {m : Machine} {t : Turn} {fuel : ℕ}

theorem main_checkProposal (p : Proposal) : (m.checkProposal p).2.main = m.main := by
  rw [checkProposal]
  split <;> rfl

theorem main_structuralVerdict (p : Proposal) (verdict : Verdict) :
    (m.structuralVerdict p verdict).2.main = m.main := by
  rw [structuralVerdict]
  dsimp only
  split <;> rfl

/-- Before the rules run: nothing but changes, within the height. -/
theorem changes_prepare {input : Input} (hin : ∀ ctx, input ≠ .startHeight ctx) :
    Turn.Changes input { m } (m.prepare input).turn := by
  cases input with
  | startHeight ctx => exact absurd rfl (hin ctx)
  | proposal p verdict =>
    have hcheck : Turn.Change (.proposal p verdict) { m } { m := (m.checkProposal p).2 } :=
      .aside (main_checkProposal p)
    rw [prepare]
    dsimp only
    split
    · have hverdict : Turn.Change (.proposal p verdict) { m := (m.checkProposal p).2 }
          { m := ((m.checkProposal p).2.structuralVerdict p verdict).2 } :=
        .aside (main_structuralVerdict p verdict)
      exact ((ReflTransGen.single hcheck).tail hverdict).tail (.proposal p _)
    · exact .single hcheck
  | vote v => exact Turn.changes_prepareVote v
  | timeout kind height round =>
    rw [prepare]
    split
    · exact .refl
    · next hcom => exact Turn.changes_expire (fun h => hcom (.inr h)) kind round
  | txPending => exact .single (.aside rfl)
  | heartbeatDue height =>
    rw [prepare]
    split
    · exact .single (.aside rfl)
    · exact .refl
  | blockBuilt height round block => exact Turn.changes_prepareBlock height round block
  | catchUp block cert verdict => exact Turn.changes_onCatchUp block cert verdict

theorem changes_finish {i : Input} {p : Prepared} (h : p.finish fuel = some t) :
    Turn.Changes i p.turn t := by
  cases p with
  | rest t₁ => exact Option.some.inj h ▸ .refl
  | rules t₁ => exact Turn.changes_evaluate h

end Machine

end RougeChain.Consensus
