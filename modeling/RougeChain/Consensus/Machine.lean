import RougeChain.Consensus.Block
import RougeChain.Consensus.Schedule

/-!
# The round state machine

One validator's consensus on one height: proposals, prevotes and precommits in
rounds, the lock, and the journal that survives a crash.

A `Machine` is pure. It reads an `Input` and returns `Output`s in order; the
driver owns time, transport, storage and block execution. Inside the handling of
one input the machine and the outputs so far make a `Turn`, and the rules are
functions of turns. `Turn.evaluate` runs the rules until none fires. The loop
has no bound in the source, so it carries `fuel` here: `none` means that it did
not end in that many passes, and what the source returns is what some amount of
fuel gives.

`PersistedState` is what a crash leaves: the fold of the records that the driver
made durable. `restore` starts again from it.

Rounds are `u32`s in the source. The one place where the width shows is the
saturating successor `succRound`.
-/

namespace RougeChain.Consensus

open Std (ExtTreeMap ExtTreeSet)

/-! ## Configuration and messages -/

/-- Round timeouts in milliseconds. -/
structure Timeouts where
  proposeBase : ℕ
  proposeDelta : ℕ
  voteBase : ℕ
  voteDelta : ℕ
  cap : ℕ
  commitWait : ℕ
  deriving DecidableEq

namespace Timeouts

def moderate : Timeouts := ⟨6000, 2000, 2000, 1000, 120000, 500⟩

def grow (base delta cap round : ℕ) : ℕ :=
  min (satAdd u64Max base (min (delta * round) u64Max)) cap

def propose (t : Timeouts) (round : ℕ) : ℕ := grow t.proposeBase t.proposeDelta t.cap round

def vote (t : Timeouts) (round : ℕ) : ℕ := grow t.voteBase t.voteDelta t.cap round

end Timeouts

/-- The static configuration of one machine; without a key it never signs. -/
structure Config where
  chainId : String
  key : Option SigningKey
  timeouts : Timeouts
  heartbeatMs : ℕ
  deriving DecidableEq

/-- What the machine needs to work on one height. -/
structure HeightCtx where
  height : ℕ
  set : ValidatorSet
  proposers : RoundProposers
  parent : BlockId
  parentTime : ℕ
  pendingWork : Bool
  deriving DecidableEq

/-- A signed proposal: the block, the round, and the proposer's valid round. -/
structure Proposal where
  height : ℕ
  round : ℕ
  pol : Option ℕ
  block : Block
  proposer : KeyId
  sig : Sig
  deriving DecidableEq

namespace Proposal

def sign (key : SigningKey) (chainId : String) (height round : ℕ) (pol : Option ℕ)
    (block : Block) : Proposal :=
  { height, round, pol, block, proposer := key.id
    sig := key.sign (proposalSignBytes chainId height round pol block.id) }

def signBytes (p : Proposal) (chainId : String) : List Char :=
  proposalSignBytes chainId p.height p.round p.pol p.block.id

def verify (p : Proposal) (chainId : String) : Bool :=
  verifySig p.proposer (p.signBytes chainId) p.sig

end Proposal

inductive Message
  | proposal (p : Proposal)
  | vote (v : Vote)
  deriving DecidableEq

/-- The driver's judgement of a proposed block. -/
inductive Verdict
  | valid
  | timeAhead
  | invalid
  deriving DecidableEq

inductive TimerKind
  | propose
  | prevote
  | precommit
  | commitWait
  deriving DecidableEq

inductive Input
  | startHeight (ctx : HeightCtx)
  | proposal (p : Proposal) (verdict : Verdict)
  | vote (v : Vote)
  | timeout (kind : TimerKind) (height round : ℕ)
  | txPending
  | heartbeatDue (height : ℕ)
  | blockBuilt (height round : ℕ) (block : Block)
  | catchUp (block : Block) (cert : CommitCert) (verdict : Verdict)

/-- What must be durable before a later message is released. -/
inductive PersistRecord
  | height (height : ℕ)
  | voteSlot (kind : VoteType) (height round : ℕ) (value : Option BlockId)
  | proposalSlot (height round : ℕ) (pol : Option ℕ) (block : Block)
  | lock (height round : ℕ) (block : Block)
  | roundState (height round : ℕ) (valid : Option (ℕ × Block))

inductive Output
  | persist (record : PersistRecord)
  | broadcast (msg : Message)
  | setTimer (kind : TimerKind) (height round ms : ℕ)
  | wakeAtHeaderTime (height timeMs : ℕ)
  | needBlock (height round : ℕ)
  | commit (block : Block) (cert : CommitCert)
  | evidence (ev : Evidence)

/-! ## Durable state -/

def PersistRecord.recordHeight : PersistRecord → ℕ
  | .height h => h
  | .voteSlot _ h _ _ => h
  | .proposalSlot h _ _ _ => h
  | .lock h _ _ => h
  | .roundState h _ _ => h

/-- The durable consensus state, as rebuilt from the records. -/
structure PersistedState where
  height : ℕ := 0
  started : Bool := false
  round : ℕ := 0
  locked : Option (ℕ × Block) := none
  valid : Option (ℕ × Block) := none
  votes : ExtTreeMap (VoteType × ℕ) (Option BlockId) := ∅
  proposals : ExtTreeMap ℕ (Option ℕ × Block) := ∅

namespace PersistedState

/-- Write one record of the height of the state. A journal slot is immutable:
    the first write wins. -/
def write (s : PersistedState) : PersistRecord → PersistedState
  | .height _ => s
  | .voteSlot kind _ round value => { s with votes := s.votes.insertIfNew (kind, round) value }
  | .proposalSlot _ round pol block =>
    { s with proposals := s.proposals.insertIfNew round (pol, block) }
  | .lock _ round block => { s with locked := some (round, block) }
  | .roundState _ round valid => { s with started := true, round := max s.round round, valid }

/-- Fold one record in. Records of an older height are ignored; a newer height resets. -/
def apply (s : PersistedState) (record : PersistRecord) : PersistedState :=
  if record.recordHeight < s.height then s
  else if s.height < record.recordHeight then
    write { height := record.recordHeight } record
  else s.write record

end PersistedState

/-! ## The machine -/

/-- The step within a height. -/
inductive Step
  | newHeight
  | propose
  | prevote
  | precommit
  | committed
  deriving DecidableEq

/-- The votes of one type in one round. A validator counts once per value and
    once in the total. -/
structure Tally where
  votes : ExtTreeMap (KeyId × Option BlockId) Vote := ∅
  first : ExtTreeMap KeyId Vote := ∅
  byValue : ExtTreeMap (Option BlockId) ℕ := ∅
  total : ℕ := 0

namespace Tally

def weightFor (t : Tally) (value : Option BlockId) : ℕ := t.byValue.getD value 0

/-- The first non-nil value that holds at least `q`. -/
def quorumBlock (t : Tally) (q : ℕ) : Option BlockId :=
  t.byValue.toList.findSome? fun (v, w) => if q ≤ w then v else none

/-- Count a vote of weight `w` for its value. -/
def count (t : Tally) (w : ℕ) (vote : Vote) : Tally :=
  { t with
    votes := t.votes.insert (vote.voter, vote.block) vote
    byValue := t.byValue.insert vote.block (t.weightFor vote.block + w) }

/-- Store a vote. A further value of the same validator is evidence, and counts
    only if it is `known`, so that an equivocator cannot fill the store. -/
def record (t : Tally) (w : ℕ) (known : Bool) (vote : Vote) : Tally × Option Evidence :=
  if t.votes.contains (vote.voter, vote.block) then (t, none)
  else
    match t.first[vote.voter]? with
    | some prev => (if known then t.count w vote else t, Evidence.fromVotes prev vote)
    | none =>
      ({ t.count w vote with first := t.first.insert vote.voter vote, total := t.total + w }, none)

end Tally

structure ProposalRec where
  proposal : Proposal
  timeOk : Bool

/-- What a machine holds of one round. -/
structure RoundBook where
  prevotes : Tally := {}
  precommits : Tally := {}
  senders : ExtTreeSet KeyId := ∅
  senderWeight : ℕ := 0
  proposals : List ProposalRec := []
  invalid : ExtTreeSet BlockId := ∅
  prevoteTimer : Bool := false
  precommitTimer : Bool := false
  validRuleDone : Bool := false

namespace RoundBook

def tally (b : RoundBook) : VoteType → Tally
  | .prevote => b.prevotes
  | .precommit => b.precommits

def setTally (b : RoundBook) (kind : VoteType) (t : Tally) : RoundBook :=
  match kind with
  | .prevote => { b with prevotes := t }
  | .precommit => { b with precommits := t }

end RoundBook

structure LastCommit where
  height : ℕ
  round : ℕ
  block : BlockId
  set : ValidatorSet
  sigs : ExtTreeMap KeyId Sig

/-- One validator's consensus state, with its messages of the height. -/
structure Machine where
  cfg : Config
  height : ℕ
  round : ℕ := 0
  step : Step
  locked : Option (ℕ × BlockId) := none
  valid : Option (ℕ × BlockId) := none
  set : ValidatorSet
  proposers : RoundProposers
  parent : BlockId
  parentTime : ℕ
  rounds : ExtTreeMap ℕ RoundBook := ∅
  blocks : ExtTreeMap BlockId Block := ∅
  heightVoters : ExtTreeSet KeyId := ∅
  heightVoterWeight : ℕ := 0
  journal : ExtTreeMap (VoteType × ℕ) (Option BlockId) := ∅
  myProposals : ExtTreeMap ℕ Proposal := ∅
  pendingWork : Bool := false
  heartbeatDue : Bool := false
  commitWaitDone : Bool := true
  awaitingBlock : Option ℕ := none
  lastCommit : Option LastCommit := none

/-- The machine that a height begins with. -/
def HeightCtx.machine (ctx : HeightCtx) (cfg : Config) (lastCommit : Option LastCommit)
    (commitWaitDone : Bool) : Machine :=
  { cfg, height := ctx.height, step := .newHeight, set := ctx.set, proposers := ctx.proposers
    parent := ctx.parent, parentTime := ctx.parentTime, pendingWork := ctx.pendingWork
    commitWaitDone, lastCommit }

/-- The round after `round`; saturates at the greatest `u32`. -/
def succRound (round : ℕ) : ℕ := if round < u32Max then round + 1 else round

/-- A machine while it handles one input, with the outputs so far. -/
structure Turn where
  m : Machine
  out : List Output := []

namespace Machine

/-- The book of `round`; empty if there is none yet. -/
def book (m : Machine) (round : ℕ) : RoundBook := m.rounds[round]?.getD {}

def setBook (m : Machine) (round : ℕ) (b : RoundBook) : Machine :=
  { m with rounds := m.rounds.insert round b }

def setLocked (m : Machine) (round : ℕ) (id : BlockId) : Machine :=
  { m with locked := some (round, id) }

/-- Be at the first step of `round`. -/
def toRound (m : Machine) (round : ℕ) : Machine :=
  { m.setBook round (m.book round) with round, step := .propose, awaitingBlock := none }

/-- A block becomes the valid one, in the current round; the rule that does it
    fires once in a round. -/
def markValid (m : Machine) (id : BlockId) : Machine :=
  { m.setBook m.round { m.book m.round with validRuleDone := true } with
    valid := some (m.round, id) }

/-- The key, if it is in the set of the height. -/
def signer (m : Machine) : Option SigningKey := m.cfg.key.filter fun k => m.set.contains k.id

/-- The certificate of the last committed block, with every precommit held for it. -/
def parentCertificate (m : Machine) : Option CommitCert :=
  m.lastCommit.bind fun lc =>
    if lc.set.len ≤ u16Max then
      some { domain := .V3, height := lc.height, round := lc.round, block := lc.block
             nSet := lc.set.len, sigs := lc.sigs.toList }
    else none

/-- Is a proposal counted at all: of this height, before the decision, and signed
    by the scheduled proposer of its round? The lookup extends the schedule's cache. -/
def checkProposal (m : Machine) (p : Proposal) : Bool × Machine :=
  if p.height ≠ m.height ∨ m.step = .committed then (false, m)
  else
    let (proposer, proposers) := m.proposers.get p.round
    (proposer == some p.proposer && p.verify m.cfg.chainId, { m with proposers })

/-- The checks on the block that consensus alone can make; a failure makes the
    verdict `invalid`. -/
def structuralVerdict (m : Machine) (p : Proposal) (verdict : Verdict) : Verdict × Machine :=
  let hd := p.block.header
  if hd.height = m.height ∧ hd.parent = m.parent ∧ hd.round ≤ p.round then
    let (builder, proposers) := m.proposers.get hd.round
    -- A proof-of-lock round is an earlier round.
    let ok := builder == some hd.builder && p.pol.all fun vr => decide (vr < p.round)
    (if ok then verdict else .invalid, { m with proposers })
  else (.invalid, m)

/-- Count `key` among the senders of `round`. -/
def noteSender (m : Machine) (round : ℕ) (key : KeyId) : Machine :=
  let b := m.book round
  m.setBook round <|
    if b.senders.contains key then b
    else { b with senders := b.senders.insert key, senderWeight := b.senderWeight + m.set.weight key }

def recordProposal (m : Machine) (p : Proposal) (verdict : Verdict) : Machine :=
  let m := m.noteSender p.round p.proposer
  let id := p.block.id
  let b := m.book p.round
  if verdict = .invalid then m.setBook p.round { b with invalid := b.invalid.insert id }
  else if b.proposals.any fun x => x.proposal.block.id == id && x.proposal.pol == p.pol then m
  else
    let m := { m with blocks := m.blocks.insert id p.block }
    m.setBook p.round { b with proposals := b.proposals ++ [⟨p, verdict == .valid⟩] }

/-- Count `key` among the voters of the height. -/
def noteVoter (m : Machine) (key : KeyId) : Machine :=
  if m.heightVoters.contains key then m
  else
    { m with
      heightVoters := m.heightVoters.insert key
      heightVoterWeight := m.heightVoterWeight + m.set.weight key }

/-- May round 0 start: for a reason of its own, a proposal, or the votes of others? -/
def mayStart (m : Machine) : Bool :=
  let ownReason := m.commitWaitDone && (m.pendingWork || m.heartbeatDue)
  let proposalSeen := m.rounds.toList.any fun (_, b) => !b.proposals.isEmpty
  let othersVoting := decide (m.set.oneThird ≤ m.heightVoterWeight)
  ownReason || proposalSeen || othersVoting

/-- The first round with a quorum of precommits for a known block, and the block. -/
def commitTarget (m : Machine) : Option (ℕ × BlockId) :=
  m.rounds.toList.findSome? fun (r, b) =>
    ((b.precommits.quorumBlock m.set.quorum).filter fun id => m.blocks.contains id).map (r, ·)

/-- The signatures of the precommits held for a block in a round. -/
def commitSigs (m : Machine) (round : ℕ) (id : BlockId) : ExtTreeMap KeyId Sig :=
  .ofList (((m.book round).precommits.votes.toList.filter fun (_, v) => v.block == some id).map
    fun (_, v) => (v.voter, v.sig))

/-- The highest later round in which the senders hold a third. -/
def skipTarget (m : Machine) : Option ℕ :=
  ((m.rounds.toList.filter fun (r, b) =>
    decide (succRound m.round ≤ r) && decide (m.set.oneThird ≤ b.senderWeight)).map Prod.fst).getLast?

/-- The value to prevote, from the proposals of the round in the order they arrived. -/
def prevoteFor (m : Machine) : List ProposalRec → Option (Option BlockId)
  | [] => none
  | x :: rest =>
    let id := x.proposal.block.id
    match x.proposal.pol with
    | none =>
      let free := m.locked.all fun (_, l) => l == id
      some (if x.timeOk && free then some id else none)
    | some vr =>
      -- The only way to a value other than the locked one.
      if m.set.quorum ≤ (m.book vr).prevotes.weightFor (some id) then
        let free := m.locked.all fun (lr, l) => decide (lr ≤ vr) || l == id
        some (if x.timeOk && free then some id else none)
      else prevoteFor m rest

/-- The value to prevote in the current round. An invalid block of the scheduled
    proposer is answered with nil at once. -/
def prevoteDecision (m : Machine) : Option (Option BlockId) :=
  let b := m.book m.round
  match m.prevoteFor b.proposals with
  | some value => some value
  | none => if b.proposals.isEmpty && !b.invalid.isEmpty then some none else none

end Machine

namespace Turn

/-- Append an output. -/
def emit (t : Turn) (o : Output) : Turn := { t with out := t.out ++ [o] }

/-- Go to a step. -/
def setStep (t : Turn) (step : Step) : Turn := { t with m := { t.m with step } }

/-- Store a vote that was checked, or that this machine just signed. -/
def recordVote (t : Turn) (vote : Vote) : Turn :=
  let m := (t.m.noteSender vote.round vote.voter).noteVoter vote.voter
  let known := vote.block.all fun id => m.blocks.contains id
  let b := m.book vote.round
  let (tally, ev) := (b.tally vote.kind).record (m.set.weight vote.voter) known vote
  { m := m.setBook vote.round (b.setTally vote.kind tally)
    out := t.out ++ ev.toList.map .evidence }

/-- Sign a vote, send it and store it. -/
def sendVote (t : Turn) (key : SigningKey) (kind : VoteType) (round : ℕ)
    (value : Option BlockId) : Turn :=
  let vote := Vote.sign key t.m.cfg.chainId kind t.m.height round value
  (t.emit (.broadcast (.vote vote))).recordVote vote

/-- Write a value in a journal slot of the current round. -/
def journalVote (t : Turn) (kind : VoteType) (value : Option BlockId) : Turn :=
  let m := { t.m with journal := t.m.journal.insert (kind, t.m.round) value }
  ({ t with m } : Turn).emit (.persist (.voteSlot kind m.height m.round value))

/-- Sign and send a vote for the current round. A slot that was signed before
    decides the value: it is sent again, and `value` is ignored. -/
def cast (t : Turn) (kind : VoteType) (value : Option BlockId) : Turn :=
  match t.m.signer with
  | none => t
  | some key =>
    match t.m.journal[(kind, t.m.round)]? with
    | some journaled => t.sendVote key kind t.m.round journaled
    | none => (t.journalVote kind value).sendVote key kind t.m.round value

def propose (t : Turn) (key : SigningKey) (round : ℕ) (pol : Option ℕ) (block : Block) : Turn :=
  let p := Proposal.sign key t.m.cfg.chainId t.m.height round pol block
  let m := { t.m with myProposals := t.m.myProposals.insert round p }
  { m := m.recordProposal p .valid
    out := t.out ++ [.persist (.proposalSlot m.height round pol block), .broadcast (.proposal p)] }

def persistRoundState (t : Turn) : Turn :=
  match t.m.signer with
  | none => t
  | some _ =>
    let valid := t.m.valid.bind fun (r, id) => t.m.blocks[id]?.map fun b => (r, b)
    t.emit (.persist (.roundState t.m.height t.m.round valid))

/-- The proposer's part of entering `round`: send the journaled proposal again,
    propose the valid block, or ask the driver for one. -/
def proposeIn (t : Turn) (key : SigningKey) (round : ℕ) : Turn :=
  match t.m.myProposals[round]? with
  | some p => { t.emit (.broadcast (.proposal p)) with m := t.m.recordProposal p .valid }
  | none =>
    match t.m.valid with
    | some (vr, id) =>
      match t.m.blocks[id]? with
      | some block => t.propose key round (some vr) block
      | none => t
    | none =>
      { t.emit (.needBlock t.m.height round) with m := { t.m with awaitingBlock := some round } }

/-- `proposeIn`, if this validator is the scheduled proposer of `round`. -/
def proposeIfDue (t : Turn) (round : ℕ) : Turn :=
  match t.m.signer with
  | none => t
  | some key =>
    let (proposer, proposers) := t.m.proposers.get round
    let t : Turn := { t with m := { t.m with proposers } }
    if proposer = some key.id then t.proposeIn key round else t

/-- Start `round`. -/
def enterRound (t : Turn) (round : ℕ) : Turn :=
  let t := ({ t with m := t.m.toRound round } : Turn).persistRoundState
  let ms := t.m.cfg.timeouts.propose round
  (t.emit (.setTimer .propose t.m.height round ms)).proposeIfDue round

/-- Decide: the machine waits for the next height. The certificate of a set that
    does not fit 16 bits cannot be written, and then nothing is output. -/
def decideBlock (t : Turn) (block : Block) (round : ℕ) (sigs : ExtTreeMap KeyId Sig) : Turn :=
  let m := { t.m with
    lastCommit := some ⟨t.m.height, round, block.id, t.m.set, sigs⟩, step := .committed }
  { m, out := t.out ++ (m.parentCertificate.map fun cert => .commit block cert).toList }

/-- Precommits of a quorum for a known block, in any round: decide. -/
def tryCommit (t : Turn) : Option Turn := do
  let (round, id) ← t.m.commitTarget
  let block ← t.m.blocks[id]?
  some (t.decideBlock block round (t.m.commitSigs round id))

/-- Act on a proposal of the round. -/
def tryPrevote (t : Turn) : Option Turn := do
  let value ← t.m.prevoteDecision
  some ((t.cast .prevote value).setStep .prevote)

/-- The lock and the precommit of a block with a quorum of prevotes. The lock is
    persisted before the precommit. -/
def lockOn (t : Turn) (round : ℕ) (id : BlockId) (block : Block) : Turn :=
  let t : Turn := { t with m := t.m.setLocked round id }
  let t := if t.m.signer.isSome then t.emit (.persist (.lock t.m.height round block)) else t
  (t.cast .precommit (some id)).setStep .precommit

/-- A proposal of the round with a quorum of prevotes, for the first time, after
    the own prevote: the block becomes the valid one, and is locked and
    precommitted unless a precommit was cast. -/
def tryLock (t : Turn) : Option Turn :=
  let m := t.m
  let b := m.book m.round
  if m.step = .newHeight ∨ m.step = .propose ∨ b.validRuleDone then none
  else do
    let id ← (b.proposals.map fun x => x.proposal.block.id).find? fun id =>
      decide (m.set.quorum ≤ b.prevotes.weightFor (some id))
    let block ← m.blocks[id]?
    let t := ({ t with m := m.markValid id } : Turn).persistRoundState
    some (if m.step = .prevote then t.lockOn m.round id block else t)

/-- Start a timer of the current round. -/
def startTimer (t : Turn) (kind : TimerKind) (b : RoundBook) : Turn :=
  let t' : Turn := { t with m := t.m.setBook t.m.round b }
  t'.emit (.setTimer kind t.m.height t.m.round (t.m.cfg.timeouts.vote t.m.round))

/-- Prevotes of a quorum for anything, for the first time, after the own prevote. -/
def prevoteTimer (t : Turn) : Turn :=
  let b := t.m.book t.m.round
  if t.m.step = .prevote ∧ t.m.set.quorum ≤ b.prevotes.total ∧ !b.prevoteTimer then
    t.startTimer .prevote { b with prevoteTimer := true }
  else t

/-- Precommits of a quorum for anything, for the first time. -/
def precommitTimer (t : Turn) : Turn :=
  let b := t.m.book t.m.round
  if t.m.set.quorum ≤ b.precommits.total ∧ !b.precommitTimer then
    t.startTimer .precommit { b with precommitTimer := true }
  else t

/-- The rules on votes for nil and for anything, which end a pass: precommit nil,
    or start the timers. `true` means that a rule fired and the rules are run again. -/
def voteRules (t : Turn) : Turn × Bool :=
  let b := t.m.book t.m.round
  let t : Turn := { t with m := t.m.setBook t.m.round b }
  if t.m.step = .prevote ∧ t.m.set.quorum ≤ b.prevotes.weightFor none then
    ((t.cast .precommit none).setStep .precommit, true)
  else (t.prevoteTimer.precommitTimer, false)

/-- One pass over the rules. `true` means that a rule fired and the rules are run again. -/
def pass (t : Turn) : Turn × Bool :=
  if t.m.step = .committed then (t, false)
  else
    match t.tryCommit with
    | some t => (t, false)
    | none =>
      if t.m.step = .newHeight then
        if t.m.mayStart then (t.enterRound 0, true) else (t, false)
      else
        match t.m.skipTarget with
        | some r => (t.enterRound r, true)
        | none =>
          match (if t.m.step = .propose then t.tryPrevote else none) with
          | some t => (t, true)
          | none =>
            match t.tryLock with
            | some t => (t, true)
            | none => t.voteRules

/-- Run every enabled rule until none fires; `none` if `fuel` passes do not suffice. -/
def evaluate : ℕ → Turn → Option Turn
  | 0, _ => none
  | fuel + 1, t =>
    match t.pass with
    | (t, true) => t.evaluate fuel
    | (t, false) => some t

/-- A late precommit for the committed block below. With the last of them there
    is nothing left to wait for. -/
def lateVote (fuel : ℕ) (vote : Vote) (t : Turn) : Option Turn :=
  match t.m.lastCommit with
  | none => some t
  | some lc =>
    if vote.height = lc.height ∧ vote.kind = .precommit ∧ vote.round = lc.round ∧
        vote.block = some lc.block ∧ lc.set.contains vote.voter ∧
        !lc.sigs.contains vote.voter ∧ vote.verify .V3 t.m.cfg.chainId then
      let lc : LastCommit := { lc with sigs := lc.sigs.insert vote.voter vote.sig }
      let m : Machine := { t.m with lastCommit := some lc }
      if lc.set.len ≤ lc.sigs.size ∧ lc.height + 1 = m.height ∧ !m.commitWaitDone then
        evaluate fuel { t with m := { m with commitWaitDone := true } }
      else some { t with m }
    else some t

def onVote (fuel : ℕ) (vote : Vote) (t : Turn) : Option Turn := do
  let t ← t.lateVote fuel vote
  if vote.height ≠ t.m.height ∨ !t.m.set.contains vote.voter ∨
      !vote.verify .V3 t.m.cfg.chainId then some t
  else
    let t := t.recordVote vote
    if t.m.step = .committed then some t else t.evaluate fuel

/-- What an expired timer does before the rules run. -/
def expire (t : Turn) (kind : TimerKind) (round : ℕ) : Turn :=
  match kind with
  | .commitWait => { t with m := { t.m with commitWaitDone := true } }
  | .propose =>
    if round = t.m.round ∧ t.m.step = .propose then (t.cast .prevote none).setStep .prevote else t
  | .prevote =>
    if round = t.m.round ∧ t.m.step = .prevote then (t.cast .precommit none).setStep .precommit
    else t
  | .precommit =>
    if round = t.m.round ∧ t.m.step ≠ .newHeight then t.enterRound (succRound round) else t

def onTimeout (fuel : ℕ) (kind : TimerKind) (height round : ℕ) (t : Turn) : Option Turn :=
  if height ≠ t.m.height ∨ t.m.step = .committed then some t
  else (t.expire kind round).evaluate fuel

def onBlockBuilt (fuel height round : ℕ) (block : Block) (t : Turn) : Option Turn :=
  match t.m.signer with
  | none => some t
  | some key =>
    let hd := block.header
    if height = t.m.height ∧ round = t.m.round ∧ t.m.step = .propose ∧
        t.m.awaitingBlock = some round ∧ t.m.valid = none ∧ !t.m.myProposals.contains round ∧
        hd.height = height ∧ hd.round = round ∧ hd.builder = key.id ∧ hd.parent = t.m.parent then
      let t : Turn := { t with m := { t.m with awaitingBlock := none } }
      (t.propose key round none block).evaluate fuel
    else some t

/-- A block with a certificate for it, received while catching up. -/
def onCatchUp (block : Block) (cert : CommitCert) (verdict : Verdict) (t : Turn) : Turn :=
  let m := t.m
  if m.step ≠ .committed ∧ verdict ≠ .invalid ∧ block.header.height = m.height ∧
      block.header.parent = m.parent ∧ cert.height = m.height ∧ cert.block = block.id ∧
      block.header.round ≤ cert.round ∧ (cert.verify .V3 m.cfg.chainId m.set).isOk then
    t.decideBlock block cert.round (.ofList cert.sigs)
  else t

/-- Begin a height: everything but the late precommits of the block below is dropped. -/
def startHeight (ctx : HeightCtx) (t : Turn) : Turn :=
  let lastCommit := t.m.lastCommit.filter fun lc => decide (lc.height + 1 = ctx.height)
  let cfg := t.m.cfg
  let complete := lastCommit.all fun lc => decide (lc.set.len ≤ lc.sigs.size)
  let commitWaitDone := complete || cfg.timeouts.commitWait == 0
  let m := ctx.machine cfg lastCommit commitWaitDone
  let t : Turn := { t with m }
  let t := if m.signer.isSome then t.emit (.persist (.height m.height)) else t
  let t := t.emit (.wakeAtHeaderTime m.height (satAdd u64Max m.parentTime cfg.heartbeatMs))
  if commitWaitDone then t
  else t.emit (.setTimer .commitWait m.height 0 cfg.timeouts.commitWait)

end Turn

namespace Machine

/-- Apply one input; `none` if `fuel` passes over the rules do not suffice. -/
def handle (fuel : ℕ) (m : Machine) (input : Input) : Option Turn :=
  let t : Turn := { m }
  match input with
  | .startHeight ctx =>
    if ctx.height = m.height + 1 ∧ m.step = .committed then (t.startHeight ctx).evaluate fuel
    else some t
  | .proposal p verdict =>
    let (counted, m) := m.checkProposal p
    if counted then
      let (verdict, m) := m.structuralVerdict p verdict
      Turn.evaluate fuel { m := m.recordProposal p verdict }
    else some { m }
  | .vote v => t.onVote fuel v
  | .timeout kind height round => t.onTimeout fuel kind height round
  | .txPending => Turn.evaluate fuel { m := { m with pendingWork := true } }
  | .heartbeatDue height =>
    if height = m.height ∧ m.step ≠ .committed then
      Turn.evaluate fuel { m := { m with heartbeatDue := true } }
    else some t
  | .blockBuilt height round block => t.onBlockBuilt fuel height round block
  | .catchUp block cert verdict => some (t.onCatchUp block cert verdict)

/-- A machine waiting for a reason to start `ctx.height`. -/
def new (fuel : ℕ) (cfg : Config) (ctx : HeightCtx) : Option Turn :=
  let m : Machine :=
    { cfg, height := ctx.height - 1, step := .committed, set := ctx.set, proposers := ctx.proposers
      parent := ctx.parent, parentTime := ctx.parentTime }
  (Turn.startHeight ctx { m }).evaluate fuel

/-- Store the block of a lock or of a valid value. -/
def keepBlock (blocks : ExtTreeMap BlockId Block) : Option (ℕ × Block) → ExtTreeMap BlockId Block
  | some (_, b) => blocks.insert b.id b
  | none => blocks

/-- The lock, the valid block and the journal of the durable state. -/
def reload (m : Machine) (saved : PersistedState) : Machine :=
  { m with
    locked := (saved.locked.map fun (r, b) => (r, b.id)).or m.locked
    valid := (saved.valid.map fun (r, b) => (r, b.id)).or m.valid
    blocks := keepBlock (keepBlock m.blocks saved.locked) saved.valid
    journal := saved.votes }

/-- Send a journaled proposal again, unless it is that of the round to resume,
    which entering the round sends. -/
def resendProposal (key : SigningKey) (resumed : ℕ) (t : Turn)
    (slot : ℕ × Option ℕ × Block) : Turn :=
  let (round, pol, block) := slot
  let p := Proposal.sign key t.m.cfg.chainId t.m.height round pol block
  let m := { t.m with myProposals := t.m.myProposals.insert round p }
  let t := if round ≠ resumed then t.emit (.broadcast (.proposal p)) else t
  { t with m := m.recordProposal p .valid }

/-- Send a journaled vote again. -/
def resendVote (key : SigningKey) (t : Turn) (slot : (VoteType × ℕ) × Option BlockId) : Turn :=
  t.sendVote key slot.1.1 slot.1.2 slot.2

/-- The step that the journal proves was reached in the current round. -/
def resumedStep (m : Machine) : Step :=
  if m.journal.contains (.precommit, m.round) then .precommit
  else if m.journal.contains (.prevote, m.round) then .prevote
  else m.step

/-- Restart from the durable state: reload, send the journaled messages again, and
    resume in the stored round. Records of another height, or of a height that
    had not started, leave nothing to resume. -/
def restore (fuel : ℕ) (cfg : Config) (ctx : HeightCtx) (saved : PersistedState) :
    Option Turn := do
  let t ← new fuel cfg ctx
  if saved.height ≠ t.m.height ∨ !saved.started ∨ t.m.step = .committed then some t
  else
    let t : Turn := { m := t.m.reload saved }
    let t := match t.m.signer with
      | none => t
      | some key =>
        let t := saved.proposals.toList.foldl (resendProposal key saved.round) t
        saved.votes.toList.foldl (resendVote key) t
    let t := ({ t with m := { t.m with commitWaitDone := true } } : Turn).enterRound saved.round
    (t.setStep t.m.resumedStep).evaluate fuel

end Machine

end RougeChain.Consensus
