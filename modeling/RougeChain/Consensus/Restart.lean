import RougeChain.Consensus.Discipline

/-!
# Starting and restarting

A machine starts a height with `new` and comes back from a crash with `restore`,
from the durable state that the crash left. Both leave a disciplined machine
(`Machine.new_ok`, `Machine.restore_ok`), so the discipline holds over any number
of crashes.

`restore` first makes a new machine and drops its outputs. That is sound because
a new machine has neither votes nor proposals to act on: it stays `Idle` while
its rules run, and at most enters round 0 (`Turn.Idle.evaluate`).
-/

namespace RougeChain.Consensus

open Std (ExtTreeMap)

variable {x : Setting} {H : Hearing} {P P₀ : PersistedState} {t t' : Turn} {fuel : ℕ}

/-! ## Starting a height -/

/-- A machine that holds no messages and has decided nothing. -/
structure Machine.Idle (m : Machine) : Prop where
  rounds : ∀ (r : ℕ) b, m.rounds[r]? = some b → b = {}
  blocks : m.blocks = ∅
  locked : m.locked = none
  valid : m.valid = none
  journal : m.journal = ∅
  myProposals : m.myProposals = ∅
  step : m.step = .newHeight ∨ m.step = .propose

namespace Machine.Idle

variable {m : Machine}

theorem book_eq (hm : m.Idle) (r : ℕ) : m.book r = {} := by
  rw [Machine.book]
  cases h : m.rounds[r]? with
  | none => rfl
  | some b => exact hm.rounds r b h

/-- Nothing was recorded for the height: an idle machine agrees. -/
theorem base (hm : m.Idle) (hcfg : m.cfg = x.cfg) (hheight : m.height = x.height)
    (hset : m.set = x.set) (hd : Durable x H P) (hstarted : P.started = false)
    (hrec : x.signer.isSome → P.height = x.height) : Base x H P m where
  cfg_eq := hcfg
  height_eq := hheight
  set_eq := hset
  durable := hd
  recorded := hrec
  blocks := by simp [hm.blocks]
  tallies r kind := by
    rw [hm.book_eq]
    cases kind <;> exact .empty
  journal _ := by rw [hm.journal, (hd.idle hstarted).1]
  locked _ := by rw [hm.locked, (hd.idle hstarted).2.1]; rfl
  proposals := by simp [hm.myProposals]

end Machine.Idle

theorem HeightCtx.idle_machine (ctx : HeightCtx) (cfg : Config) (lastCommit : Option LastCommit)
    (wait : Bool) : (ctx.machine cfg lastCommit wait).Idle :=
  ⟨by simp [machine], rfl, rfl, rfl, rfl, rfl, .inl rfl⟩

/-- The machine after a start. -/
theorem Turn.startHeight_machine (ctx : HeightCtx) (t : Turn) :
    ∃ lastCommit wait, (t.startHeight ctx).m = ctx.machine t.m.cfg lastCommit wait := by
  rw [Turn.startHeight]
  split <;> split <;> exact ⟨_, _, rfl⟩

/-- Recording a height that has not started. -/
theorem Durable.apply_height (hd : Durable x H P) (hstarted : P.started = false) :
    (P.apply (.height x.height)).started = false ∧
      (P.apply (.height x.height)).height = x.height := by
  rcases hd.height with h | rfl
  · have hrec : (PersistRecord.height x.height).recordHeight = P.height := h.symm
    rw [apply_eq_write hrec]
    exact ⟨hstarted, h⟩
  · rw [PersistedState.apply]
    split
    · next h => exact absurd h (Nat.not_lt_zero _)
    · split
      · exact ⟨rfl, rfl⟩
      · next h => exact ⟨rfl, (Nat.le_zero.1 (not_lt.1 h)).symm⟩

/-- Starting the height from a durable state in which it has not started. -/
theorem Turn.startHeight_ok {ctx : HeightCtx} {m : Machine} (hcfg : m.cfg = x.cfg)
    (hheight : ctx.height = x.height) (hset : ctx.set = x.set) (hd : Durable x H P)
    (hstarted : P.started = false) : (Turn.startHeight ctx { m }).OK x H P := by
  rw [Turn.startHeight]
  dsimp only
  generalize ((m.lastCommit.filter _).all _ || _) = wait
  generalize Option.filter _ m.lastCommit = lastCommit
  generalize hm₁ : ctx.machine m.cfg lastCommit wait = m₁
  have hidle : m₁.Idle := hm₁ ▸ ctx.idle_machine _ _ _
  have hcfg₁ : m₁.cfg = x.cfg := by rw [← hm₁]; exact hcfg
  have hheight₁ : m₁.height = x.height := by rw [← hm₁]; exact hheight
  have hset₁ : m₁.set = x.set := by rw [← hm₁]; exact hset
  have hstep₁ : m₁.step = .newHeight := by rw [← hm₁]; rfl
  have hsigner : m₁.signer = x.signer := by rw [Machine.signer, hcfg₁, hset₁, Setting.signer]
  have hok : (if m₁.signer.isSome then
      Turn.emit ⟨m₁, []⟩ (.persist (.height m₁.height)) else ⟨m₁, []⟩).OK x H P := by
    rw [hsigner, hheight₁]
    split
    · next hs =>
      have hj : Justified x H P (.persist (.height x.height)) := ⟨hs, rfl, hstarted⟩
      obtain ⟨hstarted', hheight'⟩ := hd.apply_height hstarted
      exact ⟨⟨⟨hj, trivial⟩, hidle.base hcfg₁ hheight₁ hset₁ (hd.apply hj) hstarted'
        fun _ => hheight'⟩, fun _ h => absurd hstep₁ h, fun _ _ => hstarted'⟩
    · next hs =>
      exact ⟨⟨trivial, hidle.base hcfg₁ hheight₁ hset₁ hd hstarted fun h => absurd h hs⟩,
        fun h => absurd h hs, fun h => absurd h hs⟩
  have hwake := hok.quiet (o := .wakeAtHeaderTime m₁.height
    (satAdd u64Max m₁.parentTime m.cfg.heartbeatMs)) trivial rfl
  split
  · exact hwake
  · exact hwake.quiet trivial rfl

/-! ## An idle machine stays idle -/

namespace Machine.Idle

variable {m : Machine}

theorem commitTarget (hm : m.Idle) : m.commitTarget = none := by
  refine List.findSome?_eq_none_iff.2 fun ⟨r, b⟩ hmem => ?_
  rw [ExtTreeMap.mem_toList_iff_getElem?_eq_some] at hmem
  rw [hm.rounds r b hmem]
  rfl

theorem skipTarget (hm : m.Idle) : m.skipTarget = none := by
  rw [Machine.skipTarget, List.getLast?_eq_none_iff, List.map_eq_nil_iff, List.filter_eq_nil_iff]
  rintro ⟨r, b⟩ hmem
  rw [ExtTreeMap.mem_toList_iff_getElem?_eq_some] at hmem
  rw [hm.rounds r b hmem]
  simp [ValidatorSet.oneThird]

theorem prevoteDecision (hm : m.Idle) : m.prevoteDecision = none := by
  rw [Machine.prevoteDecision, hm.book_eq]
  rfl

theorem setBook (hm : m.Idle) (r : ℕ) : (m.setBook r (m.book r)).Idle where
  __ := hm
  rounds r' b h := by
    rw [Machine.setBook, getElem?_insert_eq] at h
    split at h
    · rw [← Option.some.inj h, hm.book_eq]
    · exact hm.rounds r' b h

end Machine.Idle

namespace Turn

theorem idle_proposeIfDue (hm : t.m.Idle) (r : ℕ) : (t.proposeIfDue r).m.Idle := by
  rw [proposeIfDue]
  split
  · exact hm
  · dsimp only
    split
    · simp only [proposeIn, hm.myProposals, hm.valid, ExtTreeMap.getElem?_empty]
      exact { hm with valid := rfl, myProposals := rfl }
    · exact { hm with }

theorem idle_enterRound (hm : t.m.Idle) (r : ℕ) : (t.enterRound r).m.Idle := by
  have hm' : (t.m.toRound r).Idle := { hm.setBook r with step := .inr rfl }
  refine idle_proposeIfDue ?_ r
  rw [emit, persistRoundState_m]
  exact hm'

theorem idle_voteRules (hm : t.m.Idle) (hstep : t.m.step = .propose) : t.voteRules.1.m.Idle := by
  have hm₁ := hm.setBook t.m.round
  have hstep₁ : (t.m.setBook t.m.round (t.m.book t.m.round)).step = .propose := hstep
  rw [voteRules]
  simp only [hstep₁, prevoteTimer, precommitTimer, reduceCtorEq, false_and, if_false, hm₁.book_eq]
  rw [if_neg]
  · exact hm₁
  · simp [ValidatorSet.quorum]

/-- A pass over the rules of an idle machine at most enters round 0. -/
theorem idle_pass (hm : t.m.Idle) : t.pass.1.m.Idle := by
  have hcommit : t.tryCommit = none := by rw [tryCommit, hm.commitTarget]; rfl
  have hprevote : t.tryPrevote = none := by rw [tryPrevote, hm.prevoteDecision]; rfl
  rcases hm.step with hstep | hstep
  · simp only [pass, hstep, hcommit, reduceCtorEq, if_false, if_true]
    split
    · exact idle_enterRound hm 0
    · exact hm
  · have hlock : t.tryLock = none := by simp [tryLock, hstep]
    simp only [pass, hstep, hcommit, hprevote, hlock, hm.skipTarget, reduceCtorEq, if_false, if_true]
    exact idle_voteRules hm hstep

theorem idle_evaluate (hm : t.m.Idle) (h : t.evaluate fuel = some t') : t'.m.Idle :=
  evaluate_induction (motive := fun t => t.m.Idle) (fun _ hm => idle_pass hm) hm h

end Turn

/-! ## New and restored machines -/

namespace Machine

variable {ctx : HeightCtx}

theorem idle_new {cfg : Config} (h : new fuel cfg ctx = some t) : t.m.Idle := by
  obtain ⟨lastCommit, wait, hm⟩ := Turn.startHeight_machine ctx
    { m := { cfg, height := ctx.height - 1, step := .committed, set := ctx.set
             proposers := ctx.proposers, parent := ctx.parent, parentTime := ctx.parentTime } }
  refine Turn.idle_evaluate ?_ h
  rw [hm]
  exact ctx.idle_machine _ _ _

/-- A new machine, where the height has not started yet. -/
theorem new_ok (hheight : ctx.height = x.height) (hset : ctx.set = x.set) (hd : Durable x H P)
    (hstarted : P.started = false) (h : new fuel x.cfg ctx = some t) : t.OK x H P := by
  refine Turn.OK.evaluate ?_ h
  exact Turn.startHeight_ok rfl hheight hset hd hstarted

end Machine

theorem Durable.empty : Durable x H {} where
  height := .inr rfl
  signer := by simp
  idle := by simp
  voted := by simp
  locked := by simp
  precommitted := by simp

namespace Machine

variable {m : Machine} {ctx : HeightCtx} {saved : PersistedState}

theorem keepBlock_id {blocks : ExtTreeMap BlockId Block}
    (h : ∀ (id : BlockId) (b : Block), blocks[id]? = some b → b.id = id) (slot : Option (ℕ × Block))
    (id : BlockId) (b : Block) (hb : (keepBlock blocks slot)[id]? = some b) : b.id = id := by
  cases slot with
  | none => exact h id b hb
  | some s =>
    rw [keepBlock, getElem?_insert_eq] at hb
    split at hb
    · next heq => rw [← Option.some.inj hb, heq]
    · exact h id b hb

/-- An idle machine that reloads the durable state agrees with it. -/
theorem base_reload (hm : m.Idle) (hcfg : m.cfg = x.cfg) (hheight : m.height = x.height)
    (hset : m.set = x.set) (hd : Durable x H saved) (hrec : saved.height = x.height) :
    Base x H saved (m.reload saved) where
  cfg_eq := hcfg
  height_eq := hheight
  set_eq := hset
  durable := hd
  recorded _ := hrec
  blocks := keepBlock_id (keepBlock_id (by simp [hm.blocks]) _) _
  tallies r kind := by
    have hbook : (m.reload saved).book r = {} := hm.book_eq r
    rw [hbook]
    cases kind <;> exact .empty
  journal _ := rfl
  locked _ := by
    rw [reload, hm.locked, Option.or_none]
  proposals := by simp [reload, hm.myProposals]

/-- Sending the journaled proposals again. -/
theorem based_resendProposals {key : SigningKey} (hkey : x.signer = some key) (r : ℕ)
    (slots : List (ℕ × Option ℕ × Block)) (ht : t.Based x H P₀) :
    (slots.foldl (resendProposal key r) t).Based x H P₀ ∧
      (slots.foldl (resendProposal key r) t).state P₀ = t.state P₀ := by
  induction slots generalizing t with
  | nil => exact ⟨ht, rfl⟩
  | cons slot slots ih =>
    obtain ⟨round, pol, block⟩ := slot
    have hsent : (resendProposal key r t (round, pol, block)).Based x H P₀ ∧
        (resendProposal key r t (round, pol, block)).state P₀ = t.state P₀ := by
      have hb := (ht.base.insertProposal hkey round pol block).recordProposal
        (.sign key t.m.cfg.chainId t.m.height round pol block) .valid
      rw [resendProposal]
      dsimp only
      split
      · have hquiet : (t.emit (.broadcast (.proposal
            (.sign key t.m.cfg.chainId t.m.height round pol block)))).Based x H P₀ := by
          refine ht.quiet ⟨key, round, pol, block, hkey, ?_⟩ rfl
          rw [ht.base.cfg_eq, ht.base.height_eq]
        exact ⟨hquiet.setM ((Turn.state_emit _).symm ▸ hb), Turn.state_emit _⟩
      · exact ⟨ht.setM hb, rfl⟩
    obtain ⟨hbased, hstate⟩ := ih hsent.1
    exact ⟨hbased, hstate.trans hsent.2⟩

/-- Sending the journaled votes again. -/
theorem based_resendVotes {key : SigningKey} (hkey : x.signer = some key)
    (slots : List ((VoteType × ℕ) × Option BlockId)) (ht : t.Based x H P₀)
    (hslots : ∀ s ∈ slots, (t.state P₀).votes[s.1]? = some s.2) :
    (slots.foldl (resendVote key) t).Based x H P₀ ∧
      (slots.foldl (resendVote key) t).state P₀ = t.state P₀ := by
  induction slots generalizing t with
  | nil => exact ⟨ht, rfl⟩
  | cons slot slots ih =>
    obtain ⟨hslot, hslots⟩ := List.forall_mem_cons.1 hslots
    have hstate : (resendVote key t slot).state P₀ = t.state P₀ := Turn.state_sendVote _ _ _ _
    obtain ⟨hbased, hstate'⟩ := ih (ht.sendVote hkey hslot) fun s hs => by
      rw [Turn.state_sendVote]
      exact hslots s hs
    exact ⟨hbased, hstate'.trans hstate⟩

/-- Every restart from a durable state keeps the machine disciplined. -/
theorem restore_ok (hheight : ctx.height = x.height) (hset : ctx.set = x.set)
    (hd : Durable x H saved) (h : restore fuel x.cfg ctx saved = some t) : t.OK x H saved := by
  simp only [restore, Option.bind_eq_bind, Option.bind_eq_some_iff] at h
  obtain ⟨t₀, hnew, h⟩ := h
  have hbase := (new_ok (H := H) hheight hset Durable.empty rfl hnew).base
  have hidle := idle_new hnew
  split at h
  · next hcase =>
    -- Nothing to resume: the height has not started in the durable state.
    obtain rfl := Option.some.inj h
    refine new_ok hheight hset hd ?_ hnew
    rcases hcase with hne | hstarted | hcom
    · rw [hd.height.resolve_left (hbase.height_eq ▸ hne)]
    · simpa using hstarted
    · rcases hidle.step with hstep | hstep <;> exact absurd (hstep.symm.trans hcom) Step.noConfusion
  · next hcase =>
    simp only [not_or, not_not, Bool.not_eq_true', Bool.not_eq_false] at hcase
    obtain ⟨hrec, hstarted, -⟩ := hcase
    obtain ⟨key, hkey⟩ := Option.isSome_iff_exists.1 (hd.signer hstarted)
    have hb : Base x H saved (t₀.m.reload saved) :=
      base_reload hidle hbase.cfg_eq hbase.height_eq hbase.set_eq hd (hrec.trans hbase.height_eq)
    have ht₁ : Turn.Based x H saved { m := t₀.m.reload saved } := ⟨trivial, hb⟩
    rw [hb.signer_eq, hkey] at h
    dsimp only at h
    obtain ⟨ht₂, hstate₂⟩ := based_resendProposals hkey saved.round saved.proposals.toList ht₁
    obtain ⟨ht₃, hstate₃⟩ := based_resendVotes hkey saved.votes.toList ht₂ fun s hs => by
      rw [hstate₂]
      exact ExtTreeMap.mem_toList_iff_getElem?_eq_some.1 hs
    generalize List.foldl (resendVote key) _ saved.votes.toList = t₃ at ht₃ hstate₃ h
    have hround : (Turn.state saved t₃).round = saved.round := by rw [hstate₃, hstate₂]; rfl
    have ht₄ : Turn.Based x H saved { t₃ with m := { t₃.m with commitWaitDone := true } } :=
      ht₃.setM (ht₃.base.congr rfl)
    obtain ⟨ht₅, hstep⟩ := ht₄.enterRound (r := saved.round) fun _ => hround.le
    refine Turn.OK.evaluate ?_ h
    refine ht₅.setStep (by rw [hstep]; exact Step.noConfusion)
      (by rw [hstep]; exact Step.noConfusion) ?_
    rw [resumedStep, hstep]
    split
    · exact Step.noConfusion
    · split <;> exact Step.noConfusion

end Machine

end RougeChain.Consensus
