import RougeChain.Consensus.Changes
import RougeChain.Consensus.Justified

/-!
# The machine is disciplined

Every output of a machine is justified by the records before it, whatever its
inputs are.

* `Base`: the machine agrees with the durable state: its journal and its lock are
  the durable ones, and every weight it counts is that of votes it heard;
* `Placed`: its round is the durable one once the height has started;
* `Turn.OK`: the outputs of a turn are justified and leave a machine with both;
* `Turn.OK.change`: every change keeps it, where the votes of the input are heard;
* `Machine.handle_ok`: so does every input within the height.
-/

namespace RougeChain.Consensus

open Finset
open Std (ExtTreeMap)

variable {x : Setting} {H : Hearing} {P P₀ : PersistedState}

/-! ## Tallies -/

/-- A tally counts, for each value, the voters of the votes it holds for it, and
    holds only votes that `heard` allows. -/
structure TallyOK (set : ValidatorSet) (heard : Option BlockId → KeyId → Prop) (t : Tally) :
    Prop where
  counted : ∀ v, ∃ S : Finset KeyId, (∀ k, k ∈ S ↔ (k, v) ∈ t.votes) ∧
    t.weightFor v = ∑ k ∈ S, set.weight k
  heard : ∀ k v, (k, v) ∈ t.votes → heard v k

namespace TallyOK

variable {set : ValidatorSet} {heard heard' : Option BlockId → KeyId → Prop} {t : Tally}

theorem empty : TallyOK set heard {} where
  counted v := ⟨∅, by simp, by simp [Tally.weightFor, ExtTreeMap.getD_eq_getD_getElem?]⟩
  heard := by simp

theorem mono (ht : TallyOK set heard t) (hmono : ∀ v k, heard v k → heard' v k) :
    TallyOK set heard' t :=
  ⟨ht.counted, fun k v hk => hmono v k (ht.heard k v hk)⟩

theorem weightFor_count (t : Tally) (w : ℕ) (vote : Vote) (v : Option BlockId) :
    (t.count w vote).weightFor v = if vote.block = v then t.weightFor v + w else t.weightFor v := by
  simp only [Tally.weightFor, Tally.count, ExtTreeMap.getD_eq_getD_getElem?, getElem?_insert_eq]
  split
  · next h => rw [h, Option.getD_some]
  · rfl

theorem count (ht : TallyOK set heard t) {vote : Vote} (hheard : heard vote.block vote.voter)
    (hnew : (vote.voter, vote.block) ∉ t.votes) :
    TallyOK set heard (t.count (set.weight vote.voter) vote) where
  counted v := by
    obtain ⟨S, hS, hsum⟩ := ht.counted v
    by_cases hv : vote.block = v
    · subst hv
      have hmem : vote.voter ∉ S := fun h => hnew ((hS _).1 h)
      refine ⟨insert vote.voter S, fun k => ?_, ?_⟩
      · rw [mem_insert, hS, Tally.count, mem_insert_eq, Prod.mk.injEq, and_iff_left rfl, eq_comm]
      · rw [weightFor_count, if_pos rfl, sum_insert hmem, hsum, Nat.add_comm]
    · refine ⟨S, fun k => ?_, by rw [weightFor_count, if_neg hv, hsum]⟩
      simp [Tally.count, hS, hv]
  heard k v hk := by
    rcases (mem_insert_eq _ _ _ _).1 hk with heq | hk
    · obtain ⟨rfl, rfl⟩ := Prod.mk.inj heq
      exact hheard
    · exact ht.heard k v hk

/-- Storing a vote that was heard. -/
theorem record (ht : TallyOK set heard t) {vote : Vote} (hheard : heard vote.block vote.voter)
    (known : Bool) : TallyOK set heard (t.record (set.weight vote.voter) known vote).1 := by
  rw [Tally.record]
  split
  · exact ht
  · next hnew =>
    have hcount := ht.count hheard fun h => hnew (by simpa using h)
    split
    · dsimp only
      split
      · exact hcount
      · exact ht
    · exact ⟨hcount.counted, hcount.heard⟩

/-- A value with the weight of a quorum. -/
theorem quorum {kind : VoteType} {r : ℕ} {id : BlockId}
    (ht : TallyOK x.set (Heard x H P kind r) t) (hq : x.set.quorum ≤ t.weightFor (some id)) :
    Quorum x H P kind r id := by
  obtain ⟨S, hS, hsum⟩ := ht.counted (some id)
  exact ⟨S, hsum ▸ hq, fun k hk => ht.heard k _ ((hS k).1 hk)⟩

end TallyOK

/-! ## What the rules look for -/

theorem Tally.quorumBlock_spec {t : Tally} {q : ℕ} {id : BlockId} (h : t.quorumBlock q = some id) :
    q ≤ t.weightFor (some id) := by
  obtain ⟨⟨v, w⟩, hmem, hv⟩ := List.exists_of_findSome?_eq_some h
  dsimp only at hv
  split at hv
  · next hq =>
    subst hv
    rw [ExtTreeMap.mem_toList_iff_getElem?_eq_some] at hmem
    rwa [Tally.weightFor, ExtTreeMap.getD_eq_getD_getElem?, hmem, Option.getD_some]
  · exact absurd hv (by simp)

namespace Machine

variable {m : Machine}

theorem commitTarget_spec {r : ℕ} {id : BlockId} (h : m.commitTarget = some (r, id)) :
    m.set.quorum ≤ ((m.book r).tally .precommit).weightFor (some id) := by
  obtain ⟨⟨r', b⟩, hmem, hb⟩ := List.exists_of_findSome?_eq_some h
  obtain ⟨id', hid, heq⟩ := Option.map_eq_some_iff.1 hb
  obtain ⟨rfl, rfl⟩ := Prod.mk.inj heq
  rw [ExtTreeMap.mem_toList_iff_getElem?_eq_some] at hmem
  rw [book, hmem, Option.getD_some]
  exact Tally.quorumBlock_spec (Option.filter_eq_some_iff.1 hid).1

/-- A prevote for a block is for the locked one, or rests on prevotes at or above the lock. -/
theorem prevoteFor_spec {ps : List ProposalRec} {id : BlockId}
    (h : m.prevoteFor ps = some (some id)) {lr : ℕ} {l : BlockId} (hl : m.locked = some (lr, l)) :
    l = id ∨ ∃ vr ≥ lr, m.set.quorum ≤ ((m.book vr).tally .prevote).weightFor (some id) := by
  induction ps with
  | nil => exact absurd h (by simp [prevoteFor])
  | cons p ps ih =>
    simp only [prevoteFor, hl, Option.all_some] at h
    split at h
    · split at h
      · next hfree =>
        simp only [Bool.and_eq_true, beq_iff_eq] at hfree
        exact .inl (hfree.2.trans (Option.some.inj (Option.some.inj h)))
      · exact absurd h (by simp)
    · next vr _ =>
      split at h
      · next hq =>
        split at h
        · next hfree =>
          obtain rfl := Option.some.inj (Option.some.inj h)
          simp only [Bool.and_eq_true, Bool.or_eq_true, decide_eq_true_eq, beq_iff_eq] at hfree
          rcases hfree.2 with hle | heq
          · exact .inr ⟨vr, hle, hq⟩
          · exact .inl heq
        · exact absurd h (by simp)
      · exact ih h

theorem prevoteDecision_spec {id : BlockId} (h : m.prevoteDecision = some (some id)) {lr : ℕ}
    {l : BlockId} (hl : m.locked = some (lr, l)) :
    l = id ∨ ∃ vr ≥ lr, m.set.quorum ≤ ((m.book vr).tally .prevote).weightFor (some id) := by
  rw [prevoteDecision] at h
  split at h
  · next hp =>
    rw [h] at hp
    exact prevoteFor_spec hp hl
  · split at h
    · exact absurd h (by simp)
    · exact absurd h (by simp)

end Machine

/-! ## The machine and the durable state -/

/-- The machine agrees with the durable state, and counts what it heard. -/
structure Base (x : Setting) (H : Hearing) (P : PersistedState) (m : Machine) : Prop where
  cfg_eq : m.cfg = x.cfg
  height_eq : m.height = x.height
  set_eq : m.set = x.set
  durable : Durable x H P
  recorded : x.signer.isSome → P.height = x.height
  blocks : ∀ (id : BlockId) (b : Block), m.blocks[id]? = some b → b.id = id
  tallies : ∀ r kind, TallyOK x.set (Heard x H P kind r) ((m.book r).tally kind)
  journal : x.signer.isSome → m.journal = P.votes
  locked : x.signer.isSome → m.locked = P.locked.map fun l => (l.1, l.2.id)
  proposals : ∀ key, x.signer = some key → ∀ (r : ℕ) p, m.myProposals[r]? = some p →
    ∃ pol b, p = .sign key x.cfg.chainId x.height r pol b

/-- The round is the durable one once the height has started. -/
structure Placed (x : Setting) (P : PersistedState) (m : Machine) : Prop where
  active : x.signer.isSome → m.step ≠ .newHeight → m.step ≠ .committed →
    P.started = true ∧ P.round = m.round
  fresh : x.signer.isSome → m.step = .newHeight → P.started = false

/-- The fields that `Base` reads. -/
def Machine.core (m : Machine) :=
  (m.cfg, m.height, m.set, m.blocks, m.rounds, m.journal, m.locked, m.myProposals)

namespace Base

variable {m m' : Machine}

theorem signer_eq (hb : Base x H P m) : m.signer = x.signer := by
  rw [Machine.signer, hb.cfg_eq, hb.set_eq, Setting.signer]

/-- The blocks that are added have their ids, and the votes stay. -/
theorem frame (hb : Base x H P m) (heq : (m'.cfg, m'.height, m'.set, m'.journal, m'.locked,
      m'.myProposals) = (m.cfg, m.height, m.set, m.journal, m.locked, m.myProposals))
    (hblocks : ∀ (id : BlockId) (b : Block), m'.blocks[id]? = some b → b.id = id)
    (htally : ∀ r kind, (m'.book r).tally kind = (m.book r).tally kind) : Base x H P m' := by
  simp only [Prod.mk.injEq] at heq
  obtain ⟨hcfg, hheight, hset, hjournal, hlocked, hproposals⟩ := heq
  exact ⟨hcfg.trans hb.cfg_eq, hheight.trans hb.height_eq, hset.trans hb.set_eq, hb.durable,
    hb.recorded, hblocks, fun r kind => htally r kind ▸ hb.tallies r kind,
    hjournal ▸ hb.journal, hlocked ▸ hb.locked, hproposals ▸ hb.proposals⟩

theorem congr (hb : Base x H P m) (heq : m'.core = m.core) : Base x H P m' := by
  simp only [Machine.core, Prod.mk.injEq] at heq
  obtain ⟨hcfg, hheight, hset, hblocks, hrounds, hjournal, hlocked, hproposals⟩ := heq
  refine hb.frame ?_ (hblocks ▸ hb.blocks) fun r kind => by rw [Machine.book, hrounds, Machine.book]
  rw [hcfg, hheight, hset, hjournal, hlocked, hproposals]

theorem setBook (hb : Base x H P m) {r : ℕ} {b : RoundBook}
    (hbook : ∀ kind, TallyOK x.set (Heard x H P kind r) (b.tally kind)) :
    Base x H P (m.setBook r b) where
  __ := hb
  tallies r' kind := by
    rw [Machine.book_setBook]
    split
    · next h => exact h ▸ hbook kind
    · exact hb.tallies r' kind

/-- Writing a book with the same votes. -/
theorem setBook_of_tally (hb : Base x H P m) {r : ℕ} {b : RoundBook}
    (hbook : ∀ kind, b.tally kind = (m.book r).tally kind) : Base x H P (m.setBook r b) :=
  hb.frame rfl hb.blocks (Machine.tally_setBook hbook)

theorem noteSender (hb : Base x H P m) (r : ℕ) (key : KeyId) : Base x H P (m.noteSender r key) :=
  hb.frame rfl hb.blocks (Machine.tally_noteSender r key)

theorem noteVoter (hb : Base x H P m) (key : KeyId) : Base x H P (m.noteVoter key) := by
  rw [Machine.noteVoter]
  split
  · exact hb
  · exact hb.congr rfl

/-- Keeping a proposal of its own. -/
theorem insertProposal (hb : Base x H P m) {key : SigningKey} (hkey : x.signer = some key) (r : ℕ)
    (pol : Option ℕ) (b : Block) :
    Base x H P { m with
      myProposals := m.myProposals.insert r (.sign key m.cfg.chainId m.height r pol b) } where
  __ := hb
  proposals key' hkey' r' p hp := by
    rw [getElem?_insert_eq] at hp
    split at hp
    · next heq =>
      obtain rfl : key = key' := Option.some.inj (hkey.symm.trans hkey')
      refine ⟨pol, b, ?_⟩
      rw [← Option.some.inj hp, ← heq, hb.cfg_eq, hb.height_eq]
    · exact hb.proposals key' hkey' r' p hp

theorem recordProposal (hb : Base x H P m) (p : Proposal) (verdict : Verdict) :
    Base x H P (m.recordProposal p verdict) := by
  have htally := Machine.tally_recordProposal (m := m) p verdict
  obtain ⟨rounds, blocks, heq, hblocks⟩ := Turn.recordProposal_frame m p verdict
  rw [heq] at htally ⊢
  refine hb.frame rfl (fun id b h => ?_) htally
  rcases hblocks with rfl | rfl
  · exact hb.blocks id b h
  · rw [getElem?_insert_eq] at h
    split at h
    · next hid => rw [← Option.some.inj h, hid]
    · exact hb.blocks id b h

/-- Counting a vote that was heard. -/
theorem countVote (hb : Base x H P m) {vote : Vote}
    (hheard : Heard x H P vote.kind vote.round vote.block vote.voter) (known : Bool) :
    Base x H P (m.countVote vote known) := by
  refine hb.setBook fun kind => ?_
  have htally := hb.tallies vote.round
  rw [hb.set_eq]
  by_cases hkind : kind = vote.kind
  · subst hkind
    have hrec := (htally vote.kind).record hheard
    cases h : vote.kind <;> rw [h] at hrec <;> exact hrec _
  · cases kind <;> cases h : vote.kind <;>
      first | exact absurd h.symm hkind | exact htally _

theorem quorum (hb : Base x H P m) {kind : VoteType} {r : ℕ} {id : BlockId}
    (hq : m.set.quorum ≤ ((m.book r).tally kind).weightFor (some id)) : Quorum x H P kind r id :=
  (hb.tallies r kind).quorum (hb.set_eq ▸ hq)

/-- What the machine may send is justified, and is no record. -/
theorem justified (hb : Base x H P m) {o : Output} (ho : m.MaySend o) :
    Justified x H P o ∧ P.after o = P := by
  cases o with
  | persist | commit => exact ho.elim
  | broadcast msg =>
    cases msg with
    | vote v =>
      obtain ⟨key, kind, r, value, hkey, rfl, hslot⟩ := ho
      rw [hb.signer_eq] at hkey
      rw [hb.journal (by simp [hkey])] at hslot
      exact ⟨⟨key, kind, r, value, hkey, by rw [hb.cfg_eq, hb.height_eq], hslot⟩, rfl⟩
    | proposal p =>
      obtain ⟨hs, r, hp⟩ := ho
      rw [hb.signer_eq] at hs
      obtain ⟨key, hkey⟩ := Option.isSome_iff_exists.1 hs
      obtain ⟨pol, b, rfl⟩ := hb.proposals key hkey r p hp
      exact ⟨⟨key, r, pol, b, hkey, rfl⟩, rfl⟩
  | _ => exact ⟨trivial, rfl⟩

/-- What the rules cast may be voted. -/
theorem mayVote (hb : Base x H P m) (hs : x.signer.isSome) {id : BlockId} {kind : VoteType}
    (hmay : m.MayCast id kind) : MayVote x H P m.round id kind := by
  cases kind with
  | prevote =>
    intro lr lb hl
    have hlocked : m.locked = some (lr, lb.id) := by rw [hb.locked hs, hl]; rfl
    rcases Machine.prevoteDecision_spec hmay hlocked with heq | ⟨vr, hle, hq⟩
    · exact .inl heq
    · exact .inr ⟨vr, hle, hb.quorum hq⟩
  | precommit =>
    obtain ⟨hlocked, hq⟩ := hmay
    rw [hb.locked hs] at hlocked
    obtain ⟨⟨r, b⟩, hl, heq⟩ := Option.map_eq_some_iff.1 hlocked
    obtain ⟨rfl, rfl⟩ := Prod.mk.inj heq
    exact ⟨hb.quorum hq, b, hl, rfl⟩

/-- A record is written, and the machine follows. -/
theorem write (hb : Base x H P m) {record : PersistRecord}
    (hj : Justified x H P (.persist record)) (hjournal : m'.journal = (P.write record).votes)
    (hlocked : m'.locked = (P.write record).locked.map fun l => (l.1, l.2.id))
    (heq : (m'.cfg, m'.height, m'.set, m'.blocks, m'.rounds, m'.myProposals) =
      (m.cfg, m.height, m.set, m.blocks, m.rounds, m.myProposals)) :
    P.apply record = P.write record ∧ Base x H (P.write record) m' := by
  have hheight := hb.recorded hj.1
  have happly : P.apply record = P.write record := apply_eq_write (hj.2.1.trans hheight.symm)
  simp only [Prod.mk.injEq] at heq
  obtain ⟨hcfg, hheight', hset, hblocks, hrounds, hproposals⟩ := heq
  have hbook : ∀ r, m'.book r = m.book r := fun r => by rw [Machine.book, hrounds, Machine.book]
  refine ⟨happly, hcfg.trans hb.cfg_eq, hheight'.trans hb.height_eq, hset.trans hb.set_eq,
    happly ▸ hb.durable.apply hj, fun _ => ?_, hblocks ▸ hb.blocks, fun r kind => ?_,
    fun _ => hjournal, fun _ => hlocked, hproposals ▸ hb.proposals⟩
  · cases record <;> exact hheight
  · rw [hbook, ← happly]
    exact (hb.tallies r kind).mono fun _ _ => hb.durable.heard_apply hj

end Base

/-! ## Turns -/

namespace Turn

/-- The durable state after the outputs of the turn. -/
def state (P₀ : PersistedState) (t : Turn) : PersistedState := P₀.afterAll t.out

/-- The outputs are justified, and the machine agrees with the state after them. -/
structure Based (x : Setting) (H : Hearing) (P₀ : PersistedState) (t : Turn) : Prop where
  emits : Emits x H P₀ t.out
  base : Base x H (t.state P₀) t.m

/-- A based turn whose machine is in the durable round. -/
structure OK (x : Setting) (H : Hearing) (P₀ : PersistedState) (t : Turn) : Prop
    extends Based x H P₀ t where
  placed : Placed x (t.state P₀) t.m

variable {t t' : Turn}

@[simp]
theorem state_emit (o : Output) : (t.emit o).state P₀ = (t.state P₀).after o := by
  simp [state, emit]

@[simp]
theorem state_recordVote (vote : Vote) : (t.recordVote vote).state P₀ = t.state P₀ := by
  rw [state, recordVote, PersistedState.afterAll_append, PersistedState.afterAll_evidence, state]

@[simp]
theorem state_sendVote (key : SigningKey) (kind : VoteType) (r : ℕ) (value : Option BlockId) :
    (t.sendVote key kind r value).state P₀ = t.state P₀ := by
  rw [sendVote, state_recordVote, state_emit]
  rfl

/-- The place of the machine, and of the durable state, stay as they are. -/
structure Keeps (P₀ : PersistedState) (t t' : Turn) : Prop where
  started : (t'.state P₀).started = (t.state P₀).started
  stateRound : (t'.state P₀).round = (t.state P₀).round
  step : t'.m.step = t.m.step
  round : t'.m.round = t.m.round

theorem Keeps.refl (t : Turn) : Keeps P₀ t t := ⟨rfl, rfl, rfl, rfl⟩

theorem Keeps.placed (hk : Keeps P₀ t t') (hp : Placed x (t.state P₀) t.m) :
    Placed x (t'.state P₀) t'.m where
  active hs hnew hcom := by
    rw [hk.step] at hnew hcom
    rw [hk.started, hk.stateRound, hk.round]
    exact hp.active hs hnew hcom
  fresh hs hnew := by
    rw [hk.step] at hnew
    rw [hk.started]
    exact hp.fresh hs hnew

/-- Hearing more votes keeps a turn in order. -/
theorem OK.hear {H' : Hearing} (hH : H ≤ H') (ht : t.OK x H P₀) : t.OK x H' P₀ where
  emits := ht.emits.hear hH
  base := { ht.base with
    durable := ht.base.durable.hear hH
    tallies := fun r kind => (ht.base.tallies r kind).mono fun v k hk =>
      hk.imp_left (hH kind r v k) }
  placed := ht.placed

namespace Based

theorem setM (ht : t.Based x H P₀) {m : Machine} (hm : Base x H (t.state P₀) m) :
    Based x H P₀ { t with m } := ⟨ht.emits, hm⟩

/-- An output that is not a record. -/
theorem quiet (ht : t.Based x H P₀) {o : Output} (hj : Justified x H (t.state P₀) o)
    (hquiet : (t.state P₀).after o = t.state P₀) : (t.emit o).Based x H P₀ where
  emits := emits_append.2 ⟨ht.emits, hj, trivial⟩
  base := by
    rw [state_emit, hquiet]
    exact ht.base

/-- A record, and the machine that follows it. -/
theorem persist (ht : t.Based x H P₀) {record : PersistRecord} {m : Machine}
    (hj : Justified x H (t.state P₀) (.persist record))
    (hjournal : m.journal = ((t.state P₀).write record).votes)
    (hlocked : m.locked = ((t.state P₀).write record).locked.map fun l => (l.1, l.2.id))
    (heq : (m.cfg, m.height, m.set, m.blocks, m.rounds, m.myProposals) =
      (t.m.cfg, t.m.height, t.m.set, t.m.blocks, t.m.rounds, t.m.myProposals)) :
    (Turn.mk m (t.out ++ [.persist record])).Based x H P₀ ∧
      (Turn.mk m (t.out ++ [.persist record])).state P₀ = (t.state P₀).write record := by
  obtain ⟨happly, hb⟩ := ht.base.write hj hjournal hlocked heq
  have hstate : (Turn.mk m (t.out ++ [.persist record])).state P₀ = (t.state P₀).write record :=
    (state_emit (t := ⟨m, t.out⟩) _).trans happly
  exact ⟨⟨emits_append.2 ⟨ht.emits, hj, trivial⟩, hstate ▸ hb⟩, hstate⟩

theorem recordVote (ht : t.Based x H P₀) {vote : Vote}
    (hheard : Heard x H (t.state P₀) vote.kind vote.round vote.block vote.voter) :
    (t.recordVote vote).Based x H P₀ where
  emits := emits_append.2 ⟨ht.emits, emits_evidence _⟩
  base := by
    rw [state_recordVote]
    exact ((ht.base.noteSender vote.round vote.voter).noteVoter vote.voter).countVote hheard _

theorem sendVote (ht : t.Based x H P₀) {key : SigningKey} (hkey : x.signer = some key)
    {kind : VoteType} {r : ℕ} {value : Option BlockId}
    (hslot : (t.state P₀).votes[(kind, r)]? = some value) :
    (t.sendVote key kind r value).Based x H P₀ := by
  refine (ht.quiet ?_ rfl).recordVote ?_
  · exact ⟨key, kind, r, value, hkey, by rw [ht.base.cfg_eq, ht.base.height_eq], hslot⟩
  · rw [state_emit]
    exact .inr ⟨hkey, hslot⟩

/-- Writing a slot of the current round that is free. -/
theorem journalVote (ht : t.Based x H P₀) {kind : VoteType} {value : Option BlockId}
    (hj : Justified x H (t.state P₀) (.persist (.voteSlot kind t.m.height t.m.round value))) :
    (t.journalVote kind value).Based x H P₀ ∧ (t.journalVote kind value).state P₀ =
      (t.state P₀).write (.voteSlot kind t.m.height t.m.round value) := by
  refine ht.persist hj ?_ (ht.base.locked hj.1) rfl
  -- The slot is free in the journal as in the durable state.
  have hfree := hj.2.2.2.2.2.1
  refine ExtTreeMap.ext_getElem? fun slot => ?_
  rw [PersistedState.write, getElem?_insertIfNew_eq, getElem?_insert_eq, ht.base.journal hj.1]
  simp only [hfree, and_true]

/-- Recording a proposal of its own. -/
theorem journalProposal (ht : t.Based x H P₀) {key : SigningKey} (hkey : x.signer = some key)
    (r : ℕ) (pol : Option ℕ) (block : Block) :
    (t.journalProposal key r pol block).Based x H P₀ ∧
      Keeps P₀ t (t.journalProposal key r pol block) := by
  have hb := ht.base
  have hs : x.signer.isSome := by simp [hkey]
  have hj : Justified x H (t.state P₀) (.persist (.proposalSlot t.m.height r pol block)) :=
    ⟨hs, hb.height_eq, hb.recorded hs⟩
  obtain ⟨hbased, hstate⟩ := ht.persist hj (hb.journal hs) (hb.locked hs) rfl
  have hstate' : (t.journalProposal key r pol block).state P₀ =
      (t.state P₀).write (.proposalSlot t.m.height r pol block) := hstate
  obtain ⟨hstep, hround⟩ := Machine.recordProposal_place { t.m with
    myProposals := t.m.myProposals.insert r (.sign key t.m.cfg.chainId t.m.height r pol block) }
    (.sign key t.m.cfg.chainId t.m.height r pol block) .valid
  refine ⟨hbased.setM ?_, by rw [hstate']; rfl, by rw [hstate']; rfl, hstep, hround⟩
  exact (hbased.base.insertProposal hkey r pol block).recordProposal _ .valid

/-- Recording the round. -/
theorem persistRoundState (ht : t.Based x H P₀)
    (hround : x.signer.isSome → (t.state P₀).round ≤ t.m.round) :
    t.persistRoundState.Based x H P₀ ∧ t.persistRoundState.m = t.m ∧
      (t.persistRoundState.state P₀).locked = (t.state P₀).locked ∧
      (x.signer.isSome → (t.persistRoundState.state P₀).started = true ∧
        (t.persistRoundState.state P₀).round = t.m.round) := by
  have hb := ht.base
  rw [Turn.persistRoundState, hb.signer_eq]
  cases hkey : x.signer with
  | none => exact ⟨ht, rfl, rfl, by simp⟩
  | some key =>
    have hs : x.signer.isSome := by simp [hkey]
    dsimp only
    generalize (t.m.valid.bind fun v => t.m.blocks[v.2]?.map fun b => (v.1, b)) = valid
    have hj : Justified x H (t.state P₀) (.persist (.roundState t.m.height t.m.round valid)) :=
      ⟨hs, hb.height_eq, hb.recorded hs, hround hs⟩
    obtain ⟨hbased, hstate⟩ := ht.persist hj (hb.journal hs) (hb.locked hs) rfl
    have hstate' : (t.emit (.persist (.roundState t.m.height t.m.round valid))).state P₀ =
        (t.state P₀).write (.roundState t.m.height t.m.round valid) := hstate
    refine ⟨hbased, rfl, by rw [hstate']; rfl, fun _ => ?_⟩
    rw [hstate']
    exact ⟨rfl, max_eq_right (hround hs)⟩

/-- Being in a round that is not below the durable one. -/
theorem beginRound (ht : t.Based x H P₀) {r : ℕ}
    (hr : x.signer.isSome → (t.state P₀).round ≤ r) : (t.beginRound r).OK x H P₀ := by
  have hb : Base x H (t.state P₀) (t.m.toRound r) :=
    (ht.base.setBook_of_tally fun _ => rfl).congr rfl
  obtain ⟨ht₁, hm₁, -, hplace⟩ := (ht.setM hb).persistRoundState hr
  rw [Turn.beginRound]
  generalize Turn.persistRoundState _ = t₁ at ht₁ hm₁ hplace ⊢
  have hm₁ : t₁.m = t.m.toRound r := hm₁
  refine ⟨ht₁.quiet trivial rfl, ?_⟩
  rw [state_emit]
  refine ⟨fun hs _ _ => ?_, fun _ hnew => ?_⟩
  · exact hm₁ ▸ hplace hs
  · have hnew : t₁.m.step = .newHeight := hnew
    rw [hm₁] at hnew
    exact absurd hnew Step.noConfusion

end Based

end Turn

namespace Turn.OK

variable {t t' : Turn}

/-- An output that is not a record. -/
theorem quiet (ht : t.OK x H P₀) {o : Output} (hj : Justified x H (t.state P₀) o)
    (hquiet : (t.state P₀).after o = t.state P₀) : (t.emit o).OK x H P₀ := by
  have hstate : (t.emit o).state P₀ = t.state P₀ := (state_emit o).trans hquiet
  refine ⟨ht.toBased.quiet hj hquiet, ?_⟩
  rw [hstate]
  exact ht.placed

/-- A step further in the durable round. -/
theorem setStep (ht : t.OK x H P₀) (hnew : t.m.step ≠ .newHeight) (hcom : t.m.step ≠ .committed)
    {s : Step} (hs : s ≠ .newHeight) : (t.setStep s).OK x H P₀ where
  emits := ht.emits
  base := ht.base.congr rfl
  placed := ⟨fun hsig _ _ => ht.placed.active hsig hnew hcom, fun _ h => absurd h hs⟩

theorem decideBlock (ht : t.OK x H P₀) {block : Block}
    (hq : ∃ r, Quorum x H (t.state P₀) .precommit r block.id) (round : ℕ)
    (sigs : ExtTreeMap KeyId Sig) : (t.decideBlock block round sigs).OK x H P₀ := by
  rw [Turn.decideBlock]
  dsimp only
  generalize Machine.parentCertificate _ = cert
  have hstate : P₀.afterAll (t.out ++ (cert.map fun c => Output.commit block c).toList) =
      P₀.afterAll t.out := by
    rw [PersistedState.afterAll_append]
    cases cert <;> rfl
  refine ⟨⟨emits_append.2 ⟨ht.emits, ?_⟩, ?_⟩, ?_⟩
  · cases cert with
    | none => exact trivial
    | some c => exact ⟨hq, trivial⟩
  · rw [state, hstate]
    exact ht.base.congr rfl
  · exact ⟨fun _ _ h => absurd rfl h, fun _ h => absurd h (by simp)⟩

/-- Writing a slot of the round that is free. -/
theorem journalVote (ht : t.OK x H P₀) (hactive : t.m.step.Active) (hs : x.signer.isSome)
    {kind : VoteType} {value : Option BlockId} (hfree : t.m.journal[(kind, t.m.round)]? = none)
    (hmay : ∀ id, value = some id → t.m.MayCast id kind) : (t.journalVote kind value).OK x H P₀ := by
  have hb := ht.base
  obtain ⟨hstarted, hround⟩ := ht.placed.active hs hactive.1 hactive.2
  rw [hb.journal hs] at hfree
  have hj : Justified x H (t.state P₀) (.persist (.voteSlot kind t.m.height t.m.round value)) :=
    ⟨hs, hb.height_eq, hb.recorded hs, hstarted, hround.symm, hfree,
      fun id hid => hb.mayVote hs (hmay id hid)⟩
  obtain ⟨hbased, hstate⟩ := ht.toBased.journalVote hj
  have hk : Keeps P₀ t (t.journalVote kind value) :=
    ⟨by rw [hstate]; rfl, by rw [hstate]; rfl, rfl, rfl⟩
  exact ⟨hbased, hk.placed ht.placed⟩

/-- Locking a block with a quorum of prevotes in the round. -/
theorem lock (ht : t.OK x H P₀) (hactive : t.m.step.Active) {block : Block}
    (hq : Quorum x H (t.state P₀) .prevote t.m.round block.id) :
    (t.lock block.id block).OK x H P₀ := by
  have hb := ht.base
  have hsigner : (t.m.setLocked t.m.round block.id).signer = x.signer := hb.signer_eq
  simp only [Turn.lock, hsigner]
  by_cases hs : x.signer.isSome
  · obtain ⟨hstarted, hround⟩ := ht.placed.active hs hactive.1 hactive.2
    have hj : Justified x H (t.state P₀) (.persist (.lock t.m.height t.m.round block)) :=
      ⟨hs, hb.height_eq, hb.recorded hs, hstarted, hround.symm, hq⟩
    obtain ⟨hbased, hstate⟩ := ht.toBased.persist (m := t.m.setLocked t.m.round block.id) hj
      (hb.journal hs) rfl rfl
    rw [if_pos hs]
    refine ⟨hbased, fun _ _ _ => ?_, fun _ h => absurd h hactive.1⟩
    exact ⟨(congrArg PersistedState.started hstate).trans hstarted,
      (congrArg PersistedState.round hstate).trans hround⟩
  · rw [if_neg hs]
    exact ⟨⟨ht.emits, { hb with locked := fun h => absurd h hs }⟩, fun h => absurd h hs,
      fun h => absurd h hs⟩

/-- Marking the valid block of the round. -/
theorem markValid (ht : t.OK x H P₀) (hactive : t.m.step.Active) (id : BlockId) :
    ({ t with m := t.m.markValid id } : Turn).persistRoundState.OK x H P₀ := by
  have hb : Base x H (t.state P₀) (t.m.markValid id) :=
    (ht.base.setBook_of_tally fun kind => by cases kind <;> rfl).congr rfl
  obtain ⟨ht₁, hm₁, -, hplace⟩ := (ht.toBased.setM hb).persistRoundState fun hs =>
    (ht.placed.active hs hactive.1 hactive.2).2.le
  refine ⟨ht₁, fun hs _ _ => ?_, fun _ h => ?_⟩
  · rw [hm₁]
    exact hplace hs
  · rw [hm₁] at h
    exact absurd h hactive.1

/-- Being in a round at or above the current one. -/
theorem beginRound (ht : t.OK x H P₀) {r : ℕ} (hcom : t.m.step ≠ .committed)
    (hr : t.m.step ≠ .newHeight → t.m.round ≤ r) : (t.beginRound r).OK x H P₀ := by
  refine ht.toBased.beginRound fun hs => ?_
  by_cases hnew : t.m.step = .newHeight
  · rw [(ht.base.durable.idle (ht.placed.fresh hs hnew)).2.2]
    exact Nat.zero_le r
  · rw [(ht.placed.active hs hnew hcom).2]
    exact hr hnew

end Turn.OK

/-! ## Inputs -/

/-- An input within the height, whose verified votes and certificate signatures are heard. -/
def Input.Admissible (x : Setting) (H : Hearing) : Input → Prop
  | .startHeight _ => False
  | .vote v => v.height = x.height → v.verify .V3 x.cfg.chainId = true →
      H v.kind v.round v.block v.voter
  | .catchUp _ cert _ => cert.domain = .V3 → cert.height = x.height → ∀ s ∈ cert.sigs,
      verifySig s.1 (voteSignBytes .V3 x.cfg.chainId .precommit cert.height cert.round
        (some cert.block)) s.2 = true → H .precommit cert.round (some cert.block) s.1
  | _ => True

/-- A certificate that verifies is a quorum of precommits. -/
theorem CommitCert.quorum_of_verify {cert : CommitCert} {stake : ℕ}
    (hverify : cert.verify .V3 x.cfg.chainId x.set = .ok stake)
    (hheard : ∀ s ∈ cert.sigs,
      verifySig s.1 (voteSignBytes .V3 x.cfg.chainId .precommit cert.height cert.round
        (some cert.block)) s.2 = true → H .precommit cert.round (some cert.block) s.1) :
    Quorum x H P .precommit cert.round cert.block := by
  obtain ⟨-, hasc, hsigs, rfl, hq⟩ := CommitCert.verify_ok hverify
  have hnodup : cert.signers.Nodup := hasc.imp fun h => h.ne
  refine ⟨cert.signers.toFinset, ?_, fun k hk => ?_⟩
  · rwa [List.sum_toFinset _ hnodup]
  · obtain ⟨s, hs, rfl⟩ := List.mem_map.1 (List.mem_toFinset.1 hk)
    exact .inl (hheard s hs (hsigs s hs).2)

namespace Turn.OK

variable {t t' : Turn} {i : Input} {fuel : ℕ}

/-- A change of fields that neither the durable state nor the place depends on. -/
theorem setM (ht : t.OK x H P₀) {m : Machine} (hcore : m.core = t.m.core)
    (hstep : m.step = t.m.step) (hround : m.round = t.m.round) :
    Turn.OK x H P₀ { t with m } := by
  have hk : Keeps P₀ t { t with m } := ⟨rfl, rfl, hstep, hround⟩
  exact ⟨ht.toBased.setM (ht.base.congr hcore), hk.placed ht.placed⟩

theorem recordProposal (ht : t.OK x H P₀) (p : Proposal) (verdict : Verdict) :
    Turn.OK x H P₀ { t with m := t.m.recordProposal p verdict } := by
  obtain ⟨hstep, hround⟩ := t.m.recordProposal_place p verdict
  have hk : Keeps P₀ t { t with m := t.m.recordProposal p verdict } := ⟨rfl, rfl, hstep, hround⟩
  exact ⟨ht.toBased.setM (ht.base.recordProposal p verdict), hk.placed ht.placed⟩

/-- A vote that is counted was heard: it is in the journal, or is the input. -/
theorem heard (ht : t.OK x H P₀) (hin : i.Admissible x H) {v : Vote} (hv : t.m.Counts v)
    (hfrom : t.m.OwnVote v ∨ i = .vote v) :
    Heard x H (t.state P₀) v.kind v.round v.block v.voter := by
  rcases hfrom with ⟨key, kind, r, value, hkey, rfl, hslot⟩ | rfl
  · rw [ht.base.signer_eq] at hkey
    rw [ht.base.journal (by simp [hkey])] at hslot
    exact .inr ⟨hkey, hslot⟩
  · exact .inl (hin (hv.1.trans ht.base.height_eq) (ht.base.cfg_eq ▸ hv.2.2))

/-- Every change on the way of an input whose votes are heard keeps a turn in order. -/
theorem change (hin : i.Admissible x H) (h : Change i t t') (ht : t.OK x H P₀) : t'.OK x H P₀ := by
  cases h with
  | emit ho =>
    obtain ⟨hj, hquiet⟩ := ht.base.justified ho
    exact ht.quiet hj hquiet
  | aside heq =>
    simp only [Machine.main, Prod.mk.injEq] at heq
    obtain ⟨hcfg, hheight, hround, hstep, hlocked, -, hset, hrounds, hblocks, hjournal, hown, -⟩ :=
      heq
    refine ht.setM ?_ hstep hround
    rw [Machine.core, hcfg, hheight, hset, hblocks, hrounds, hjournal, hlocked, hown, Machine.core]
  | book htally =>
    exact ⟨ht.toBased.setM (ht.base.setBook_of_tally htally), ht.placed.active, ht.placed.fresh⟩
  | proposal p verdict => exact ht.recordProposal p verdict
  | vote known hv hfrom =>
    exact ⟨ht.toBased.setM (ht.base.countVote (ht.heard hin hv hfrom) known), ht.placed.active,
      ht.placed.fresh⟩
  | slot hactive hs hfree hmay => exact ht.journalVote hactive (ht.base.signer_eq ▸ hs) hfree hmay
  | ownProposal pol block _ hkey =>
    obtain ⟨hbased, hk⟩ := ht.toBased.journalProposal (ht.base.signer_eq ▸ hkey) _ pol block
    exact ⟨hbased, hk.placed ht.placed⟩
  | enter hcom hr => exact ht.beginRound hcom hr
  | valid hactive => exact ht.markValid hactive _
  | lock hactive hblock _ hq =>
    obtain rfl := ht.base.blocks _ _ hblock
    exact ht.lock hactive (ht.base.quorum hq)
  | step hactive hs => exact ht.setStep hactive.1 hactive.2 hs.1
  | @commit r id block _ htarget hblock =>
    obtain rfl := ht.base.blocks id block hblock
    exact ht.decideBlock ⟨r, ht.base.quorum (Machine.commitTarget_spec htarget)⟩ _ _
  | @catchUp block cert _ stake hi _ hheight hblock hverify =>
    subst hi
    rw [ht.base.cfg_eq, ht.base.set_eq] at hverify
    refine ht.decideBlock ⟨cert.round, hblock ▸ ?_⟩ _ _
    exact CommitCert.quorum_of_verify hverify
      (hin (CommitCert.verify_ok hverify).1 (hheight.trans ht.base.height_eq))
  | late => exact ht.setM rfl rfl rfl

/-- All passes over the rules. -/
theorem evaluate (ht : t.OK x H P₀) (h : t.evaluate fuel = some t') : t'.OK x H P₀ :=
  have hin : Input.Admissible x H .txPending := trivial
  (changes_evaluate h).keep (change hin) ht

end Turn.OK

/-- Entering a round that is not below the durable one. -/
theorem Turn.Based.enterRound {t : Turn} (ht : t.Based x H P₀) {r : ℕ}
    (hr : x.signer.isSome → (t.state P₀).round ≤ r) :
    (t.enterRound r).OK x H P₀ ∧ (t.enterRound r).m.step = .propose := by
  have hin : Input.Admissible x H .txPending := trivial
  have hstep : (t.beginRound r).m.step = .propose := by rw [beginRound_m]; rfl
  have hactive : (t.beginRound r).m.step.Active := hstep ▸ Step.active_propose
  exact ⟨(changes_proposeIfDue hactive r).keep (OK.change hin) (ht.beginRound hr),
    (place_proposeIfDue _ r).2.trans hstep⟩

namespace Machine

variable {m : Machine} {t : Turn} {fuel : ℕ}

/-- Every input within the height keeps the machine disciplined. -/
theorem handle_ok (hm : Turn.OK x H P { m }) {input : Input} (hin : input.Admissible x H)
    (h : m.handle fuel input = some t) : t.OK x H P := by
  rw [handle_eq] at h
  have hstay (ctx : HeightCtx) : input ≠ .startHeight ctx := by
    rintro rfl
    exact hin
  have hprepared := (changes_prepare hstay).keep (Turn.OK.change hin) hm
  exact (changes_finish h).keep (Turn.OK.change hin) hprepared

end Machine

end RougeChain.Consensus
