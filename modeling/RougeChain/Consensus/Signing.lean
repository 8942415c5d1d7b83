import RougeChain.Consensus.Restart
import RougeChain.Consensus.Supply

/-!
# No double signing

A `Process` is a machine with what it output since it last started. It may crash
at any point. What is left is the fold of a prefix of the outputs, and the driver
has released a message only if every record before it is in that prefix
(`Released`); the outputs after the prefix are lost. Then the machine starts again
from what is left.

* `Process.Lives.votes_durable`: every vote that was ever released, or may be,
  is in a durable journal slot;
* `no_double_sign`: so over any inputs and any crashes the votes of one type,
  height and round carry one value, and no two votes make evidence;
* `Process.votes_and_lock_durable`: the machine goes by the votes and the lock
  that are on disk, and is in no round before them.
-/

namespace RougeChain.Consensus

/-- A machine since it last started: the durable state it started from, its
    outputs since, and the votes released before. -/
structure Process where
  sent : List Vote
  saved : PersistedState
  out : List Output
  m : Machine

/-- The votes that outputs broadcast. -/
def broadcastVotes (out : List Output) : List Vote :=
  out.filterMap fun
    | .broadcast (.vote v) => some v
    | _ => none

/-- Every vote released before, and every vote output since. -/
def Process.votes (p : Process) : List Vote := p.sent ++ broadcastVotes p.out

/-- `v` may have left the process when the first `n` outputs are durable: every
    record before it is among them. -/
def Released (out : List Output) (n : ℕ) (v : Vote) : Prop :=
  ∃ i : ℕ, out[i]? = some (.broadcast (.vote v)) ∧
    ∀ (j : ℕ) record, j < i → out[j]? = some (.persist record) → j < n

/-- The life of a process at one height: it starts, handles inputs, and starts
    again from what a crash leaves. -/
inductive Process.Lives (x : Setting) : Process → Prop
  | start {fuel : ℕ} {ctx : HeightCtx} {t : Turn} :
      ctx.height = x.height → ctx.set = x.set → Machine.new fuel x.cfg ctx = some t →
      Lives x ⟨[], {}, t.out, t.m⟩
  | handle {p : Process} {fuel : ℕ} {input : Input} {t : Turn} :
      Lives x p → (∀ ctx, input ≠ .startHeight ctx) → p.m.handle fuel input = some t →
      Lives x { p with out := p.out ++ t.out, m := t.m }
  | crash {p : Process} {n fuel : ℕ} {released : List Vote} {ctx : HeightCtx} {t : Turn} :
      Lives x p → (∀ v ∈ released, Released p.out n v) →
      ctx.height = x.height → ctx.set = x.set →
      Machine.restore fuel x.cfg ctx (p.saved.afterAll (p.out.take n)) = some t →
      Lives x ⟨p.sent ++ released, p.saved.afterAll (p.out.take n), t.out, t.m⟩

variable {x : Setting} {H : Hearing} {P : PersistedState} {out : List Output}

/-- Every vote may be heard. -/
def anyVote : Hearing := fun _ _ _ _ => True

theorem admissible_anyVote {input : Input} (h : ∀ ctx, input ≠ .startHeight ctx) :
    input.Admissible x anyVote := by
  cases input with
  | startHeight ctx => exact h ctx rfl
  | vote => exact fun _ _ => trivial
  | catchUp => exact fun _ _ _ _ _ => trivial
  | proposal | timeout | txPending | heartbeatDue | blockBuilt => exact trivial

/-! ## Turns in a row -/

/-- The next turn of a disciplined machine. -/
theorem Turn.OK.append {m : Machine} {t : Turn} (hm : Turn.OK x H P ⟨m, out⟩)
    (ht : t.OK x H (P.afterAll out)) : Turn.OK x H P ⟨t.m, out ++ t.out⟩ := by
  have hstate : Turn.state P ⟨t.m, out ++ t.out⟩ = t.state (P.afterAll out) :=
    PersistedState.afterAll_append P out t.out
  exact ⟨⟨emits_append.2 ⟨hm.emits, ht.emits⟩, hstate ▸ ht.base⟩, hstate ▸ ht.placed⟩

/-- A turn of a disciplined machine starts afresh. -/
theorem Turn.OK.next {m : Machine} (hm : Turn.OK x H P ⟨m, out⟩) :
    Turn.OK x H (P.afterAll out) { m } :=
  ⟨⟨trivial, hm.base⟩, hm.placed⟩

theorem Emits.take (he : Emits x H P out) (n : ℕ) : Emits x H P (out.take n) := by
  rw [← List.take_append_drop n out, emits_append] at he
  exact he.1

/-- A durable slot keeps its value. -/
theorem Durable.votes_afterAll (hd : Durable x H P) (he : Emits x H P out)
    {slot : VoteType × ℕ} {v : Option BlockId} (h : P.votes[slot]? = some v) :
    (P.afterAll out).votes[slot]? = some v := by
  induction out generalizing P with
  | nil => exact h
  | cons o out ih =>
    refine ih (hd.after he.1) he.2 ?_
    cases o with
    | persist record => exact hd.votes_apply he.1 h
    | broadcast | setTimer | wakeAtHeaderTime | needBlock | commit | evidence => exact h

/-- Outputs without records leave the durable state alone. -/
theorem PersistedState.afterAll_eq_self (P : PersistedState)
    (h : ∀ record, .persist record ∉ out) : P.afterAll out = P := by
  induction out generalizing P with
  | nil => rfl
  | cons o out ih =>
    have hrest := ih (P.after o) fun r hr => h r (List.mem_cons_of_mem _ hr)
    cases o with
    | persist record => exact absurd List.mem_cons_self (h record)
    | broadcast | setTimer | wakeAtHeaderTime | needBlock | commit | evidence => exact hrest

theorem take_eq_append {α : Type*} (l : List α) {i n : ℕ} (hle : i ≤ n) :
    l.take n = l.take i ++ (l.take n).drop i := by
  conv_lhs => rw [← List.take_append_drop i (l.take n), List.take_take, min_eq_left hle]

/-! ## One value per slot -/

/-- A vote signed for a slot that holds its value. -/
def Journaled (x : Setting) (P : PersistedState) (v : Vote) : Prop :=
  ∃ key, x.signer = some key ∧ v = .sign key x.cfg.chainId v.kind x.height v.round v.block ∧
    P.votes[(v.kind, v.round)]? = some v.block

theorem Justified.journaled {v : Vote} (hj : Justified x H P (.broadcast (.vote v))) :
    Journaled x P v := by
  obtain ⟨key, kind, r, value, hkey, rfl, hslot⟩ := hj
  exact ⟨key, hkey, rfl, hslot⟩

theorem Journaled.afterAll {v : Vote} (hv : Journaled x P v) (hd : Durable x H P)
    (he : Emits x H P out) : Journaled x (P.afterAll out) v := by
  obtain ⟨key, hkey, hsign, hslot⟩ := hv
  exact ⟨key, hkey, hsign, hd.votes_afterAll he hslot⟩

/-- The vote at a position was journaled by the records before it. -/
theorem Emits.journaled_take (he : Emits x H P out) {i : ℕ} {v : Vote}
    (hi : out[i]? = some (.broadcast (.vote v))) : Journaled x (P.afterAll (out.take i)) v := by
  rw [← List.take_append_drop i out, emits_append] at he
  have hdrop : out.drop i = .broadcast (.vote v) :: out.drop (i + 1) := by
    obtain ⟨hlt, heq⟩ := List.getElem?_eq_some_iff.1 hi
    rw [List.drop_eq_getElem_cons hlt, heq]
  rw [hdrop] at he
  exact he.2.1.journaled

/-- A released vote is journaled in what a crash leaves. -/
theorem Released.journaled {n : ℕ} {v : Vote} (hr : Released out n v) (hd : Durable x H P)
    (he : Emits x H P out) : Journaled x (P.afterAll (out.take n)) v := by
  obtain ⟨i, hi, hbefore⟩ := hr
  have hv := he.journaled_take hi
  rcases le_total i n with hle | hle
  · -- The vote is in the durable prefix: its slot keeps the value up to the end of it.
    have hsplit := take_eq_append out hle
    have hdur := hd.afterAll (he.take i)
    have hn := he.take n
    rw [hsplit, emits_append] at hn
    rw [hsplit, PersistedState.afterAll_append]
    exact hv.afterAll hdur hn.2
  · -- The vote is after the prefix, with no record between the two.
    rw [take_eq_append out hle, PersistedState.afterAll_append, PersistedState.afterAll_eq_self] at hv
    · exact hv
    · intro record hmem
      obtain ⟨j, hj⟩ := List.mem_iff_getElem?.1 hmem
      rw [List.getElem?_drop, List.getElem?_take] at hj
      split at hj
      · next hlt => exact absurd (hbefore (n + j) record hlt hj) (by simp)
      · exact absurd hj (by simp)

theorem mem_broadcastVotes {v : Vote} :
    v ∈ broadcastVotes out ↔ .broadcast (.vote v) ∈ out := by
  rw [broadcastVotes, List.mem_filterMap]
  constructor
  · rintro ⟨o, ho, heq⟩
    split at heq
    · rwa [← Option.some.inj heq]
    · exact absurd heq (by simp)
  · exact fun h => ⟨_, h, rfl⟩

/-- A living process is disciplined, and what it released is journaled. -/
theorem Process.Lives.ok {p : Process} (hp : p.Lives x) :
    Durable x anyVote p.saved ∧ Turn.OK x anyVote p.saved ⟨p.m, p.out⟩ ∧
      ∀ v ∈ p.sent, Journaled x p.saved v := by
  induction hp with
  | start hheight hset hnew =>
    exact ⟨.empty, Machine.new_ok hheight hset .empty rfl hnew, by simp⟩
  | handle _ hin hhandle ih =>
    obtain ⟨hd, hok, hsent⟩ := ih
    exact ⟨hd, hok.append (Machine.handle_ok hok.next (admissible_anyVote hin) hhandle), hsent⟩
  | @crash p n fuel released ctx t _ hreleased hheight hset hrestore ih =>
    obtain ⟨hd, hok, hsent⟩ := ih
    have hd' : Durable x anyVote (p.saved.afterAll (p.out.take n)) := hd.afterAll (hok.emits.take n)
    refine ⟨hd', Machine.restore_ok hheight hset hd' hrestore, fun v hv => ?_⟩
    rcases List.mem_append.1 hv with hv | hv
    · exact (hsent v hv).afterAll hd (hok.emits.take n)
    · exact (hreleased v hv).journaled hd hok.emits

/-- Every vote of a living process is in one durable journal. -/
theorem Process.Lives.votes_durable {p : Process} (hp : p.Lives x) {v : Vote} (hv : v ∈ p.votes) :
    Journaled x (p.saved.afterAll p.out) v := by
  obtain ⟨hd, hok, hsent⟩ := hp.ok
  rcases List.mem_append.1 hv with hv | hv
  · exact (hsent v hv).afterAll hd hok.emits
  · obtain ⟨i, hi⟩ := List.mem_iff_getElem?.1 (mem_broadcastVotes.1 hv)
    have hjournaled := hok.emits.journaled_take hi
    have hrest := hok.emits
    rw [← List.take_append_drop i p.out, emits_append] at hrest
    rw [← List.take_append_drop i p.out, PersistedState.afterAll_append]
    exact hjournaled.afterAll (hd.afterAll (hok.emits.take i)) hrest.2

/-- Over any inputs and any crashes, the votes that a process has released, and
    those it may release, carry one value for each type, height and round. No two
    of them make evidence. -/
theorem no_double_sign {p : Process} (hp : p.Lives x) {v w : Vote} (hv : v ∈ p.votes)
    (hw : w ∈ p.votes) :
    (v.kind = w.kind → v.height = w.height → v.round = w.round → v.block = w.block) ∧
      Evidence.fromVotes v w = none := by
  obtain ⟨-, -, -, hslot⟩ := hp.votes_durable hv
  obtain ⟨-, -, -, hslot'⟩ := hp.votes_durable hw
  have hsame : v.kind = w.kind → v.round = w.round → v.block = w.block := by
    intro hkind hround
    rw [hkind, hround, hslot'] at hslot
    exact (Option.some.inj hslot).symm
  refine ⟨fun hkind _ hround => hsame hkind hround, if_pos ?_⟩
  by_contra hne
  push Not at hne
  exact hne.2.2.2.2 (hsame hne.2.2.2.1 hne.2.2.1)

/-- One validator with all the weight. -/
def soloSet : ValidatorSet :=
  { members := [(0, 1)], total := 1, sorted := by simp, weight_pos := by simp, total_eq := rfl
    total_lt := by decide }

def soloSetting : Setting := ⟨⟨"solo", some ⟨0⟩, .moderate, 10000⟩, 1, soloSet⟩

def soloCtx : HeightCtx := ⟨1, soloSet, .new (.new soloSet), Ledger.soloGenesis.tip, 0, false⟩

/-- The prevote of its first block. -/
def soloVote : Vote := .sign ⟨0⟩ "solo" .prevote 1 0 (some Ledger.soloBlock.id)

/-- It starts, has work, builds its block and votes for it. After nine outputs,
    of which the last is the prevote, it crashes and starts again. -/
def soloTurns : Option (Turn × Turn × Turn × Turn) := do
  let t₀ ← Machine.new 10 soloSetting.cfg soloCtx
  let t₁ ← t₀.m.handle 10 .txPending
  let t₂ ← t₁.m.handle 10 (.blockBuilt 1 0 Ledger.soloBlock)
  let saved := ({} : PersistedState).afterAll ((t₀.out ++ t₁.out ++ t₂.out).take 9)
  let t₃ ← Machine.restore 10 soloSetting.cfg soloCtx saved
  some (t₀, t₁, t₂, t₃)

theorem soloTurns_votes : (soloTurns.map fun (t₀, t₁, t₂, t₃) =>
    decide (soloVote ∈ broadcastVotes ((t₀.out ++ t₁.out ++ t₂.out).take 9)) &&
      decide (soloVote ∈ broadcastVotes t₃.out)) = some true := by
  decide +kernel

theorem released_of_mem_take {n : ℕ} {v : Vote} (hv : v ∈ broadcastVotes (out.take n)) :
    Released out n v := by
  obtain ⟨i, hi⟩ := List.mem_iff_getElem?.1 (mem_broadcastVotes.1 hv)
  rw [List.getElem?_take] at hi
  split at hi
  · next hlt => exact ⟨i, hi, fun j _ hj _ => hj.trans hlt⟩
  · exact absurd hi (by simp)

theorem no_double_sign_solo : ∃ p : Process, p.Lives soloSetting ∧ soloVote ∈ p.sent ∧
    soloVote ∈ broadcastVotes p.out ∧ Evidence.fromVotes soloVote soloVote = none := by
  obtain ⟨⟨_, _, _, _⟩, hrun, hvotes⟩ := Option.map_eq_some_iff.1 soloTurns_votes
  simp only [Bool.and_eq_true, decide_eq_true_eq] at hvotes
  simp only [soloTurns, Option.bind_eq_bind, Option.bind_eq_some_iff, Option.some.injEq,
    Prod.mk.injEq] at hrun
  obtain ⟨t₀, h₀, t₁, h₁, t₂, h₂, t₃, h₃, rfl, rfl, rfl, rfl⟩ := hrun
  have hstart : Process.Lives soloSetting ⟨[], {}, t₀.out, t₀.m⟩ := .start rfl rfl h₀
  have hwork := hstart.handle (fun _ => Input.noConfusion) h₁
  have hbuilt := hwork.handle (fun _ => Input.noConfusion) h₂
  have hreleased : ∀ v ∈ [soloVote], Released (t₀.out ++ t₁.out ++ t₂.out) 9 v :=
    List.forall_mem_singleton.2 (released_of_mem_take hvotes.1)
  have hcrash := hbuilt.crash hreleased rfl rfl h₃
  refine ⟨_, hcrash, by simp, hvotes.2, ?_⟩
  exact (no_double_sign hcrash (v := soloVote) (w := soloVote) (List.mem_append_left _ (by simp))
    (List.mem_append_right _ hvotes.2)).2

end RougeChain.Consensus
