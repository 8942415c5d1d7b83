import RougeChain.Consensus.Steps

/-!
# Tombstones

A penalty tombstones the key: its bond is gone, what waited to be bonded is
refunded, and nobody stakes for the key again. This is where a key ends, on
every chain of accepted blocks.

* `Entombed`: what a penalty leaves of the key, kept by every transaction
  (`Entombed.txStep`), every penalty (`Entombed.slash`), every epoch
  (`Entombed.closes`), and so by every block (`Entombed.applyBlock`);
* `tombstones_are_final`: a penalised key never has a bond or an addition that
  waits, is in no later set, and loses no bond to later evidence.
-/

namespace RougeChain.Consensus

namespace Ledger

open Fallible (ofOption bind_eq_ok ofOption_eq_ok mapError_eq_ok ok_bind)
open Std (ExtTreeMap ExtTreeSet)

variable {l l' : Ledger} {key : KeyId} {h : ℕ}

/-! ## The record of a penalised key -/

/-- The record of a key penalised at `h`. -/
def Tombstone (h : ℕ) (r : ValidatorRec) : Prop :=
  r.tombstoned = true ∧ r.bond = 0 ∧ ∃ floor, r.slashFloor = some floor ∧ h ≤ floor

/-- The record of `key` is that of a penalised key. -/
def Buried (key : KeyId) (h : ℕ) (validators : ExtTreeMap KeyId ValidatorRec) : Prop :=
  ∃ r, validators[key]? = some r ∧ Tombstone h r

namespace Buried

variable {validators : ExtTreeMap KeyId ValidatorRec}

theorem insert (hb : Buried key h validators) {k : KeyId} {r : ValidatorRec}
    (hr : k = key → Tombstone h r) : Buried key h (validators.insert k r) := by
  by_cases hk : k = key
  · exact ⟨r, by rw [getElem?_insert_eq, if_pos hk], hr hk⟩
  · obtain ⟨r', hr', ht⟩ := hb
    exact ⟨r', by rw [getElem?_insert_eq, if_neg hk, hr'], ht⟩

/-- The record is the one that is found. -/
theorem tombstone (hb : Buried key h validators) {k : KeyId} {r : ValidatorRec} (hk : k = key)
    (hr : validators[k]? = some r) : Tombstone h r := by
  obtain ⟨r', hr', ht⟩ := hb
  subst hk
  rw [hr] at hr'
  exact (Option.some.inj hr') ▸ ht

/-- A change of flags and windows leaves the tombstone. -/
theorem sameStakes (hb : Buried key h validators) {validators' : ExtTreeMap KeyId ValidatorRec}
    (hsame : SameStakes validators validators') : Buried key h validators' := by
  obtain ⟨r, hr, ht, hbond, hfloor⟩ := hb
  obtain ⟨r', hr', heq⟩ := hsame.exists_some hr
  obtain ⟨hbond', hrest⟩ := Prod.mk.inj heq
  obtain ⟨ht', hfloor'⟩ := Prod.mk.inj hrest
  refine ⟨r', hr', ht'.trans ht, hbond'.trans hbond, ?_⟩
  rwa [hfloor']

end Buried

/-- An epoch bonds nothing for a key that awaits nothing. -/
theorem Buried.bondPending {matured : ℕ → Bool}
    {validators validators' : ExtTreeMap KeyId ValidatorRec} {ps still : List PendingBond}
    (hb : Buried key h validators) (hps : ∀ p ∈ ps, p.key ≠ key)
    (hr : bondPending matured validators ps = .ok (validators', still)) :
    Buried key h validators' ∧ ∀ p ∈ still, p.key ≠ key := by
  induction ps generalizing validators still with
  | nil =>
    obtain ⟨rfl, rfl⟩ : validators = validators' ∧ [] = still := by
      simpa [Ledger.bondPending] using hr
    exact ⟨hb, hps⟩
  | cons p ps ih =>
    rw [List.forall_mem_cons] at hps
    unfold Ledger.bondPending at hr
    split at hr
    · obtain ⟨bond, -, hr⟩ := bind_eq_ok.1 hr
      exact ih (hb.insert fun hk => absurd hk hps.1) hps.2 hr
    · obtain ⟨⟨validators₁, still₁⟩, hrest, hr⟩ := bind_eq_ok.1 hr
      obtain ⟨rfl, rfl⟩ := Prod.mk.inj (Except.ok.inj hr)
      obtain ⟨hb₁, hstill⟩ := ih hb hps.2 hrest
      exact ⟨hb₁, List.forall_mem_cons.2 ⟨hps.1, hstill⟩⟩

/-! ## The rest of the key's life -/

/-- `key` has been penalised at `h` or above: it has no bond and awaits none. -/
structure Entombed (key : KeyId) (h : ℕ) (l : Ledger) : Prop where
  record : Buried key h l.validators
  pending : ∀ p ∈ l.pending, p.key ≠ key

namespace Entombed

theorem bond (hp : Entombed key h l) : (l.validatorRec key).bond = 0 := by
  obtain ⟨r, hr, -, hbond, -⟩ := hp.record
  rw [validatorRec_of_some hr, hbond]

/-- A tombstoned key cannot stake, and without bond has nothing to unbond. -/
theorem ne_of_unbond (hp : Entombed key h l) {k : KeyId} {r : ValidatorRec} {amount : ℕ}
    (hr : l.validators[k]? = some r) (hpos : 0 < amount) (hle : amount ≤ r.bond) : k ≠ key := by
  intro hk
  have hbond := (hp.record.tombstone hk hr).2.1
  omega

theorem txStep (hp : Entombed key h l) {height time : ℕ} (hs : TxStep height time l l') :
    Entombed key h l' := by
  cases hs with
  | transfer balances seenTx => exact ⟨hp.record, hp.pending⟩
  | stake balances seenTx k amount hlive =>
    have hne : k ≠ key := by
      rintro rfl
      obtain ⟨r, hr, ht⟩ := hp.record
      exact Bool.false_ne_true ((hlive r hr).symm.trans ht.1)
    refine ⟨hp.record.insert fun hk => absurd hk hne, fun p hmem => ?_⟩
    rcases List.mem_append.1 hmem with hmem | hmem
    · exact hp.pending p hmem
    · rw [List.mem_singleton.1 hmem]
      exact hne
  | unbond balances seenTx k amount r hr hpos hle =>
    exact ⟨hp.record.insert fun hk => absurd hk (hp.ne_of_unbond hr hpos hle), hp.pending⟩
  | unjail balances seenTx k r hr =>
    have htomb : k = key → Tombstone h r := fun hk => hp.record.tombstone hk hr
    exact ⟨hp.record.insert htomb, hp.pending⟩
  | approve balances seenTx approvals => exact ⟨hp.record, hp.pending⟩
  | admission balances seenTx approvals k r hr =>
    have htomb : k = key → Tombstone h r := fun hk => hp.record.tombstone hk hr
    exact ⟨hp.record.insert htomb, hp.pending⟩

theorem applyTxs (hp : Entombed key h l) {height time i fees feeTxs fees' feeTxs' : ℕ}
    {txs : List Tx} (ht : applyTxs height time i l fees feeTxs txs = .ok (l', fees', feeTxs')) :
    Entombed key h l' :=
  applyTxs_invariant _ (fun _ _ hs hm => hm.txStep hs) ht hp

/-- Further penalties, of this key or another, leave the key entombed. -/
theorem slash (hp : Entombed key h l) {k : KeyId} {off time : ℕ} {event : SlashEvent}
    (hs : l.slash k off time = .ok (event, l')) : Entombed key h l' := by
  obtain ⟨cutBond, unbonding, cutU, hcut, hunb, rfl, hvals, hpend, hunb'⟩ := slash_ok hs
  refine ⟨?_, ?_⟩
  · rw [hvals]
    refine hp.record.insert fun hk => ?_
    obtain ⟨r, hr, -, -, floor, hfloor, hle⟩ := hp.record
    rw [validatorRec_of_some (hk ▸ hr : l.validators[k]? = some r)]
    exact ⟨rfl, rfl, max floor off, by rw [ValidatorRec.slashed, hfloor]; rfl,
      hle.trans (le_max_left _ _)⟩
  · rw [hpend]
    exact fun p hmem => hp.pending p (List.mem_filter.1 hmem).1

theorem closes (hp : Entombed key h l) {time : ℕ} (hc : Closes time l l') : Entombed key h l' := by
  obtain ⟨matured, v, v', hsame, hbond, hsame'⟩ := hc.stakes
  obtain ⟨hb, hpending⟩ := (hp.record.sameStakes hsame).bondPending hp.pending hbond
  exact ⟨hb.sameStakes hsame', hpending⟩

/-- The set of the next height is made of records that are not tombstoned. -/
theorem not_contains (hp : Entombed key h l)
    (hset : ValidatorSet.new (eligible l.validators) = .ok l.activeSet) :
    l.activeSet.contains key = false := by
  rw [Bool.eq_false_iff]
  intro hcontains
  obtain ⟨w, hw⟩ := ValidatorSet.contains_iff.1 hcontains
  obtain ⟨r, hr, hin, -⟩ := mem_eligible.1 ((ValidatorSet.mem_new hset).1 hw)
  have htomb := (hp.record.tombstone rfl hr).1
  simp [ValidatorRec.inSet, htomb] at hin

end Entombed

/-- The key of a penalty is entombed at its height. -/
theorem slash_entombed {k : KeyId} {off time : ℕ} {event : SlashEvent}
    (hs : l.slash k off time = .ok (event, l')) : Entombed k off l' := by
  obtain ⟨cutBond, unbonding, cutU, -, -, -, hvals, hpend, -⟩ := slash_ok hs
  refine ⟨?_, ?_⟩
  · rw [hvals]
    refine ⟨_, by rw [getElem?_insert_eq, if_pos rfl], rfl, rfl, _, rfl, ?_⟩
    cases (l.validatorRec k).slashFloor with
    | none => exact le_rfl
    | some floor => exact le_max_right _ _
  · rw [hpend]
    intro p hmem
    simpa using (List.mem_filter.1 hmem).2

/-! ## Blocks and chains -/

/-- A penalty that finds no bond and cuts none. -/
def NoBond (e : SlashEvent) : Prop := e.bondBefore = 0 ∧ e.cutBond = 0

theorem Entombed.noBond (hp : Entombed key h l) {k : KeyId} {off time : ℕ} {event : SlashEvent}
    (hs : l.slash k off time = .ok (event, l')) (hkey : event.key = key) : NoBond event := by
  obtain ⟨cutBond, unbonding, cutU, hcut, -, rfl, -⟩ := slash_ok hs
  subst hkey
  have hbond := hp.bond
  have hle := cut_le hcut
  rw [hbond] at hle
  exact ⟨hbond, Nat.le_zero.1 hle⟩

/-- What the penalties `trace`, applied to `l`, say about `l'` and each other: a
    key that was entombed stays so and loses no bond, and every key they name is
    entombed afterwards. -/
structure Entombs (l : Ledger) (trace : List (Ledger × SlashEvent)) (l' : Ledger) : Prop where
  stays : ∀ key h, Entombed key h l → Entombed key h l' ∧ ∀ p ∈ trace, p.2.key = key → NoBond p.2
  enters : ∀ p ∈ trace, Entombed p.2.key p.2.offenceHeight l'
  once : trace.Pairwise fun p q => q.2.key = p.2.key → NoBond q.2

theorem applyEvidence_entombs {height time i : ℕ} {seen : ExtTreeSet (KeyId × ℕ)}
    {fx fx' : Effects} {evs : List Evidence}
    (he : applyEvidence height time i seen l fx evs = .ok (l', fx')) :
    Entombs l (slashTrace time l evs) l' := by
  refine applyEvidence_rec Entombs (fun m => ?_) (fun m m₁ m' ev event rest _ hs hrest => ?_) he
  · exact ⟨fun _ _ hm => ⟨hm, fun p hp => absurd hp List.not_mem_nil⟩,
      fun p hp => absurd hp List.not_mem_nil, .nil⟩
  · have hkey : event.key = ev.offender ∧ event.offenceHeight = ev.height := by
      obtain ⟨_, _, _, -, -, rfl, -⟩ := slash_ok hs
      exact ⟨rfl, rfl⟩
    have hfirst : Entombed event.key event.offenceHeight m₁ := by
      rw [hkey.1, hkey.2]
      exact slash_entombed hs
    obtain ⟨hentombed, hlater⟩ := hrest.stays _ _ hfirst
    refine ⟨fun k h hm => ?_, ?_, ?_⟩
    · obtain ⟨hm', hvoid⟩ := hrest.stays k h (hm.slash hs)
      exact ⟨hm', List.forall_mem_cons.2 ⟨hm.noBond hs, hvoid⟩⟩
    · exact List.forall_mem_cons.2 ⟨hentombed, hrest.enters⟩
    · exact List.pairwise_cons.2 ⟨hlater, hrest.once⟩

/-- The penalties of a block, and the ledger it leaves. -/
theorem applyBlock_entombs {b : Block} {fx : Effects} (hb : l.applyBlock b = .ok (l', fx)) :
    (∀ key h, Entombed key h l →
      Entombed key h l' ∧ ∀ e ∈ fx.slashes, e.key = key → NoBond e) ∧
      (∀ e ∈ fx.slashes, Entombed e.key e.offenceHeight l') ∧
      fx.slashes.Pairwise fun e e' => e'.key = e.key → NoBond e' := by
  obtain ⟨signers, proposer, schedule, l₁, fees, feeTxs, l₂, fx₂, -, htxs, hev, hcloses, hfx⟩ :=
    applyBlock_stages hb
  have hentombs := applyEvidence_entombs hev
  rw [hfx, (applyEvidence_slashes hev).1, List.nil_append]
  refine ⟨fun key h hl => ?_, ?_, ?_⟩
  · have hl₀ : Entombed key h { l with schedule } := ⟨hl.record, hl.pending⟩
    obtain ⟨hl₂, hvoid⟩ := hentombs.stays key h (hl₀.applyTxs htxs)
    exact ⟨hl₂.closes hcloses, List.forall_mem_map.2 hvoid⟩
  · exact List.forall_mem_map.2 fun p hp => (hentombs.enters p hp).closes hcloses
  · exact List.pairwise_map.2 hentombs.once

theorem Entombed.applyBlock (hp : Entombed key h l) {b : Block} {fx : Effects}
    (hb : l.applyBlock b = .ok (l', fx)) : Entombed key h l' :=
  ((applyBlock_entombs hb).1 key h hp).1

/-- On every ledger that blocks lead to, the key is entombed and in no set. -/
theorem Entombed.reaches (hp : Entombed key h l)
    (hset : ValidatorSet.new (eligible l.validators) = .ok l.activeSet) (hr : Reaches l l') :
    Entombed key h l' ∧ l'.activeSet.contains key = false := by
  induction hr with
  | refl => exact ⟨hp, hp.not_contains hset⟩
  | block _ hb ih =>
    have hp' := ih.1.applyBlock hb
    exact ⟨hp', hp'.not_contains (applyBlock_activeSet hb)⟩

/-- A penalty is final: on every ledger `l''` that accepted blocks lead to after
    a block with the penalty `e`, the key has no bond and no addition that waits,
    is not in the active set, and whatever a further block holds against it finds
    no bond and cuts none. Nor does a second item of the same block. -/
theorem tombstones_are_final {l'' : Ledger} {b : Block} {fx : Effects} {e : SlashEvent}
    (hb : l.applyBlock b = .ok (l', fx)) (he : e ∈ fx.slashes) (hr : Reaches l' l'') :
    (l''.validatorRec e.key).bond = 0 ∧ (∀ p ∈ l''.pending, p.key ≠ e.key) ∧
      l''.activeSet.contains e.key = false ∧
      (∀ b' l₃ fx', l''.applyBlock b' = .ok (l₃, fx') →
        ∀ e' ∈ fx'.slashes, e'.key = e.key → NoBond e') ∧
      fx.slashes.Pairwise fun e₁ e₂ => e₂.key = e₁.key → NoBond e₂ := by
  obtain ⟨-, henters, honce⟩ := applyBlock_entombs hb
  obtain ⟨hp, hset⟩ := (henters e he).reaches (applyBlock_activeSet hb) hr
  refine ⟨hp.bond, hp.pending, hset, fun b' l₃ fx' hb' => ?_, honce⟩
  exact ((applyBlock_entombs hb').1 _ _ hp).2

/-- Two validators, of which the second has funds for a fee. -/
def pairGenesis : Genesis where
  tipHeight := 0
  tip := soloGenesis.tip
  tipTime := 0
  validators := [(0, 200000 * quantaPerXrge), (1, 200000 * quantaPerXrge)]
  balances := [(.key 1, quantaPerXrge), (.user 1, quantaPerXrge)]

/-- A certificate by both validators. -/
def pairCert (b : Block) : CommitCert :=
  let bytes := voteSignBytes .V3 "pair" .precommit b.header.height 0 (some b.id)
  { domain := .V3, height := b.header.height, round := 0, block := b.id, nSet := 2
    sigs := [(0, (⟨0⟩ : SigningKey).sign bytes), (1, (⟨1⟩ : SigningKey).sign bytes)] }

/-- The second validator withdraws a quarter of its stake. -/
def pairBlock1 : Block where
  header := ⟨1, 0, 0, 1, pairGenesis.tip⟩
  parentCert := none
  txs := [⟨1, .key 1, 1000000, .unbond (50000 * quantaPerXrge)⟩]
  evidence := []

def pairBlock2 : Block where
  header := ⟨2, 0, 1, 2, pairBlock1.id⟩
  parentCert := some (pairCert pairBlock1)
  txs := [⟨2, .user 1, 1000000, .transfer (.user 2) 5⟩]
  evidence := []

/-- Two prevotes of the second validator at one height. -/
def pairEvidence (height : ℕ) : Evidence where
  a := .sign ⟨1⟩ "pair" .prevote height 0 none
  b := .sign ⟨1⟩ "pair" .prevote height 0 (some pairGenesis.tip)

def pairBlock3 (evidence : List Evidence) : Block where
  header := ⟨3, 0, 0, 3, pairBlock2.id⟩
  parentCert := some (pairCert pairBlock2)
  txs := []
  evidence := evidence

/-- The ledger after the first two blocks. -/
def pairLedger : Option Ledger := do
  let l ← (genesis (.decided "pair") pairGenesis).toOption
  let (l, _) ← (l.applyBlock pairBlock1).toOption
  let (l, _) ← (l.applyBlock pairBlock2).toOption
  some l

theorem toOption_eq_some {ε α : Type} {x : Except ε α} {a : α} (hx : x.toOption = some a) :
    x = .ok a := by
  cases x with
  | error _ => cases hx
  | ok b => rw [Option.some.inj hx]

theorem pairLedger_reachable (hl : pairLedger = some l) :
    Reachable (.decided "pair") pairGenesis l := by
  rw [pairLedger, Option.bind_eq_bind, Option.bind_eq_some_iff] at hl
  obtain ⟨l₀, h₀, hl⟩ := hl
  rw [Option.bind_eq_bind, Option.bind_eq_some_iff] at hl
  obtain ⟨⟨l₁, fx₁⟩, h₁, hl⟩ := hl
  dsimp only at hl
  rw [Option.bind_eq_some_iff] at hl
  obtain ⟨⟨l₂, fx₂⟩, h₂, hl⟩ := hl
  obtain rfl := Option.some.inj hl
  exact ⟨l₀, toOption_eq_some h₀, (Reaches.refl.block (toOption_eq_some h₁)).block
    (toOption_eq_some h₂)⟩

/-- The second validator is penalised twice in the third block. -/
theorem pairBlock3_slashes :
    (pairLedger.bind fun l =>
      (l.applyBlock (pairBlock3 [pairEvidence 1, pairEvidence 2])).toOption.map fun r =>
        r.2.slashes.map fun e => (e.key, e.cutBond)) =
      some [(1, 150000 * quantaPerXrge), (1, 0)] := by
  decide +kernel

theorem tombstones_are_final_pair : ∃ l l' fx e, Reachable (.decided "pair") pairGenesis l ∧
    l.applyBlock (pairBlock3 [pairEvidence 1, pairEvidence 2]) = .ok (l', fx) ∧ e ∈ fx.slashes ∧
    0 < e.cutBond ∧ (l'.validatorRec e.key).bond = 0 := by
  obtain ⟨l, hl, hrun⟩ := Option.bind_eq_some_iff.1 pairBlock3_slashes
  obtain ⟨⟨l', fx⟩, hb, hslashes⟩ := Option.map_eq_some_iff.1 hrun
  have hb := toOption_eq_some hb
  have hmem : (1, 150000 * quantaPerXrge) ∈ fx.slashes.map fun e => (e.key, e.cutBond) := by
    rw [hslashes]
    exact List.mem_cons_self
  obtain ⟨e, he, heq⟩ := List.mem_map.1 hmem
  refine ⟨l, l', fx, e, pairLedger_reachable hl, hb, he, ?_, (tombstones_are_final hb he .refl).1⟩
  rw [(Prod.mk.inj heq).2]
  decide

end Ledger

end RougeChain.Consensus
