import RougeChain.Consensus.Tombstones

/-!
# The order of evidence

A key may have signed conflicting votes at several heights. What does it lose
once a chain has included the evidence? A penalty at height `h` cuts the bond of
the key and its unbonding entries created at or after `h`, tombstones the key,
and raises its floor to `h`: from then on no evidence at or below `h` counts.

* `Penalised`: what a penalty leaves behind, in the ledger and in every ledger
  that later blocks lead to (`Penalised.applyBlock`, `Chain.penalised`). The key
  has no bond, gets none, and nothing it is still withdrawing was created at or
  after `h`;
* `first_evidence_decides`: with a slash fraction of 1, the first item included
  against a key decides what it loses: its bond and the entries created at or
  after the height of that item. Later items burn nothing, and lower ones are
  never admissible again. So the order of two items matters exactly when an
  entry was created between their heights;
* `evidence_order_matters`: a chain on which it does.
-/

namespace RougeChain.Consensus

namespace Ledger

open Fallible (ofOption bind_eq_ok ofOption_eq_ok mapError_eq_ok ok_bind)
open Std (ExtTreeMap ExtTreeSet)

variable {l l' : Ledger} {key : KeyId} {h : ℕ}

/-- `key` has been penalised at `h` or above: it has no bond and awaits none, and
    what it is still withdrawing was created below `h`. -/
structure Penalised (key : KeyId) (h : ℕ) (l : Ledger) : Prop where
  record : Buried key h l.validators
  pending : ∀ p ∈ l.pending, p.key ≠ key
  unbonding : ∀ e ∈ l.unbonding, e.key = key → e.createdHeight < h

namespace Penalised

theorem entombed (hp : Penalised key h l) : Entombed key h l := ⟨hp.record, hp.pending⟩

theorem of_entombed (hp : Entombed key h l)
    (hunb : ∀ e ∈ l.unbonding, e.key = key → e.createdHeight < h) : Penalised key h l :=
  ⟨hp.record, hp.pending, hunb⟩

/-- Only an unbonding adds to the stake on its way out, and not of this key. -/
theorem txStep (hp : Penalised key h l) {height time : ℕ} (hs : TxStep height time l l') :
    Penalised key h l' := by
  refine of_entombed (hp.entombed.txStep hs) ?_
  cases hs with
  | transfer balances seenTx => exact hp.unbonding
  | stake balances seenTx k amount hlive => exact hp.unbonding
  | unbond balances seenTx k amount r hr hpos hle =>
    intro e hmem hkey
    rcases List.mem_append.1 hmem with hmem | hmem
    · exact hp.unbonding e hmem hkey
    · rw [List.mem_singleton.1 hmem] at hkey
      exact absurd hkey (hp.entombed.ne_of_unbond hr hpos hle)
  | unjail balances seenTx k r hr => exact hp.unbonding
  | approve balances seenTx approvals => exact hp.unbonding
  | admission balances seenTx approvals k r hr => exact hp.unbonding

theorem applyTxs (hp : Penalised key h l) {height time i fees feeTxs fees' feeTxs' : ℕ}
    {txs : List Tx} (ht : applyTxs height time i l fees feeTxs txs = .ok (l', fees', feeTxs')) :
    Penalised key h l' :=
  applyTxs_invariant _ (fun _ _ hs hm => hm.txStep hs) ht hp

theorem closes (hp : Penalised key h l) {time : ℕ} (hc : Closes time l l') :
    Penalised key h l' := by
  refine of_entombed (hp.entombed.closes hc) fun e hmem => ?_
  rw [hc.unbonding] at hmem
  exact hp.unbonding e (List.mem_filter.1 hmem).1

end Penalised

/-! ## A penalty -/

/-- Cutting changes the amount of an entry only. -/
theorem mem_cutUnbonding {params : Params} {es es' : List UnbondingEntry} {total : ℕ}
    (hc : cutUnbonding params key h es = .ok (es', total)) {e' : UnbondingEntry} (he : e' ∈ es') :
    ∃ e ∈ es, e'.key = e.key ∧ e'.createdHeight = e.createdHeight ∧
      e'.releaseAt = e.releaseAt := by
  induction es generalizing es' total with
  | nil =>
    obtain ⟨rfl, -⟩ : [] = es' ∧ 0 = total := by simpa [cutUnbonding] using hc
    cases he
  | cons e es ih =>
    obtain ⟨c, -, hc⟩ := bind_eq_ok.1 hc
    obtain ⟨⟨es₁, total₁⟩, hes₁, hc⟩ := bind_eq_ok.1 hc
    obtain ⟨rfl, -⟩ := Prod.mk.inj (Except.ok.inj hc)
    rcases List.mem_cons.1 he with rfl | he
    · exact ⟨e, List.mem_cons_self, rfl, rfl, rfl⟩
    · obtain ⟨e₁, hmem, heq⟩ := ih hes₁ he
      exact ⟨e₁, List.mem_cons_of_mem _ hmem, heq⟩

/-- Where nothing is exposed, nothing is cut. -/
theorem cutUnbonding_of_forall {params : Params} {es es' : List UnbondingEntry} {total : ℕ}
    (hes : ∀ e ∈ es, e.key = key → e.createdHeight < h)
    (hc : cutUnbonding params key h es = .ok (es', total)) : total = 0 := by
  induction es generalizing es' total with
  | nil =>
    obtain ⟨-, rfl⟩ : [] = es' ∧ 0 = total := by simpa [cutUnbonding] using hc
    rfl
  | cons e es ih =>
    have hnot : ¬(e.key = key ∧ h ≤ e.createdHeight) := fun hcut =>
      absurd (hes e List.mem_cons_self hcut.1) (not_lt.2 hcut.2)
    unfold cutUnbonding at hc
    rw [if_neg hnot, ok_bind] at hc
    obtain ⟨⟨es₁, total₁⟩, hes₁, hc⟩ := bind_eq_ok.1 hc
    obtain ⟨-, rfl⟩ := Prod.mk.inj (Except.ok.inj hc)
    rw [ih (fun e he => hes e (List.mem_cons_of_mem _ he)) hes₁]
    rfl

/-- A penalised key stays so under any further penalty, which cuts nothing from
    it if it is for a height at or above the first. -/
theorem Penalised.slash (hp : Penalised key h l) {k : KeyId} {off time : ℕ} {event : SlashEvent}
    (hs : l.slash k off time = .ok (event, l')) :
    Penalised key h l' ∧ (k = key → h ≤ off → event.cutBond = 0 ∧ event.cutUnbonding = 0) := by
  have hentombed := hp.entombed.slash hs
  have hnoBond := hp.entombed.noBond hs
  obtain ⟨cutBond, unbonding, cutU, hcut, hunb, rfl, -, -, hunb'⟩ := slash_ok hs
  constructor
  · refine of_entombed hentombed ?_
    rw [hunb']
    intro e hmem hkey
    rcases List.mem_append.1 hmem with hmem | hmem
    · obtain ⟨e₁, hmem₁, hkey₁, hheight, -⟩ := mem_cutUnbonding hunb (List.mem_filter.1 hmem).1
      rw [hheight]
      exact hp.unbonding e₁ hmem₁ (hkey₁ ▸ hkey)
    · -- Nothing remains of a bond of zero.
      split at hmem
      · next hpos =>
        rw [List.mem_singleton.1 hmem] at hkey
        have hbond : (l.validatorRec k).bond = 0 := (hnoBond hkey).1
        omega
      · cases hmem
  · intro hk hle
    refine ⟨(hnoBond hk).2, cutUnbonding_of_forall (fun e he hkey => ?_) hunb⟩
    exact (hp.unbonding e he (hkey.trans hk)).trans_le hle

/-- The slash fraction is 1. -/
def FullSlash (params : Params) : Prop := params.slashNum = 1 ∧ params.slashDen = 1

instance (params : Params) : Decidable (FullSlash params) :=
  inferInstanceAs (Decidable (params.slashNum = 1 ∧ params.slashDen = 1))

theorem cut_full {params : Params} (hfull : FullSlash params) {x c : ℕ}
    (hc : cut params x = .ok c) : c = x := by
  obtain ⟨hmul, -⟩ := Option.filter_eq_some_iff.1 (ofOption_eq_ok.1 hc)
  rw [hfull.1, hfull.2] at hmul
  have := (mulDivFloor_eq (by norm_num) hmul).2
  omega

/-- A full cut empties the exposed entries and leaves the others alone. -/
theorem cutUnbonding_full {params : Params} (hfull : FullSlash params)
    {es es' : List UnbondingEntry} {total : ℕ}
    (hc : cutUnbonding params key h es = .ok (es', total)) :
    total = wrap128 ((es.filter fun e => decide (e.key = key ∧ h ≤ e.createdHeight)).map
        UnbondingEntry.amount).sum ∧
      es' = es.map fun e =>
        if e.key = key ∧ h ≤ e.createdHeight then { e with amount := 0 } else e := by
  induction es generalizing es' total with
  | nil =>
    obtain ⟨rfl, rfl⟩ : [] = es' ∧ 0 = total := by simpa [cutUnbonding] using hc
    exact ⟨rfl, rfl⟩
  | cons e es ih =>
    obtain ⟨c, hcut, hc⟩ := bind_eq_ok.1 hc
    obtain ⟨⟨es₁, total₁⟩, hes₁, hc⟩ := bind_eq_ok.1 hc
    obtain ⟨rfl, rfl⟩ := Prod.mk.inj (Except.ok.inj hc)
    obtain ⟨htotal, hrest⟩ := ih hes₁
    rw [htotal, hrest, List.map_cons]
    by_cases hexp : e.key = key ∧ h ≤ e.createdHeight
    · rw [if_pos hexp] at hcut ⊢
      rw [cut_full hfull hcut, List.filter_cons_of_pos (by simpa using hexp), List.map_cons,
        List.sum_cons, Nat.sub_self]
      exact ⟨Nat.add_mod_mod _ _ _, rfl⟩
    · rw [if_neg hexp] at hcut ⊢
      obtain rfl := Except.ok.inj hcut
      rw [List.filter_cons_of_neg (by simpa using hexp), Nat.zero_add]
      exact ⟨Nat.mod_mod _ _, rfl⟩

/-- A full penalty takes the whole bond and every exposed entry. -/
theorem slash_full (hfull : FullSlash l.params) {k : KeyId} {off time : ℕ} {event : SlashEvent}
    (hs : l.slash k off time = .ok (event, l')) :
    event.cutBond = (l.validatorRec k).bond ∧
      event.cutUnbonding = wrap128 ((l.exposed k off).map UnbondingEntry.amount).sum ∧
      Penalised k off l' := by
  have hentombed := slash_entombed hs
  obtain ⟨cutBond, unbonding, cutU, hcut, hunb, rfl, -, -, hunb'⟩ := slash_ok hs
  have hcut := cut_full hfull hcut
  obtain ⟨hcutU, hmap⟩ := cutUnbonding_full hfull hunb
  refine ⟨hcut, hcutU, .of_entombed hentombed ?_⟩
  rw [hunb', hcut, Nat.sub_self, if_neg (lt_irrefl 0), List.append_nil, hmap]
  intro e hmem hkey
  obtain ⟨hmem, hpos⟩ := List.mem_filter.1 hmem
  obtain ⟨e₁, -, rfl⟩ := List.mem_map.1 hmem
  by_cases hexp : e₁.key = k ∧ off ≤ e₁.createdHeight
  · -- An entry that was exposed has no amount left.
    rw [if_pos hexp] at hpos
    simp at hpos
  · rw [if_neg hexp] at hkey ⊢
    exact not_le.1 fun hle => hexp ⟨hkey, hle⟩

/-! ## Evidence against a penalised key -/

/-- What admissible evidence is. -/
theorem checkEvidence_ok {ev : Evidence} {height time : ℕ}
    (hok : l.checkEvidence ev height time = .ok ()) :
    Evidence.fromVotes ev.a ev.b = some ev ∧ ev.height < height ∧
      (∃ offTime, l.times[ev.height]? = some offTime ∧
        time - offTime ≤ l.params.evidenceMaxAgeMs) ∧
      (∃ set, l.sets[ev.height]? = some set ∧ set.contains ev.offender = true) ∧
      ev.a.verify (l.domainOf ev.height) l.params.chainId = true ∧
      ev.b.verify (l.domainOf ev.height) l.params.chainId = true ∧
      ∀ r, l.validators[ev.offender]? = some r → ∀ floor, r.slashFloor = some floor →
        floor < ev.height := by
  unfold checkEvidence at hok
  split at hok
  · cases hok
  next hconflict =>
  dsimp only at hok
  split at hok
  · cases hok
  next hheight =>
  obtain ⟨offTime, htime, hok⟩ := bind_eq_ok.1 hok
  split at hok
  · cases hok
  next hage =>
  obtain ⟨set, hset, hok⟩ := bind_eq_ok.1 hok
  split_ifs at hok with hmem _ hverify hfloor
  simp only [Bool.not_eq_true, Bool.or_eq_false_iff, Bool.not_eq_false'] at hverify hmem
  refine ⟨not_ne_iff.1 hconflict, not_le.1 hheight, ⟨offTime, ofOption_eq_ok.1 htime, not_lt.1 hage⟩,
    ⟨set, ofOption_eq_ok.1 hset, hmem⟩, hverify.1, hverify.2, fun r hr floor hfl => ?_⟩
  rw [hr, Option.any_some, hfl, Option.any_some] at hfloor
  exact not_le.1 (by simpa using hfloor)

/-- Evidence at or below the floor is not admissible. -/
theorem Penalised.lt_of_checkEvidence (hp : Penalised key h l) {ev : Evidence} {height time : ℕ}
    (hkey : ev.offender = key) (hok : l.checkEvidence ev height time = .ok ()) : h < ev.height := by
  obtain ⟨-, -, -, -, -, -, hfloor⟩ := checkEvidence_ok hok
  obtain ⟨r, hr, -, -, floor, hfl, hle⟩ := hp.record
  exact hle.trans_lt (hfloor r (hkey ▸ hr) floor hfl)

/-! ## Chains and their penalties -/

/-- The penalties of a block. -/
def blockTrace (l : Ledger) (b : Block) : List (Ledger × SlashEvent) :=
  match l.schedule.step with
  | .error _ => []
  | .ok (_, schedule) =>
    match applyTxs (l.height + 1) b.header.timeMs 0 { l with schedule } 0 0 b.txs with
    | .error _ => []
    | .ok (l₁, _, _) => slashTrace b.header.timeMs l₁ b.evidence

/-- A chain of accepted blocks from `l` to `l'`, with its penalties in order. -/
inductive Chain : Ledger → List (Ledger × SlashEvent) → Ledger → Prop
  | refl {l : Ledger} : Chain l [] l
  | block {l l' l'' : Ledger} {trace : List (Ledger × SlashEvent)} {b : Block} {fx : Effects} :
      Chain l trace l' → l'.applyBlock b = .ok (l'', fx) → Chain l (trace ++ l'.blockTrace b) l''

/-- A penalty above `h` that burns nothing. -/
def VoidAbove (h : ℕ) (e : SlashEvent) : Prop :=
  h < e.offenceHeight ∧ e.cutBond = 0 ∧ e.cutUnbonding = 0

/-- Evidence against a penalised key is for a higher height, and void. -/
theorem applyEvidence_void {height time i : ℕ} {seen : ExtTreeSet (KeyId × ℕ)} {fx fx' : Effects}
    {evs : List Evidence} (he : applyEvidence height time i seen l fx evs = .ok (l', fx')) :
    ∀ key h, Penalised key h l →
      Penalised key h l' ∧ ∀ p ∈ slashTrace time l evs, p.2.key = key → VoidAbove h p.2 := by
  refine applyEvidence_rec (fun m trace m' => ∀ key h, Penalised key h m →
    Penalised key h m' ∧ ∀ p ∈ trace, p.2.key = key → VoidAbove h p.2) ?_ ?_ he
  · exact fun m key h hp => ⟨hp, fun p hmem => absurd hmem List.not_mem_nil⟩
  · intro m m₁ m' ev event rest hcheck hs hrest key h hp
    obtain ⟨hp₁, hvoid⟩ := hp.slash hs
    obtain ⟨hp', hrest⟩ := hrest key h hp₁
    refine ⟨hp', List.forall_mem_cons.2 ⟨fun hkey => ?_, hrest⟩⟩
    obtain ⟨cutBond, unbonding, cutU, -, -, rfl, -⟩ := slash_ok hs
    have hlt := hp.lt_of_checkEvidence hkey hcheck
    exact ⟨hlt, hvoid hkey hlt.le⟩

theorem blockTrace_eq {b : Block} {proposer : KeyId} {schedule : Schedule} {l₁ : Ledger}
    {fees feeTxs : ℕ} (hstep : l.schedule.step = .ok (proposer, schedule))
    (htxs : applyTxs (l.height + 1) b.header.timeMs 0 { l with schedule } 0 0 b.txs =
      .ok (l₁, fees, feeTxs)) :
    l.blockTrace b = slashTrace b.header.timeMs l₁ b.evidence := by
  rw [blockTrace, hstep]
  dsimp only
  rw [htxs]

/-- A block keeps a penalised key so, and what it penalises it for is void. -/
theorem Penalised.applyBlock (hp : Penalised key h l) {b : Block} {fx : Effects}
    (hb : l.applyBlock b = .ok (l', fx)) :
    Penalised key h l' ∧ ∀ p ∈ l.blockTrace b, p.2.key = key → VoidAbove h p.2 := by
  obtain ⟨signers, proposer, schedule, l₁, fees, feeTxs, l₂, fx₂, hstep, htxs, hev, hcloses, -⟩ :=
    applyBlock_stages hb
  have hp₀ : Penalised key h { l with schedule } := ⟨hp.record, hp.pending, hp.unbonding⟩
  obtain ⟨hp₂, hvoid⟩ := applyEvidence_void hev key h (hp₀.applyTxs htxs)
  rw [blockTrace_eq hstep htxs]
  exact ⟨hp₂.closes hcloses, hvoid⟩

/-- What the first penalty `(m, e)` of `key` and the later ones `rest` took, and
    what they leave behind in `l'`. -/
structure Settled (key : KeyId) (m : Ledger) (e : SlashEvent) (rest : List (Ledger × SlashEvent))
    (l' : Ledger) : Prop where
  cutBond : e.cutBond = (m.validatorRec key).bond
  cutUnbonding :
    e.cutUnbonding = wrap128 ((m.exposed key e.offenceHeight).map UnbondingEntry.amount).sum
  rest : ∀ p ∈ rest, VoidAbove e.offenceHeight p.2
  penalised : Penalised key e.offenceHeight l'

/-- The penalties of `key` in a trace. -/
def penaltiesOf (key : KeyId) (trace : List (Ledger × SlashEvent)) : List (Ledger × SlashEvent) :=
  trace.filter fun p => decide (p.2.key = key)

theorem mem_penaltiesOf {trace : List (Ledger × SlashEvent)} {p : Ledger × SlashEvent}
    (hp : p ∈ penaltiesOf key trace) : p ∈ trace ∧ p.2.key = key := by
  simpa [penaltiesOf] using hp

/-- The first evidence against a key, within the evidence of one block. -/
theorem applyEvidence_settled {height time i : ℕ} {seen : ExtTreeSet (KeyId × ℕ)}
    {fx fx' : Effects} {evs : List Evidence}
    (he : applyEvidence height time i seen l fx evs = .ok (l', fx')) (hfull : FullSlash l.params)
    {m : Ledger} {e : SlashEvent} {rest : List (Ledger × SlashEvent)}
    (hfirst : penaltiesOf key (slashTrace time l evs) = (m, e) :: rest) :
    Settled key m e rest l' := by
  induction evs generalizing i seen l fx with
  | nil => cases hfirst
  | cons ev evs ih =>
    unfold applyEvidence at he
    split at he
    · cases he
    obtain ⟨_, -, he⟩ := bind_eq_ok.1 he
    obtain ⟨⟨event, l₁⟩, hslash, he⟩ := bind_eq_ok.1 he
    rw [slashTrace, hslash] at hfirst
    dsimp only at hfirst
    obtain ⟨cutBond, unbonding, cutU, -, -, hevent, -⟩ := slash_ok hslash
    by_cases hkey : event.key = key
    · -- This is the first; from here on the key is penalised.
      rw [penaltiesOf, List.filter_cons_of_pos (by simpa using hkey)] at hfirst
      obtain ⟨hme, rfl⟩ := List.cons.inj hfirst
      obtain ⟨rfl, rfl⟩ := Prod.mk.inj hme
      obtain rfl : ev.offender = key := by rw [← hkey, hevent]
      have hoff : event.offenceHeight = ev.height := by rw [hevent]
      obtain ⟨hcut, hcutU, hp⟩ := slash_full hfull hslash
      obtain ⟨hp', hvoid⟩ := applyEvidence_void he _ _ hp
      rw [← hoff] at hcutU hp' hvoid
      exact ⟨hcut, hcutU, fun p hmem => hvoid p (mem_penaltiesOf hmem).1 (mem_penaltiesOf hmem).2, hp'⟩
    · rw [penaltiesOf, List.filter_cons_of_neg (by simpa using hkey)] at hfirst
      obtain ⟨_, _, _, _, _, _, rfl⟩ := slash_frame hslash
      exact ih he hfull hfirst

theorem applyBlock_settled (hfull : FullSlash l.params) {b : Block} {fx : Effects} {m : Ledger}
    {e : SlashEvent} {rest : List (Ledger × SlashEvent)} (hb : l.applyBlock b = .ok (l', fx))
    (hfirst : penaltiesOf key (l.blockTrace b) = (m, e) :: rest) : Settled key m e rest l' := by
  obtain ⟨signers, proposer, schedule, l₁, fees, feeTxs, l₂, fx₂, hstep, htxs, hev, hcloses, -⟩ :=
    applyBlock_stages hb
  rw [blockTrace_eq hstep htxs] at hfirst
  have hparams := (applyTxs_sameChain htxs).params
  have hsettled := applyEvidence_settled hev (by rw [hparams]; exact hfull) hfirst
  exact ⟨hsettled.cutBond, hsettled.cutUnbonding, hsettled.rest,
    hsettled.penalised.closes hcloses⟩

theorem Penalised.reaches (hp : Penalised key h l) (hr : Reaches l l') : Penalised key h l' := by
  induction hr with
  | refl => exact hp
  | block _ hb ih => exact (ih.applyBlock hb).1

namespace Chain

variable {trace : List (Ledger × SlashEvent)}

theorem params (hc : Chain l trace l') : l'.params = l.params := by
  induction hc with
  | refl => rfl
  | block _ hb ih => exact (applyBlock_params hb).trans ih

/-- Over a whole chain the first penalty of a key settles what it loses. -/
theorem settled (hfull : FullSlash l.params) (hc : Chain l trace l') {m : Ledger} {e : SlashEvent}
    {rest : List (Ledger × SlashEvent)} (hfirst : penaltiesOf key trace = (m, e) :: rest) :
    Settled key m e rest l' := by
  induction hc generalizing rest with
  | refl => cases hfirst
  | @block l' l'' trace b fx hc hb ih =>
    rw [penaltiesOf, List.filter_append, ← penaltiesOf, ← penaltiesOf] at hfirst
    cases hprev : penaltiesOf key trace with
    | nil =>
      -- The first penalty is in this block.
      rw [hprev, List.nil_append] at hfirst
      exact applyBlock_settled (by rw [hc.params]; exact hfull) hb hfirst
    | cons p rest' =>
      -- The key was penalised before: this block adds void penalties only.
      rw [hprev, List.cons_append] at hfirst
      obtain ⟨rfl, rfl⟩ := List.cons.inj hfirst
      have hsettled := ih hprev
      obtain ⟨hp, hvoid⟩ := hsettled.penalised.applyBlock hb
      refine ⟨hsettled.cutBond, hsettled.cutUnbonding, fun p hmem => ?_, hp⟩
      rcases List.mem_append.1 hmem with hmem | hmem
      · exact hsettled.rest p hmem
      · exact hvoid p (mem_penaltiesOf hmem).1 (mem_penaltiesOf hmem).2

end Chain

/-! ## The order of two items -/

theorem evidenceAdmissible_eq_false (hp : Penalised key h l) {ev : Evidence}
    (hkey : ev.offender = key) (hle : ev.height ≤ h) (time : ℕ) :
    l.evidenceAdmissible ev time = false := by
  unfold evidenceAdmissible
  cases hcheck : l.checkEvidence ev (l.height + 1) time with
  | error _ => rfl
  | ok u => exact absurd (hp.lt_of_checkEvidence hkey hcheck) (not_lt.2 hle)

/-- What a list of penalties burns. -/
def burned (trace : List (Ledger × SlashEvent)) : ℕ :=
  (trace.map fun p => p.2.cutBond + p.2.cutUnbonding).sum

theorem burned_eq_zero {trace : List (Ledger × SlashEvent)}
    (hvoid : ∀ p ∈ trace, VoidAbove h p.2) : burned trace = 0 := by
  refine List.sum_eq_zero fun x hx => ?_
  obtain ⟨p, hp, rfl⟩ := List.mem_map.1 hx
  rw [(hvoid p hp).2.1, (hvoid p hp).2.2, Nat.add_zero]

/-- Two heights expose the same entries unless one was created in between. -/
theorem exposed_eq_iff {h₁ h₂ : ℕ} (hlt : h₁ < h₂) :
    l.exposed key h₁ = l.exposed key h₂ ↔
      ∀ x ∈ l.unbonding, x.key = key → ¬(h₁ ≤ x.createdHeight ∧ x.createdHeight < h₂) := by
  constructor
  · rintro heq x hx hkey ⟨hle, hlt'⟩
    have hmem : x ∈ l.exposed key h₁ := List.mem_filter.2 ⟨hx, by simp [hkey, hle]⟩
    rw [heq] at hmem
    have hle' : h₂ ≤ x.createdHeight := by
      have := (List.mem_filter.1 hmem).2
      simp only [hkey, true_and, decide_eq_true_eq] at this
      exact this
    omega
  · intro hnone
    refine List.filter_congr fun x hx => decide_eq_decide.2 ?_
    constructor
    · rintro ⟨hkey, hle⟩
      exact ⟨hkey, not_lt.1 fun hlt' => hnone x hx hkey ⟨hle, hlt'⟩⟩
    · rintro ⟨hkey, hle⟩
      exact ⟨hkey, hlt.le.trans hle⟩

/-- With a slash fraction of 1, let `(m, e)` be the first penalty of `key` on a
    chain. What the chain burns of the key is its bond in `m` and the entries
    created at or after the height of that first item: they are gone, later
    items add nothing, and items for the same or a lower height are not
    admissible any more. Of two items at heights `h₁ < h₂`, the order makes no
    difference if and only if no entry was created between the two. -/
theorem first_evidence_decides {trace rest : List (Ledger × SlashEvent)} {m : Ledger}
    {e : SlashEvent} {h₁ h₂ : ℕ} (hfull : FullSlash l.params) (hchain : Chain l trace l')
    (hfirst : penaltiesOf key trace = (m, e) :: rest) (hlt : h₁ < h₂) :
    burned (penaltiesOf key trace) = (m.validatorRec key).bond +
        wrap128 ((m.exposed key e.offenceHeight).map UnbondingEntry.amount).sum ∧
      (l'.validatorRec key).bond = 0 ∧ l'.exposed key e.offenceHeight = [] ∧
      (∀ ev time, ev.offender = key → ev.height ≤ e.offenceHeight →
        l'.evidenceAdmissible ev time = false) ∧
      (m.exposed key h₁ = m.exposed key h₂ ↔
        ∀ x ∈ m.unbonding, x.key = key → ¬(h₁ ≤ x.createdHeight ∧ x.createdHeight < h₂)) := by
  have hsettled := hchain.settled hfull hfirst
  obtain ⟨r, hr, -, hbond, -⟩ := hsettled.penalised.record
  refine ⟨?_, ?_, ?_, ?_, exposed_eq_iff hlt⟩
  · have hrest := burned_eq_zero hsettled.rest
    rw [hfirst, burned, List.map_cons, List.sum_cons, ← burned, hrest, hsettled.cutBond,
      hsettled.cutUnbonding, Nat.add_zero]
  · rw [validatorRec_of_some hr, hbond]
  · refine List.filter_eq_nil_iff.2 fun x hx hexp => ?_
    obtain ⟨hkey, hle⟩ := of_decide_eq_true hexp
    exact absurd (hsettled.penalised.unbonding x hx hkey) (not_lt.2 hle)
  · exact fun ev time hkey hle => evidenceAdmissible_eq_false hsettled.penalised hkey hle time

/-- Both orders, evaluated: the lower item first and then the higher one, or the
    higher one alone. -/
theorem pairLedger_run :
    (pairLedger.bind fun l =>
      (l.applyBlock (pairBlock3 [pairEvidence 1, pairEvidence 2])).toOption.bind fun low =>
      (l.applyBlock (pairBlock3 [pairEvidence 2])).toOption.map fun high =>
        decide (FullSlash l.params) &&
        decide (l.params.unbondingMs = l.params.evidenceMaxAgeMs) &&
        l.evidenceAdmissible (pairEvidence 1) 3 && l.evidenceAdmissible (pairEvidence 2) 3 &&
        decide (low.1.burnedSlash = 200000 * quantaPerXrge) &&
        decide (high.1.burnedSlash = 150000 * quantaPerXrge) &&
        decide (high.1.exposed 1 1 ≠ []) &&
        decide ((penaltiesOf 1 (l.blockTrace (pairBlock3 [pairEvidence 2]))).map
          (fun p => p.2.offenceHeight) = [2])) = some true := by
  decide +kernel

/-- What `pairLedger_run` computes, as facts about the three ledgers. -/
theorem pairLedger_orders : ∃ l low high fxLow fxHigh, pairLedger = some l ∧
    l.applyBlock (pairBlock3 [pairEvidence 1, pairEvidence 2]) = .ok (low, fxLow) ∧
    l.applyBlock (pairBlock3 [pairEvidence 2]) = .ok (high, fxHigh) ∧ FullSlash l.params ∧
    l.params.unbondingMs = l.params.evidenceMaxAgeMs ∧
    l.evidenceAdmissible (pairEvidence 1) 3 = true ∧
    l.evidenceAdmissible (pairEvidence 2) 3 = true ∧
    low.burnedSlash = 200000 * quantaPerXrge ∧ high.burnedSlash = 150000 * quantaPerXrge ∧
    high.exposed 1 1 ≠ [] ∧ (penaltiesOf 1 (l.blockTrace (pairBlock3 [pairEvidence 2]))).map
      (fun p => p.2.offenceHeight) = [2] := by
  obtain ⟨l, hl, h⟩ := Option.bind_eq_some_iff.1 pairLedger_run
  obtain ⟨⟨low, fxLow⟩, hlow, h⟩ := Option.bind_eq_some_iff.1 h
  obtain ⟨⟨high, fxHigh⟩, hhigh, h⟩ := Option.map_eq_some_iff.1 h
  simp only [Bool.and_eq_true, decide_eq_true_eq, and_assoc] at h
  exact ⟨l, low, high, fxLow, fxHigh, hl, toOption_eq_some hlow, toOption_eq_some hhigh, h⟩

/-- The higher item alone is the only penalty of the second validator in its block. -/
theorem pairLedger_first (hl : (penaltiesOf 1 (l.blockTrace (pairBlock3 [pairEvidence 2]))).map
      (fun p => p.2.offenceHeight) = [2]) :
    ∃ m e, penaltiesOf 1 ([] ++ l.blockTrace (pairBlock3 [pairEvidence 2])) = [(m, e)] ∧
      e.offenceHeight = 2 := by
  obtain ⟨⟨m, e⟩, hp, he⟩ := List.map_eq_singleton_iff.1 hl
  exact ⟨m, e, hp, he⟩

theorem first_evidence_decides_pair : ∃ l m e l', pairLedger = some l ∧ FullSlash l.params ∧
    Chain l ([] ++ l.blockTrace (pairBlock3 [pairEvidence 2])) l' ∧
    penaltiesOf 1 ([] ++ l.blockTrace (pairBlock3 [pairEvidence 2])) = [(m, e)] ∧
    burned (penaltiesOf 1 ([] ++ l.blockTrace (pairBlock3 [pairEvidence 2]))) =
      (m.validatorRec 1).bond + wrap128 ((m.exposed 1 e.offenceHeight).map
        UnbondingEntry.amount).sum := by
  obtain ⟨l, low, high, fxLow, fxHigh, hl, -, hhigh, hfull, -, -, -, -, -, -, hpen⟩ :=
    pairLedger_orders
  obtain ⟨m, e, hfirst, -⟩ := pairLedger_first hpen
  have hchain := Chain.refl.block hhigh
  exact ⟨l, m, e, high, hl, hfull, hchain, hfirst,
    (first_evidence_decides hfull hchain hfirst Nat.one_lt_two).1⟩

/-- The order of two admissible items decides what is burned: the second
    validator voted twice at heights 1 and 2 and withdrew a quarter of its stake
    at height 1. The lower item first burns the withdrawn quarter too; the higher
    one first leaves it, and then the lower one is never admissible again. -/
theorem evidence_order_matters : ∃ l low high fxLow fxHigh,
    Reachable (.decided "pair") pairGenesis l ∧ FullSlash l.params ∧
    l.params.unbondingMs = l.params.evidenceMaxAgeMs ∧
    l.evidenceAdmissible (pairEvidence 1) 3 = true ∧
    l.evidenceAdmissible (pairEvidence 2) 3 = true ∧
    l.applyBlock (pairBlock3 [pairEvidence 1, pairEvidence 2]) = .ok (low, fxLow) ∧
    l.applyBlock (pairBlock3 [pairEvidence 2]) = .ok (high, fxHigh) ∧
    (∀ l' time, Reaches high l' → l'.evidenceAdmissible (pairEvidence 1) time = false) ∧
    low.burnedSlash ≠ high.burnedSlash ∧ high.exposed 1 1 ≠ [] := by
  obtain ⟨l, low, high, fxLow, fxHigh, hl, hlow, hhigh, hfull, hwindow, hadm₁, hadm₂, hburnLow,
    hburnHigh, hleft, hpen⟩ := pairLedger_orders
  obtain ⟨m, e, hfirst, he⟩ := pairLedger_first hpen
  have hpenalised := ((Chain.refl.block hhigh).settled hfull hfirst).penalised
  refine ⟨l, low, high, fxLow, fxHigh, pairLedger_reachable hl, hfull, hwindow, hadm₁, hadm₂,
    hlow, hhigh, fun l' time hr => ?_, ?_, hleft⟩
  · refine evidenceAdmissible_eq_false (hpenalised.reaches hr) rfl ?_ time
    rw [he]
    exact one_le_two
  · rw [hburnLow, hburnHigh]
    decide

end Ledger

end RougeChain.Consensus
