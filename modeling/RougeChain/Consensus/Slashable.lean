import RougeChain.Consensus.Slashing

/-!
# Stake stays slashable

A key that votes at height `h` answers for it with the bond it has then. It may
unbond the next moment, and the evidence may arrive much later. As long as a
block could still carry that evidence, nothing of the bond may have left: it is
bonded, on its way out in an entry created at or after `h`, or already slashed.

* `Late`: an entry is released no earlier than the unbonding period after every
  recorded height at or below the one that created it; `Recorded` says so of all
  entries, along every chain (`Recorded.applyBlock`);
* `backing`: the bond and the entries that answer for height `h`. A transaction
  keeps it (`backing_txStep`), a penalty takes from it what it cuts
  (`backing_slash`), and the end of a block only what it releases
  (`backing_closes`);
* `stake_stays_slashable`: the bond of a member of `E(h)` is covered on every
  ledger on which evidence for `h` is not too old.
-/

namespace RougeChain.Consensus

namespace Ledger

open Fallible (ofOption bind_eq_ok ofOption_eq_ok mapError_eq_ok ok_bind)
open Std (ExtTreeMap ExtTreeSet)

variable {l l' : Ledger} {key : KeyId} {h : ℕ}

/-! ## When entries are released -/

/-- The entry is held for `unbondingMs` after every recorded height that its
    creation does not precede. -/
def Late (times : ExtTreeMap ℕ ℕ) (unbondingMs : ℕ) (e : UnbondingEntry) : Prop :=
  ∀ h t : ℕ, h ≤ e.createdHeight → times[h]? = some t → satAdd u64Max t unbondingMs ≤ e.releaseAt

/-- The history of the ledger, and its entries held accordingly. -/
structure Recorded (l : Ledger) : Prop where
  times : ∀ h t : ℕ, l.times[h]? = some t → h ≤ l.height ∧ t ≤ l.tipTime
  created : ∀ e ∈ l.unbonding, e.createdHeight ≤ l.height
  late : ∀ e ∈ l.unbonding, Late l.times l.params.unbondingMs e

/-- The entries within a block at `height` and `time`, on top of the history `times`. -/
structure Within (times : ExtTreeMap ℕ ℕ) (height time unbondingMs : ℕ)
    (es : List UnbondingEntry) : Prop where
  created : ∀ e ∈ es, e.createdHeight ≤ height
  late : ∀ e ∈ es, Late (times.insert height time) unbondingMs e

theorem satAdd_mono {bound t t' u : ℕ} (h : t ≤ t') : satAdd bound t u ≤ satAdd bound t' u :=
  min_le_min_right bound (Nat.add_le_add_right h u)

namespace Within

variable {times : ExtTreeMap ℕ ℕ} {height time unbondingMs : ℕ} {es es' : List UnbondingEntry}

theorem append (hw : Within times height time unbondingMs es)
    (hw' : Within times height time unbondingMs es') :
    Within times height time unbondingMs (es ++ es') where
  created e he := (List.mem_append.1 he).elim (hw.created e) (hw'.created e)
  late e he := (List.mem_append.1 he).elim (hw.late e) (hw'.late e)

/-- Entries may lose their amount or go. -/
theorem of_forall (hw : Within times height time unbondingMs es)
    (hes : ∀ e' ∈ es', ∃ e ∈ es, e'.createdHeight = e.createdHeight ∧ e'.releaseAt = e.releaseAt) :
    Within times height time unbondingMs es' where
  created e' he' := by
    obtain ⟨e, he, hcreated, -⟩ := hes e' he'
    rw [hcreated]
    exact hw.created e he
  late e' he' := by
    obtain ⟨e, he, hcreated, hrelease⟩ := hes e' he'
    rw [Late, hcreated, hrelease]
    exact hw.late e he

/-- An entry created in the block is held from its time on. -/
theorem new (htimes : ∀ h t : ℕ, times[h]? = some t → t ≤ time) (key : KeyId) (amount : ℕ) :
    Within times height time unbondingMs
      [⟨key, amount, height, satAdd u64Max time unbondingMs⟩] where
  created e he := by
    rw [List.mem_singleton.1 he]
  late e he := by
    rw [List.mem_singleton.1 he]
    intro h t _ ht
    refine satAdd_mono ?_
    rw [getElem?_insert_eq] at ht
    split at ht
    · exact (Option.some.inj ht).ge
    · exact htimes h t ht

end Within

/-- Before the block, entries are held with respect to the block as well: none
    was created in it. -/
theorem Recorded.within (hr : Recorded l) (time : ℕ) :
    Within l.times (l.height + 1) time l.params.unbondingMs l.unbonding where
  created e he := (hr.created e he).trans (Nat.le_succ _)
  late e he := by
    intro h t hh ht
    have hle := hr.created e he
    rw [getElem?_insert_eq, if_neg (by omega)] at ht
    exact hr.late e he h t hh ht

theorem within_txStep {times : ExtTreeMap ℕ ℕ} {height time : ℕ}
    (htimes : ∀ h t : ℕ, times[h]? = some t → t ≤ time) (hs : TxStep height time l l')
    (hw : Within times height time l.params.unbondingMs l.unbonding) :
    Within times height time l'.params.unbondingMs l'.unbonding := by
  cases hs with
  | unbond balances seenTx k amount r hr hpos hle => exact hw.append (.new htimes k amount)
  | _ => exact hw

theorem within_slash {times : ExtTreeMap ℕ ℕ} {time off : ℕ} {k : KeyId} {event : SlashEvent}
    (htimes : ∀ h t : ℕ, times[h]? = some t → t ≤ time)
    (hs : l.slash k off time = .ok (event, l'))
    (hw : Within times (l.height + 1) time l.params.unbondingMs l.unbonding) :
    Within times (l'.height + 1) time l'.params.unbondingMs l'.unbonding := by
  obtain ⟨cutBond, unbonding, cutU, -, hunb, -, -, -, hunb'⟩ := slash_ok hs
  have hkept : Within times (l.height + 1) time l.params.unbondingMs
      (unbonding.filter fun e => decide (0 < e.amount)) := by
    refine hw.of_forall fun e' he' => ?_
    obtain ⟨e, he, -, heq⟩ := mem_cutUnbonding hunb (List.mem_filter.1 he').1
    exact ⟨e, he, heq⟩
  have hunb'' := hunb'
  obtain ⟨_, _, _, _, _, _, rfl⟩ := slash_frame hs
  dsimp only at hunb'' ⊢
  rw [hunb'']
  refine hkept.append ?_
  split
  · exact .new htimes k _
  · exact ⟨fun e he => absurd he List.not_mem_nil, fun e he => absurd he List.not_mem_nil⟩

/-- The entries of a block, before those that matured are released. -/
theorem Recorded.within_block (hr : Recorded l) {b : Block} {fx fx₂ : Effects} {l₁ l₂ : Ledger}
    {schedule : Schedule} {fees feeTxs : ℕ} (htime : l.tipTime < b.header.timeMs)
    (htxs : applyTxs (l.height + 1) b.header.timeMs 0 { l with schedule } 0 0 b.txs =
      .ok (l₁, fees, feeTxs))
    (hev : applyEvidence (l.height + 1) b.header.timeMs 0 ∅ l₁ fx b.evidence = .ok (l₂, fx₂)) :
    Within l.times (l.height + 1) b.header.timeMs l.params.unbondingMs l₂.unbonding := by
  have htimes : ∀ h t : ℕ, l.times[h]? = some t → t ≤ b.header.timeMs :=
    fun h t ht => (hr.times h t ht).2.trans htime.le
  have hw₁ : Within l.times (l.height + 1) b.header.timeMs l₁.params.unbondingMs l₁.unbonding :=
    applyTxs_invariant (fun m => Within l.times (l.height + 1) b.header.timeMs
      m.params.unbondingMs m.unbonding) (fun m m' hs hm => within_txStep htimes hs hm) htxs
      (hr.within b.header.timeMs)
  have hchain₁ := applyTxs_sameChain htxs
  have hchain₂ := applyEvidence_sameChain hev
  rw [← hchain₁.height] at hw₁
  have hw₂ := applyEvidence_invariant (fun m => Within l.times (m.height + 1) b.header.timeMs
    m.params.unbondingMs m.unbonding) (fun m m' ev event _ hs hm => within_slash htimes hs hm) hev
    hw₁
  rwa [hchain₂.height, hchain₁.height, hchain₂.params, hchain₁.params] at hw₂

/-- A block keeps the record. -/
theorem Recorded.applyBlock (hr : Recorded l) {b : Block} {fx : Effects}
    (hb : l.applyBlock b = .ok (l', fx)) : Recorded l' := by
  obtain ⟨signers, proposer, schedule, l₁, fees, feeTxs, l₂, fx₂, -, htxs, hev, hcloses, -⟩ :=
    applyBlock_stages hb
  obtain ⟨hheight, htip, htime, hhistory⟩ := applyBlock_history hb
  have hparams := applyBlock_params hb
  have hw := hr.within_block htime htxs hev
  refine ⟨fun h t ht => ?_, fun e he => ?_, fun e he h t hh ht => ?_⟩
  · have ht' := hhistory h t ht
    rw [getElem?_insert_eq] at ht'
    split at ht'
    · next heq =>
      rw [hheight, htip, ← Option.some.inj ht', heq]
      exact ⟨le_rfl, le_rfl⟩
    · obtain ⟨hle, hlt⟩ := hr.times h t ht'
      exact ⟨by omega, by omega⟩
  · rw [hcloses.unbonding] at he
    rw [hheight]
    exact hw.created e (List.mem_filter.1 he).1
  · rw [hcloses.unbonding] at he
    rw [hparams]
    exact hw.late e (List.mem_filter.1 he).1 h t hh (hhistory h t ht)

theorem Recorded.reaches (hr : Recorded l) (hreach : Reaches l l') : Recorded l' := by
  induction hreach with
  | refl => exact hr
  | block _ hb ih => exact ih.applyBlock hb

theorem genesis_recorded {params : Params} {g : Genesis} {l₀ : Ledger}
    (hg : genesis params g = .ok l₀) : Recorded l₀ := by
  obtain ⟨set, -, hg⟩ := bind_eq_ok.1 hg
  obtain rfl := Except.ok.inj hg
  refine ⟨fun h t ht => ?_, fun e he => absurd he List.not_mem_nil,
    fun e he => absurd he List.not_mem_nil⟩
  dsimp only at ht ⊢
  rw [getElem?_insert_eq] at ht
  split at ht
  · next heq => exact ⟨heq.ge, (Option.some.inj ht).ge⟩
  · rw [ExtTreeMap.getElem?_empty] at ht
    cases ht

/-! ## What answers for a height -/

/-- What the entries of `key` created at or after `h` hold. -/
def exposedSum (key : KeyId) (h : ℕ) (es : List UnbondingEntry) : ℕ :=
  ((es.filter fun e => decide (e.key = key ∧ h ≤ e.createdHeight)).map UnbondingEntry.amount).sum

theorem exposedSum_cons (e : UnbondingEntry) (es : List UnbondingEntry) :
    exposedSum key h (e :: es) =
      (if e.key = key ∧ h ≤ e.createdHeight then e.amount else 0) + exposedSum key h es := by
  unfold exposedSum
  by_cases hexp : e.key = key ∧ h ≤ e.createdHeight
  · rw [List.filter_cons_of_pos (by simpa using hexp), List.map_cons, List.sum_cons, if_pos hexp]
  · rw [List.filter_cons_of_neg (by simpa using hexp), if_neg hexp, Nat.zero_add]

theorem exposedSum_append (es es' : List UnbondingEntry) :
    exposedSum key h (es ++ es') = exposedSum key h es + exposedSum key h es' := by
  rw [exposedSum, List.filter_append, List.map_append, List.sum_append, ← exposedSum,
    ← exposedSum]

/-- Entries without amount do not count. -/
theorem exposedSum_filter_pos (es : List UnbondingEntry) :
    exposedSum key h (es.filter fun e => decide (0 < e.amount)) = exposedSum key h es := by
  induction es with
  | nil => rfl
  | cons e es ih =>
    by_cases hpos : 0 < e.amount
    · rw [List.filter_cons_of_pos (by simpa using hpos), exposedSum_cons, exposedSum_cons, ih]
    · rw [List.filter_cons_of_neg (by simpa using hpos), exposedSum_cons, ih,
        Nat.eq_zero_of_not_pos hpos, ite_self, Nat.zero_add]

/-- The bond of `key`, 0 if it has no record. -/
def bondOf (key : KeyId) (v : ExtTreeMap KeyId ValidatorRec) : ℕ :=
  (v[key]?.getD ({} : ValidatorRec)).bond

theorem bondOf_insert (k : KeyId) (r : ValidatorRec) (v : ExtTreeMap KeyId ValidatorRec) :
    bondOf key (v.insert k r) = if k = key then r.bond else bondOf key v := by
  rw [bondOf, getElem?_insert_eq]
  split <;> rfl

theorem bondOf_of_some {v : ExtTreeMap KeyId ValidatorRec} {r : ValidatorRec}
    (hr : v[key]? = some r) : bondOf key v = r.bond := by
  rw [bondOf, hr, Option.getD_some]

/-- Rewriting a record without touching its bond. -/
theorem bondOf_insert_of_eq {v : ExtTreeMap KeyId ValidatorRec} {k : KeyId} {r : ValidatorRec}
    (hbond : r.bond = bondOf k v) : bondOf key (v.insert k r) = bondOf key v := by
  rw [bondOf_insert]
  split
  · next hk => rw [← hk, hbond]
  · rfl

/-- The bond of `key` and its entries that answer for height `h`. -/
def backing (key : KeyId) (h : ℕ) (l : Ledger) : ℕ :=
  bondOf key l.validators + exposedSum key h l.unbonding

/-- A transaction moves stake from the bond into an entry, if at all. -/
theorem backing_txStep {height time : ℕ} (hh : h ≤ height) (hs : TxStep height time l l') :
    backing key h l' = backing key h l := by
  cases hs with
  | transfer balances seenTx => rfl
  | approve balances seenTx approvals => rfl
  | stake balances seenTx k amount hlive =>
    exact congrArg (· + exposedSum key h l.unbonding) (bondOf_insert_of_eq rfl)
  | unjail balances seenTx k r hr =>
    exact congrArg (· + exposedSum key h l.unbonding)
      (bondOf_insert_of_eq (bondOf_of_some hr).symm)
  | admission balances seenTx approvals k r hr =>
    exact congrArg (· + exposedSum key h l.unbonding)
      (bondOf_insert_of_eq (bondOf_of_some hr).symm)
  | unbond balances seenTx k amount r hr hpos hle =>
    rw [backing, backing, bondOf_insert, exposedSum_append, exposedSum_cons]
    have hnil : exposedSum key h [] = 0 := rfl
    by_cases hk : k = key
    · rw [if_pos hk, if_pos ⟨hk, hh⟩, ← hk, bondOf_of_some hr, hk]
      dsimp only
      omega
    · rw [if_neg hk, if_neg fun hexp => hk hexp.1]
      omega

/-! ## What a penalty takes -/

/-- What a cut takes of `x`. -/
def cutOf (params : Params) (x : ℕ) : ℕ := (cut params x).toOption.getD 0

theorem cutOf_eq {params : Params} {x c : ℕ} (hc : cut params x = .ok c) : cutOf params x = c := by
  rw [cutOf, hc]
  rfl

/-- What a penalty of `key` at `off` takes of the entries. -/
def cutSum (params : Params) (key : KeyId) (off : ℕ) (es : List UnbondingEntry) : ℕ :=
  ((es.filter fun e => decide (e.key = key ∧ off ≤ e.createdHeight)).map fun e =>
    cutOf params e.amount).sum

theorem cutSum_cons (params : Params) (off : ℕ) (e : UnbondingEntry) (es : List UnbondingEntry) :
    cutSum params key off (e :: es) =
      (if e.key = key ∧ off ≤ e.createdHeight then cutOf params e.amount else 0) +
        cutSum params key off es := by
  unfold cutSum
  by_cases hexp : e.key = key ∧ off ≤ e.createdHeight
  · rw [List.filter_cons_of_pos (by simpa using hexp), List.map_cons, List.sum_cons, if_pos hexp]
  · rw [List.filter_cons_of_neg (by simpa using hexp), if_neg hexp, Nat.zero_add]

/-- The stake that a penalty takes: of the bond, and of the entries it cuts in
    the ledger it is applied to. -/
def taken (p : Ledger × SlashEvent) : ℕ :=
  p.2.cutBond + cutSum p.1.params p.2.key p.2.offenceHeight p.1.unbonding

/-- What the penalties of a trace took from `key`. -/
def slashedFrom (key : KeyId) (trace : List (Ledger × SlashEvent)) : ℕ :=
  ((penaltiesOf key trace).map taken).sum

theorem slashedFrom_cons (p : Ledger × SlashEvent) (trace : List (Ledger × SlashEvent)) :
    slashedFrom key (p :: trace) =
      (if p.2.key = key then taken p else 0) + slashedFrom key trace := by
  unfold slashedFrom penaltiesOf
  by_cases hkey : p.2.key = key
  · rw [List.filter_cons_of_pos (by simpa using hkey), List.map_cons, List.sum_cons, if_pos hkey]
  · rw [List.filter_cons_of_neg (by simpa using hkey), if_neg hkey, Nat.zero_add]

theorem slashedFrom_append (trace trace' : List (Ledger × SlashEvent)) :
    slashedFrom key (trace ++ trace') = slashedFrom key trace + slashedFrom key trace' := by
  rw [slashedFrom, penaltiesOf, List.filter_append, List.map_append, List.sum_append,
    ← penaltiesOf, ← penaltiesOf, ← slashedFrom, ← slashedFrom]

/-- The entries lose what is cut, and the penalty reports it. -/
theorem cutUnbonding_exposed {params : Params} {k : KeyId} {off total : ℕ}
    {es es' : List UnbondingEntry} (hc : cutUnbonding params k off es = .ok (es', total)) :
    exposedSum key h es ≤ exposedSum key h es' + (if k = key then cutSum params k off es else 0) ∧
      total = wrap128 (cutSum params k off es) := by
  induction es generalizing es' total with
  | nil =>
    obtain ⟨rfl, rfl⟩ : [] = es' ∧ 0 = total := by simpa [cutUnbonding] using hc
    exact ⟨Nat.zero_le _, rfl⟩
  | cons e es ih =>
    obtain ⟨c, hcut, hc⟩ := bind_eq_ok.1 hc
    obtain ⟨⟨es₁, total₁⟩, hes₁, hc⟩ := bind_eq_ok.1 hc
    obtain ⟨rfl, rfl⟩ := Prod.mk.inj (Except.ok.inj hc)
    obtain ⟨hexposed, rfl⟩ := ih hes₁
    have hc' : (if e.key = k ∧ off ≤ e.createdHeight then cutOf params e.amount else 0) = c := by
      split at hcut
      · next hexp => rw [if_pos hexp, cutOf_eq hcut]
      · next hexp => rw [if_neg hexp, Except.ok.inj hcut]
    rw [exposedSum_cons, exposedSum_cons, cutSum_cons, hc']
    refine ⟨?_, Nat.add_mod_mod _ _ _⟩
    dsimp only
    by_cases hk : k = key
    · rw [if_pos hk] at hexposed ⊢
      split <;> omega
    · -- An entry of another key is cut, or none.
      rw [if_neg hk] at hexposed ⊢
      split
      · next hexp =>
        have hne : ¬(e.key = k ∧ off ≤ e.createdHeight) := fun hcut => hk (hcut.1.symm.trans hexp.1)
        rw [if_neg hne] at hc'
        omega
      · omega

/-- A penalty leaves of the backing of its key what it does not take, and that
    of every other key alone. -/
theorem backing_slash {k : KeyId} {off time : ℕ} {event : SlashEvent} (hh : h ≤ l.height + 1)
    (hs : l.slash k off time = .ok (event, l')) :
    backing key h l ≤ backing key h l' + if event.key = key then taken (l, event) else 0 := by
  obtain ⟨cutBond, unbonding, cutU, hcut, hunb, rfl, hvals, -, hunb'⟩ := slash_ok hs
  have hle := cut_le hcut
  obtain ⟨hexposed, -⟩ := @cutUnbonding_exposed key h _ _ _ _ _ _ hunb
  rw [backing, backing, hvals, bondOf_insert, hunb', exposedSum_append, exposedSum_filter_pos, taken]
  dsimp only
  by_cases hk : k = key
  · subst hk
    rw [if_pos rfl] at hexposed ⊢
    rw [if_pos rfl]
    -- What is left of the bond is in a new entry.
    have hrest : exposedSum k h (if 0 < (l.validatorRec k).bond - cutBond then
        [⟨k, (l.validatorRec k).bond - cutBond, l.height + 1,
          satAdd u64Max time l.params.unbondingMs⟩] else []) =
        (l.validatorRec k).bond - cutBond := by
      split
      · rw [exposedSum_cons, if_pos ⟨rfl, hh⟩]
        rfl
      · next hzero => exact (Nat.eq_zero_of_not_pos hzero).symm
    have hbond : bondOf k l.validators = (l.validatorRec k).bond := rfl
    rw [hrest, hbond]
    omega
  · rw [if_neg hk] at hexposed ⊢
    rw [if_neg hk]
    omega

/-! ## Blocks -/

/-- The evidence of a block takes from the backing what its penalties take. -/
theorem applyEvidence_backing {height time i : ℕ} {seen : ExtTreeSet (KeyId × ℕ)}
    {fx fx' : Effects} {evs : List Evidence} (hh : h ≤ l.height + 1)
    (he : applyEvidence height time i seen l fx evs = .ok (l', fx')) :
    backing key h l ≤ backing key h l' + slashedFrom key (slashTrace time l evs) := by
  refine applyEvidence_rec (fun m trace m' => h ≤ m.height + 1 →
    backing key h m ≤ backing key h m' + slashedFrom key trace) (fun m _ => le_rfl) ?_ he hh
  intro m m₁ m' ev event rest _ hs hrest hm
  have hslash := @backing_slash m m₁ key h _ _ _ _ hm hs
  have hheight : m₁.height = m.height := by
    obtain ⟨_, _, _, _, _, _, rfl⟩ := slash_frame hs
    rfl
  have hrest := hrest (hheight ▸ hm)
  rw [slashedFrom_cons]
  dsimp only
  omega

/-- An epoch adds to bonds. -/
theorem bondPending_le {matured : ℕ → Bool} {v v' : ExtTreeMap KeyId ValidatorRec}
    {ps still : List PendingBond} (hb : bondPending matured v ps = .ok (v', still)) :
    bondOf key v ≤ bondOf key v' := by
  induction ps generalizing v still with
  | nil =>
    obtain ⟨rfl, -⟩ : v = v' ∧ [] = still := by simpa [bondPending] using hb
    exact le_rfl
  | cons p ps ih =>
    unfold bondPending at hb
    split at hb
    · obtain ⟨bond, hbond, hb⟩ := bind_eq_ok.1 hb
      have hbond := checkedAdd_eq_some (ofOption_eq_ok.1 hbond)
      have hrest := ih hb
      rw [bondOf_insert] at hrest
      split at hrest
      · next hk =>
        rw [hk] at hbond
        have hold : bondOf key v = (v[key]?.getD ({} : ValidatorRec)).bond := rfl
        dsimp only at hrest
        omega
      · exact hrest
    · obtain ⟨⟨v₁, still₁⟩, hrest, hb⟩ := bind_eq_ok.1 hb
      obtain ⟨rfl, -⟩ := Prod.mk.inj (Except.ok.inj hb)
      exact ih hrest

/-- The end of a block takes nothing from the backing unless it releases. -/
theorem backing_closes {time : ℕ} (hc : Closes time l l')
    (hheld : ∀ e ∈ l.unbonding, h ≤ e.createdHeight → time < e.releaseAt) :
    backing key h l ≤ backing key h l' := by
  obtain ⟨matured, v, v', hsame, hbond, hsame'⟩ := hc.stakes
  have hle := @bondPending_le key _ _ _ _ _ hbond
  rw [bondOf, hsame.bond, bondOf, ← hsame'.bond] at hle
  refine Nat.add_le_add hle (le_of_eq ?_)
  rw [hc.unbonding, exposedSum, exposedSum, List.filter_filter]
  refine congrArg (fun es => (es.map UnbondingEntry.amount).sum)
    (List.filter_congr fun e he => ?_)
  by_cases hexp : e.key = key ∧ h ≤ e.createdHeight
  · rw [decide_eq_true hexp, decide_eq_true (hheld e he hexp.2), Bool.and_true]
  · rw [decide_eq_false hexp, Bool.false_and]

/-- The unbonding period of height `h` has not passed, if the height is there. -/
def Open (h : ℕ) (l : Ledger) : Prop :=
  h ≤ l.height → ∃ t, l.times[h]? = some t ∧ l.tipTime < satAdd u64Max t l.params.unbondingMs

/-- The period was not over before the block either. -/
theorem Open.of_applyBlock (ho : Open h l') {b : Block} {fx : Effects}
    (hb : l.applyBlock b = .ok (l', fx)) : Open h l := by
  intro hh
  obtain ⟨hheight, htip, htime, hhistory⟩ := applyBlock_history hb
  obtain ⟨t, ht, hlt⟩ := ho (by omega)
  have ht' := hhistory h t ht
  rw [getElem?_insert_eq, if_neg (by omega)] at ht'
  rw [applyBlock_params hb, htip] at hlt
  exact ⟨t, ht', htime.trans hlt⟩

/-- As long as the period is not over, a block takes from the backing only what
    its penalties take. -/
theorem backing_applyBlock (hr : Recorded l) (hh : h ≤ l.height + 1) {b : Block} {fx : Effects}
    (hb : l.applyBlock b = .ok (l', fx)) (ho : Open h l') :
    backing key h l ≤ backing key h l' + slashedFrom key (l.blockTrace b) := by
  obtain ⟨signers, proposer, schedule, l₁, fees, feeTxs, l₂, fx₂, hstep, htxs, hev, hcloses, -⟩ :=
    applyBlock_stages hb
  obtain ⟨hheight, htip, htime, hhistory⟩ := applyBlock_history hb
  have hchain₁ := applyTxs_sameChain htxs
  have h₁ : backing key h l₁ = backing key h l :=
    applyTxs_invariant (fun m => backing key h m = backing key h l)
      (fun m m' hs hm => (backing_txStep hh hs).trans hm) htxs rfl
  have h₂ := @applyEvidence_backing l₁ l₂ key h _ _ _ _ _ _ _ (by rw [hchain₁.height]; exact hh) hev
  -- What answers for `h` is held longer than until this block.
  have hheld : ∀ e ∈ l₂.unbonding, h ≤ e.createdHeight → b.header.timeMs < e.releaseAt := by
    intro e he hle
    obtain ⟨t, ht, hlt⟩ := ho (by omega)
    rw [htip, applyBlock_params hb] at hlt
    exact hlt.trans_le ((hr.within_block htime htxs hev).late e he h t hle (hhistory h t ht))
  have h₃ := @backing_closes l₂ l' key h _ hcloses hheld
  rw [blockTrace_eq hstep htxs]
  omega

/-! ## What the penalties report -/

theorem cutOf_le (params : Params) (x : ℕ) : cutOf params x ≤ x := by
  cases hc : cut params x with
  | error _ =>
    rw [cutOf, hc]
    exact Nat.zero_le _
  | ok c =>
    rw [cutOf_eq hc]
    exact cut_le hc

theorem cutSum_le (params : Params) (off : ℕ) (es : List UnbondingEntry) :
    cutSum params key off es ≤ (es.map UnbondingEntry.amount).sum := by
  induction es with
  | nil => exact le_rfl
  | cons e es ih =>
    rw [cutSum_cons, List.map_cons, List.sum_cons]
    refine Nat.add_le_add ?_ ih
    split
    · exact cutOf_le params e.amount
    · exact Nat.zero_le _

/-- On a ledger whose supply fits, a penalty reports what it takes. -/
theorem taken_eq {k : KeyId} {off time : ℕ} {event : SlashEvent} (hl : l.supply < 2 ^ 128)
    (hs : l.slash k off time = .ok (event, l')) :
    taken (l, event) = event.cutBond + event.cutUnbonding := by
  obtain ⟨cutBond, unbonding, cutU, -, hunb, rfl, -⟩ := slash_ok hs
  obtain ⟨-, rfl⟩ := @cutUnbonding_exposed 0 0 _ _ _ _ _ _ hunb
  have hle := @cutSum_le k l.params off l.unbonding
  have hfits : (l.unbonding.map UnbondingEntry.amount).sum ≤ l.supply := Nat.le_add_left _ _
  rw [wrap128_eq (by omega)]
  rfl

theorem applyEvidence_taken {height time i : ℕ} {seen : ExtTreeSet (KeyId × ℕ)}
    {fx fx' : Effects} {evs : List Evidence} (hl : l.supply < 2 ^ 128)
    (he : applyEvidence height time i seen l fx evs = .ok (l', fx')) :
    ∀ p ∈ slashTrace time l evs, taken p = p.2.cutBond + p.2.cutUnbonding := by
  refine applyEvidence_rec (fun m trace _ => m.supply < 2 ^ 128 →
    ∀ p ∈ trace, taken p = p.2.cutBond + p.2.cutUnbonding) ?_ ?_ he hl
  · exact fun m _ p hp => absurd hp List.not_mem_nil
  · intro m m₁ m' ev event rest _ hs hrest hm
    have hsupply := slash_supply hm hs
    exact List.forall_mem_cons.2 ⟨taken_eq hm hs, hrest (by omega)⟩

theorem applyBlock_taken {b : Block} {fx : Effects} (hl : l.supply < 2 ^ 128)
    (hb : l.applyBlock b = .ok (l', fx)) :
    ∀ p ∈ l.blockTrace b, taken p = p.2.cutBond + p.2.cutUnbonding := by
  obtain ⟨signers, proposer, schedule, l₁, fees, feeTxs, l₂, fx₂, hstep, htxs, hev, -, -⟩ :=
    applyBlock_stages hb
  have hsupply : l₁.supply + fees = l.supply := applyTxs_supply htxs
  rw [blockTrace_eq hstep htxs]
  exact applyEvidence_taken (by omega) hev

/-! ## Chains -/

namespace Chain

variable {trace : List (Ledger × SlashEvent)}

/-- Over a whole chain: as long as the period of `h` is not over, what answered
    for `h` at its start still does, or was slashed. -/
theorem backed (hr : Recorded l) (hh : h ≤ l.height + 1) (hc : Chain l trace l') :
    Recorded l' ∧ l.height ≤ l'.height ∧
      (Open h l' → backing key h l ≤ backing key h l' + slashedFrom key trace) := by
  induction hc with
  | refl => exact ⟨hr, le_rfl, fun _ => le_rfl⟩
  | @block m l' trace b fx hc hb ih =>
    obtain ⟨hm, hheight, hbacked⟩ := ih
    have hnext := (applyBlock_history hb).1
    refine ⟨hm.applyBlock hb, by omega, fun ho => ?_⟩
    have h₁ := hbacked (ho.of_applyBlock hb)
    have h₂ := @backing_applyBlock m l' key h hm (by omega) _ _ hb ho
    rw [slashedFrom_append]
    omega

theorem supply (hc : Chain l trace l') (hl : l.supply < 2 ^ 128) : l'.supply = l.supply := by
  induction hc with
  | refl => rfl
  | block _ hb ih => rw [applyBlock_supply (by omega) hb, ih]

theorem slashedFrom_eq (hc : Chain l trace l') (hl : l.supply < 2 ^ 128) :
    slashedFrom key trace = burned (penaltiesOf key trace) := by
  have htaken : ∀ p ∈ trace, taken p = p.2.cutBond + p.2.cutUnbonding := by
    induction hc with
    | refl => exact fun p hp => absurd hp List.not_mem_nil
    | block hc hb ih =>
      have hm := hc.supply hl
      intro p hp
      rcases List.mem_append.1 hp with hp | hp
      · exact ih p hp
      · exact applyBlock_taken (by omega) hb p hp
  refine congrArg List.sum (List.map_congr_left fun p hp => ?_)
  exact htaken p (mem_penaltiesOf hp).1

end Chain

/-- `key` is in `E(h)`, the set that votes at height `h`, with the bond `b`: `l` is
    the ledger below `h`. The set of the genesis also voted at its own height. -/
structure Votes (g : Genesis) (l : Ledger) (h : ℕ) (key : KeyId) (b : ℕ) : Prop where
  height : h = l.height + 1 ∨ h = l.height ∧ l.height = g.tipHeight
  member : l.activeSet.contains key = true
  bond : (l.validatorRec key).bond = b

/-- Could a next block carry evidence for height `h`, as far as its age goes? -/
def CouldCarry (l : Ledger) (h : ℕ) : Prop :=
  h < l.height + 1 ∧ ∃ offTime time, l.times[h]? = some offTime ∧ l.tipTime < time ∧
    time ≤ u64Max ∧ time - offTime ≤ l.params.evidenceMaxAgeMs

/-- Evidence that is young enough finds the unbonding period open. -/
theorem CouldCarry.open (hage : l.CouldCarry h)
    (hparams : l.params.evidenceMaxAgeMs ≤ l.params.unbondingMs) : Open h l := by
  intro _
  obtain ⟨-, offTime, time, hoff, htip, hmax, hold⟩ := hage
  refine ⟨offTime, hoff, lt_min ?_ ?_⟩ <;> omega

theorem genesis_params {params : Params} {g : Genesis} {l₀ : Ledger}
    (hg : genesis params g = .ok l₀) :
    l₀.params = { params with activationHeight := g.tipHeight + 1 } := by
  obtain ⟨set, -, hg⟩ := bind_eq_ok.1 hg
  rw [← Except.ok.inj hg]

theorem Reaches.params (hr : Reaches l l') : l'.params = l.params := by
  induction hr with
  | refl => rfl
  | block _ hb ih => exact (applyBlock_params hb).trans ih

/-- Stake stays slashable: if the unbonding period is at least the maximal age of
    evidence, the bond of a member of `E(h)` is, on every later ledger on which a
    next block could carry evidence for `h`, at most what the key still has
    bonded, what it holds in entries created at or after `h`, and what was slashed
    from it since. What was slashed is what the penalties report. -/
theorem stake_stays_slashable {params : Params} {g : Genesis}
    {trace : List (Ledger × SlashEvent)} {b : ℕ}
    (hparams : params.evidenceMaxAgeMs ≤ params.unbondingMs) (hreach : Reachable params g l)
    (hvotes : Votes g l h key b) (hchain : Chain l trace l') (hage : l'.CouldCarry h) :
    b ≤ (l'.validatorRec key).bond + ((l'.exposed key h).map UnbondingEntry.amount).sum +
        slashedFrom key trace ∧
      (l.supply < 2 ^ 128 → slashedFrom key trace = burned (penaltiesOf key trace)) := by
  obtain ⟨l₀, hgenesis, hreach⟩ := hreach
  have hrecorded := (genesis_recorded hgenesis).reaches hreach
  have hh : h ≤ l.height + 1 := by
    rcases hvotes.height with heq | ⟨heq, -⟩ <;> omega
  have hwindow : l'.params.evidenceMaxAgeMs ≤ l'.params.unbondingMs := by
    rw [hchain.params, hreach.params, genesis_params hgenesis]
    exact hparams
  obtain ⟨-, -, hbacked⟩ := @Chain.backed l l' key h trace hrecorded hh hchain
  have hcovered := hbacked (hage.open hwindow)
  have hbond : b ≤ backing key h l := by
    rw [← hvotes.bond]
    exact Nat.le_add_right _ _
  exact ⟨hbond.trans hcovered, fun hl => hchain.slashedFrom_eq hl⟩

/-- The second validator of the pair withdraws a quarter, votes twice at height 2
    and is penalised at height 3. -/
theorem pairChain_run :
    ((genesis (.decided "pair") pairGenesis).toOption.bind fun l₀ =>
      (l₀.applyBlock pairBlock1).toOption.bind fun r₁ =>
      (r₁.1.applyBlock pairBlock2).toOption.bind fun r₂ =>
      (r₂.1.applyBlock (pairBlock3 [pairEvidence 2])).toOption.map fun r₃ =>
        decide (l₀.height = 0) && l₀.activeSet.contains 1 &&
        decide ((l₀.validatorRec 1).bond = 200000 * quantaPerXrge) &&
        decide (r₃.1.height = 3) && decide (r₃.1.tipTime = 3) &&
        decide (r₃.1.times[1]? = some 1) && decide (3 ≤ r₃.1.params.evidenceMaxAgeMs) &&
        decide ((r₃.1.validatorRec 1).bond = 0)) = some true := by
  decide +kernel

theorem stake_stays_slashable_pair : ∃ l l' trace,
    Reachable (.decided "pair") pairGenesis l ∧
    Votes pairGenesis l 1 1 (200000 * quantaPerXrge) ∧ Chain l trace l' ∧ l'.CouldCarry 1 ∧
    (l'.validatorRec 1).bond = 0 ∧
    200000 * quantaPerXrge ≤ (l'.validatorRec 1).bond +
      ((l'.exposed 1 1).map UnbondingEntry.amount).sum + slashedFrom 1 trace := by
  obtain ⟨l₀, h₀, hrun⟩ := Option.bind_eq_some_iff.1 pairChain_run
  obtain ⟨⟨l₁, fx₁⟩, h₁, hrun⟩ := Option.bind_eq_some_iff.1 hrun
  obtain ⟨⟨l₂, fx₂⟩, h₂, hrun⟩ := Option.bind_eq_some_iff.1 hrun
  obtain ⟨⟨l₃, fx₃⟩, h₃, hrun⟩ := Option.map_eq_some_iff.1 hrun
  simp only [Bool.and_eq_true, decide_eq_true_eq] at hrun
  obtain ⟨⟨⟨⟨⟨⟨⟨hheight₀, hmember⟩, hbond⟩, hheight⟩, htip⟩, htimes⟩, hage⟩, hzero⟩ := hrun
  have hreach : Reachable (.decided "pair") pairGenesis l₀ := ⟨l₀, toOption_eq_some h₀, .refl⟩
  have hvotes : Votes pairGenesis l₀ 1 1 (200000 * quantaPerXrge) :=
    ⟨.inl (by rw [hheight₀]), hmember, hbond⟩
  have hchain := ((Chain.refl.block (toOption_eq_some h₁)).block (toOption_eq_some h₂)).block
    (toOption_eq_some h₃)
  have hcarry : l₃.CouldCarry 1 :=
    ⟨by omega, 1, 4, htimes, by omega, by decide, by omega⟩
  exact ⟨l₀, l₃, _, hreach, hvotes, hchain, hcarry, hzero,
    (stake_stays_slashable le_rfl hreach hvotes hchain hcarry).1⟩

end Ledger

end RougeChain.Consensus
