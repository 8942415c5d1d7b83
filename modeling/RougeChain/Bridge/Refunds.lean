import RougeChain.Library.Runs
import RougeChain.Bridge.EvmRelayer
import RougeChain.Bridge.Settlement

/-!
# Refunded or paid

A withdrawal whose payout keeps failing is refunded: its burn is minted back. Before a refund the
flag `processedL1Txs` is read, by the relayer for RougeBridge and by the daemon for the vault, and
a refund is made only when the contract has not processed the withdrawal.

* `stuck_release_pays`: a release that is submitted and not mined is not seen by that look, and
  pays the withdrawal after its refund;
* `refunded_not_released`: when no release of the withdrawal is waiting to be mined at that look,
  and a poll begins only with a withdrawal that the daemon still lists and for which it has no
  refund open, no withdrawal is both refunded and released.
-/

namespace RougeChain.Bridge

/-! ## The condition -/

/-- The list of the daemon that is served to the polls of a contract. -/
def PayoutContract.lists : PayoutContract → PendingWithdrawal → Bool
  | .rougeBridge, v =>
    Text.eqIgnoreCase v.tokenSymbol "qETH" || Text.eqIgnoreCase v.tokenSymbol "qUSDC"
  | .vault, v => isXrgeWithdrawal v

/-- The item that the relayer reads from a record. -/
def PayoutContract.item : PayoutContract → PendingWithdrawal → Item
  | .rougeBridge, v =>
    ⟨v.txId, v.evmAddress, v.amountUnits, Text.trim isJsWhitespace v.tokenSymbol⟩
  | .vault, v => ⟨v.txId, v.evmAddress, v.amountUnits, ""⟩

/-- A refund of `id` that the daemon has not finished. -/
def Task.refunds (id : String) : Task → Bool
  | .start (.refund txId) => txId = id
  | .vault txId _ => txId = id
  | .check txId _ => txId = id
  | .insert txId _ => txId = id
  | .mint txId _ => txId = id
  | .rollback txId _ => txId = id
  | _ => false

/-- The withdrawal whose flag a poll is about to read for a refund. -/
def Poll.looksAt : Poll → Option String
  | .evm item .refundCheck => some item.txId
  | _ => none

/-- The withdrawal whose flag a task is about to read for a refund. -/
def Task.looksAt : Task → Option String
  | .vault txId _ => some txId
  | _ => none

namespace World

/-- The daemon lists the item now. -/
def Lists (w : World) (contract : PayoutContract) (item : Item) : Prop :=
  ∃ l ∈ (relayerPayableWithdrawals w.daemon.stores).toOption,
    ∃ v ∈ l, contract.lists v = true ∧ contract.item v = item

/-- No release of the withdrawal waits to be mined. -/
def Settled (w : World) (txId : String) : Prop := ∀ r ∈ w.base.mempool, r.txId ≠ txId

/-- A poll begins with an item of a fresh list and with no refund of it open, and the look before
    a refund finds no release of the withdrawal waiting to be mined. -/
def Prompt (w : World) : Happening → Prop
  | .poll contract item =>
    w.Lists contract item ∧ ∀ t ∈ w.daemon.tasks, t.refunds item.txId = false
  | .turn i _ => ∀ p ∈ w.polls[i]?, ∀ id ∈ p.looksAt, w.Settled id
  | .daemon i _ => ∀ t ∈ w.daemon.tasks[i]?, ∀ id ∈ t.looksAt, w.Settled id
  | _ => True

instance (w : World) (contract : PayoutContract) (item : Item) :
    Decidable (w.Lists contract item) :=
  inferInstanceAs (Decidable (∃ l ∈ (relayerPayableWithdrawals w.daemon.stores).toOption,
    ∃ v ∈ l, contract.lists v = true ∧ contract.item v = item))

instance (w : World) (txId : String) : Decidable (w.Settled txId) :=
  inferInstanceAs (Decidable (∀ r ∈ w.base.mempool, r.txId ≠ txId))

instance (w : World) : ∀ h : Happening, Decidable (w.Prompt h)
  | .poll contract item => inferInstanceAs (Decidable
      (w.Lists contract item ∧ ∀ t ∈ w.daemon.tasks, t.refunds item.txId = false))
  | .turn i _ => inferInstanceAs (Decidable (∀ p ∈ w.polls[i]?, ∀ id ∈ p.looksAt, w.Settled id))
  | .daemon i _ =>
    inferInstanceAs (Decidable (∀ t ∈ w.daemon.tasks[i]?, ∀ id ∈ t.looksAt, w.Settled id))
  | .block _ => inferInstanceAs (Decidable True)
  | .rebuild _ => inferInstanceAs (Decidable True)
  | .daemonRestart => inferInstanceAs (Decidable True)
  | .relayerRestart _ => inferInstanceAs (Decidable True)
  | .remember _ => inferInstanceAs (Decidable True)
  | .mine _ _ => inferInstanceAs (Decidable True)
  | .drop _ => inferInstanceAs (Decidable True)
  | .execute _ => inferInstanceAs (Decidable True)
  | .cancel _ => inferInstanceAs (Decidable True)

end World

/-- The daemon has refunded `id`, and a contract has released it. -/
def PaidTwice (w : World) (id : String) : Prop :=
  .minted id ∈ w.daemon.stores.events ∧ ∃ r ∈ w.base.released, r.txId = id

/-! ## A release that is mined late -/

def sampleConfig : RelayerConfig := ⟨some "0xbridge", none, 1, true⟩

/-- A withdrawal of 5 units of qETH. -/
def sampleBurn : Burn := ⟨"qETH", 5, "0xa11cea11cea11cea11cea11cea11cea11cea11ce", [7], "alice"⟩

def sampleItem : Item := ⟨"07", sampleBurn.destination, 5, "qETH"⟩

/-- A poll that fails in its submission, and reports it. -/
def failedPoll (i : ℕ) (sent : Sent) : List Happening :=
  [.poll .rougeBridge sampleItem, .turn i {}, .turn i { sent }] ++
    (match sent with
      | .hash _ => [.turn i { receipt := .error "timed out" }]
      | _ => []) ++
    [.turn i {}, .turn i { called := .made }]

/-- The first release is submitted and not mined in time; the next four polls cannot replace it.
    After the fifth report the relayer asks for a refund. -/
def fiveFailures : List Happening :=
  .block [(sampleBurn, true)] :: failedPoll 0 (.hash "0xfee") ++
    [1, 2, 3, 4].flatMap fun i => failedPoll i (.refused "replacement transaction underpriced")

/-- The look at the flag, the refund, and the answer of the daemon. -/
def theRefund : List Happening :=
  [.turn 4 {}, .turn 4 { called := .made }, .daemon 0 quietReply, .daemon 0 quietReply,
    .daemon 0 quietReply, .daemon 0 quietReply, .turn 4 {}]

theorem stuck_release_pays :
    ¬ ∀ (cfg : RelayerConfig) (s : Settings) (c : Chains) (hs : List Happening) (id : String),
      cfg.autoRefund = true → ¬ PaidTwice (Runs.run (World.step cfg s c) {} hs) id := by
  intro h
  refine h sampleConfig quietSettings quietChains (fiveFailures ++ theRefund ++ [.mine 0 .pays])
    "07" rfl ⟨?_, ?_⟩
  · decide +kernel
  · decide +kernel

/-! ## What a poll can do -/

namespace Poll

/-- The poll has made its refund call, or is over. -/
def past : Poll → Bool
  | .evm _ (.refunding _) => true
  | .evm _ (.done _) => true
  | .xrge _ (.refunding _) => true
  | .xrge _ (.done _) => true
  | _ => false

/-- The poll is about to ask for a refund of what it has looked at. -/
def ready : Poll → Bool
  | .evm _ .refund => true
  | _ => false

theorem past_of_not_inFlight {p : Poll} (h : p.inFlight = false) : p.past = true := by
  cases p with
  | evm item phase => cases phase <;> first | rfl | cases h
  | xrge item phase => cases phase <;> first | rfl | cases h

theorem ready_eq_false_of_past {p : Poll} (h : p.past = true) : p.ready = false := by
  cases p with
  | evm item phase => cases phase <;> first | rfl | cases h
  | xrge item phase => rfl

/-- A poll that is ready is in flight. -/
theorem inFlight_of_ready {p : Poll} (h : p.ready = true) : p.inFlight = true := by
  cases p with
  | evm item phase => cases phase <;> first | rfl | cases h
  | xrge item phase => cases h

end Poll

/-- A request that is not a refund. -/
def Request.refundOf : Request → Option String
  | .refund txId => some txId
  | _ => none

/-- What a move of the poll `p` can be: a turn without a submission and without a refund, a
    submission, the look before a refund, or the refund call. -/
inductive Poll.Moves (rougeBridgeId : String → String) (b : Base) (p : Poll) (mv : Move Poll) : Prop
  | quiet (hb : mv.broadcast = none) (hr : mv.request.bind Request.refundOf = none)
      (hready : mv.phase.ready = false) (hpast : p.past = true → mv.phase.past = true)
      (hflight : mv.phase.inFlight = true → p.inFlight = true)
  | sends (r : Release) (hb : mv.broadcast = some r) (hid : r.txId = p.item.txId)
      (hc : r.contract = p.contract) (hr : mv.request = none) (hready : mv.phase.ready = false)
      (hpast : p.past = false) (hnot : p.ready = false) (hflight : p.inFlight = true)
  | looks (hp : p.looksAt = some p.item.txId) (hb : mv.broadcast = none) (hr : mv.request = none)
      (hflag : b.flagged rougeBridgeId p.contract p.item.txId = false) (hpast : p.past = false)
      (hflight : p.inFlight = true) (hc : p.contract = .rougeBridge)
  | asks (hp : p.ready = true ∨ p.contract = .vault) (hb : mv.broadcast = none)
      (hr : mv.request.bind Request.refundOf = some p.item.txId)
      (hpast : p.past = false) (hnext : mv.phase.past = true) (hflight : p.inFlight = true)

section Moves

variable {cfg : RelayerConfig} {rougeBridgeId : String → String} {d : Daemon} {b : Base}
  {m : Memory} {a : Answer}

theorem Poll.move_item (p : Poll) :
    (p.move cfg rougeBridgeId d b m a).phase.item = p.item ∧
      (p.move cfg rougeBridgeId d b m a).phase.contract = p.contract := by
  cases p with
  | evm item phase => exact ⟨rfl, rfl⟩
  | xrge item phase => exact ⟨rfl, rfl⟩

/-- A turn of a poll that has not asked for a refund. -/
theorem Poll.Moves.turn {p : Poll} {mv : Move Poll} (hpast : p.past = false)
    (hflight : p.inFlight = true) (hb : mv.broadcast = none)
    (hr : mv.request.bind Request.refundOf = none) (hready : mv.phase.ready = false) :
    p.Moves rougeBridgeId b mv :=
  .quiet hb hr hready (fun h => absurd (hpast.symm.trans h) Bool.false_ne_true) fun _ => hflight

/-- A failed submission leads to a further attempt or to a failure, never to a refund. -/
theorem nextAttempt_ready (item : Item) (attempt : ℕ) (lastErr : String) :
    (Poll.evm item (nextAttempt cfg attempt lastErr)).ready = false := by
  rw [nextAttempt]
  split <;> rfl

theorem EvmPhase.move_moves (item : Item) (phase : EvmPhase) :
    (Poll.evm item phase).Moves rougeBridgeId b
      ((Poll.evm item phase).move cfg rougeBridgeId d b m a) := by
  rw [Poll.move]
  cases phase with
  | send attempt lastErr =>
    rw [EvmPhase.move]
    split
    · exact .sends _ rfl rfl rfl rfl rfl rfl rfl rfl
    · exact .sends _ rfl rfl rfl rfl (nextAttempt_ready _ _ _) rfl rfl rfl
    · exact .turn rfl rfl rfl rfl (nextAttempt_ready _ _ _)
  | report error =>
    rw [EvmPhase.move, reportFailure]
    split
    · refine .turn rfl rfl rfl rfl ?_
      dsimp only
      split <;> rfl
    · exact .turn rfl rfl rfl rfl rfl
    · exact .turn rfl rfl rfl rfl rfl
  | refundCheck =>
    rw [EvmPhase.move]
    split
    · exact .turn rfl rfl rfl rfl rfl
    · split
      · exact .turn rfl rfl rfl rfl rfl
      · next hflag => exact .looks rfl rfl rfl (Bool.eq_false_iff.2 hflag) rfl rfl rfl
  | refund =>
    rw [EvmPhase.move, call]
    split
    · exact .asks (.inl rfl) rfl rfl rfl rfl rfl
    · exact .asks (.inl rfl) rfl rfl rfl rfl rfl
    · exact .turn rfl rfl rfl rfl rfl
  | refunding k =>
    rw [EvmPhase.move]
    split <;> exact .quiet rfl rfl rfl (fun _ => rfl) fun _ => rfl
  | done outcome => exact .quiet rfl rfl rfl (fun _ => rfl) fun h => h
  | _ =>
    -- nothing is submitted and no refund is asked for, whatever the answer
    simp only [EvmPhase.move, applyReconciliation, call]
    repeat' split
    all_goals exact .turn rfl rfl rfl rfl rfl

theorem XrgePhase.move_moves (item : Item) (phase : XrgePhase) :
    (Poll.xrge item phase).Moves rougeBridgeId b
      ((Poll.xrge item phase).move cfg rougeBridgeId d b m a) := by
  rw [Poll.move]
  cases phase with
  | release =>
    rw [XrgePhase.move]
    split
    · exact .sends _ rfl rfl rfl rfl rfl rfl rfl rfl
    · exact .sends _ rfl rfl rfl rfl rfl rfl rfl rfl
    · exact .turn rfl rfl rfl rfl rfl
  | refund =>
    rw [XrgePhase.move, call]
    split
    · exact .asks (.inr rfl) rfl rfl rfl rfl rfl
    · exact .asks (.inr rfl) rfl rfl rfl rfl rfl
    · exact .turn rfl rfl rfl rfl rfl
  | refunding k =>
    rw [XrgePhase.move]
    split <;> exact .quiet rfl rfl rfl (fun _ => rfl) fun _ => rfl
  | done outcome => exact .quiet rfl rfl rfl (fun _ => rfl) fun h => h
  | _ =>
    simp only [XrgePhase.move, reportFailure, call]
    repeat' split
    all_goals exact .turn rfl rfl rfl rfl rfl

theorem Poll.move_moves (p : Poll) :
    p.Moves rougeBridgeId b (p.move cfg rougeBridgeId d b m a) := by
  cases p with
  | evm item phase => exact EvmPhase.move_moves item phase
  | xrge item phase => exact XrgePhase.move_moves item phase

end Moves

/-! ## What the daemon can do -/

/-- The records `l'` are those of `l`, with the same ids and tokens, and possibly more. -/
structure Grows (l l' : List PendingWithdrawal) : Prop where
  nodup : (l.map PendingWithdrawal.txId).Nodup → (l'.map PendingWithdrawal.txId).Nodup
  record : ∀ i v, WithdrawStore.get l i = some v →
    ∃ v', WithdrawStore.get l' i = some v' ∧ v'.txId = v.txId ∧ v'.tokenSymbol = v.tokenSymbol
  symbols : (∀ v ∈ l, isXrgeWithdrawal v = true → Text.eqIgnoreCase v.tokenSymbol "XRGE" = true) →
    ∀ v ∈ l', isXrgeWithdrawal v = true → Text.eqIgnoreCase v.tokenSymbol "XRGE" = true

/-- A hash is no text that starts with `xrge:`. -/
theorem Burn.canonicalToken_of_prefix (b : Burn) (h : "xrge:".toList <+: b.txId.toList) :
    b.canonicalToken = "XRGE" := by
  have hdigit (n : Fin 16) : Nat.digitChar n ≠ 'x' := by
    revert n
    decide
  have hxrge : "xrge:".toList = ['x', 'r', 'g', 'e', ':'] := by decide +kernel
  by_contra hne
  rw [hxrge, Burn.txId, if_neg hne, String.toList_append, String.toList_empty, List.nil_append,
    bytesToHex, String.toList_ofList] at h
  cases hid : b.rougechainTxId with
  | nil =>
    rw [hid] at h
    exact absurd h (by decide)
  | cons n l =>
    rw [hid, List.flatMap_cons, byteToHex] at h
    exact hdigit ⟨n.toNat / 16, by have := n.toNat_lt; omega⟩ (List.cons_prefix_cons.1 h).1.symm

namespace Grows

variable {l l₁ l₂ : List PendingWithdrawal}

theorem refl (l : List PendingWithdrawal) : Grows l l := ⟨id, fun _ v h => ⟨v, h, rfl, rfl⟩, id⟩

theorem trans (h₁ : Grows l l₁) (h₂ : Grows l₁ l₂) : Grows l l₂ where
  nodup := h₂.nodup ∘ h₁.nodup
  record i v hv := by
    obtain ⟨v₁, hv₁, hid₁, hsym₁⟩ := h₁.record i v hv
    obtain ⟨v₂, hv₂, hid₂, hsym₂⟩ := h₂.record i v₁ hv₁
    exact ⟨v₂, hv₂, hid₂.trans hid₁, hsym₂.trans hsym₁⟩
  symbols := h₂.symbols ∘ h₁.symbols

/-- A change of one record that keeps its id and its token. -/
theorem update {f : PendingWithdrawal → PendingWithdrawal} (txId : String)
    (hid : ∀ w, (f w).txId = w.txId) (hsym : ∀ w, (f w).tokenSymbol = w.tokenSymbol) :
    Grows l (WithdrawStore.update l txId f) where
  nodup := WithdrawStore.nodup_update hid
  record i v hv := by
    rw [WithdrawStore.get_update hid, hv]
    split
    · exact ⟨f v, rfl, hid v, hsym v⟩
    · exact ⟨v, rfl, rfl, rfl⟩
  symbols h := by
    refine WithdrawStore.forall_mem_update h fun w hw => ?_
    rw [isXrgeWithdrawal, hid, hsym]
    exact hw

theorem recordAttempt {txId : String} {error : Option String}
    (h : WithdrawStore.recordAttempt l txId error = .ok l₁) : Grows l l₁ := by
  rw [WithdrawStore.recordAttempt] at h
  split at h
  · cases h
  · obtain rfl := Except.ok.inj h
    exact update txId (fun _ => rfl) fun _ => rfl

/-- The record of a burn has the id of an XRGE withdrawal only when it is one. -/
theorem burn (b : Burn) : Grows l (b.record l) := by
  have hmem : ∀ v ∈ b.record l, v ∈ l ∨ v.txId = b.txId ∧ v.tokenSymbol = b.canonicalToken := by
    rw [Burn.record]
    split
    · exact fun v hv => .inl hv
    · rw [WithdrawStore.add]
      split
      · exact fun v hv => .inl hv
      · intro v hv
        rcases List.mem_append.1 hv with hv | hv
        · exact .inl hv
        · obtain rfl := List.mem_singleton.1 hv
          exact .inr ⟨rfl, rfl⟩
  refine ⟨fun h => ?_, fun i v hv => ⟨v, ?_, rfl, rfl⟩, fun h v hv hxrge => ?_⟩
  · rw [Burn.record]
    split
    · exact h
    · exact WithdrawStore.nodup_add h
  · rw [Burn.record]
    split
    · exact hv
    · exact WithdrawStore.get_add hv
  · rcases hmem v hv with hold | ⟨hid, hsym⟩
    · exact h v hold hxrge
    · rw [isXrgeWithdrawal, Bool.or_eq_true, hid, decide_eq_true_eq] at hxrge
      rcases hxrge with hxrge | hprefix
      · exact hxrge
      · rw [hsym, b.canonicalToken_of_prefix hprefix]
        decide +kernel

theorem recordBurns (burns : List (Burn × Bool)) : Grows l (Bridge.recordBurns l burns) := by
  induction burns generalizing l with
  | nil => exact refl l
  | cons x burns ih =>
    refine trans ?_ ih
    dsimp only
    split
    · exact burn x.1
    · exact refl l

end Grows

/-- A refund of `id` after the look at the contract. -/
def Task.looked (id : String) : Task → Bool
  | .check txId _ => txId = id
  | .insert txId _ => txId = id
  | .mint txId _ => txId = id
  | .rollback txId _ => txId = id
  | _ => false

/-- A refund of `id` that has written its key. -/
def Task.mints (id : String) : Task → Bool
  | .mint txId _ => txId = id
  | _ => false

theorem Task.refunds_of_looked {id : String} {t : Task} (h : t.looked id = true) :
    t.refunds id = true := by
  cases t with
  | check => exact h
  | insert => exact h
  | mint => exact h
  | rollback => exact h
  | _ => cases h

theorem Task.looked_of_mints {id : String} {t : Task} (h : t.mints id = true) :
    t.looked id = true := by
  cases t with
  | mint => exact h
  | _ => cases h

/-- A task that is no refund of `id` is none at any point. -/
theorem Task.of_not_refunds {id : String} {t : Task} (h : t.refunds id = false) :
    t ≠ .start (.refund id) ∧ (∀ v, t ≠ .vault id v) ∧ t.looked id ≠ true := by
  refine ⟨?_, ?_, fun hl => Bool.eq_false_iff.1 h (refunds_of_looked hl)⟩
  · rintro rfl
    exact Bool.eq_false_iff.1 h (decide_eq_true rfl)
  · rintro v rfl
    exact Bool.eq_false_iff.1 h (decide_eq_true rfl)

/-- What a segment does to the refunds of `id`: nothing; it ends one; it begins one, with a look at
    the vault for XRGE only; the look finds nothing; the refund goes on; or it mints. -/
inductive Task.Advances (id : String) (x : Stores) (r : Reply) (t : Task) (x' : Stores)
    (t' : Task) : Prop
  | other (ht : t.refunds id = false) (ht' : t'.refunds id = false)
      (hevents : x'.events.count (.minted id) = x.events.count (.minted id))
      (hkey : refundKey id ∈ x.claims → refundKey id ∈ x'.claims)
  | ends (ht : t.refunds id = true) (ht' : t'.refunds id = false)
      (hevents : x'.events.count (.minted id) = x.events.count (.minted id))
  | begins (v : PendingWithdrawal) (ht : t = .start (.refund id)) (hx : x' = x)
      (hv : WithdrawStore.get x.withdrawals id = some v)
      (ht' : t' = if Text.eqIgnoreCase v.tokenSymbol "XRGE" then .vault id v else .check id v)
  | looks (v : PendingWithdrawal) (ht : t = .vault id v) (hx : x' = x) (hr : r.vault = .ok false)
      (ht' : t' = .check id v)
  | goes (ht : t.looked id = true) (ht' : t'.looked id = true)
      (hevents : x'.events = x.events) (hkey : t'.mints id = true → refundKey id ∈ x'.claims)
  | mints (ht : t.mints id = true) (ht' : t'.refunds id = false)
      (hevents : x'.events = x.events ++ [.minted id]) (hclaims : x'.claims = x.claims)

section Daemon

variable {s : Settings} {c : Chains} {x : Stores} {r : Reply} {id : String}

theorem startFulfill_refunds (rail : Rail) (txId : String) (payout : Option String) :
    (startFulfill s x rail txId payout).refunds id = false := by
  rw [startFulfill]
  split
  · rfl
  · split
    · rfl
    · cases rail with
      | evm => rfl
      | xrge => dsimp only; split <;> rfl
      | btc =>
        dsimp only
        split
        · rfl
        · split <;> rfl

theorem startRefund_advances (txId : String) :
    Task.Advances id x r (.start (.refund txId)) x (startRefund s x txId) := by
  by_cases hid : txId = id
  · subst hid
    have hopen : Task.refunds txId (.start (.refund txId)) = true := decide_eq_true rfl
    rw [startRefund]
    split
    · exact .ends hopen rfl rfl
    · next v hv =>
      split
      · exact .ends hopen rfl rfl
      · split
        · next hxrge =>
          split
          · exact .begins v rfl rfl hv (if_pos hxrge).symm
          · exact .ends hopen rfl rfl
        · next hxrge => exact .begins v rfl rfl hv (if_neg hxrge).symm
  · refine .other (decide_eq_false hid) ?_ rfl fun h => h
    rw [startRefund]
    split
    · rfl
    · split
      · rfl
      · split
        · split
          · exact decide_eq_false hid
          · rfl
        · exact decide_eq_false hid

theorem finishFulfill_advances (rail : Rail) (txId payout wallet : String) (tx : External)
    (record : PendingWithdrawal) :
    Task.Advances id x r (.verify rail txId payout wallet record)
      (finishFulfill x rail txId payout tx).1 (finishFulfill x rail txId payout tx).2 := by
  rw [finishFulfill]
  split
  · exact .other rfl rfl rfl fun h => h
  · exact .other rfl rfl rfl fun h => h
  · exact .other rfl rfl (by simp) fun h => h

theorem Task.run_grows (t : Task) : Grows x.withdrawals (t.run s c x r).1.withdrawals := by
  cases t with
  | start req =>
    cases req with
    | reportFailure txId error =>
      rw [Task.run]
      split
      · exact .refl _
      · next l hl => exact .recordAttempt hl
    | refund txId => exact .refl _
    | fulfill rail txId payout => exact .refl _
  | verify rail txId payout wallet record =>
    rw [Task.run]
    split
    · exact .refl _
    · rw [finishFulfill]
      split
      · exact .refl _
      · exact .refl _
      · next l hl =>
        obtain ⟨w, -, -, rfl⟩ := markPaid_eq_ok hl
        exact .update txId (fun _ => rfl) fun _ => rfl
  | vault txId v =>
    rw [Task.run]
    split
    · exact .update txId (fun _ => rfl) fun _ => rfl
    · exact .refl _
    · exact .refl _
  | check txId v =>
    rw [Task.run]
    split <;> exact .refl _
  | insert txId v => exact .refl _
  | mint txId v =>
    rw [Task.run]
    split
    · exact .update txId (fun _ => rfl) fun _ => rfl
    · exact .refl _
  | rollback txId e => exact .refl _
  | done response => exact .refl _

theorem Task.run_advances (t : Task) :
    t.Advances id x r (t.run s c x r).1 (t.run s c x r).2 := by
  cases t with
  | start req =>
    cases req with
    | reportFailure txId error =>
      rw [Task.run]
      split <;> exact .other rfl rfl rfl fun h => h
    | refund txId => exact startRefund_advances txId
    | fulfill rail txId payout =>
      exact .other rfl (startFulfill_refunds rail txId payout) rfl fun h => h
  | verify rail txId payout wallet record =>
    rw [Task.run]
    split
    · exact .other rfl rfl rfl fun h => h
    · exact finishFulfill_advances rail txId payout wallet _ record
  | vault txId v =>
    have hcount : (x.events ++ if (WithdrawStore.get x.withdrawals txId).isSome then
        [Event.settled txId] else []).count (.minted id) = x.events.count (.minted id) := by
      split <;> simp
    rw [Task.run]
    by_cases hid : txId = id
    · subst hid
      split
      · exact .ends (decide_eq_true rfl) rfl hcount
      · next hr => exact .looks v rfl rfl hr rfl
      · exact .ends (decide_eq_true rfl) rfl rfl
    · split
      · exact .other (decide_eq_false hid) rfl hcount fun h => h
      · exact .other (decide_eq_false hid) (decide_eq_false hid) rfl fun h => h
      · exact .other (decide_eq_false hid) rfl rfl fun h => h
  | check txId v =>
    rw [Task.run]
    by_cases hid : txId = id
    · subst hid
      split
      · exact .ends (decide_eq_true rfl) rfl rfl
      · exact .goes (decide_eq_true rfl) (decide_eq_true rfl) rfl fun h => by cases h
    · split
      · exact .other (decide_eq_false hid) rfl rfl fun h => h
      · exact .other (decide_eq_false hid) (decide_eq_false hid) rfl fun h => h
  | insert txId v =>
    rw [Task.run]
    by_cases hid : txId = id
    · subst hid
      exact .goes (decide_eq_true rfl) (decide_eq_true rfl) rfl fun _ =>
        Std.ExtTreeSet.mem_insert_self
    · exact .other (decide_eq_false hid) (decide_eq_false hid) rfl fun h =>
        Std.ExtTreeSet.mem_insert.2 (.inr h)
  | mint txId v =>
    rw [Task.run]
    by_cases hid : txId = id
    · subst hid
      split
      · exact .mints (decide_eq_true rfl) rfl rfl rfl
      · exact .goes (decide_eq_true rfl) (decide_eq_true rfl) rfl fun h => by cases h
    · split
      · refine .other (decide_eq_false hid) rfl ?_ fun h => h
        simp [hid]
      · exact .other (decide_eq_false hid) (decide_eq_false hid) rfl fun h => h
  | rollback txId e =>
    rw [Task.run]
    by_cases hid : txId = id
    · exact .ends (decide_eq_true hid) rfl rfl
    · refine .other (decide_eq_false hid) rfl rfl fun h => Std.ExtTreeSet.mem_erase.2 ⟨?_, h⟩
      rw [Ne, Std.LawfulEqOrd.compare_eq_iff_eq]
      exact fun he => hid (refundKey_injective he)
  | done response => exact .other rfl rfl rfl fun h => h

end Daemon

/-! ## What the network can do -/

namespace Base

/-- The releases that may still pay, and those that have. -/
def entries (b : Base) : List Release := b.mempool ++ (b.timelock ++ b.released)

/-- There is no release of the withdrawal, and none can come without a new submission. -/
def Clear (b : Base) (id : String) : Prop := ∀ r ∈ b.entries, r.txId ≠ id

variable (rougeBridgeId : String → String) {b : Base}

/-- What happens to what was submitted: no release appears from nowhere, one that is queued or
    paid was flagged, and flags stay. -/
structure Settles (b b' : Base) : Prop where
  entries : ∀ r ∈ b'.entries, r ∈ b.entries
  paid : ∀ r ∈ b'.timelock ++ b'.released, r ∈ b.timelock ++ b.released ∨
    b'.flagged rougeBridgeId r.contract r.txId = true
  flags : ∀ c id, b.flagged rougeBridgeId c id = true → b'.flagged rougeBridgeId c id = true

theorem mem_entries {r : Release} :
    r ∈ b.entries ↔ r ∈ b.mempool ∨ r ∈ b.timelock ++ b.released := List.mem_append

/-- Releases go, or change places, and no flag changes. -/
theorem Settles.of_subset {b' : Base} (hpool : ∀ r ∈ b'.mempool, r ∈ b.mempool)
    (hmem : ∀ r ∈ b'.timelock ++ b'.released, r ∈ b.timelock ++ b.released)
    (hflags : b'.processed = b.processed) : Settles rougeBridgeId b b' where
  entries r hr := mem_entries.2 ((mem_entries.1 hr).imp (hpool r) (hmem r))
  paid r hr := .inl (hmem r hr)
  flags _ _ h := by rwa [flagged, hflags]

/-- A release leaves the mempool, is flagged, and waits or has paid. -/
theorem Settles.of_flag {b' : Base} {q : Release} (hq : q ∈ b.mempool)
    (hpool : ∀ r ∈ b'.mempool, r ∈ b.mempool)
    (hmem : ∀ r ∈ b'.timelock ++ b'.released, r ∈ b.timelock ++ b.released ∨ r = q)
    (hflags : b'.processed = (q.contract, l1TxId rougeBridgeId q.contract q.txId) :: b.processed) :
    Settles rougeBridgeId b b' where
  entries r hr := by
    rcases mem_entries.1 hr with hr | hr
    · exact mem_entries.2 (.inl (hpool r hr))
    · rcases hmem r hr with hr | rfl
      · exact mem_entries.2 (.inr hr)
      · exact mem_entries.2 (.inl hq)
  paid r hr := by
    refine (hmem r hr).imp_right ?_
    rintro rfl
    rw [flagged, hflags]
    exact decide_eq_true List.mem_cons_self
  flags _ _ h := by
    rw [flagged, hflags]
    exact decide_eq_true (List.mem_cons_of_mem _ (of_decide_eq_true h))

theorem Settles.drop (k : ℕ) : Settles rougeBridgeId b (b.drop k) :=
  .of_subset _ (fun _ h => List.mem_of_mem_eraseIdx h) (fun _ h => h) rfl

theorem Settles.cancel (k : ℕ) : Settles rougeBridgeId b (b.cancel k) :=
  .of_subset _ (fun _ h => h) (fun _ hr => List.mem_append.2
    ((List.mem_append.1 hr).imp_left fun h => List.mem_of_mem_eraseIdx h)) rfl

theorem Settles.execute (k : ℕ) : Settles rougeBridgeId b (b.execute k) := by
  rw [Base.execute]
  split
  · exact .of_subset _ (fun _ h => h) (fun _ h => h) rfl
  · next q hq =>
    refine .of_subset _ (fun _ h => h) (fun r hr => ?_) rfl
    rw [List.mem_append, List.mem_append, List.mem_singleton] at hr
    rcases hr with hr | hr | rfl
    · exact List.mem_append_left _ (List.mem_of_mem_eraseIdx hr)
    · exact List.mem_append_right _ hr
    · exact List.mem_append_left _ (List.mem_of_getElem? hq)

theorem Settles.mine (k : ℕ) (outcome : Mined) :
    Settles rougeBridgeId b (b.mine rougeBridgeId k outcome) := by
  rw [Base.mine]
  split
  · exact .of_subset _ (fun _ h => h) (fun _ h => h) rfl
  next q hq =>
  dsimp only
  split
  · exact .drop rougeBridgeId k
  cases outcome with
  | pays =>
    refine .of_flag _ (List.mem_of_getElem? hq) (fun _ h => List.mem_of_mem_eraseIdx h)
      (fun r hr => ?_) rfl
    rw [← List.append_assoc, List.mem_append, List.mem_singleton] at hr
    exact hr
  | queues =>
    refine .of_flag _ (List.mem_of_getElem? hq) (fun _ h => List.mem_of_mem_eraseIdx h)
      (fun r hr => ?_) rfl
    rw [List.mem_append, List.mem_append, List.mem_singleton] at hr
    rw [List.mem_append]
    tauto
  | reverts => exact .drop rougeBridgeId k

end Base

/-! ## The invariant -/

/-- The record of `id` is on the list of the contract. -/
def Listed (l : List PendingWithdrawal) (id : String) (contract : PayoutContract) : Prop :=
  ∃ v, WithdrawStore.get l id = some v ∧ contract.lists v = true

/-- The refunds of `id` that are open, and those that were made. -/
def World.refunds (w : World) (id : String) : ℕ :=
  w.daemon.tasks.countP (Task.refunds id) + w.daemon.stores.events.count (.minted id)

/-- What holds of one withdrawal all along. -/
structure RefundInv (rougeBridgeId : String → String) (id : String) (w : World) : Prop where
  nodup : (w.daemon.stores.withdrawals.map PendingWithdrawal.txId).Nodup
  symbols : ∀ v ∈ w.daemon.stores.withdrawals, isXrgeWithdrawal v = true →
    Text.eqIgnoreCase v.tokenSymbol "XRGE" = true
  entries : ∀ r ∈ w.base.entries, r.txId = id → Listed w.daemon.stores.withdrawals id r.contract
  flagged : ∀ r ∈ w.base.timelock ++ w.base.released, r.txId = id →
    w.base.flagged rougeBridgeId r.contract id = true
  polls : ∀ p ∈ w.polls, p.item.txId = id → p.inFlight = true →
    Listed w.daemon.stores.withdrawals id p.contract
  one : w.polls.countP (fun p => p.inFlight && p.item.txId == id) ≤ 1
  ready : ∀ p ∈ w.polls, p.item.txId = id → p.ready = true → w.base.Clear id
  single : w.refunds id ≤ 1
  past : 0 < w.refunds id → ∀ p ∈ w.polls, p.item.txId = id → p.past = true
  start : .start (.refund id) ∈ w.daemon.tasks →
    w.base.Clear id ∨ Listed w.daemon.stores.withdrawals id .vault
  vault : ∀ v, .vault id v ∈ w.daemon.tasks → Listed w.daemon.stores.withdrawals id .vault
  looked : (∃ t ∈ w.daemon.tasks, t.looked id = true) → w.base.Clear id
  minted : .minted id ∈ w.daemon.stores.events → w.base.Clear id
  held : (∃ t ∈ w.daemon.tasks, t.mints id = true) → refundKey id ∈ w.daemon.stores.claims
  key : .minted id ∈ w.daemon.stores.events → refundKey id ∈ w.daemon.stores.claims

section Inv

variable {rougeBridgeId : String → String} {id : String} {w : World}
  {l l' : List PendingWithdrawal}

theorem Listed.grow (h : Grows l l') {contract : PayoutContract} (hl : Listed l id contract) :
    Listed l' id contract := by
  obtain ⟨v, hv, hlists⟩ := hl
  obtain ⟨v', hv', hid, hsym⟩ := h.record id v hv
  refine ⟨v', hv', ?_⟩
  cases contract with
  | rougeBridge => rwa [PayoutContract.lists, hsym]
  | vault => rwa [PayoutContract.lists, isXrgeWithdrawal, hid, hsym]

/-- No record is on both lists. -/
theorem RefundInv.not_both (hw : RefundInv rougeBridgeId id w)
    (hb : Listed w.daemon.stores.withdrawals id .rougeBridge)
    (hv : Listed w.daemon.stores.withdrawals id .vault) : False := by
  obtain ⟨v, hget, hlists⟩ := hb
  obtain ⟨v', hget', hxrge⟩ := hv
  cases hget.symm.trans hget'
  have hmem : v ∈ w.daemon.stores.withdrawals := List.mem_of_find?_eq_some hget
  have hlower : Text.lower v.tokenSymbol = Text.lower "XRGE" :=
    beq_iff_eq.1 (hw.symbols v hmem hxrge)
  rw [PayoutContract.lists, Text.eqIgnoreCase, Text.eqIgnoreCase, hlower] at hlists
  exact absurd hlists (by decide +kernel)

/-- The flag of the contract on whose list the withdrawal is tells of all its releases. -/
theorem RefundInv.clear (hw : RefundInv rougeBridgeId id w) {contract : PayoutContract}
    (hl : Listed w.daemon.stores.withdrawals id contract) (hmem : w.Settled id)
    (hflag : w.base.flagged rougeBridgeId contract id = false) : w.base.Clear id := by
  intro r hr hid
  rcases Base.mem_entries.1 hr with hr' | hr'
  · exact hmem r hr' hid
  · have hr : r.contract = contract := by
      have hlr := hw.entries r hr hid
      generalize r.contract = c at hlr
      cases c <;> cases contract
      · rfl
      · exact (hw.not_both hlr hl).elim
      · exact (hw.not_both hl hlr).elim
      · rfl
    rw [← hr, hw.flagged r hr' hid] at hflag
    cases hflag

/-- A segment of the daemon that keeps the number of refunds, when what it leaves is in order. -/
theorem RefundInv.segment (hw : RefundInv rougeBridgeId id w) {x : Stores} {tasks : List Task}
    (hgrow : Grows w.daemon.stores.withdrawals x.withdrawals)
    (hcount : tasks.countP (Task.refunds id) + x.events.count (.minted id) ≤ w.refunds id)
    (hstart : .start (.refund id) ∈ tasks → .start (.refund id) ∈ w.daemon.tasks)
    (hvault : ∀ v, .vault id v ∈ tasks → Listed w.daemon.stores.withdrawals id .vault)
    (hlooked : (∃ t ∈ tasks, t.looked id = true) ∨ .minted id ∈ x.events → w.base.Clear id)
    (hkey : (∃ t ∈ tasks, t.mints id = true) ∨ .minted id ∈ x.events → refundKey id ∈ x.claims) :
    RefundInv rougeBridgeId id { w with daemon := ⟨x, tasks⟩ } :=
  { hw with
    nodup := hgrow.nodup hw.nodup
    symbols := hgrow.symbols hw.symbols
    entries := fun r hr hid => (hw.entries r hr hid).grow hgrow
    polls := fun p hp hid hf => (hw.polls p hp hid hf).grow hgrow
    single := Nat.le_trans hcount hw.single
    past := fun h => hw.past (Nat.lt_of_lt_of_le h hcount)
    start := fun h => (hw.start (hstart h)).imp_right (Listed.grow hgrow)
    vault := fun v h => (hvault v h).grow hgrow
    looked := fun h => hlooked (.inl h)
    minted := fun h => hlooked (.inr h)
    held := fun h => hkey (.inl h)
    key := fun h => hkey (.inr h) }

/-- The daemon changes, and no refund of the withdrawal is begun, taken further or made. -/
theorem RefundInv.steady (hw : RefundInv rougeBridgeId id w) {x : Stores} {tasks : List Task}
    (hgrow : Grows w.daemon.stores.withdrawals x.withdrawals)
    (hold : ∀ t ∈ tasks, t.refunds id = true → t ∈ w.daemon.tasks)
    (hcount : tasks.countP (Task.refunds id) ≤ w.daemon.tasks.countP (Task.refunds id))
    (hevents : x.events.count (.minted id) = w.daemon.stores.events.count (.minted id))
    (hkey : refundKey id ∈ w.daemon.stores.claims → refundKey id ∈ x.claims) :
    RefundInv rougeBridgeId id { w with daemon := ⟨x, tasks⟩ } := by
  have hminted : .minted id ∈ x.events → .minted id ∈ w.daemon.stores.events := by
    rw [← List.count_pos_iff, ← List.count_pos_iff, hevents]
    exact fun h => h
  refine hw.segment hgrow ?_ (fun h => hold _ h (decide_eq_true rfl))
    (fun v h => hw.vault v (hold _ h (decide_eq_true rfl))) ?_ ?_
  · rw [World.refunds, hevents]
    exact Nat.add_le_add_right hcount _
  · rintro (⟨u, hu, h⟩ | h)
    · exact hw.looked ⟨u, hold u hu (Task.refunds_of_looked h), h⟩
    · exact hw.minted (hminted h)
  · rintro (⟨u, hu, h⟩ | h)
    · exact hkey (hw.held ⟨u, hold u hu (Task.refunds_of_looked (Task.looked_of_mints h)), h⟩)
    · exact hkey (hw.key (hminted h))

/-- The records grow. -/
theorem RefundInv.grow (hw : RefundInv rougeBridgeId id w)
    (hl : Grows w.daemon.stores.withdrawals l) (degraded : Bool) :
    RefundInv rougeBridgeId id { w with daemon := { w.daemon with
      stores := { w.daemon.stores with withdrawals := l, degraded } } } :=
  hw.steady hl (fun _ h _ => h) le_rfl rfl fun h => h

/-- The network moves. -/
theorem RefundInv.settle (hw : RefundInv rougeBridgeId id w) {b : Base}
    (hb : Base.Settles rougeBridgeId w.base b) :
    RefundInv rougeBridgeId id { w with base := b } := by
  have hclear : w.base.Clear id → b.Clear id := fun h r hr => h r (hb.entries r hr)
  exact { hw with
    entries := fun r hr hid => hw.entries r (hb.entries r hr) hid
    flagged := fun r hr hid => by
      rcases hb.paid r hr with hr | hr
      · exact hb.flags _ _ (hw.flagged r hr hid)
      · exact hid ▸ hr
    ready := fun p hp hid hready => hclear (hw.ready p hp hid hready)
    start := fun h => (hw.start h).imp_left hclear
    looked := fun h => hclear (hw.looked h)
    minted := fun h => hclear (hw.minted h) }

/-- The relayer forgets its polls, or some of them. -/
theorem RefundInv.forget (hw : RefundInv rougeBridgeId id w) (m : Memory) :
    RefundInv rougeBridgeId id { w with polls := [], memory := m } :=
  { hw with
    polls := fun _ hp => absurd hp List.not_mem_nil
    one := Nat.zero_le _
    ready := fun _ hp => absurd hp List.not_mem_nil
    past := fun _ _ hp => absurd hp List.not_mem_nil }

/-- The daemon drops its tasks. -/
theorem RefundInv.restart (hw : RefundInv rougeBridgeId id w) :
    RefundInv rougeBridgeId id { w with daemon := { w.daemon with
      tasks := w.daemon.tasks.map fun _ => .done (.error "connection closed") } } := by
  have hnone : ∀ t ∈ w.daemon.tasks.map fun _ => Task.done (.error "connection closed"),
      t.refunds id ≠ true := by
    intro t ht
    obtain ⟨_, -, rfl⟩ := List.mem_map.1 ht
    exact Bool.false_ne_true
  refine hw.steady (.refl _) (fun t ht h => absurd h (hnone t ht)) ?_ rfl fun h => h
  rw [List.countP_eq_zero.2 hnone]
  exact Nat.zero_le _

/-- A request arrives that is no refund of the withdrawal. -/
theorem RefundInv.request (hw : RefundInv rougeBridgeId id w) {req : Request}
    (hreq : req.refundOf ≠ some id) :
    RefundInv rougeBridgeId id { w with daemon := { w.daemon with
      tasks := w.daemon.tasks ++ [.start req] } } := by
  have hnot : Task.refunds id (.start req) = false := by
    cases req with
    | refund txId => exact decide_eq_false fun h => hreq (congrArg some h)
    | reportFailure => rfl
    | fulfill => rfl
  refine hw.steady (.refl _) (fun t ht h => ?_) ?_ rfl fun h => h
  · refine (List.mem_append.1 ht).resolve_right fun ht => ?_
    rw [List.mem_singleton.1 ht, hnot] at h
    cases h
  · rw [List.countP_append, List.countP_singleton, hnot]
    exact le_rfl

/-- A refund is asked for, when nothing of it is open and no poll can submit any more. -/
theorem RefundInv.ask (hw : RefundInv rougeBridgeId id w)
    (hnone : w.refunds id = 0)
    (hpast : ∀ p ∈ w.polls, p.item.txId = id → p.past = true)
    (hclear : w.base.Clear id ∨ Listed w.daemon.stores.withdrawals id .vault) :
    RefundInv rougeBridgeId id { w with daemon := { w.daemon with
      tasks := w.daemon.tasks ++ [.start (.refund id)] } } := by
  have hcount : World.refunds { w with daemon := { w.daemon with
      tasks := w.daemon.tasks ++ [.start (.refund id)] } } id = w.refunds id + 1 := by
    have hopen : Task.refunds id (.start (.refund id)) = true := decide_eq_true rfl
    rw [World.refunds, List.countP_append, List.countP_singleton, if_pos hopen, World.refunds,
      Nat.add_right_comm]
  have hmem : ∀ t ∈ w.daemon.tasks ++ [Task.start (.refund id)], t ≠ .start (.refund id) →
      t ∈ w.daemon.tasks := by
    intro t ht h
    exact (List.mem_append.1 ht).resolve_right fun h' => h (List.mem_singleton.1 h')
  exact { hw with
    single := by rw [hcount, hnone]
    past := fun _ => hpast
    start := fun _ => hclear
    vault := fun v h => hw.vault v (hmem _ h (by simp))
    looked := fun ⟨t, ht, h⟩ => hw.looked ⟨t, hmem t ht (by rintro rfl; cases h), h⟩
    held := fun ⟨t, ht, h⟩ => hw.held ⟨t, hmem t ht (by rintro rfl; cases h), h⟩ }

/-- A release is broadcast: of another withdrawal, or when no refund relies on its absence. -/
theorem RefundInv.broadcast (hw : RefundInv rougeBridgeId id w) {r : Release}
    (hr : r.txId = id → Listed w.daemon.stores.withdrawals id r.contract ∧
      (∀ p ∈ w.polls, p.item.txId = id → p.ready = false) ∧ w.refunds id = 0) :
    RefundInv rougeBridgeId id { w with base := { w.base with
      mempool := w.base.mempool ++ [r] } } := by
  have hmem : ∀ q ∈ ({ w.base with mempool := w.base.mempool ++ [r] } : Base).entries,
      q ∈ w.base.entries ∨ q = r := by
    intro q hq
    rw [Base.entries, List.append_assoc, List.mem_append, List.mem_append,
      List.mem_singleton] at hq
    rcases hq with hq | rfl | hq
    · exact .inl (Base.mem_entries.2 (.inl hq))
    · exact .inr rfl
    · exact .inl (Base.mem_entries.2 (.inr hq))
  have hclear : (r.txId ≠ id) → w.base.Clear id →
      ({ w.base with mempool := w.base.mempool ++ [r] } : Base).Clear id := by
    intro hne h q hq
    rcases hmem q hq with hq | rfl
    · exact h q hq
    · exact hne
  have hopen : r.txId = id → ∀ t ∈ w.daemon.tasks, t.refunds id = false := fun hid t ht =>
    Bool.eq_false_iff.2 (List.countP_eq_zero.1 (Nat.add_eq_zero_iff.1 (hr hid).2.2).1 t ht)
  exact { hw with
    entries := fun q hq hid => by
      rcases hmem q hq with hq | rfl
      · exact hw.entries q hq hid
      · exact (hr hid).1
    ready := fun p hp hid hready => hclear (fun h => by
      rw [(hr h).2.1 p hp hid] at hready
      cases hready) (hw.ready p hp hid hready)
    start := fun h => (hw.start h).imp_left (hclear fun hid =>
      Bool.eq_false_iff.1 (hopen hid _ h) (decide_eq_true rfl))
    looked := fun ⟨t, ht, h⟩ => hclear (fun hid =>
      Bool.eq_false_iff.1 (hopen hid t ht) (Task.refunds_of_looked h)) (hw.looked ⟨t, ht, h⟩)
    minted := fun h => hclear (fun hid =>
      List.count_eq_zero.1 (Nat.add_eq_zero_iff.1 (hr hid).2.2).2 h) (hw.minted h) }

/-- A poll goes on to `p'`. -/
theorem RefundInv.turn (hw : RefundInv rougeBridgeId id w) {i : ℕ} {p p' : Poll} {m : Memory}
    (hp : w.polls[i]? = some p) (hitem : p'.item = p.item) (hcontract : p'.contract = p.contract)
    (hflight : p'.inFlight = true → p.inFlight = true) (hpast : p.past = true → p'.past = true)
    (hready : p.item.txId = id → p'.ready = true → w.base.Clear id) :
    RefundInv rougeBridgeId id { w with polls := w.polls.set i p', memory := m } := by
  have hmem := List.mem_of_getElem? hp
  exact { hw with
    polls := Runs.forall_mem_set hw.polls fun hid hf => by
      rw [hitem] at hid
      rw [hcontract]
      exact hw.polls p hmem hid (hflight hf)
    one := by
      have hcount := Runs.countP_set_add (fun p => p.inFlight && p.item.txId == id) p' hp
      have hle : (p'.inFlight && p'.item.txId == id).toNat ≤
          (p.inFlight && p.item.txId == id).toNat := by
        rw [hitem]
        refine Bool.toNat_le_toNat fun h => ?_
        rw [Bool.and_eq_true] at h ⊢
        exact ⟨hflight h.1, h.2⟩
      have hone := hw.one
      show (w.polls.set i p').countP _ ≤ 1
      omega
    ready := Runs.forall_mem_set hw.ready fun hid h => hready (hitem ▸ hid) h
    past := fun h => Runs.forall_mem_set (hw.past h) fun hid =>
      hpast (hw.past h p hmem (hitem ▸ hid)) }

/-- No other poll of the withdrawal is in flight. -/
theorem RefundInv.alone (hw : RefundInv rougeBridgeId id w) {i : ℕ} {p : Poll}
    (hp : w.polls[i]? = some p) (hid : p.item.txId = id) (hflight : p.inFlight = true) (p' : Poll) :
    ∀ q ∈ w.polls.set i p', q = p' ∨ (q.item.txId = id → q.inFlight = false) := by
  have hpred : (p.inFlight && p.item.txId == id) = true := by
    rw [hflight, hid, beq_self_eq_true]
    rfl
  intro q hq
  refine (Runs.eq_or_of_countP_le_one hw.one hp hpred p' q hq).imp_right fun hnot hqid => ?_
  rwa [hqid, beq_self_eq_true, Bool.and_true] at hnot

/-- A poll that has not asked for a refund: nothing of one is open. -/
theorem RefundInv.refunds_eq_zero (hw : RefundInv rougeBridgeId id w) {p : Poll} (hp : p ∈ w.polls)
    (hid : p.item.txId = id) (hpast : p.past = false) : w.refunds id = 0 := by
  by_contra hne
  rw [hw.past (Nat.pos_of_ne_zero hne) p hp hid] at hpast
  cases hpast

theorem RefundInv.requests (hw : RefundInv rougeBridgeId id w) {req : Option Request}
    (hreq : req.bind Request.refundOf ≠ some id) :
    RefundInv rougeBridgeId id { w with daemon := { w.daemon with
      tasks := w.daemon.tasks ++ (req.map Task.start).toList } } := by
  cases req with
  | none =>
    rw [Option.map_none, Option.toList_none, List.append_nil]
    exact hw
  | some req => exact hw.request hreq

/-- The daemon after the requests of a move. -/
theorem World.requested_eq {P : Type} (w : World) (txId : String) (mv : Move P) :
    ∃ l, Grows w.daemon.stores.withdrawals l ∧ w.requested txId mv =
      ⟨{ w.daemon.stores with withdrawals := l },
        w.daemon.tasks ++ (mv.request.map Task.start).toList⟩ := by
  rw [World.requested]
  cases mv.reported with
  | none => exact ⟨_, .refl _, rfl⟩
  | some error =>
    dsimp only
    split
    · next l hl => exact ⟨l, .recordAttempt hl, rfl⟩
    · exact ⟨_, .refl _, rfl⟩

/-- A poll takes a turn. -/
theorem RefundInv.moved (hw : RefundInv rougeBridgeId id w) {i : ℕ} {p : Poll} {mv : Move Poll}
    (hp : w.polls[i]? = some p) (hmv : p.Moves rougeBridgeId w.base mv)
    (hitem : mv.phase.item = p.item) (hcontract : mv.phase.contract = p.contract)
    (hlook : ∀ id ∈ p.looksAt, w.Settled id) :
    RefundInv rougeBridgeId id (w.moved i p.item.txId mv) := by
  obtain ⟨l, hl, hreq⟩ := w.requested_eq p.item.txId mv
  have hmem := List.mem_of_getElem? hp
  rw [World.moved, hreq]
  cases hmv with
  | quiet hb hr hready hpast hflight =>
    rw [hb, Option.toList_none, List.append_nil]
    have hturn := hw.turn (m := mv.memory) hp hitem hcontract hflight hpast fun _ h => by
      rw [hready] at h
      cases h
    exact (hturn.grow hl _).requests (by rw [hr]; exact (Option.some_ne_none id).symm)
  | sends r hb hid hc hr hready hpast hnot hflight =>
    rw [hb, hr, Option.map_none, Option.toList_none, List.append_nil, Option.toList_some]
    have hturn := hw.turn (m := mv.memory) hp hitem hcontract (fun _ => hflight)
      (fun h => by rw [hpast] at h; cases h) fun _ h => by
        rw [hready] at h
        cases h
    refine (hturn.grow hl w.daemon.stores.degraded).broadcast fun hrid => ?_
    have hpid : p.item.txId = id := hid.symm.trans hrid
    refine ⟨?_, fun q hq hqid => ?_, hw.refunds_eq_zero hmem hpid hpast⟩
    · rw [hc]
      exact (hw.polls p hmem hpid hflight).grow hl
    · rcases hw.alone hp hpid hflight mv.phase q hq with rfl | hq
      · exact hready
      · exact Bool.eq_false_iff.2 fun hrq =>
          Bool.eq_false_iff.1 (hq hqid) (Poll.inFlight_of_ready hrq)
  | looks hlooks hb hr hflag hpast hflight hc =>
    rw [hb, hr, Option.map_none, Option.toList_none, Option.toList_none, List.append_nil,
      List.append_nil]
    have hturn := hw.turn (m := mv.memory) hp hitem hcontract (fun _ => hflight)
      (fun h => by rw [hpast] at h; cases h) fun hid _ =>
        hw.clear (hw.polls p hmem hid hflight) (hid ▸ hlook _ hlooks) (hid ▸ hflag)
    exact hturn.grow hl _
  | asks hready hb hr hpast hnext hflight =>
    rw [hb, Option.toList_none, List.append_nil]
    have hturn := hw.turn (m := mv.memory) hp hitem hcontract (fun _ => hflight) (fun _ => hnext)
      fun _ h => by
        rw [Poll.ready_eq_false_of_past hnext] at h
        cases h
    have hgrow := hturn.grow hl w.daemon.stores.degraded
    obtain ⟨req, hreq', hof⟩ := Option.bind_eq_some_iff.1 hr
    cases req with
    | refund txId =>
      obtain rfl := Option.some.inj hof
      rw [hreq', Option.map_some, Option.toList_some]
      by_cases hid : p.item.txId = id
      · subst hid
        refine hgrow.ask (hw.refunds_eq_zero hmem rfl hpast) (fun q hq hqid => ?_) ?_
        · rcases hw.alone hp rfl hflight mv.phase q hq with rfl | hq
          · exact hnext
          · exact Poll.past_of_not_inFlight (hq hqid)
        · rcases hready with hready | hvault
          · exact .inl (hw.ready p hmem rfl hready)
          · exact .inr (hvault ▸ (hw.polls p hmem rfl hflight).grow hl)
      · exact hgrow.request fun h => hid (Option.some.inj h)
    | reportFailure => cases hof
    | fulfill => cases hof

/-- A poll begins, with an item of a fresh list. -/
theorem RefundInv.begin (hw : RefundInv rougeBridgeId id w) {contract : PayoutContract}
    {item : Item} {p : Poll} (hlists : w.Lists contract item)
    (hopen : ∀ t ∈ w.daemon.tasks, t.refunds item.txId = false) (hitem : p.item = item)
    (hcontract : p.contract = contract) (hready : p.ready = false)
    (hflight : w.inFlight item.txId = false) :
    RefundInv rougeBridgeId id { w with polls := w.polls ++ [p] } := by
  obtain ⟨l, hl, v, hv, hlv, rfl⟩ := hlists
  have hid : (contract.item v).txId = v.txId := by cases contract <;> rfl
  rw [hid] at hopen hflight
  rw [relayerPayableWithdrawals] at hl
  split at hl
  · cases hl
  obtain rfl := Option.some.inj hl
  obtain ⟨hpending, hclaim⟩ := List.mem_filter.1 hv
  have hmem : v ∈ w.daemon.stores.withdrawals := (List.mem_filter.1 hpending).1
  have hpid : p.item.txId = v.txId := by rw [hitem, hid]
  -- nothing of a refund of this withdrawal is open, and none was made
  have hnone : v.txId = id → w.refunds id = 0 := by
    rintro rfl
    refine Nat.add_eq_zero_iff.2 ⟨List.countP_eq_zero.2 fun t ht => ?_, List.count_eq_zero.2 ?_⟩
    · exact Bool.eq_false_iff.1 (hopen t ht)
    · exact fun h => of_decide_eq_true hclaim (hw.key h)
  refine { hw with
    polls := ?_
    one := ?_
    ready := ?_
    past := ?_ }
  · refine List.forall_mem_append.2 ⟨hw.polls, List.forall_mem_singleton.2 fun hp _ => ?_⟩
    rw [hpid] at hp
    rw [hcontract, ← hp]
    exact ⟨v, WithdrawStore.get_of_mem hw.nodup hmem, hlv⟩
  · show (w.polls ++ [p]).countP _ ≤ 1
    rw [List.countP_append, List.countP_singleton]
    by_cases hp : v.txId = id
    · have hzero : w.polls.countP (fun p => p.inFlight && p.item.txId == id) = 0 := by
        refine List.countP_eq_zero.2 fun q hq => ?_
        rw [World.inFlight, List.any_eq_false] at hflight
        rw [← hp]
        exact hflight q hq
      rw [hzero]
      split <;> omega
    · rw [hpid, beq_false_of_ne hp, Bool.and_false]
      exact hw.one
  · refine List.forall_mem_append.2 ⟨hw.ready, List.forall_mem_singleton.2 fun _ h => ?_⟩
    rw [hready] at h
    cases h
  · intro h
    refine List.forall_mem_append.2 ⟨hw.past h, List.forall_mem_singleton.2 fun hp => ?_⟩
    rw [show World.refunds { w with polls := w.polls ++ [p] } id = w.refunds id from rfl,
      hnone (hpid.symm.trans hp)] at h
    exact absurd h (lt_irrefl 0)

/-- An open refund is the only one, and none was made. -/
theorem RefundInv.sole (hw : RefundInv rougeBridgeId id w) {i : ℕ} {t : Task}
    (hi : w.daemon.tasks[i]? = some t) (ht : t.refunds id = true) (t' : Task) :
    .minted id ∉ w.daemon.stores.events ∧
      ∀ u ∈ w.daemon.tasks.set i t', u.refunds id = true → u = t' := by
  have hsingle := hw.single
  have hpos : 0 < w.daemon.tasks.countP (Task.refunds id) :=
    List.countP_pos_iff.2 ⟨t, List.mem_of_getElem? hi, ht⟩
  rw [World.refunds] at hsingle
  refine ⟨List.count_eq_zero.1 (by omega), fun u hu hopen => ?_⟩
  have hother := Runs.eq_or_of_countP_le_one (by omega) hi ht t' u hu
  exact hother.resolve_right fun h => Bool.eq_false_iff.1 h hopen

/-- A segment of the only refund that is open: what counts is the task and the stores it leaves. -/
theorem RefundInv.hand (hw : RefundInv rougeBridgeId id w) {i : ℕ} {t t' : Task} {x : Stores}
    (hi : w.daemon.tasks[i]? = some t) (ht : t.refunds id = true)
    (hgrow : Grows w.daemon.stores.withdrawals x.withdrawals)
    (hcount : (t'.refunds id).toNat + x.events.count (.minted id) ≤ 1)
    (hstart : t' ≠ .start (.refund id))
    (hvault : ∀ v, t' = .vault id v → Listed w.daemon.stores.withdrawals id .vault)
    (hlooked : t'.looked id = true ∨ .minted id ∈ x.events → w.base.Clear id)
    (hkey : t'.mints id = true ∨ .minted id ∈ x.events → refundKey id ∈ x.claims) :
    RefundInv rougeBridgeId id { w with daemon := ⟨x, w.daemon.tasks.set i t'⟩ } := by
  obtain ⟨hnot, honly⟩ := hw.sole hi ht t'
  have htasks := Runs.countP_set_add (Task.refunds id) t' hi
  have hsingle := hw.single
  rw [World.refunds, List.count_eq_zero.2 hnot] at hsingle
  rw [ht, Bool.toNat_true] at htasks
  refine hw.segment hgrow ?_ (fun h => ?_) (fun v h => ?_) ?_ ?_
  · rw [World.refunds, List.count_eq_zero.2 hnot]
    omega
  · exact absurd (honly _ h (decide_eq_true rfl)).symm hstart
  · exact hvault v (honly _ h (decide_eq_true rfl)).symm
  · rintro (⟨u, hu, h⟩ | h)
    · exact hlooked (.inl (honly u hu (Task.refunds_of_looked h) ▸ h))
    · exact hlooked (.inr h)
  · rintro (⟨u, hu, h⟩ | h)
    · exact hkey (.inl (honly u hu (Task.refunds_of_looked (Task.looked_of_mints h)) ▸ h))
    · exact hkey (.inr h)

/-- A task of the daemon runs its next segment. -/
theorem RefundInv.advance (hw : RefundInv rougeBridgeId id w) {i : ℕ} {t t' : Task} {r : Reply}
    {x : Stores} (hi : w.daemon.tasks[i]? = some t)
    (hgrow : Grows w.daemon.stores.withdrawals x.withdrawals)
    (hadv : t.Advances id w.daemon.stores r x t')
    (hlook : t.looksAt = some id → r.vault = .ok false →
      w.base.flagged rougeBridgeId .vault id = false ∧ w.Settled id) :
    RefundInv rougeBridgeId id { w with daemon := ⟨x, w.daemon.tasks.set i t'⟩ } := by
  have hmem := List.mem_of_getElem? hi
  have htasks := Runs.countP_set_add (Task.refunds id) t' hi
  cases hadv with
  | other ht ht' hevents hkey =>
    rw [ht, ht'] at htasks
    refine hw.steady hgrow (fun u hu h => ?_) (by omega) hevents hkey
    refine (List.mem_or_eq_of_mem_set hu).resolve_right ?_
    rintro rfl
    rw [ht'] at h
    cases h
  | ends ht ht' hevents =>
    obtain ⟨hnot, -⟩ := hw.sole hi ht t'
    have hminted : .minted id ∉ x.events := by
      rwa [← List.count_eq_zero, hevents, List.count_eq_zero]
    obtain ⟨hstart, hvault, hlooked⟩ := Task.of_not_refunds ht'
    refine hw.hand hi ht hgrow ?_ hstart (fun v h => absurd h (hvault v)) ?_ ?_
    · rw [ht', List.count_eq_zero.2 hminted]
      exact Nat.zero_le _
    · exact fun h => absurd h (not_or.2 ⟨hlooked, hminted⟩)
    · exact fun h => absurd h (not_or.2 ⟨fun h => hlooked (Task.looked_of_mints h), hminted⟩)
  | begins v ht hx hv ht' =>
    subst ht hx
    have hmemv : v ∈ w.daemon.stores.withdrawals := List.mem_of_find?_eq_some hv
    obtain ⟨hnot, -⟩ := hw.sole hi (decide_eq_true rfl) t'
    have hcount : (t'.refunds id).toNat + w.daemon.stores.events.count (.minted id) ≤ 1 := by
      rw [List.count_eq_zero.2 hnot]
      exact Bool.toNat_le _
    split at ht'
    · next hxrge =>
      subst ht'
      refine hw.hand hi (decide_eq_true rfl) hgrow hcount (by simp) (fun _ _ => ?_) ?_ ?_
      · exact ⟨v, hv, Bool.or_eq_true_iff.2 (.inl hxrge)⟩
      · exact fun h => absurd (h.resolve_left Bool.false_ne_true) hnot
      · exact fun h => absurd (h.resolve_left Bool.false_ne_true) hnot
    · next hxrge =>
      subst ht'
      -- without a look at the vault, the relayer has looked before it asked
      refine hw.hand hi (decide_eq_true rfl) hgrow hcount (by simp) (by simp) (fun _ => ?_) ?_
      · refine (hw.start hmem).resolve_right fun ⟨v', hv', hlists⟩ => hxrge ?_
        cases hv.symm.trans hv'
        exact hw.symbols v hmemv hlists
      · exact fun h => absurd (h.resolve_left Bool.false_ne_true) hnot
  | looks v ht hx hr ht' =>
    subst ht hx ht'
    obtain ⟨hnot, -⟩ := hw.sole hi (decide_eq_true rfl) (.check id v)
    obtain ⟨hflag, hsettled⟩ := hlook rfl hr
    refine hw.hand hi (decide_eq_true rfl) hgrow ?_ (by simp) (by simp) (fun _ => ?_) ?_
    · rw [List.count_eq_zero.2 hnot]
      exact Bool.toNat_le _
    · exact hw.clear (hw.vault v hmem) hsettled hflag
    · exact fun h => absurd (h.resolve_left Bool.false_ne_true) hnot
  | goes ht ht' hevents hkey =>
    obtain ⟨hnot, -⟩ := hw.sole hi (Task.refunds_of_looked ht) t'
    refine hw.hand hi (Task.refunds_of_looked ht) hgrow ?_ ?_ ?_
      (fun _ => hw.looked ⟨t, hmem, ht⟩) ?_
    · rw [hevents, List.count_eq_zero.2 hnot]
      exact Bool.toNat_le _
    · rintro rfl
      cases ht'
    · rintro v rfl
      cases ht'
    · rintro (h | h)
      · exact hkey h
      · exact absurd (hevents ▸ h) hnot
  | mints ht ht' hevents hclaims =>
    have hlooked := Task.looked_of_mints ht
    obtain ⟨hnot, -⟩ := hw.sole hi (Task.refunds_of_looked hlooked) t'
    obtain ⟨hstart, hvault, -⟩ := Task.of_not_refunds ht'
    refine hw.hand hi (Task.refunds_of_looked hlooked) hgrow ?_ hstart
      (fun v h => absurd h (hvault v)) (fun _ => hw.looked ⟨t, hmem, hlooked⟩) fun _ => ?_
    · rw [ht', hevents, List.count_append, List.count_eq_zero.2 hnot, List.count_singleton_self]
      rfl
    · rw [hclaims]
      exact hw.held ⟨t, hmem, ht⟩

variable {cfg : RelayerConfig} {s : Settings} {c : Chains}

theorem RefundInv.daemonTurn (hw : RefundInv c.rougeBridgeId id w) (i : ℕ) (r : Reply)
    (hlook : ∀ t ∈ w.daemon.tasks[i]?, ∀ id ∈ t.looksAt, w.Settled id) :
    RefundInv c.rougeBridgeId id { w with daemon := w.daemonTurn s c i r } := by
  rw [World.daemonTurn]
  split
  · next txId v hi =>
    refine hw.advance hi (Task.run_grows _) (Task.run_advances _) fun htx hr => ?_
    obtain rfl := Option.some.inj htx
    refine ⟨?_, hlook _ hi txId rfl⟩
    rw [World.reply] at hr
    cases hv : r.vault with
    | error e =>
      rw [hv] at hr
      cases hr
    | ok b =>
      rw [hv] at hr
      exact Except.ok.inj hr
  · next hno =>
    rw [Daemon.step]
    split
    · exact hw
    · next t hi =>
      refine hw.advance hi (Task.run_grows _) (Task.run_advances _) fun htx => ?_
      cases t with
      | vault txId v => exact absurd hi (hno txId v)
      | _ => cases htx

/-- One step keeps the invariant, as long as the relayer is prompt. -/
theorem RefundInv.step (w : World) (h : Happening) (hprompt : w.Prompt h)
    (hw : RefundInv c.rougeBridgeId id w) : RefundInv c.rougeBridgeId id (w.step cfg s c h) := by
  cases h with
  | poll contract item =>
    rw [World.step]
    split
    · next p hp =>
      unfold World.begins at hp
      split at hp
      · cases hp
      · next hskip =>
        rw [not_or, Bool.not_eq_true] at hskip
        cases contract with
        | rougeBridge =>
          dsimp only at hp
          split at hp
          · cases hp
          · obtain rfl := Option.some.inj hp
            refine hw.begin hprompt.1 hprompt.2 rfl rfl ?_ hskip.2
            rw [startEvm]
            split_ifs <;> rfl
        | vault =>
          dsimp only at hp
          split at hp
          · cases hp
          · obtain rfl := Option.some.inj hp
            exact hw.begin hprompt.1 hprompt.2 rfl rfl rfl hskip.2
    · exact hw
  | turn i a =>
    rw [World.step]
    split
    · next p hp =>
      exact hw.moved hp p.move_moves p.move_item.1 p.move_item.2 (hprompt p hp)
    · exact hw
  | daemon i r => exact hw.daemonTurn i r hprompt
  | block burns => exact hw.grow (.recordBurns burns) _
  | rebuild burns => exact hw.grow (.recordBurns burns) _
  | daemonRestart => exact hw.restart
  | relayerRestart m => exact hw.forget m
  | remember m => exact { hw with }
  | mine k outcome => exact hw.settle (.mine _ k outcome)
  | drop k => exact hw.settle (.drop _ k)
  | execute k => exact hw.settle (.execute _ k)
  | cancel k => exact hw.settle (.cancel _ k)

theorem RefundInv.init : RefundInv rougeBridgeId id {} where
  nodup := List.nodup_nil
  symbols := fun _ h => absurd h List.not_mem_nil
  entries := fun _ h => absurd h List.not_mem_nil
  flagged := fun _ h => absurd h List.not_mem_nil
  polls := fun _ h => absurd h List.not_mem_nil
  one := Nat.zero_le _
  ready := fun _ h => absurd h List.not_mem_nil
  single := Nat.zero_le _
  past := fun _ _ h => absurd h List.not_mem_nil
  start := fun h => absurd h List.not_mem_nil
  vault := fun _ h => absurd h List.not_mem_nil
  looked := fun ⟨_, h, _⟩ => absurd h List.not_mem_nil
  minted := fun h => absurd h List.not_mem_nil
  held := fun ⟨_, h, _⟩ => absurd h List.not_mem_nil
  key := fun h => absurd h List.not_mem_nil

end Inv

/-- When polls begin with fresh items, and no release waits to be mined at the look before a
    refund, no withdrawal is both refunded and released. -/
theorem refunded_not_released (cfg : RelayerConfig) (s : Settings) (c : Chains)
    (hs : List Happening) (hok : Runs.Along (World.step cfg s c) World.Prompt {} hs) (id : String) :
    ¬ PaidTwice (Runs.run (World.step cfg s c) {} hs) id := by
  have hinv : RefundInv c.rougeBridgeId id (Runs.run (World.step cfg s c) {} hs) :=
    hok.invariant (fun w h hprompt hw => hw.step w h hprompt) .init
  rintro ⟨hminted, r, hr, hid⟩
  exact hinv.minted hminted r (Base.mem_entries.2 (.inr (List.mem_append_right _ hr))) hid

/-- The release of the first poll is dropped by the network before the refund. -/
def droppedRelease : List Happening := fiveFailures ++ [.drop 0] ++ theRefund

theorem droppedRelease_refunded :
    .minted "07" ∈ (Runs.run (World.step sampleConfig quietSettings quietChains) {}
      droppedRelease).daemon.stores.events ∧
    ¬ PaidTwice (Runs.run (World.step sampleConfig quietSettings quietChains) {}
      droppedRelease) "07" :=
  ⟨by decide +kernel, refunded_not_released _ _ _ _ (by decide +kernel) _⟩

end RougeChain.Bridge
