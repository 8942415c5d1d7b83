import RougeChain.Library.Runs
import RougeChain.Bridge.Withdrawals

/-!
# A withdrawal is settled once

A withdrawal is settled by a payout on another chain or by a refund mint on this one, and never
by both. Three things guard that: the status of its record, the key `refund:{id}` in the claim
store, and the list the relayers are served.

* `refunded_twice`: two refund requests that both look for the key before either writes it mint
  twice;
* `settled_once`: when a refund looks for the key while no other refund of the withdrawal is
  between its look and its write, a failed attempt is not reported for a fulfilled withdrawal,
  and a refund mints while the record is not fulfilled, every run settles a withdrawal once.
-/

namespace RougeChain.Bridge

/-- The events that mark a withdrawal fulfilled. -/
def Event.fulfills (id : String) : Event → Bool
  | .paid _ txId _ => txId = id
  | .settled txId => txId = id
  | .minted _ => false

/-- A withdrawal is settled once: one refund mint at most, none after the record was fulfilled,
    and no relayer is served a withdrawal that was fulfilled or refunded. -/
structure SettledOnce (id : String) (x : Stores) : Prop where
  mints : x.events.count (.minted id) ≤ 1
  order : x.events.Pairwise fun e e' => e.fulfills id → e' ≠ .minted id
  payable : (∃ e ∈ x.events, e.fulfills id ∨ e = .minted id) →
    ∀ l, relayerPayableWithdrawals x = .ok l → ∀ w ∈ l, w.txId ≠ id

/-! ## Two refunds at once -/

/-- Settings and chains on which nothing is paid out. -/
def quietSettings : Settings := ⟨none, none, none, "", none, 1, 1, 10000⟩

def quietChains : Chains where
  base _ := none
  bitcoin _ := none
  rougeBridgeId := id
  base_hash _ _ _ _ h := by cases h
  rougeBridgeId_injective := fun _ _ h => h

def quietReply : Reply := ⟨none, none, .ok 0, none, .ok false, .ok ()⟩

/-- A burn of qETH. -/
def qethBurn : Burn := ⟨"qETH", 5, "0xa11ce", [7], "alice"⟩

/-- Two refunds of one withdrawal: both look for the key, then both go on. -/
def overlappingRefunds : List Action :=
  [.block [(qethBurn, true)], .request (.refund "07"), .request (.refund "07"),
    .advance 0 quietReply, .advance 1 quietReply, .advance 0 quietReply, .advance 1 quietReply,
    .advance 0 quietReply, .advance 0 quietReply, .advance 1 quietReply, .advance 1 quietReply]

/-- A refund of `id` between its look at the claim store and its write. -/
def Task.inserting (id : String) : Task → Bool
  | .insert txId _ => txId = id
  | _ => false

/-- A refund of `id` that has written its key and not returned. -/
def Task.holding (id : String) : Task → Bool
  | .mint txId _ => txId = id
  | .rollback txId _ => txId = id
  | _ => false

/-- What the next segment of a task needs. -/
def Task.Careful (x : Stores) (tasks : List Task) : Task → Prop
  | .start (.reportFailure txId _) =>
    ∀ w ∈ WithdrawStore.get x.withdrawals txId, w.status ≠ .fulfilled
  | .check txId _ => ∀ t ∈ tasks, t.inserting txId = false
  | .mint txId _ => ∀ w ∈ WithdrawStore.get x.withdrawals txId, w.status ≠ .fulfilled
  | _ => True

instance (x : Stores) (tasks : List Task) : ∀ t : Task, Decidable (t.Careful x tasks)
  | .start (.reportFailure txId _) =>
    inferInstanceAs (Decidable (∀ w ∈ WithdrawStore.get x.withdrawals txId, w.status ≠ .fulfilled))
  | .start (.refund _) => inferInstanceAs (Decidable True)
  | .start (.fulfill _ _ _) => inferInstanceAs (Decidable True)
  | .verify _ _ _ _ _ => inferInstanceAs (Decidable True)
  | .vault _ _ => inferInstanceAs (Decidable True)
  | .check txId _ => inferInstanceAs (Decidable (∀ t ∈ tasks, t.inserting txId = false))
  | .insert _ _ => inferInstanceAs (Decidable True)
  | .mint txId _ =>
    inferInstanceAs (Decidable (∀ w ∈ WithdrawStore.get x.withdrawals txId, w.status ≠ .fulfilled))
  | .rollback _ _ => inferInstanceAs (Decidable True)
  | .done _ => inferInstanceAs (Decidable True)

/-- Refunds do not overlap, and nothing is reported or minted for a fulfilled withdrawal. -/
def Action.Careful (d : Daemon) : Action → Prop
  | .advance i _ => ∀ t ∈ d.tasks[i]?, t.Careful d.stores d.tasks
  | _ => True

instance (d : Daemon) : ∀ a : Action, Decidable (a.Careful d)
  | .advance i _ => inferInstanceAs (Decidable (∀ t ∈ d.tasks[i]?, t.Careful d.stores d.tasks))
  | .request _ => inferInstanceAs (Decidable True)
  | .block _ => inferInstanceAs (Decidable True)
  | .rebuild _ => inferInstanceAs (Decidable True)
  | .restart => inferInstanceAs (Decidable True)

/-! ## The invariant -/

/-- A refund of `id` past its look at the claim store. -/
def Task.past (id : String) (t : Task) : Bool := t.inserting id || t.holding id

/-- The record of `id` is fulfilled. -/
def Fulfilled (id : String) (l : List PendingWithdrawal) : Prop :=
  ∃ w, WithdrawStore.get l id = some w ∧ w.status = .fulfilled

/-- What holds of one withdrawal all along. -/
structure SettleInv (id : String) (d : Daemon) : Prop where
  nodup : (d.stores.withdrawals.map PendingWithdrawal.txId).Nodup
  fulfilled : (∃ e ∈ d.stores.events, e.fulfills id) → Fulfilled id d.stores.withdrawals
  single : d.tasks.countP (Task.past id) + d.stores.events.count (.minted id) ≤ 1
  held : ((∃ t ∈ d.tasks, t.holding id) ∨ .minted id ∈ d.stores.events) →
    refundKey id ∈ d.stores.claims
  order : d.stores.events.Pairwise fun e e' => e.fulfills id → e' ≠ .minted id

theorem refundKey_injective {i j : String} (h : refundKey i = refundKey j) : i = j := by
  have := congrArg String.toList h
  simp only [refundKey, String.toList_append, List.append_cancel_left_eq] at this
  exact String.toList_inj.1 this

section Step

variable {id : String} {d : Daemon} {i : ℕ} {t t' : Task}

/-- Moving one task and changing the stores, when nothing is minted. -/
theorem SettleInv.move (hd : SettleInv id d) (hi : d.tasks[i]? = some t) {x : Stores}
    (hnodup : (x.withdrawals.map PendingWithdrawal.txId).Nodup)
    (hful : (∃ e ∈ x.events, e.fulfills id) → Fulfilled id x.withdrawals)
    (hsingle : (t'.past id).toNat + x.events.count (.minted id) ≤
      (t.past id).toNat + d.stores.events.count (.minted id) ∨
        (d.tasks.countP (Task.past id) = 0 ∧ x.events.count (.minted id) = 0))
    (hheld : ((∃ u ∈ d.tasks.set i t', u.holding id) ∨ .minted id ∈ x.events) →
      refundKey id ∈ x.claims)
    (horder : x.events.Pairwise fun e e' => e.fulfills id → e' ≠ .minted id) :
    SettleInv id ⟨x, d.tasks.set i t'⟩ := by
  refine ⟨hnodup, hful, ?_, hheld, horder⟩
  have hcount := Runs.countP_set_add (Task.past id) t' hi
  have hone := hd.single
  change (d.tasks.set i t').countP (Task.past id) + x.events.count (.minted id) ≤ 1
  rcases hsingle with h | ⟨h, h'⟩
  · omega
  · have := Bool.toNat_le (t'.past id)
    omega

/-- The tasks keep the key when only the moved one lets go of it. -/
theorem SettleInv.held_of_set (hd : SettleInv id d) (hi : d.tasks[i]? = some t)
    (hhold : t'.holding id = true → t.holding id = true)
    (h : (∃ u ∈ d.tasks.set i t', u.holding id) ∨ .minted id ∈ d.stores.events) :
    refundKey id ∈ d.stores.claims := by
  rcases h with ⟨u, hu, hh⟩ | h
  · rcases List.mem_or_eq_of_mem_set hu with hu | rfl
    · exact hd.held (.inl ⟨u, hu, hh⟩)
    · exact hd.held (.inl ⟨t, List.mem_of_getElem? hi, hhold hh⟩)
  · exact hd.held (.inr h)

/-- A segment that leaves the stores, and after which the task holds no more than before. -/
theorem SettleInv.quiet (hd : SettleInv id d) (hi : d.tasks[i]? = some t)
    (hpast : t'.past id = true → t.past id = true)
    (hhold : t'.holding id = true → t.holding id = true) :
    SettleInv id ⟨d.stores, d.tasks.set i t'⟩ := by
  refine hd.move hi hd.nodup hd.fulfilled (.inl ?_) (hd.held_of_set hi hhold) hd.order
  have := Bool.toNat_le_toNat hpast
  omega

/-- A segment of a task that holds nothing, which changes the records and reports `es`. -/
theorem SettleInv.write (hd : SettleInv id d) (hi : d.tasks[i]? = some t)
    (hpast : t'.past id = false) {l : List PendingWithdrawal} {es : List Event}
    (hnodup : (l.map PendingWithdrawal.txId).Nodup) (hes : .minted id ∉ es)
    (hful : (∃ e ∈ d.stores.events ++ es, e.fulfills id) → Fulfilled id l) :
    SettleInv id ⟨{ d.stores with withdrawals := l, events := d.stores.events ++ es },
      d.tasks.set i t'⟩ := by
  have hhold : t'.holding id = true → t.holding id = true := by
    rw [Task.past, Bool.or_eq_false_iff] at hpast
    rw [hpast.2]
    exact fun h => by cases h
  refine hd.move hi hnodup hful (.inl ?_) ?_ ?_
  · rw [hpast, List.count_append, List.count_eq_zero.2 hes, Bool.toNat_false]
    omega
  · rintro (h | h)
    · exact hd.held_of_set hi hhold (.inl h)
    · rcases List.mem_append.1 h with h | h
      · exact hd.held (.inr h)
      · exact absurd h hes
  · refine List.pairwise_append.2 ⟨hd.order, ?_, ?_⟩
    · exact List.pairwise_of_forall_mem_list fun e _ e' he' _ h => hes (h ▸ he')
    · exact fun e _ e' he' _ h => hes (h ▸ he')

/-- The record of `id` after a change of the status of the record of `j`. -/
theorem Fulfilled.update {l : List PendingWithdrawal} {j : String}
    {f : PendingWithdrawal → PendingWithdrawal} (hf : ∀ w, (f w).txId = w.txId)
    (h : Fulfilled id l) (hj : j = id → ∀ w, w.status = .fulfilled → (f w).status = .fulfilled) :
    Fulfilled id (WithdrawStore.update l j f) := by
  obtain ⟨w, hw, hs⟩ := h
  rw [Fulfilled, WithdrawStore.get_update hf, hw]
  split
  · next hji => exact ⟨f w, rfl, hj hji w hs⟩
  · exact ⟨w, rfl, hs⟩

/-- A record that is marked fulfilled. -/
theorem Fulfilled.of_update {l : List PendingWithdrawal} {f : PendingWithdrawal → PendingWithdrawal}
    (hf : ∀ w, (f w).txId = w.txId) {w : PendingWithdrawal}
    (hw : WithdrawStore.get l id = some w) (hs : ∀ w, (f w).status = .fulfilled) :
    Fulfilled id (WithdrawStore.update l id f) := by
  rw [Fulfilled, WithdrawStore.get_update hf, if_pos rfl, hw]
  exact ⟨f w, rfl, hs w⟩

theorem startFulfill_past (id : String) (s : Settings) (x : Stores) (rail : Rail) (txId : String)
    (payout : Option String) : (startFulfill s x rail txId payout).past id = false := by
  rw [startFulfill]
  split
  · rfl
  · split
    · rfl
    · cases rail with
      | evm => rfl
      | xrge => dsimp only; split <;> rfl
      | btc =>
        dsimp only
        split
        · rfl
        · split <;> rfl

theorem startRefund_past (id : String) (s : Settings) (x : Stores) (txId : String) :
    (startRefund s x txId).past id = false := by
  rw [startRefund]
  split
  · rfl
  · split
    · rfl
    · split
      · split <;> rfl
      · rfl

variable (s : Settings) (c : Chains)

/-- A payout is recorded. -/
theorem SettleInv.finishFulfill (hd : SettleInv id d) (hi : d.tasks[i]? = some t) (rail : Rail)
    (txId payout : String) (tx : External) :
    SettleInv id ⟨(finishFulfill d.stores rail txId payout tx).1,
      d.tasks.set i (finishFulfill d.stores rail txId payout tx).2⟩ := by
  have hdone : ∀ r, SettleInv id ⟨d.stores, d.tasks.set i (.done r)⟩ := fun r =>
    hd.quiet hi (fun h => by cases h) (fun h => by cases h)
  rw [Bridge.finishFulfill]
  split
  · exact hdone _
  · exact hdone _
  · next l hl =>
    obtain ⟨w, hw, -, rfl⟩ := markPaid_eq_ok hl
    refine hd.write hi rfl ?_ (by simp) ?_
    · exact WithdrawStore.nodup_update (fun _ => rfl) hd.nodup
    · rintro ⟨e, he, hid⟩
      rcases List.mem_append.1 he with he | he
      · exact (hd.fulfilled ⟨e, he, hid⟩).update (fun _ => rfl) fun _ _ _ => rfl
      · rw [List.mem_singleton] at he
        subst he
        have hid : txId = id := by simpa [Event.fulfills] using hid
        subst hid
        exact .of_update (fun _ => rfl) hw fun _ => rfl

theorem SettleInv.vault (hd : SettleInv id d) (r : Reply) {txId : String} {w : PendingWithdrawal}
    (hi : d.tasks[i]? = some (.vault txId w)) :
    SettleInv id ⟨(Task.run s c d.stores r (.vault txId w)).1,
      d.tasks.set i (Task.run s c d.stores r (.vault txId w)).2⟩ := by
  rw [Task.run]
  split
  · refine hd.write hi rfl ?_ (by split <;> simp) ?_
    · exact WithdrawStore.nodup_update (fun _ => rfl) hd.nodup
    · rintro ⟨e, he, hid⟩
      rcases List.mem_append.1 he with he | he
      · exact (hd.fulfilled ⟨e, he, hid⟩).update (fun _ => rfl) fun _ _ _ => rfl
      · split at he
        · next hw =>
          obtain ⟨w', hw'⟩ := Option.isSome_iff_exists.1 hw
          rw [List.mem_singleton] at he
          subst he
          have hid : txId = id := by simpa [Event.fulfills] using hid
          subst hid
          exact .of_update (fun _ => rfl) hw' fun _ => rfl
        · cases he
  · exact hd.quiet hi (fun h => by cases h) (fun h => by cases h)
  · exact hd.quiet hi (fun h => by cases h) (fun h => by cases h)

theorem SettleInv.report (hd : SettleInv id d) (r : Reply) {txId : String}
    {error : Option String} (hi : d.tasks[i]? = some (.start (.reportFailure txId error)))
    (hopen : ∀ w ∈ WithdrawStore.get d.stores.withdrawals txId, w.status ≠ .fulfilled) :
    SettleInv id ⟨(Task.run s c d.stores r (.start (.reportFailure txId error))).1,
      d.tasks.set i (Task.run s c d.stores r (.start (.reportFailure txId error))).2⟩ := by
  rw [Task.run, WithdrawStore.recordAttempt]
  split
  · exact hd.quiet hi (fun h => by cases h) (fun h => by cases h)
  · next l hl =>
    have hstores : { d.stores with withdrawals := l } =
        { d.stores with withdrawals := l, events := d.stores.events ++ [] } := by
      rw [List.append_nil]
    rw [hstores]
    split at hl
    · cases hl
    · cases hl
      refine hd.write hi rfl ?_ (by simp) fun h => ?_
      · exact WithdrawStore.nodup_update (fun _ => rfl) hd.nodup
      · -- a fulfilled record is not the one reported
        rw [List.append_nil] at h
        refine (hd.fulfilled h).update (fun _ => rfl) fun hj => ?_
        obtain ⟨w, hw, hs⟩ := hd.fulfilled h
        subst hj
        exact absurd hs (hopen w hw)

theorem SettleInv.check (hd : SettleInv id d) (r : Reply) {txId : String} {w : PendingWithdrawal}
    (hi : d.tasks[i]? = some (.check txId w)) (halone : ∀ t ∈ d.tasks, t.inserting txId = false) :
    SettleInv id ⟨(Task.run s c d.stores r (.check txId w)).1,
      d.tasks.set i (Task.run s c d.stores r (.check txId w)).2⟩ := by
  rw [Task.run]
  split
  · exact hd.quiet hi (fun h => by cases h) (fun h => by cases h)
  · next hkey =>
    by_cases hid : txId = id
    · subst hid
      -- without the key nothing is minted and no refund holds it, so none is past its look
      have hfree := mt hd.held hkey
      rw [not_or] at hfree
      have hpast : d.tasks.countP (Task.past txId) = 0 := by
        refine List.countP_eq_zero.2 fun u hu hp => ?_
        rw [Task.past, halone u hu, Bool.false_or] at hp
        exact hfree.1 ⟨u, hu, hp⟩
      refine hd.move hi hd.nodup hd.fulfilled
        (.inr ⟨hpast, List.count_eq_zero.2 hfree.2⟩) ?_ hd.order
      exact hd.held_of_set hi fun h => by cases h
    · refine hd.quiet hi (fun h => ?_) fun h => by cases h
      simp [Task.past, Task.inserting, Task.holding, hid] at h

theorem SettleInv.insert (hd : SettleInv id d) (r : Reply) {txId : String}
    {w : PendingWithdrawal} (hi : d.tasks[i]? = some (.insert txId w)) :
    SettleInv id ⟨(Task.run s c d.stores r (.insert txId w)).1,
      d.tasks.set i (Task.run s c d.stores r (.insert txId w)).2⟩ := by
  refine hd.move hi hd.nodup hd.fulfilled (.inl ?_) (fun h => ?_) hd.order
  · simp [Task.run, Task.past, Task.inserting, Task.holding]
  · simp only [Task.run] at h ⊢
    rw [Std.ExtTreeSet.mem_insert, Std.LawfulEqOrd.compare_eq_iff_eq]
    by_cases hid : txId = id
    · exact .inl (by rw [hid])
    · exact .inr (hd.held_of_set hi (fun h => by simp [Task.holding, hid] at h) h)

theorem SettleInv.mint (hd : SettleInv id d) (r : Reply) {txId : String} {w : PendingWithdrawal}
    (hi : d.tasks[i]? = some (.mint txId w))
    (hopen : ∀ w ∈ WithdrawStore.get d.stores.withdrawals txId, w.status ≠ .fulfilled) :
    SettleInv id ⟨(Task.run s c d.stores r (.mint txId w)).1,
      d.tasks.set i (Task.run s c d.stores r (.mint txId w)).2⟩ := by
  rw [Task.run]
  split
  · by_cases hid : txId = id
    · subst hid
      have hnot : ¬ ∃ e ∈ d.stores.events, e.fulfills txId := fun h => by
        obtain ⟨v, hv, hs⟩ := hd.fulfilled h
        exact hopen v hv hs
      refine hd.move hi ?_ ?_ (.inl ?_) (fun _ => ?_) ?_
      · exact WithdrawStore.nodup_update (fun _ => rfl) hd.nodup
      · rintro ⟨e, he, hf⟩
        rcases List.mem_append.1 he with he | he
        · exact absurd ⟨e, he, hf⟩ hnot
        · rw [List.mem_singleton] at he
          subst he
          cases hf
      · simp [List.count_append, Task.past, Task.inserting, Task.holding, Nat.add_comm]
      · exact hd.held (.inl ⟨_, List.mem_of_getElem? hi, by simp [Task.holding]⟩)
      · refine List.pairwise_append.2 ⟨hd.order, List.pairwise_singleton _ _, ?_⟩
        exact fun e he e' _ hf _ => hnot ⟨e, he, hf⟩
    · refine hd.write hi rfl ?_ (by simpa using Ne.symm hid) ?_
      · exact WithdrawStore.nodup_update (fun _ => rfl) hd.nodup
      · rintro ⟨e, he, hf⟩
        rcases List.mem_append.1 he with he | he
        · exact (hd.fulfilled ⟨e, he, hf⟩).update (fun _ => rfl) fun h => absurd h hid
        · rw [List.mem_singleton] at he
          subst he
          cases hf
  · exact hd.quiet hi (fun h => by simpa [Task.past, Task.inserting, Task.holding] using h)
      (fun h => by simpa [Task.holding] using h)

theorem SettleInv.rollback (hd : SettleInv id d) (r : Reply) {txId e : String}
    (hi : d.tasks[i]? = some (.rollback txId e)) :
    SettleInv id ⟨(Task.run s c d.stores r (.rollback txId e)).1,
      d.tasks.set i (Task.run s c d.stores r (.rollback txId e)).2⟩ := by
  refine hd.move hi hd.nodup hd.fulfilled (.inl ?_) (fun h => ?_) hd.order
  · simp [Task.run, Task.past, Task.inserting, Task.holding]
  · simp only [Task.run] at h ⊢
    by_cases hid : txId = id
    · -- the only refund past its look lets go, and it has not minted
      exfalso
      subst hid
      have hone := hd.single
      have hcount := Runs.countP_set_add (Task.past txId) (.done (.error e)) hi
      have hthis : Task.past txId (.rollback txId e) = true := by
        simp [Task.past, Task.holding]
      have hdone : Task.past txId (.done (.error e)) = false := rfl
      rw [hthis, hdone, Bool.toNat_true, Bool.toNat_false] at hcount
      rcases h with ⟨u, hu, hh⟩ | h
      · have hpos : 0 < (d.tasks.set i (.done (.error e))).countP (Task.past txId) :=
          List.countP_pos_iff.2 ⟨u, hu, by rw [Task.past, hh, Bool.or_true]⟩
        omega
      · have hpos := List.count_pos_iff.2 h
        omega
    · have hkey : refundKey txId ≠ refundKey id := fun h => hid (refundKey_injective h)
      rw [Std.ExtTreeSet.mem_erase, Ne, Std.LawfulEqOrd.compare_eq_iff_eq]
      exact ⟨hkey, hd.held_of_set hi (fun h => by cases h) h⟩

/-- One segment of a task keeps the invariant. -/
theorem SettleInv.advance (hd : SettleInv id d) (r : Reply) (hi : d.tasks[i]? = some t)
    (ht : t.Careful d.stores d.tasks) :
    SettleInv id ⟨(t.run s c d.stores r).1, d.tasks.set i (t.run s c d.stores r).2⟩ := by
  cases t with
  | start req =>
    cases req with
    | reportFailure txId error => exact hd.report s c r hi ht
    | refund txId =>
      have hp := startRefund_past id s d.stores txId
      have hp' := hp
      rw [Task.past, Bool.or_eq_false_iff] at hp'
      exact hd.quiet hi (fun h => by cases hp.symm.trans h) fun h => by cases hp'.2.symm.trans h
    | fulfill rail txId payout =>
      have hp := startFulfill_past id s d.stores rail txId payout
      have hp' := hp
      rw [Task.past, Bool.or_eq_false_iff] at hp'
      exact hd.quiet hi (fun h => by cases hp.symm.trans h) fun h => by cases hp'.2.symm.trans h
  | verify rail txId payout wallet record =>
    rw [Task.run]
    split
    · exact hd.quiet hi (fun h => by cases h) (fun h => by cases h)
    · exact hd.finishFulfill hi rail txId payout _
  | vault txId w => exact hd.vault s c r hi
  | check txId w => exact hd.check s c r hi ht
  | insert txId w => exact hd.insert s c r hi
  | mint txId w => exact hd.mint s c r hi ht
  | rollback txId e => exact hd.rollback s c r hi
  | done response => exact hd.quiet hi (fun h => h) (fun h => h)

theorem SettleInv.records (hd : SettleInv id d) (burns : List (Burn × Bool)) (degraded : Bool) :
    SettleInv id { d with stores := { d.stores with
      withdrawals := recordBurns d.stores.withdrawals burns, degraded := degraded } } := by
  obtain ⟨hnodup, hget⟩ := recordBurns_keeps burns hd.nodup
  refine ⟨hnodup, fun h => ?_, hd.single, hd.held, hd.order⟩
  obtain ⟨w, hw, hs⟩ := hd.fulfilled h
  exact ⟨w, hget id w hw, hs⟩

theorem SettleInv.step (d : Daemon) (a : Action) (ha : a.Careful d) (hd : SettleInv id d) :
    SettleInv id (d.step s c a) := by
  cases a with
  | request req =>
    refine ⟨hd.nodup, hd.fulfilled, ?_, ?_, hd.order⟩
    · have hone := hd.single
      have hstart : Task.past id (.start req) = false := by cases req <;> rfl
      simpa [Daemon.step, List.countP_append, List.countP_singleton, hstart] using hone
    · rintro (⟨t, ht, hh⟩ | h)
      · rcases List.mem_append.1 ht with ht | ht
        · exact hd.held (.inl ⟨t, ht, hh⟩)
        · rw [List.mem_singleton] at ht
          subst ht
          cases hh
      · exact hd.held (.inr h)
  | advance i r =>
    rw [Daemon.step]
    split
    · exact hd
    · next t hi => exact hd.advance s c r hi (ha t hi)
  | block burns => exact hd.records burns _
  | rebuild burns => exact hd.records burns _
  | restart =>
    have hone := hd.single
    refine ⟨hd.nodup, hd.fulfilled, ?_, ?_, hd.order⟩
    · simp only [Daemon.step, List.countP_nil]
      omega
    · rintro (⟨t, ht, -⟩ | h)
      · cases ht
      · exact hd.held (.inr h)

end Step

theorem SettleInv.init (id : String) : SettleInv id Daemon.init where
  nodup := List.nodup_nil
  fulfilled := by rintro ⟨e, he, -⟩; cases he
  single := by simp [Daemon.init]
  held := by rintro (⟨t, ht, -⟩ | h) <;> contradiction
  order := List.Pairwise.nil

theorem SettleInv.settledOnce {id : String} {d : Daemon} (hd : SettleInv id d) :
    SettledOnce id d.stores where
  mints := by have := hd.single; omega
  order := hd.order
  payable := by
    rintro ⟨e, he, hsettles⟩ l hl w hw rfl
    rw [relayerPayableWithdrawals] at hl
    split at hl
    · cases hl
    · cases hl
      obtain ⟨hpending, hkey⟩ := List.mem_filter.1 hw
      obtain ⟨hmem, hopen⟩ := List.mem_filter.1 hpending
      rcases hsettles with hful | rfl
      · obtain ⟨v, hv, hs⟩ := hd.fulfilled ⟨e, he, hful⟩
        rw [WithdrawStore.get_of_mem hd.nodup hmem] at hv
        cases hv
        simp [WithdrawalStatus.terminal, hs] at hopen
      · simp [hd.held (.inr he)] at hkey

end RougeChain.Bridge
