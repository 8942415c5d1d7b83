import RougeChain.Library.Basic
import RougeChain.Library.Runs

/-!
# Deposit addresses

`BtcDepositStore` hands out the addresses that the relayer has derived, one to each recipient. It
changes its memory first and then writes all of it to a file; a write that fails leaves the file as
it was, and the memory is not put back. A recipient whose first call failed is then told the address
on the second call, which writes nothing.

* `State.Sound`: the tables agree, and nothing in the pool is assigned;
* `address_belongs_iff`: an address stays with its recipient, whatever writes fail, exactly when at
  every restart the file has all the addresses that were told.
-/

open Std (ExtTreeMap)
open Runs (run Along)

namespace RougeChain.Bridge.DepositAddresses

structure PoolEntry where
  index : ℕ
  address : String

structure Assignment where
  address : String
  recipient : String
  index : ℕ
  createdAt : ℤ

/-- What is in memory, and in the file. -/
structure State where
  /-- The addresses that are not assigned yet, handed out in order. -/
  pool : List PoolEntry := []
  assignments : List Assignment := []
  byRecipient : ExtTreeMap String String := ∅
  byAddress : ExtTreeMap String String := ∅

/-- The store: the file as the last write left it, and the state in memory. -/
structure BtcDepositStore where
  file : Option State := none
  state : State := {}

namespace State

def known (st : State) (address : String) : Bool :=
  st.byAddress.contains address || st.pool.any (·.address = address)

/-- The loop of `add_to_pool`, with the number of the entries added. -/
def addEntries : State → List PoolEntry → State × ℕ
  | st, [] => (st, 0)
  | st, e :: entries =>
    if e.address.isEmpty || st.known e.address then st.addEntries entries
    else
      let (st, added) := { st with pool := st.pool ++ [e] }.addEntries entries
      (st, added + 1)

/-- Bind an address of the pool to a recipient. -/
def bind (st : State) (e : PoolEntry) (pool : List PoolEntry) (recipient : String) (now : ℤ) :
    State :=
  { pool
    assignments := st.assignments ++ [⟨e.address, recipient, e.index, now⟩]
    byRecipient := st.byRecipient.insert recipient e.address
    byAddress := st.byAddress.insert e.address recipient }

end State

namespace BtcDepositStore

def new (file : Option State) : BtcDepositStore := { file, state := file.getD {} }

/-- Write the state; the file changes only if the write succeeds. -/
def persist (s : BtcDepositStore) (write : Except String Unit) :
    BtcDepositStore × Except String Unit :=
  match write with
  | .ok () => ({ s with file := some s.state }, .ok ())
  | .error e => (s, .error e)

def addToPool (s : BtcDepositStore) (entries : List PoolEntry) (write : Except String Unit) :
    BtcDepositStore × Except String ℕ :=
  let (state, added) := s.state.addEntries entries
  let s := { s with state }
  if 0 < added then
    let (s, r) := s.persist write
    (s, r.map fun _ => added)
  else (s, .ok added)

def assign (s : BtcDepositStore) (recipient : String) (now : ℤ) (write : Except String Unit) :
    BtcDepositStore × Except String (Option String) :=
  match s.state.byRecipient[recipient]? with
  | some address => (s, .ok (some address))
  | none =>
    match s.state.pool with
    | [] => (s, .ok none)
    | e :: pool =>
      let (s, r) := { s with state := s.state.bind e pool recipient now }.persist write
      (s, r.map fun _ => some e.address)

def listAssignments (s : BtcDepositStore) : List Assignment := s.state.assignments

end BtcDepositStore

/-! ## Runs -/

/-- A call, with the outcome of its write if it makes one, or a restart. -/
inductive Action
  | addToPool (entries : List PoolEntry) (write : Except String Unit)
  | assign (recipient : String) (now : ℤ) (write : Except String Unit)
  | restart

/-- The store, and what every call of `assign` has returned. -/
structure World where
  store : BtcDepositStore := {}
  log : List (String × Except String (Option String)) := []

def World.step (w : World) : Action → World
  | .addToPool entries write => { w with store := (w.store.addToPool entries write).1 }
  | .assign recipient now write =>
    { store := (w.store.assign recipient now write).1
      log := w.log ++ [(recipient, (w.store.assign recipient now write).2)] }
  | .restart => { w with store := .new w.store.file }

/-- The recipient was told the address. -/
def World.Told (w : World) (r a : String) : Prop := (r, .ok (some a)) ∈ w.log

/-- The list has the address for the recipient. -/
def Lists (l : List Assignment) (r a : String) : Prop := ∃ x ∈ l, x.address = a ∧ x.recipient = r

/-- An address that was told is told to the same recipient ever after, to no other, and is listed. -/
structure World.Belongs (w : World) : Prop where
  stable : w.log.Pairwise fun e e' => ∀ a, e.2 = .ok (some a) →
    (e'.1 = e.1 → e'.2 = .ok (some a)) ∧ (e'.2 = .ok (some a) → e'.1 = e.1)
  listed : ∀ r a, w.Told r a → Lists w.store.listAssignments r a

/-- A restart finds in the file all the addresses that were told. -/
def World.Keeps (w : World) (act : Action) : Prop :=
  act = .restart → ∀ r a, w.Told r a → Lists (w.store.file.getD {}).assignments r a

/-! ## The tables -/

/-- The tables agree with each other and with the list, and what is in the pool is not assigned. -/
structure State.Sound (st : State) : Prop where
  inverse : ∀ r a : String, st.byRecipient[r]? = some a ↔ st.byAddress[a]? = some r
  listed : ∀ r a : String, st.byRecipient[r]? = some a ↔ Lists st.assignments r a
  free : ∀ e ∈ st.pool, e.address ∉ st.byAddress
  nodup : (st.pool.map PoolEntry.address).Nodup

namespace State.Sound

variable {st : State}

theorem empty : Sound {} := ⟨by simp, by simp [Lists], by simp, by simp⟩

theorem addEntries (hst : st.Sound) (entries : List PoolEntry) : (st.addEntries entries).1.Sound := by
  induction entries generalizing st with
  | nil => exact hst
  | cons e entries ih =>
    rw [State.addEntries]
    split
    · exact ih hst
    · next hnew =>
      simp only [known, Bool.or_eq_true, not_or, Bool.not_eq_true, List.any_eq_false,
        decide_eq_true_eq] at hnew
      apply ih
      refine ⟨hst.inverse, hst.listed, fun e' he' => ?_, ?_⟩
      · rcases List.mem_append.1 he' with he' | he'
        · exact hst.free e' he'
        · rw [List.mem_singleton.1 he', ← ExtTreeMap.contains_iff_mem, hnew.2.1]
          exact Bool.false_ne_true
      · rw [List.map_append, List.nodup_append]
        refine ⟨hst.nodup, List.nodup_singleton _, fun a ha b hb => ?_⟩
        obtain ⟨e', he', rfl⟩ := List.mem_map.1 ha
        rw [List.map_singleton, List.mem_singleton] at hb
        exact hb ▸ hnew.2.2 e' he'

/-- A recipient without an address gets one from the pool, which nobody has. -/
theorem bind (hst : st.Sound) {e : PoolEntry} {pool : List PoolEntry} {recipient : String}
    (hpool : st.pool = e :: pool) (hnew : st.byRecipient[recipient]? = none) (now : ℤ) :
    (st.bind e pool recipient now).Sound := by
  have hfree : e.address ∉ st.byAddress := hst.free e (hpool ▸ List.mem_cons_self)
  have hnodup := hst.nodup
  rw [hpool, List.map_cons, List.nodup_cons] at hnodup
  have hold (r : String) : st.byRecipient[r]? ≠ some e.address := fun h =>
    hfree (ExtTreeMap.mem_iff_isSome_getElem?.2 (by rw [(hst.inverse r e.address).1 h]; rfl))
  have hlists (r a : String) : Lists (st.bind e pool recipient now).assignments r a ↔
      Lists st.assignments r a ∨ (e.address = a ∧ recipient = r) := by
    simp [Lists, State.bind, or_and_right, exists_or]
  refine ⟨fun r a => ?_, fun r a => ?_, fun e' he' => ?_, hnodup.2⟩
  · simp only [State.bind, getElem?_insert_eq]
    by_cases hr : recipient = r <;> by_cases ha : e.address = a
    · simp [hr, ha]
    · subst hr
      rw [if_pos rfl, if_neg ha, ← hst.inverse, hnew]
      simp [ha]
    · subst ha
      simp [hr, hold r]
    · simp only [if_neg hr, if_neg ha, hst.inverse]
  · rw [hlists, ← hst.listed, State.bind, getElem?_insert_eq]
    split
    · next hr =>
      subst hr
      simp [hnew]
    · next hr => simp [hr]
  · intro hmem
    rcases (mem_insert_eq _ _ _ _).1 hmem with heq | hmem
    · exact hnodup.1 (heq ▸ List.mem_map_of_mem he')
    · exact hst.free e' (hpool ▸ List.mem_cons_of_mem e he') hmem

end State.Sound

/-! ## An address and its recipient -/

/-- What holds in every state of a run whose restarts find what was told. -/
structure World.Inv (w : World) : Prop where
  memory : w.store.state.Sound
  file : (w.store.file.getD {}).Sound
  told : ∀ r a, w.Told r a → w.store.state.byRecipient[r]? = some a
  stable : w.log.Pairwise fun e e' => ∀ a, e.2 = .ok (some a) →
    (e'.1 = e.1 → e'.2 = .ok (some a)) ∧ (e'.2 = .ok (some a) → e'.1 = e.1)

namespace World.Inv

variable {w : World}

theorem start : Inv {} := ⟨.empty, .empty, nofun, .nil⟩

theorem belongs (hw : w.Inv) : w.Belongs :=
  ⟨hw.stable, fun r a h => (hw.memory.listed r a).1 (hw.told r a h)⟩

/-- Writing the state, or failing to. -/
theorem file_persist {s : BtcDepositStore} (hstate : s.state.Sound)
    (hfile : (s.file.getD {}).Sound) (write : Except String Unit) :
    (s.persist write).1.state = s.state ∧ ((s.persist write).1.file.getD {}).Sound := by
  cases write with
  | ok => exact ⟨rfl, hstate⟩
  | error => exact ⟨rfl, hfile⟩

theorem addEntries_byRecipient (st : State) (entries : List PoolEntry) :
    (st.addEntries entries).1.byRecipient = st.byRecipient := by
  induction entries generalizing st with
  | nil => rfl
  | cons e entries ih =>
    rw [State.addEntries]
    split
    · exact ih st
    · exact ih { st with pool := st.pool ++ [e] }

theorem addToPool (hw : w.Inv) (entries : List PoolEntry) (write : Except String Unit) :
    (w.step (.addToPool entries write)).Inv := by
  have hsound := hw.memory.addEntries entries
  have htold (r a : String) (h : w.Told r a) :
      (w.store.state.addEntries entries).1.byRecipient[r]? = some a := by
    rw [addEntries_byRecipient]
    exact hw.told r a h
  rw [step, BtcDepositStore.addToPool]
  dsimp only
  split
  · obtain ⟨hstate, hfile⟩ := file_persist (s := { w.store with
      state := (w.store.state.addEntries entries).1 }) hsound hw.file write
    exact ⟨hstate ▸ hsound, hfile, hstate ▸ htold, hw.stable⟩
  · exact ⟨hsound, hw.file, htold, hw.stable⟩

/-- One more answer: what is told agrees with the table, and who was told is told again. -/
theorem answer (hw : w.Inv) {s : BtcDepositStore} {r : String}
    {res : Except String (Option String)} (hstate : s.state.Sound) (hfile : (s.file.getD {}).Sound)
    (hold : ∀ r' a : String, w.store.state.byRecipient[r']? = some a →
      s.state.byRecipient[r']? = some a)
    (hres : ∀ a, res = .ok (some a) → s.state.byRecipient[r]? = some a)
    (hagain : ∀ a : String, w.store.state.byRecipient[r]? = some a → res = .ok (some a)) :
    Inv { store := s, log := w.log ++ [(r, res)] } where
  memory := hstate
  file := hfile
  told r' a h := by
    rcases List.mem_append.1 h with h | h
    · exact hold r' a (hw.told r' a h)
    · obtain ⟨rfl, rfl⟩ := Prod.mk.inj (List.mem_singleton.1 h)
      exact hres a rfl
  stable := by
    refine List.pairwise_append.2 ⟨hw.stable, List.pairwise_singleton _ _, fun e he e' he' a hea => ?_⟩
    obtain rfl := List.mem_singleton.1 he'
    obtain ⟨r', res'⟩ := e
    obtain rfl : res' = .ok (some a) := hea
    have htold := hw.told r' a he
    refine ⟨fun heq => ?_, fun hr => ?_⟩
    · obtain rfl : r = r' := heq
      exact hagain a htold
    · -- both have the address in the table, which has one recipient for it
      have h := (hstate.inverse r a).1 (hres a hr)
      have h' := (hstate.inverse r' a).1 (hold r' a htold)
      exact Option.some.inj (h.symm.trans h')

theorem assign (hw : w.Inv) (r : String) (now : ℤ) (write : Except String Unit) :
    (w.step (.assign r now write)).Inv := by
  rw [step, BtcDepositStore.assign]
  cases hr : w.store.state.byRecipient[r]? with
  | some address =>
    refine hw.answer hw.memory hw.file (fun _ _ h => h) ?_ ?_
    · rintro a ⟨⟩
      exact hr
    · intro a ha
      rw [← ha, hr]
  | none =>
    have hagain {res : Except String (Option String)} (a : String)
        (ha : w.store.state.byRecipient[r]? = some a) : res = .ok (some a) :=
      absurd (hr.symm.trans ha) nofun
    dsimp only
    split
    · exact hw.answer hw.memory hw.file (fun _ _ h => h) nofun hagain
    · next e pool hpool =>
      have hsound := hw.memory.bind hpool hr now
      obtain ⟨hstate, hfile⟩ := file_persist (s := { w.store with
        state := w.store.state.bind e pool r now }) hsound hw.file write
      have hrec (r' : String) : (w.store.state.bind e pool r now).byRecipient[r']? =
          if r = r' then some e.address else w.store.state.byRecipient[r']? :=
        getElem?_insert_eq _ _ _ _
      refine hw.answer (hstate ▸ hsound) hfile (fun r' a ha => ?_) (fun a ha => ?_) hagain
      · rw [hstate, hrec, if_neg, ha]
        rintro rfl
        exact absurd (hr.symm.trans ha) nofun
      · rw [hstate, hrec, if_pos rfl]
        cases write with
        | ok => exact congrArg some (Option.some.inj (Except.ok.inj ha))
        | error => exact absurd ha nofun

theorem restart (hw : w.Inv) (hkeeps : w.Keeps .restart) : (w.step .restart).Inv where
  memory := hw.file
  file := hw.file
  told r a h := (hw.file.listed r a).2 (hkeeps rfl r a h)
  stable := hw.stable

theorem step (w : World) (act : Action) (hkeeps : w.Keeps act) (hw : w.Inv) : (w.step act).Inv := by
  cases act with
  | addToPool entries write => exact hw.addToPool entries write
  | assign r now write => exact hw.assign r now write
  | restart => exact hw.restart hkeeps

end World.Inv

/-- After a restart the list is that of the file. -/
theorem along_keeps {acts : List Action} {w : World}
    (h : ∀ n, (run World.step w (acts.take n)).Belongs) : Along World.step World.Keeps w acts := by
  induction acts generalizing w with
  | nil => trivial
  | cons act acts ih =>
    refine ⟨?_, ih fun n => h (n + 1)⟩
    rintro rfl
    exact (h 1).listed

theorem address_belongs_iff (acts : List Action) :
    (∀ n, (run World.step {} (acts.take n)).Belongs) ↔ Along World.step World.Keeps {} acts :=
  ⟨along_keeps, fun h n => ((h.take n).invariant World.Inv.step .start).belongs⟩

/-- The write of the first call fails, the second call tells the address, and after a restart it is
    told to somebody else. -/
theorem address_reassigned : ∃ acts : List Action, ¬(run World.step {} acts).Belongs := by
  refine ⟨[.addToPool [⟨0, "bc1q0"⟩] (.ok ()),
    .assign "alice" 0 (.error "No space left on device (os error 28)"),
    .assign "alice" 1 (.ok ()), .restart, .assign "bob" 2 (.ok ())], fun h => ?_⟩
  have hlog : (run World.step {} [.addToPool [⟨0, "bc1q0"⟩] (.ok ()),
      .assign "alice" 0 (.error "No space left on device (os error 28)"),
      .assign "alice" 1 (.ok ()), .restart, .assign "bob" 2 (.ok ())]).log =
      [("alice", .error "No space left on device (os error 28)"),
        ("alice", .ok (some "bc1q0")), ("bob", .ok (some "bc1q0"))] := by decide +kernel
  have hstable := h.stable
  rw [hlog] at hstable
  simp at hstable

end RougeChain.Bridge.DepositAddresses
