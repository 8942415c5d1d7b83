import RougeChain.Library.Files
import RougeChain.Library.Runs

/-!
# The claim store of the bridge

`BridgeClaimStore` remembers the deposits that were credited: a set of keys in memory, and a copy
of it in `bridge_claimed.json`. Each call changes the set in one section under the lock and then
writes the whole set to the disk outside it: it takes a copy of the set (`snapshot`), creates
`bridge_claimed.json.tmp`, writes the copy, syncs, and renames the file over the real one. All
calls use the same temporary name, and nothing orders their writes.

The model has any number of calls in progress (`tasks`), each standing before its next atomic
step, and a crash that drops them all and opens the store again from the disk.

* `claims_lost`: a call that took its copy earlier and renames later puts an older set on the
  disk, and a key that was reported as newly claimed is claimed a second time after a restart;
* `claimed_once`: when a copy is taken only while no other call is between its copy and its
  rename, a key is reported as newly claimed once, whatever the interleaving and the crashes.
-/

open Std (ExtTreeSet)

namespace RougeChain.Bridge

/-- The JSON library, as the store uses it: the text of a list of keys, and reading it back. -/
structure Codec where
  toStringPretty : List String → List Char
  fromStr : List Char → Option (List String)
  fromStr_toStringPretty : ∀ l, fromStr (toStringPretty l) = some l

namespace ClaimStore

/-- The files of the store: `bridge_claimed.json` and `bridge_claimed.json.tmp`. -/
inductive Name
  | claimed
  | tmp
  deriving DecidableEq

/-- A call of the store. -/
inductive Call
  | insert (k : String)
  | insertIfAbsent (k : String)
  | remove (k : String)
  deriving DecidableEq

/-- What a call returned. -/
inductive Event
  | insert (k : String) (r : Except String Unit)
  | insertIfAbsent (k : String) (r : Except String Bool)
  | remove (k : String) (r : Except String Unit)
  deriving DecidableEq

/-- What a call that writes the set returns, by the outcome of `persist`. -/
def Call.event : Call → Except String Unit → Event
  | .insert k, r => .insert k r
  | .insertIfAbsent k, r => .insertIfAbsent k (r.map fun _ => true)
  | .remove k, r => .remove k r

/-- A call in progress, by the step it takes next. From `create` on it holds the text of its copy
    of the set. -/
inductive Task
  | enter (c : Call)
  | snapshot (c : Call)
  | create (c : Call) (data : List Char)
  | write (c : Call) (data : List Char) (f : ℕ)
  | sync (c : Call) (data : List Char)
  | rename (c : Call) (data : List Char)
  | syncDir (c : Call)
  | returned
  deriving DecidableEq

/-- The store with its directory, the calls in progress and what earlier calls returned. -/
structure Store where
  files : Files Name
  claimed : ExtTreeSet String
  tasks : List Task
  log : List Event

variable (J : Codec)

/-- The set that `BridgeClaimStore::new` reads: a missing file is the empty set, and so is a text
    that does not parse. -/
def load (files : Files Name) : ExtTreeSet String :=
  match files.read .claimed with
  | none => ∅
  | some text => ExtTreeSet.ofList ((J.fromStr text).getD [])

/-- `BridgeClaimStore::new` on a directory, with what earlier calls returned. -/
def new (files : Files Name) (log : List Event) : Store :=
  { files, claimed := load J files, tasks := [], log }

/-- The error of renaming a file that is not there. -/
def noSuchFile : String := "No such file or directory (os error 2)"

/-- The next atomic step of the call `i`, which stands at `t`. -/
def Store.advance (s : Store) (i : ℕ) : Task → Store
  | .enter (.insertIfAbsent k) =>
    if k ∈ s.claimed then
      { s with tasks := s.tasks.set i .returned, log := s.log ++ [.insertIfAbsent k (.ok false)] }
    else
      { s with
        claimed := s.claimed.insert k
        tasks := s.tasks.set i (.snapshot (.insertIfAbsent k)) }
  | .enter (.insert k) =>
    { s with claimed := s.claimed.insert k, tasks := s.tasks.set i (.snapshot (.insert k)) }
  | .enter (.remove k) =>
    { s with claimed := s.claimed.erase k, tasks := s.tasks.set i (.snapshot (.remove k)) }
  | .snapshot c =>
    { s with tasks := s.tasks.set i (.create c (J.toStringPretty s.claimed.toList)) }
  | .create c data =>
    { s with
      files := (s.files.create .tmp).1
      tasks := s.tasks.set i (.write c data (s.files.create .tmp).2) }
  | .write c data f =>
    { s with files := s.files.write f data, tasks := s.tasks.set i (.sync c data) }
  | .sync c data => { s with tasks := s.tasks.set i (.rename c data) }
  | .rename c _ =>
    match s.files.rename .tmp .claimed with
    | some files => { s with files, tasks := s.tasks.set i (.syncDir c) }
    | none =>
      { s with tasks := s.tasks.set i .returned, log := s.log ++ [c.event (.error noSuchFile)] }
  | .syncDir c =>
    { s with tasks := s.tasks.set i .returned, log := s.log ++ [c.event (.ok ())] }
  | .returned => s

/-- What can happen: a call is made, a call in progress takes its next step, or the process stops
    and the store is opened again. -/
inductive Action
  | call (c : Call)
  | step (i : ℕ)
  | crash
  deriving DecidableEq

def Store.step (s : Store) : Action → Store
  | .call c => { s with tasks := s.tasks ++ [.enter c] }
  | .step i =>
    match s.tasks[i]? with
    | some t => s.advance J i t
    | none => s
  | .crash => new J s.files s.log

/-- The call holds a copy of the set that it has not yet renamed into place. -/
def Task.persisting : Task → Bool
  | .create .. | .write .. | .sync .. | .rename .. => true
  | _ => false

/-- The next step of the call takes a copy of the set. -/
def Task.copies : Task → Bool
  | .snapshot _ => true
  | _ => false

/-- A copy of the set is taken only while no call is between its copy and its rename. -/
def Store.Serialised (s : Store) : Action → Prop
  | .step i => ∀ t ∈ s.tasks[i]?, t.copies = true → ∀ u ∈ s.tasks, u.persisting = false
  | .call _ | .crash => True

instance (s : Store) : ∀ a, Decidable (s.Serialised a)
  | .step i => inferInstanceAs
      (Decidable (∀ t ∈ s.tasks[i]?, t.copies = true → ∀ u ∈ s.tasks, u.persisting = false))
  | .call _ | .crash => .isTrue trivial

/-! ## A key that is claimed -/

/-- The call will report the key `k` as newly claimed. -/
def Task.claims (k : String) : Task → Bool
  | .snapshot c | .create c _ | .write c _ _ | .sync c _ | .rename c _ | .syncDir c =>
    c = .insertIfAbsent k
  | _ => false

/-- The text the call will put on the disk. -/
def Task.data : Task → Option (List Char)
  | .create _ data | .write _ data _ | .sync _ data | .rename _ data => some data
  | _ => none

/-- The temporary file is as the call has left it. -/
def Task.Owns (files : Files Name) : Task → Prop
  | .write _ _ f => files.entry .tmp = some f ∧ files.data f = []
  | .sync _ data | .rename _ data => files.read .tmp = some data
  | _ => True

/-- The key was reported as newly claimed, or is on the disk and about to be. -/
def Store.Settled (k : String) (s : Store) : Prop :=
  .insertIfAbsent k (.ok true) ∈ s.log ∨ .syncDir (.insertIfAbsent k) ∈ s.tasks

/-- After a claim of `k` was reported, `k` is reported as claimed before. -/
def OnceIn (k : String) (log : List Event) : Prop :=
  log.Pairwise fun e e' => e = .insertIfAbsent k (.ok true) →
    ∀ r, e' = .insertIfAbsent k r → r = .ok false

variable {J}

/-- The reports of `k` as newly claimed, made and due. -/
def Store.reports (k : String) (s : Store) : ℕ :=
  s.tasks.countP (Task.claims k) + s.log.count (.insertIfAbsent k (.ok true))

/-- What holds of the store in every state of a run that takes its copies one at a time and never
    removes `k`. -/
structure Inv (J : Codec) (k : String) (s : Store) : Prop where
  alone : s.tasks.countP Task.persisting ≤ 1
  owns : ∀ t ∈ s.tasks, t.Owns s.files
  once : s.reports k ≤ 1
  claimed : k ∉ s.claimed → s.reports k = 0
  text : ∀ t ∈ s.tasks, ∀ data, t.data = some data →
    ∃ l, data = J.toStringPretty l ∧ (t.claims k = true ∨ s.Settled k → k ∈ l)
  disk : s.Settled k → ∃ l, s.files.read .claimed = some (J.toStringPretty l) ∧ k ∈ l
  keep : ∀ t ∈ s.tasks, t ≠ .enter (.remove k)
  log : OnceIn k s.log

section Step

variable {k : String} {s : Store} {i : ℕ} {t t' : Task}

/-- A task without a copy holds no text and owns no file. -/
theorem Task.data_eq_none (h : t.persisting = false) : t.data = none := by
  cases t <;> first | rfl | cases h

theorem Task.owns_of_not_persisting (files : Files Name) (h : t.persisting = false) :
    t.Owns files := by
  cases t <;> trivial

/-- The log after a return that reports nothing new about `k`. -/
theorem OnceIn.append {log : List Event} {e : Event} (h : OnceIn k log)
    (he : .insertIfAbsent k (.ok true) ∈ log → ∀ r, e = .insertIfAbsent k r → r = .ok false) :
    OnceIn k (log ++ [e]) := by
  refine List.pairwise_append.2 ⟨h, List.pairwise_singleton _ _, ?_⟩
  rintro a ha b hb rfl r hr
  rw [List.mem_singleton] at hb
  exact he ha r (hb ▸ hr)

namespace Inv

variable (hs : Inv J k s) (hi : s.tasks[i]? = some t)

include hs in
theorem mem_claimed (h : 0 < s.reports k) : k ∈ s.claimed := by
  by_contra hk
  have := hs.claimed hk
  omega

include hs in
theorem mem_claimed_of_settled (h : s.Settled k) : k ∈ s.claimed := by
  refine hs.mem_claimed ?_
  rw [Store.reports]
  rcases h with h | h
  · have := List.count_pos_iff.2 h
    omega
  · have : 0 < s.tasks.countP (Task.claims k) :=
      List.countP_pos_iff.2 ⟨_, h, by simp [Task.claims]⟩
    omega

include hs hi in
theorem mem_claimed_of_claims (h : t.claims k = true) : k ∈ s.claimed := by
  refine hs.mem_claimed ?_
  have : 0 < s.tasks.countP (Task.claims k) :=
    List.countP_pos_iff.2 ⟨t, List.mem_of_getElem? hi, h⟩
  rw [Store.reports]
  omega

include hs hi in
/-- Moving the task `i` from `t` to `t'`, with what the move does to the directory, the set and
    the log. -/
theorem move {files : Files Name} {claimed : ExtTreeSet String} {log : List Event}
    (halone : t.persisting = true ∨
      files = s.files ∧ (t'.persisting = true → ∀ u ∈ s.tasks, u.persisting = false))
    (howns : t'.Owns files)
    (hreports : (t'.claims k).toNat + log.count (.insertIfAbsent k (.ok true)) ≤
        (t.claims k).toNat + s.log.count (.insertIfAbsent k (.ok true)) ∨
      k ∉ s.claimed ∧ k ∈ claimed ∧
        (t'.claims k).toNat + log.count (.insertIfAbsent k (.ok true)) ≤
        (t.claims k).toNat + s.log.count (.insertIfAbsent k (.ok true)) + 1)
    (hclaimed : k ∈ s.claimed → k ∈ claimed)
    (htext : ∀ data, t'.data = some data → ∃ l, data = J.toStringPretty l ∧
      (t'.claims k = true ∨ Store.Settled k ⟨files, claimed, s.tasks.set i t', log⟩ → k ∈ l))
    (hsettled : Store.Settled k ⟨files, claimed, s.tasks.set i t', log⟩ →
      t.persisting = true ∨ s.Settled k)
    (hdisk : Store.Settled k ⟨files, claimed, s.tasks.set i t', log⟩ →
      ∃ l, files.read .claimed = some (J.toStringPretty l) ∧ k ∈ l)
    (hkeep : t' ≠ .enter (.remove k)) (hlog : OnceIn k log) :
    Inv J k ⟨files, claimed, s.tasks.set i t', log⟩ := by
  have hone := hs.alone
  have honce := hs.once
  have hpcount := Runs.countP_set_add Task.persisting t' hi
  have hcount := Runs.countP_set_add (Task.claims k) t' hi
  rw [Store.reports] at honce
  refine ⟨?_, ?_, ?_, ?_, ?_, hdisk, ?_, hlog⟩
  · change (s.tasks.set i t').countP Task.persisting ≤ 1
    rcases halone with ht | ⟨-, hall⟩
    · rw [ht, Bool.toNat_true] at hpcount
      have := Bool.toNat_le t'.persisting
      omega
    · cases hp : t'.persisting with
      | false =>
        rw [hp, Bool.toNat_false] at hpcount
        omega
      | true =>
        have hzero : s.tasks.countP Task.persisting = 0 :=
          List.countP_eq_zero.2 fun u hu => by simp [hall hp u hu]
        rw [hp, hzero, Bool.toNat_true] at hpcount
        omega
  · intro u hu
    rcases halone with ht | ⟨rfl, -⟩
    · rcases Runs.eq_or_of_countP_le_one hone hi ht _ _ hu with rfl | hu
      · exact howns
      · exact Task.owns_of_not_persisting files hu
    · rcases List.mem_or_eq_of_mem_set hu with hu | rfl
      · exact hs.owns u hu
      · exact howns
  · simp only [Store.reports]
    rcases hreports with h | ⟨hk, -, h⟩
    · omega
    · have hzero := hs.claimed hk
      rw [Store.reports] at hzero
      omega
  · intro hk
    have hzero := hs.claimed fun h => hk (hclaimed h)
    simp only [Store.reports] at hzero ⊢
    rcases hreports with h | ⟨-, h, -⟩
    · omega
    · exact absurd h hk
  · intro u hu data hdata
    by_cases hut : u = t'
    · subst hut
      exact htext data hdata
    · by_cases ht : t.persisting = true
      · rcases Runs.eq_or_of_countP_le_one hone hi ht _ _ hu with h | h
        · exact absurd h hut
        · rw [Task.data_eq_none h] at hdata
          cases hdata
      · rcases List.mem_or_eq_of_mem_set hu with hu | h
        · obtain ⟨l, hl, himp⟩ := hs.text u hu data hdata
          exact ⟨l, hl, fun h => himp (h.imp_right fun h => (hsettled h).resolve_left ht)⟩
        · exact absurd h hut
  · intro u hu
    rcases List.mem_or_eq_of_mem_set hu with hu | rfl
    · exact hs.keep u hu
    · exact hkeep

/-- A claim is settled after a move only if it was before, unless the move settles it. -/
theorem settled_of_move {files : Files Name} {claimed : ExtTreeSet String} {log : List Event}
    (h : Store.Settled k ⟨files, claimed, s.tasks.set i t', log⟩)
    (hlog : .insertIfAbsent k (.ok true) ∈ log → .insertIfAbsent k (.ok true) ∈ s.log)
    (ht' : t' ≠ .syncDir (.insertIfAbsent k)) : s.Settled k := by
  rcases h with h | h
  · exact .inl (hlog h)
  · rcases List.mem_or_eq_of_mem_set h with h | h
    · exact .inr h
    · exact absurd h.symm ht'

include hs hi in
theorem advance_enter {c : Call} (ht : t = .enter c) : Inv J k (s.advance J i t) := by
  subst ht
  have hquiet : ∀ {claimed : ExtTreeSet String} {t' : Task}, t'.persisting = false →
      t' ≠ .syncDir (.insertIfAbsent k) →
      Store.Settled k ⟨s.files, claimed, s.tasks.set i t', s.log⟩ → s.Settled k := fun _ ht' h => settled_of_move h id ht'
  cases c with
  | insertIfAbsent k' =>
    by_cases hk' : k' ∈ s.claimed
    · rw [Store.advance, if_pos hk']
      have hlog : .insertIfAbsent k (.ok true) ∈ s.log ++ [.insertIfAbsent k' (.ok false)] →
          .insertIfAbsent k (.ok true) ∈ s.log := by simp
      refine hs.move hi (.inr ⟨rfl, by simp [Task.persisting]⟩) trivial (.inl ?_) id ?_ ?_ ?_
        (by simp) ?_
      · simp [Task.claims, List.count_append]
      · intro data h
        cases h
      · exact fun h => .inr (settled_of_move h hlog (by simp))
      · exact fun h => hs.disk (settled_of_move h hlog (by simp))
      · refine hs.log.append fun _ r hr => ?_
        cases hr
        rfl
    · rw [Store.advance, if_neg hk']
      refine hs.move hi (.inr ⟨rfl, by simp [Task.persisting]⟩) trivial ?_ ?_ ?_ ?_ ?_
        (by simp) hs.log
      · by_cases hkk : k' = k
        · subst hkk
          exact .inr ⟨hk', by simp, by simp [Task.claims]; omega⟩
        · exact .inl (by simp [Task.claims, hkk])
      · exact fun h => ExtTreeSet.mem_insert.2 (.inr h)
      · intro data h
        cases h
      · exact fun h => .inr (hquiet rfl (by simp) h)
      · exact fun h => hs.disk (hquiet rfl (by simp) h)
  | insert k' =>
    refine hs.move hi (.inr ⟨rfl, by simp [Task.persisting]⟩) trivial ?_ ?_ ?_ ?_ ?_
      (by simp) hs.log
    · exact .inl (by simp [Task.claims])
    · exact fun h => ExtTreeSet.mem_insert.2 (.inr h)
    · intro data h
      cases h
    · exact fun h => .inr (hquiet rfl (by simp) h)
    · exact fun h => hs.disk (hquiet rfl (by simp) h)
  | remove k' =>
    have hne : k' ≠ k := fun h => hs.keep _ (List.mem_of_getElem? hi) (h ▸ rfl)
    refine hs.move hi (.inr ⟨rfl, by simp [Task.persisting]⟩) trivial ?_ ?_ ?_ ?_ ?_
      (by simp) hs.log
    · exact .inl (by simp [Task.claims])
    · exact fun h => ExtTreeSet.mem_erase.2 ⟨by simpa using hne, h⟩
    · intro data h
      cases h
    · exact fun h => .inr (hquiet rfl (by simp) h)
    · exact fun h => hs.disk (hquiet rfl (by simp) h)

include hs hi in
/-- Taking the copy: it has `k` if a report of `k` is due or was made. -/
theorem advance_snapshot {c : Call} (ht : t = .snapshot c)
    (hser : ∀ u ∈ s.tasks, u.persisting = false) : Inv J k (s.advance J i t) := by
  subst ht
  refine hs.move hi (.inr ⟨rfl, fun _ => hser⟩) trivial (.inl ?_) id ?_ ?_ ?_ (by simp) hs.log
  · simp [Task.claims]
  · rintro data ⟨⟩
    refine ⟨_, rfl, fun h => ExtTreeSet.mem_toList.2 ?_⟩
    rcases h with h | h
    · exact hs.mem_claimed_of_claims hi (by simpa [Task.claims] using h)
    · exact hs.mem_claimed_of_settled (settled_of_move h id (by simp))
  · exact fun h => .inr (settled_of_move h id (by simp))
  · exact fun h => hs.disk (settled_of_move h id (by simp))

include hs hi in
/-- The text of a task that holds a copy, wherever it moves before its rename. -/
theorem text_of_move {files : Files Name} {data : List Char} (hdata : t.data = some data)
    (hclaims : t'.claims k = t.claims k) (ht' : t' ≠ .syncDir (.insertIfAbsent k)) :
    ∃ l, data = J.toStringPretty l ∧
      (t'.claims k = true ∨ Store.Settled k ⟨files, s.claimed, s.tasks.set i t', s.log⟩ → k ∈ l) := by
  obtain ⟨l, hl, himp⟩ := hs.text t (List.mem_of_getElem? hi) data hdata
  refine ⟨l, hl, fun h => himp ?_⟩
  rw [hclaims] at h
  exact h.imp_right fun h => settled_of_move h id ht'

include hs hi in
theorem advance_create {c : Call} {data : List Char} (ht : t = .create c data) :
    Inv J k (s.advance J i t) := by
  subst ht
  have hread : (s.files.create .tmp).1.read .claimed = s.files.read .claimed :=
    Files.read_create_of_ne (by simp)
  refine hs.move hi (.inl rfl) ⟨by simp, by simp⟩ (.inl ?_) id ?_ ?_ ?_
    (by simp) hs.log
  · simp [Task.claims]
  · rintro data' ⟨⟩
    exact hs.text_of_move hi rfl rfl (by simp)
  · exact fun _ => .inl rfl
  · exact fun h => hread ▸ hs.disk (settled_of_move h id (by simp))

include hs hi in
theorem advance_write {c : Call} {data : List Char} {f : ℕ} (ht : t = .write c data f) :
    Inv J k (s.advance J i t) := by
  subst ht
  obtain ⟨hentry, hempty⟩ := hs.owns _ (List.mem_of_getElem? hi)
  have hread : (s.files.write f data).read .claimed = s.files.read .claimed :=
    Files.read_write_of_ne data (by simp) hentry
  refine hs.move hi (.inl rfl) (Files.read_write_self data hentry hempty) (.inl ?_) id ?_ ?_ ?_
    (by simp) hs.log
  · simp [Task.claims]
  · rintro data' ⟨⟩
    exact hs.text_of_move hi rfl rfl (by simp)
  · exact fun _ => .inl rfl
  · exact fun h => hread ▸ hs.disk (settled_of_move h id (by simp))

include hs hi in
theorem advance_sync {c : Call} {data : List Char} (ht : t = .sync c data) :
    Inv J k (s.advance J i t) := by
  subst ht
  have howns : Task.Owns s.files (.sync c data) := hs.owns _ (List.mem_of_getElem? hi)
  refine hs.move hi (.inl rfl) howns (.inl ?_) id ?_ ?_ ?_ (by simp) hs.log
  · simp [Task.claims]
  · rintro data' ⟨⟩
    exact hs.text_of_move hi rfl rfl (by simp)
  · exact fun _ => .inl rfl
  · exact fun h => hs.disk (settled_of_move h id (by simp))

include hs hi in
/-- The rename puts the copy on the disk; that is where the claim of this call settles. -/
theorem advance_rename {c : Call} {data : List Char} (ht : t = .rename c data) :
    Inv J k (s.advance J i t) := by
  subst ht
  have htmp : s.files.read .tmp = some data := hs.owns _ (List.mem_of_getElem? hi)
  obtain ⟨files, hfiles⟩ := Files.exists_rename (q := Name.claimed) htmp
  obtain ⟨l, hl, himp⟩ := hs.text _ (List.mem_of_getElem? hi) data rfl
  have hread : files.read .claimed = some (J.toStringPretty l) := by
    rw [Files.read_rename_self hfiles, htmp, hl]
  simp only [Store.advance, hfiles]
  refine hs.move hi (.inl rfl) trivial (.inl ?_) id ?_ ?_ ?_
    (by simp) hs.log
  · simp [Task.claims]
  · rintro data' ⟨⟩
  · exact fun _ => .inl rfl
  · intro h
    refine ⟨l, hread, himp ?_⟩
    by_cases hc : c = .insertIfAbsent k
    · exact .inl (by simp [Task.claims, hc])
    · exact .inr (settled_of_move h id (by simpa using hc))

include hs hi in
theorem advance_syncDir {c : Call} (ht : t = .syncDir c) : Inv J k (s.advance J i t) := by
  subst ht
  have hmem := List.mem_of_getElem? hi
  have hsettled : ∀ {claimed : ExtTreeSet String}, Store.Settled k ⟨s.files, claimed,
      s.tasks.set i .returned, s.log ++ [c.event (.ok ())]⟩ → s.Settled k := by
    intro _ h
    rcases h with h | h
    · rcases List.mem_append.1 h with h | h
      · exact .inl h
      · -- the report itself: the task stood at `syncDir`
        rw [List.mem_singleton] at h
        cases c <;> cases h
        exact .inr hmem
    · rcases List.mem_or_eq_of_mem_set h with h | h
      · exact .inr h
      · cases h
  refine hs.move hi (.inr ⟨rfl, by simp [Task.persisting]⟩) trivial (.inl ?_) id ?_
    (fun h => .inr (hsettled h)) (fun h => hs.disk (hsettled h)) (by simp) ?_
  · rw [List.count_append]
    cases c with
    | insertIfAbsent k' =>
      by_cases hk : k' = k <;> simp [Task.claims, Call.event, Except.map, hk]
    | insert k' => simp [Task.claims, Call.event]
    | remove k' => simp [Task.claims, Call.event]
  · rintro data ⟨⟩
  · refine hs.log.append fun hin r hr => ?_
    -- a second report of `k` would be one too many
    cases c with
    | insertIfAbsent k' =>
      cases hr
      have honce := hs.once
      have hpos := List.count_pos_iff.2 hin
      have : 0 < s.tasks.countP (Task.claims k) :=
        List.countP_pos_iff.2 ⟨_, hmem, by simp [Task.claims]⟩
      rw [Store.reports] at honce
      omega
    | insert k' => cases hr
    | remove k' => cases hr

omit hs in
/-- What the disk holds is what a restart loads. -/
theorem mem_load {files : Files Name} {l : List String}
    (h : files.read .claimed = some (J.toStringPretty l)) (hk : k ∈ l) : k ∈ load J files := by
  simp only [load, h, J.fromStr_toStringPretty, Option.getD_some]
  exact ExtTreeSet.mem_ofList.2 (by simpa using hk)

include hs in
/-- A restart keeps a claim that was reported: it is on the disk. -/
theorem crash : Inv J k (s.step J .crash) := by
  have hsettled : Store.Settled k (s.step J .crash) → s.Settled k := by
    rintro (h | h)
    · exact .inl h
    · cases h
  refine ⟨Nat.zero_le _, by simp [Store.step, new], ?_, ?_, by simp [Store.step, new],
    fun h => hs.disk (hsettled h), by simp [Store.step, new], hs.log⟩
  · have honce := hs.once
    simp only [Store.reports, Store.step, new, List.countP_nil] at honce ⊢
    omega
  · intro hk
    simp only [Store.reports, Store.step, new, List.countP_nil, Nat.zero_add]
    refine List.count_eq_zero.2 fun h => hk ?_
    obtain ⟨l, hread, hl⟩ := hs.disk (.inl h)
    exact mem_load hread hl

/-- One step of a run that takes its copies one at a time and does not remove `k`. -/
theorem step {a : Action} (hs : Inv J k s) (ha : s.Serialised a) (hk : a ≠ .call (.remove k)) :
    Inv J k (s.step J a) := by
  cases a with
  | call c =>
    have hsettled : Store.Settled k (s.step J (.call c)) → s.Settled k := by
      refine Or.imp_right fun h => ?_
      simpa [Store.step] using h
    have hreports : (s.step J (.call c)).reports k = s.reports k := by
      simp [Store.reports, Store.step, List.countP_append, Task.claims]
    refine ⟨?_, ?_, hreports ▸ hs.once, fun h => hreports ▸ hs.claimed h, ?_,
      fun h => hs.disk (hsettled h), ?_, hs.log⟩
    · simpa [Store.step, List.countP_append, Task.persisting] using hs.alone
    · intro t ht
      rcases List.mem_append.1 ht with ht | ht
      · exact hs.owns t ht
      · rw [List.mem_singleton.1 ht]
        trivial
    · intro t ht data hdata
      rcases List.mem_append.1 ht with ht | ht
      · obtain ⟨l, hl, himp⟩ := hs.text t ht data hdata
        exact ⟨l, hl, fun h => himp (h.imp_right hsettled)⟩
      · rw [List.mem_singleton.1 ht] at hdata
        cases hdata
    · intro t ht
      rcases List.mem_append.1 ht with ht | ht
      · exact hs.keep t ht
      · rw [List.mem_singleton.1 ht]
        rintro ⟨⟩
        exact hk rfl
  | step i =>
    simp only [Store.step]
    cases hi : s.tasks[i]? with
    | none => exact hs
    | some t =>
      cases t with
      | enter c => exact hs.advance_enter hi rfl
      | snapshot c => exact hs.advance_snapshot hi rfl (ha _ hi rfl)
      | create c data => exact hs.advance_create hi rfl
      | write c data f => exact hs.advance_write hi rfl
      | sync c data => exact hs.advance_sync hi rfl
      | rename c data => exact hs.advance_rename hi rfl
      | syncDir c => exact hs.advance_syncDir hi rfl
      | returned => exact hs
  | crash => exact hs.crash

end Inv

end Step

/-- A store that is opened has no call in progress and has reported nothing. -/
theorem Inv.new (J : Codec) (k : String) (files : Files Name) : Inv J k (new J files []) :=
  ⟨Nat.zero_le _, by simp [ClaimStore.new], by simp [Store.reports, ClaimStore.new],
    fun _ => by simp [Store.reports, ClaimStore.new], by simp [ClaimStore.new],
    fun h => by simp [Store.Settled, ClaimStore.new] at h, by simp [ClaimStore.new], .nil⟩

/-- **A deposit is credited once** when copies of the set are taken one at a time: after
    `insert_if_absent` has reported a key as newly claimed, it reports it as claimed before, across
    any interleaving of the other calls (none of which removes the key) and any number of
    crashes. -/
theorem claimed_once (J : Codec) (files : Files Name) (k : String) (as : List Action)
    (hser : Runs.Along (Store.step J) Store.Serialised (new J files []) as)
    (hk : .call (.remove k) ∉ as) :
    OnceIn k (Runs.run (Store.step J) (new J files []) as).log := by
  have halong := hser.and (q := fun a => a ≠ .call (.remove k)) fun a ha h => hk (h ▸ ha)
  exact (halong.invariant (fun _ _ h hs => Inv.step hs h.1 h.2) (Inv.new J k files)).log

/-! ## What can go wrong, and that it need not -/

/-- A spelling of lists of keys: every character is preceded by `+`, every key ends with `.`. -/
def spell (l : List String) : List Char :=
  l.flatMap fun k => k.toList.flatMap (fun c => ['+', c]) ++ ['.']

/-- Read a spelled list, `cur` being the characters of the key so far. -/
def unspell (cur : List Char) : List Char → Option (List String)
  | [] => if cur = [] then some [] else none
  | '.' :: rest => (unspell [] rest).map (String.ofList cur :: ·)
  | '+' :: c :: rest => unspell (cur ++ [c]) rest
  | _ => none

theorem unspell_key (cur rest : List Char) : ∀ k : List Char,
    unspell cur (k.flatMap (fun c => ['+', c]) ++ ['.'] ++ rest) =
      (unspell [] rest).map (String.ofList (cur ++ k) :: ·)
  | [] => by simp [unspell]
  | c :: k => by
    have := unspell_key (cur ++ [c]) rest k
    simpa [unspell] using this

theorem unspell_spell : ∀ l, unspell [] (spell l) = some l
  | [] => by simp [spell, unspell]
  | k :: l => by
    have h := unspell_key [] (spell l) k.toList
    rw [unspell_spell l] at h
    simpa [spell] using h

/-- The spelling as a codec. -/
def spelling : Codec := ⟨spell, unspell [], unspell_spell⟩

/-- Two claims, one after the other with a crash after each, and a second try of each. -/
theorem claimed_once_pair :
    OnceIn "a" (Runs.run (Store.step spelling) (new spelling (Files.empty Name) [])
      ([.call (.insertIfAbsent "a")] ++ List.replicate 7 (.step 0) ++
        [.crash, .call (.insertIfAbsent "a"), .step 0])).log :=
  claimed_once spelling (Files.empty Name) "a" _ (by decide +kernel) (by decide +kernel)

/-- The call for `a` takes its copy, then the call for `b` runs from beginning to end and reports
    `b` as newly claimed, then the call for `a` puts its older copy on the disk. -/
def staleCopy : List Action :=
  [.call (.insertIfAbsent "a"), .step 0, .step 0, .call (.insertIfAbsent "b")] ++
    List.replicate 7 (.step 1) ++ List.replicate 5 (.step 0)

/-- **A claim can be lost**: after the older copy has replaced the newer one, a restart forgets
    the claim of `b`, and `b` is reported as newly claimed again. -/
theorem claims_lost :
    ¬ ∀ (J : Codec) (files : Files Name) (k : String) (as : List Action),
      .call (.remove k) ∉ as →
      OnceIn k (Runs.run (Store.step J) (new J files []) as).log := by
  intro h
  have hlog : (Runs.run (Store.step spelling) (new spelling (Files.empty Name) [])
      (staleCopy ++ [.crash, .call (.insertIfAbsent "b")] ++ List.replicate 7 (.step 0))).log =
      [.insertIfAbsent "b" (.ok true), .insertIfAbsent "a" (.ok true),
        .insertIfAbsent "b" (.ok true)] := by
    decide +kernel
  have hpair := h spelling (Files.empty Name) "b"
    (staleCopy ++ [.crash, .call (.insertIfAbsent "b")] ++ List.replicate 7 (.step 0))
    (by decide +kernel)
  rw [hlog, OnceIn, List.pairwise_cons] at hpair
  cases hpair.1 (.insertIfAbsent "b" (.ok true)) (by simp) rfl (.ok true) rfl

end ClaimStore

end RougeChain.Bridge
