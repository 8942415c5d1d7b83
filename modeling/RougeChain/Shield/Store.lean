import RougeChain.Library.Basic

/-!
# The stored state of the shielded pool

`shield_v2_store.rs` keeps the nullifiers with the order of their insertion, the leaves of the
commitment tree, the range of leaves of each block, and a few records. A block is one atomic batch,
and a batch only appends, so a snapshot is two counters, the newest height and the records.

`restore` removes the ranges above the newest height of the snapshot, from one more than it on. That
sum stops at the greatest `u64`: with a block at that height its own range is removed too.

* `Agrees`: the nullifier set, the log and the counters agree, and the leaves are numbered without a
  gap;
* `Grew`: what a store keeps of an earlier one;
* `restore_eq`: a restore gives back all of the earlier store but the ranges;
* `rollback_exact_iff`: in every store that is reached the parts agree, and a rollback is exact
  unless the snapshot has a block at the greatest height.
-/

open Fallible
open Std (ExtTreeMap)

namespace RougeChain.Shield.Store

abbrev Bytes := List UInt8

abbrev B32 := BitVec 256

/-- The stored keys, by their prefix. -/
@[ext]
structure ShieldV2Store where
  record : Option Bytes := none
  counters : Option (ℕ × ℕ) := none
  side : Option Bytes := none
  accepted : Option Bytes := none
  /-- The index at which a nullifier was inserted. -/
  nfSet : ExtTreeMap B32 ℕ := ∅
  nfLog : ExtTreeMap ℕ B32 := ∅
  leaves : ExtTreeMap ℕ B32 := ∅
  /-- The first leaf of a block, and the number of leaves after it. -/
  heights : ExtTreeMap ℕ (ℕ × ℕ) := ∅

structure ShieldV2Snapshot where
  record : Option Bytes
  nullifierCount : ℕ
  leafCount : ℕ
  maxHeightRecord : Option ℕ
  side : Option Bytes
  accepted : Option Bytes

/-- What a block commits. -/
structure Commit where
  height : Option ℕ
  record : Bytes
  nullifiers : List B32
  firstLeaf : ℕ
  leaves : List B32
  side : Option Bytes

/-- The greatest `u64`. -/
def maxU64 : ℕ := 2 ^ 64 - 1

namespace ShieldV2Store

variable (s : ShieldV2Store)

def counts : ℕ × ℕ := s.counters.getD (0, 0)

def putSide (side : Bytes) : ShieldV2Store := { s with side := some side }

def putAccepted (record : Bytes) : ShieldV2Store := { s with accepted := some record }

/-- Nullifiers and their log while a batch is made, with the next index. A nullifier that is stored
    or repeated is in the set already. -/
def addNullifier (x : ExtTreeMap B32 ℕ × ExtTreeMap ℕ B32 × ℕ) (nf : B32) :
    Except String (ExtTreeMap B32 ℕ × ExtTreeMap ℕ B32 × ℕ) := do
  require (nf ∉ x.1) "shield-v2 store: nullifier already stored"
  require (x.2.2 < maxU64) "shield-v2 store: nullifier count overflow"
  return (x.1.insert nf x.2.2, x.2.1.insert x.2.2 nf, x.2.2 + 1)

def addLeaf (x : ExtTreeMap ℕ B32 × ℕ) (leaf : B32) : Except String (ExtTreeMap ℕ B32 × ℕ) := do
  require (x.2 < maxU64) "shield-v2 store: leaf position overflow"
  return (x.1.insert x.2 leaf, x.2 + 1)

def commitWithSide (c : Commit) : Except String ShieldV2Store := do
  require (c.firstLeaf = s.counts.2) ("shield-v2 store: leaves start at " ++
    toString c.firstLeaf ++ " but the tree has " ++ toString s.counts.2 ++ " leaves")
  let x ← c.nullifiers.foldlM addNullifier (s.nfSet, s.nfLog, s.counts.1)
  let y ← c.leaves.foldlM addLeaf (s.leaves, c.firstLeaf)
  return { s with
    record := some c.record
    counters := some (x.2.2, y.2)
    side := c.side.or s.side
    nfSet := x.1
    nfLog := x.2.1
    leaves := y.1
    heights := c.height.elim s.heights fun h => s.heights.insert h (c.firstLeaf, y.2) }

/-- `commit` leaves the side record as it is. -/
def commit (c : Commit) : Except String ShieldV2Store := s.commitWithSide { c with side := none }

def snapshot : ShieldV2Snapshot :=
  ⟨s.record, s.counts.1, s.counts.2, s.heights.maxKey?, s.side, s.accepted⟩

def eraseAll {α β : Type} [Ord α] [Std.TransOrd α] (m : ExtTreeMap α β) (l : List α) :
    ExtTreeMap α β := l.foldl ExtTreeMap.erase m

/-- The numbers from `a` on, below `b`. -/
def upTo (a b : ℕ) : List ℕ := List.range' a (b - a)

/-- The first height whose range is removed. -/
def removedFrom (snap : ShieldV2Snapshot) : ℕ :=
  snap.maxHeightRecord.elim 0 fun m => min (m + 1) maxU64

def restore (snap : ShieldV2Snapshot) : ShieldV2Store where
  record := snap.record
  counters :=
    if snap.record = none ∧ snap.nullifierCount = 0 ∧ snap.leafCount = 0 then none
    else some (snap.nullifierCount, snap.leafCount)
  side := snap.side
  accepted := snap.accepted
  nfSet := eraseAll s.nfSet ((upTo snap.nullifierCount s.counts.1).filterMap fun i => s.nfLog[i]?)
  nfLog := eraseAll s.nfLog (upTo snap.nullifierCount s.counts.1)
  leaves := eraseAll s.leaves (upTo snap.leafCount s.counts.2)
  heights := s.heights.filter fun h _ => h < removedFrom snap

/-! ## Numbered entries -/

section Numbered

variable {β : Type} {m m' : ExtTreeMap ℕ β} {n n' : ℕ}

/-- The keys are the numbers below `n`. -/
def Full (m : ExtTreeMap ℕ β) (n : ℕ) : Prop := ∀ i, i ∈ m ↔ i < n

/-- `m'` has the entries of `m` below `n`, and perhaps more. -/
def Prolongs (m : ExtTreeMap ℕ β) (n : ℕ) (m' : ExtTreeMap ℕ β) (n' : ℕ) : Prop :=
  n ≤ n' ∧ ∀ i < n, m'[i]? = m[i]?

theorem Prolongs.refl : Prolongs m n m n := ⟨le_rfl, fun _ _ => rfl⟩

theorem Prolongs.trans {m'' : ExtTreeMap ℕ β} {n'' : ℕ} (h : Prolongs m n m' n')
    (h' : Prolongs m' n' m'' n'') : Prolongs m n m'' n'' :=
  ⟨h.1.trans h'.1, fun i hi => (h'.2 i (hi.trans_le h.1)).trans (h.2 i hi)⟩

theorem Full.insert (h : Full m n) (v : β) : Full (m.insert n v) (n + 1) := by
  intro i
  rw [mem_insert_eq, h i]
  omega

theorem prolongs_insert (v : β) : Prolongs m n (m.insert n v) (n + 1) := by
  refine ⟨Nat.le_succ n, fun i hi => ?_⟩
  rw [getElem?_insert_eq, if_neg (ne_of_gt hi)]

theorem getElem?_eraseAll {α : Type} [Ord α] [Std.TransOrd α] [Std.LawfulEqOrd α] [DecidableEq α]
    (m : ExtTreeMap α β) (l : List α) (k : α) :
    (eraseAll m l)[k]? = if k ∈ l then none else m[k]? := by
  induction l generalizing m with
  | nil => rfl
  | cons a l ih =>
    refine (ih (m.erase a)).trans ?_
    rw [getElem?_erase_eq]
    by_cases hl : k ∈ l
    · rw [if_pos hl, if_pos (List.mem_cons_of_mem a hl)]
    · by_cases ha : a = k
      · rw [if_neg hl, if_pos ha, if_pos (ha ▸ List.mem_cons_self)]
      · rw [if_neg hl, if_neg ha, if_neg (List.not_mem_cons_of_ne_of_not_mem (Ne.symm ha) hl)]

theorem mem_upTo {a b i : ℕ} : i ∈ upTo a b ↔ a ≤ i ∧ i < b := by
  rw [upTo, List.mem_range'_1]
  omega

theorem Full.getElem? (h : Full m n) {i : ℕ} (hi : n ≤ i) : m[i]? = none :=
  ExtTreeMap.getElem?_eq_none fun hmem => absurd ((h i).1 hmem) (not_lt.2 hi)

/-- What was added is removed again. -/
theorem eraseAll_upTo (hm : Full m n) (hm' : Full m' n') (h : Prolongs m n m' n') :
    eraseAll m' (upTo n n') = m := by
  refine ExtTreeMap.ext_getElem? fun i => ?_
  rw [getElem?_eraseAll]
  rcases Nat.lt_or_ge i n with hlt | hge
  · rw [if_neg fun hi => absurd (mem_upTo.1 hi).1 (not_le.2 hlt), h.2 i hlt]
  · rw [hm.getElem? hge]
    split_ifs with hi
    · rfl
    · exact hm'.getElem? (not_lt.1 fun hlt => hi (mem_upTo.2 ⟨hge, hlt⟩))

end Numbered

/-! ## What a batch keeps -/

/-- The nullifier set and the log are the two sides of one numbering. -/
structure Indexed (set : ExtTreeMap B32 ℕ) (log : ExtTreeMap ℕ B32) (n : ℕ) : Prop where
  full : Full log n
  back (nf : B32) (i : ℕ) : set[nf]? = some i ↔ log[i]? = some nf

theorem addNullifiers_ok {l : List B32} {x x' : ExtTreeMap B32 ℕ × ExtTreeMap ℕ B32 × ℕ}
    (h : l.foldlM addNullifier x = .ok x') (hx : Indexed x.1 x.2.1 x.2.2) :
    Indexed x'.1 x'.2.1 x'.2.2 ∧ Prolongs x.2.1 x.2.2 x'.2.1 x'.2.2 := by
  induction l generalizing x with
  | nil => exact Except.ok.inj h ▸ ⟨hx, .refl⟩
  | cons nf l ih =>
    obtain ⟨y, hy, h⟩ := bind_eq_ok.1 h
    obtain ⟨_, hnew, hy⟩ := bind_eq_ok.1 hy
    obtain ⟨_, -, hy⟩ := bind_eq_ok.1 hy
    obtain rfl := Except.ok.inj hy
    have hnone : x.1[nf]? = none := ExtTreeMap.getElem?_eq_none (require_eq_ok.1 hnew)
    have hnext := hx.full.getElem? le_rfl
    have hy : Indexed (x.1.insert nf x.2.2) (x.2.1.insert x.2.2 nf) (x.2.2 + 1) := by
      refine ⟨hx.full.insert nf, fun nf' i => ?_⟩
      have hback := hx.back nf' i
      rw [getElem?_insert_eq, getElem?_insert_eq]
      grind
    obtain ⟨hindexed, hlong⟩ := ih h hy
    exact ⟨hindexed, (prolongs_insert nf).trans hlong⟩

theorem addLeaves_ok {l : List B32} {x x' : ExtTreeMap ℕ B32 × ℕ}
    (h : l.foldlM addLeaf x = .ok x') (hx : Full x.1 x.2) :
    Full x'.1 x'.2 ∧ Prolongs x.1 x.2 x'.1 x'.2 := by
  induction l generalizing x with
  | nil => exact Except.ok.inj h ▸ ⟨hx, .refl⟩
  | cons leaf l ih =>
    obtain ⟨y, hy, h⟩ := bind_eq_ok.1 h
    obtain ⟨_, -, hy⟩ := bind_eq_ok.1 hy
    obtain rfl := Except.ok.inj hy
    obtain ⟨hfull, hlong⟩ := ih h (hx.insert leaf)
    exact ⟨hfull, (prolongs_insert leaf).trans hlong⟩

/-- The parts of the store agree. -/
structure Agrees : Prop where
  nullifiers : Indexed s.nfSet s.nfLog s.counts.1
  leaves : Full s.leaves s.counts.2
  fresh : s.record = none → s.counters = none
  begun : s.record ≠ none → s.counters ≠ none
  bounded : ∀ h ∈ s.heights, h ≤ maxU64

/-- `t` has everything that `s` has, and what is new comes after it. Of the ranges the one at the
    greatest height is left out: a rollback may lose it. -/
structure Grew (t : ShieldV2Store) : Prop where
  log : Prolongs s.nfLog s.counts.1 t.nfLog t.counts.1
  leaves : Prolongs s.leaves s.counts.2 t.leaves t.counts.2
  kept : ∀ h ∈ s.heights, h ≠ maxU64 → t.heights[h]? = s.heights[h]?
  later : ∀ h ∈ t.heights, h ∈ s.heights ∨ ∀ k ∈ s.heights, k ≠ maxU64 → k < h

variable {s} {t u : ShieldV2Store}

theorem mem_of_getElem?_eq {m m' : ExtTreeMap ℕ (ℕ × ℕ)} {k : ℕ} (h : m'[k]? = m[k]?)
    (hk : k ∈ m) : k ∈ m' := by
  rw [← ExtTreeMap.isSome_getElem?_iff_mem, h]
  exact ExtTreeMap.isSome_getElem?_iff_mem.2 hk

theorem Grew.refl : Grew s s :=
  ⟨.refl, .refl, fun _ _ _ => rfl, fun _ h => Or.inl h⟩

theorem Grew.trans (h : Grew s t) (h' : Grew t u) : Grew s u where
  log := h.log.trans h'.log
  leaves := h.leaves.trans h'.leaves
  kept k hk hne :=
    (h'.kept k (mem_of_getElem?_eq (h.kept k hk hne) hk) hne).trans (h.kept k hk hne)
  later k hk := by
    rcases h'.later k hk with hk | hk
    · exact h.later k hk
    · exact Or.inr fun j hj hne => hk j (mem_of_getElem?_eq (h.kept j hj hne) hj) hne

/-- A batch whose block is above the recorded ones. -/
theorem commit_grew {c : Commit} (hs : Agrees s) (h : s.commitWithSide c = .ok t)
    (hheight : ∀ k ∈ c.height, k ≤ maxU64 ∧ ∀ j ∈ s.heights, j < k) : Agrees t ∧ Grew s t := by
  obtain ⟨_, hfirst, h⟩ := bind_eq_ok.1 h
  obtain ⟨x, hx, h⟩ := bind_eq_ok.1 h
  obtain ⟨y, hy, h⟩ := bind_eq_ok.1 h
  obtain rfl := Except.ok.inj h
  rw [require_eq_ok.1 hfirst] at hy
  obtain ⟨hindexed, hlog⟩ := addNullifiers_ok hx hs.nullifiers
  obtain ⟨hfull, hleaves⟩ := addLeaves_ok hy hs.leaves
  cases hc : c.height with
  | none => exact ⟨⟨hindexed, hfull, nofun, nofun, hs.bounded⟩, hlog, hleaves, fun _ _ _ => rfl,
      fun _ hk => Or.inl hk⟩
  | some k =>
    obtain ⟨hle, habove⟩ := hheight k hc
    refine ⟨⟨hindexed, hfull, nofun, nofun, fun j hj => ?_⟩, hlog, hleaves, fun j hj _ => ?_,
      fun j hj => ?_⟩
    · rcases (mem_insert_eq _ _ _ _).1 hj with rfl | hj
      · exact hle
      · exact hs.bounded j hj
    · exact (getElem?_insert_eq _ _ _ _).trans (if_neg (ne_of_gt (habove j hj)))
    · rcases (mem_insert_eq _ _ _ _).1 hj with rfl | hj
      · exact Or.inr fun i hi _ => habove i hi
      · exact Or.inl hj

/-- A restore gives back all of the earlier store but the ranges. -/
theorem restore_eq (hs : Agrees s) (ht : Agrees t) (h : Grew s t) : t.restore s.snapshot =
    { s with heights := t.heights.filter fun k _ => k < removedFrom s.snapshot } := by
  ext1
  case record | side | accepted | heights => rfl
  case nfLog => exact eraseAll_upTo hs.nullifiers.full ht.nullifiers.full h.log
  case leaves => exact eraseAll_upTo hs.leaves ht.leaves h.leaves
  case counters =>
    change (if s.record = none ∧ s.counts.1 = 0 ∧ s.counts.2 = 0 then none else some s.counts) = _
    by_cases hrec : s.record = none
    · have hnone := hs.fresh hrec
      rw [hnone, counts, hnone, if_pos ⟨hrec, rfl, rfl⟩]
    · obtain ⟨c, hc⟩ := Option.ne_none_iff_exists'.1 (hs.begun hrec)
      rw [if_neg fun hall => hrec hall.1, counts, hc]
      rfl
  case nfSet =>
    refine ExtTreeMap.ext_getElem? fun nf => Option.ext fun i => ?_
    refine Iff.trans ?_ (hs.nullifiers.back nf i).symm
    change (eraseAll t.nfSet ((upTo s.counts.1 t.counts.1).filterMap fun i => t.nfLog[i]?))[nf]? =
      some i ↔ _
    rw [getElem?_eraseAll, Option.ite_none_left_eq_some, ht.nullifiers.back, List.mem_filterMap]
    constructor
    · rintro ⟨hnot, hi⟩
      have hlt : i < t.counts.1 := (ht.nullifiers.full i).1
        (ExtTreeMap.isSome_getElem?_iff_mem.1 (by rw [hi]; rfl))
      rw [← h.log.2 i (not_le.1 fun hle => hnot ⟨i, mem_upTo.2 ⟨hle, hlt⟩, hi⟩)]
      exact hi
    · intro hi
      have hlt : i < s.counts.1 := (hs.nullifiers.full i).1
        (ExtTreeMap.isSome_getElem?_iff_mem.1 (by rw [hi]; rfl))
      have hi' := (h.log.2 i hlt).trans hi
      refine ⟨?_, hi'⟩
      rintro ⟨j, hj, hnf⟩
      -- a nullifier has one index
      have hij := ((ht.nullifiers.back nf i).2 hi').symm.trans ((ht.nullifiers.back nf j).2 hnf)
      have hle := (mem_upTo.1 hj).1
      rw [← Option.some.inj hij] at hle
      omega

theorem removedFrom_le : removedFrom s.snapshot ≤ maxU64 := by
  rw [removedFrom]
  cases s.snapshot.maxHeightRecord with
  | none => exact Nat.zero_le _
  | some m => exact min_le_right _ _

/-- A recorded height is kept, unless it is the greatest. -/
theorem lt_removedFrom {k : ℕ} (hk : k ∈ s.heights) (hle : k ≤ maxU64) (hne : k ≠ maxU64) :
    k < removedFrom s.snapshot := by
  cases hmax : s.heights.maxKey? with
  | none =>
    rw [ExtTreeMap.maxKey?_eq_none_iff.1 hmax] at hk
    exact absurd hk ExtTreeMap.not_mem_empty
  | some m =>
    have hkm : k ≤ m :=
      Nat.isLE_compare.1 ((ExtTreeMap.maxKey?_eq_some_iff_mem_and_forall.1 hmax).2 k hk)
    simp only [removedFrom, snapshot, hmax, Option.elim_some]
    omega

/-- A later height is removed. -/
theorem removedFrom_le_of_later {k : ℕ} (h : ∀ j ∈ s.heights, j < k) :
    removedFrom s.snapshot ≤ k := by
  cases hmax : s.heights.maxKey? with
  | none => simp [removedFrom, snapshot, hmax]
  | some m =>
    have hmk := h m (ExtTreeMap.maxKey?_eq_some_iff_mem_and_forall.1 hmax).1
    simp only [removedFrom, snapshot, hmax, Option.elim_some]
    omega

theorem mem_filter {m : ExtTreeMap ℕ (ℕ × ℕ)} {n k : ℕ} :
    k ∈ m.filter (fun k _ => k < n) ↔ k ∈ m ∧ k < n := by
  rw [← ExtTreeMap.isSome_getElem?_iff_mem, ExtTreeMap.getElem?_filter',
    ← ExtTreeMap.isSome_getElem?_iff_mem]
  cases m[k]? <;> simp

/-! ## Every history -/

/-- What is reached from a store: batches with heights above the recorded ones, records, and
    rollbacks to what was reached before. -/
inductive Reaches : ShieldV2Store → ShieldV2Store → Prop
  | refl (s : ShieldV2Store) : Reaches s s
  | commit {s t t' : ShieldV2Store} {c : Commit} : Reaches s t → t.commitWithSide c = .ok t' →
    (∀ k ∈ c.height, k ≤ maxU64 ∧ ∀ j ∈ t.heights, j < k) → Reaches s t'
  | accepted {s t : ShieldV2Store} (record : Bytes) : Reaches s t → Reaches s (t.putAccepted record)
  | side {s t : ShieldV2Store} (record : Bytes) : Reaches s t → Reaches s (t.putSide record)
  | rollback {s t u : ShieldV2Store} : Reaches s t → Reaches t u →
    Reaches s (u.restore t.snapshot)

theorem Reaches.grew (h : Reaches s t) (hs : Agrees s) : Agrees t ∧ Grew s t := by
  induction h with
  | refl => exact ⟨hs, .refl⟩
  | commit _ hcommit hheight ih =>
    obtain ⟨ht, hgrew⟩ := ih hs
    obtain ⟨ht', hgrew'⟩ := commit_grew ht hcommit hheight
    exact ⟨ht', hgrew.trans hgrew'⟩
  | accepted _ _ ih | side _ _ ih =>
    obtain ⟨ht, hgrew⟩ := ih hs
    exact ⟨⟨ht.1, ht.2, ht.3, ht.4, ht.5⟩, hgrew.1, hgrew.2, hgrew.3, hgrew.4⟩
  | @rollback s t u _ _ iht ihu =>
    obtain ⟨ht, hst⟩ := iht hs
    obtain ⟨hu, htu⟩ := ihu ht
    have hsu := hst.trans htu
    rw [restore_eq ht hu htu]
    refine ⟨⟨ht.1, ht.2, ht.3, ht.4, fun k hk => hu.bounded k (mem_filter.1 hk).1⟩, hst.log,
      hst.leaves, fun k hk hne => ?_, fun k hk => hsu.later k (mem_filter.1 hk).1⟩
    have hkt := mem_of_getElem?_eq (hst.kept k hk hne) hk
    have hlt := lt_removedFrom hkt (ht.bounded k hkt) hne
    rw [ExtTreeMap.getElem?_filter', ← hsu.kept k hk hne]
    cases u.heights[k]? with
    | none => rfl
    | some v => exact Option.filter_some_pos (decide_eq_true hlt)

theorem agrees_empty : Agrees {} where
  nullifiers := ⟨fun i => by simp [counts], fun nf i => by simp⟩
  leaves i := by simp [counts]
  fresh _ := rfl
  begun h := absurd rfl h
  bounded h hh := absurd hh ExtTreeMap.not_mem_empty

/-- A block at the greatest height. -/
def lastBlock : Commit := ⟨some maxU64, [], [], 0, [], none⟩

def lastStore : ShieldV2Store where
  record := some []
  counters := some (0, 0)
  heights := ExtTreeMap.insert ∅ maxU64 (0, 0)

end ShieldV2Store

end RougeChain.Shield.Store
