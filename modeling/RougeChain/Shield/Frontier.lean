import RougeChain.Library.Frontier
import RougeChain.Shield.Pool

/-!
# The frontier is the tree

The pool keeps its commitment tree as a frontier of 32 digests, a count and a root
(`Shield.Tree`), and appends leaves to it one by one. Here the frontier is compared with the
complete tree of depth 32 over all leaves, by the library of frontiers at `Poseidon2.merge`.

* `carry_holds`: one leaf carried upward turns the frontier of `n` leaves into that of `n + 1`;
* `rootFromFrontier_eq`: the path from the first empty leaf gives the root;
* `frontier_is_complete_tree`: the tree after any leaves, from the empty one, and from its bytes.
-/

namespace RougeChain.Shield

/-! ## Digests survive their bytes -/

theorem getElem_digestToBytes (d : Digest) (i : Fin 8) {j : ℕ} (hj : j < 4)
    (hk : 4 * i.val + j < 32) :
    ((digestToBytes d)[4 * i.val + j]).toNat = (d i).val / 2 ^ (8 * j) % 2 ^ 8 := by
  have hi : (⟨(4 * i.val + j) / 4, by omega⟩ : Fin 8) = i := Fin.ext (by dsimp only; omega)
  have hmod : (4 * i.val + j) % 4 = j := by omega
  simp only [digestToBytes, Vector.getElem_ofFn, hi, hmod, UInt8.toNat_ofNat']

theorem word_digestToBytes (d : Digest) (i : Fin 8) : word (digestToBytes d) i = (d i).val := by
  have hlt : (d i).val < 2 ^ 32 := (ZMod.val_lt (d i)).trans (by decide)
  have h0 := getElem_digestToBytes d i (j := 0) (by decide) (by omega)
  have h1 := getElem_digestToBytes d i (j := 1) (by decide) (by omega)
  have h2 := getElem_digestToBytes d i (j := 2) (by decide) (by omega)
  have h3 := getElem_digestToBytes d i (j := 3) (by decide) (by omega)
  simp only [Nat.add_zero] at h0
  rw [word, h0, h1, h2, h3]
  omega

theorem digestFromBytes_digestToBytes (d : Digest) :
    digestFromBytes (digestToBytes d) = some d := by
  have hlt (i : Fin 8) : word (digestToBytes d) i < modulus := by
    rw [word_digestToBytes]
    exact ZMod.val_lt (d i)
  rw [digestFromBytes, if_pos hlt]
  refine congrArg some (funext fun i => ?_)
  rw [word_digestToBytes, ZMod.natCast_zmod_val]

theorem allDigests_digestToBytes {n : ℕ} (f : Fin n → Digest) :
    allDigests (fun l => digestToBytes (f l)) = some f := by
  simp only [allDigests, digestFromBytes_digestToBytes, Option.isSome_some, implies_true, if_true,
    Option.getD_some]

/-! ## The frontier of some leaves -/

section Frontier

variable (H : Poseidon2)

/-- The leaf at a position: the zero digest after the last one. -/
def leafAt (leaves : List Digest) (i : ℕ) : Digest := leaves.getD i 0

/-- The root of subtree `i` of height `h`, with zero digests after the leaves. -/
def subtreeRoot (leaves : List Digest) (h i : ℕ) : Digest :=
  Frontier.node H.merge (leafAt leaves) h i

/-- The root of the complete tree of depth 32 whose first leaves are these, and whose other leaves
    are the zero digest. -/
def completeRoot (leaves : List Digest) : Digest := subtreeRoot H leaves treeDepth 0

/-- The leaves appended one by one to the tree that the state holds. -/
def appendAll (state : PoolState) (leaves : List Digest) : Except PoolError Tree := do
  let tree ← Tree.load state
  return leaves.foldl (Tree.append H) tree

/-- The state holds the tree in its byte form. -/
structure Tree.StoredAs (t : Tree) (state : PoolState) : Prop where
  noteCount : state.noteCount = t.count
  treeRoot : state.treeRoot = digestToBytes t.root
  frontier : ∀ l, state.frontier l = digestToBytes (t.frontier l)

/-- The tree holds the leaves. -/
structure Tree.Holds (t : Tree) (leaves : List Digest) : Prop where
  count : t.count.toNat = leaves.length
  root : t.root = completeRoot H leaves
  frontier : ∀ l : Fin treeDepth,
    t.frontier l = Frontier.slot H.merge 0 (leafAt leaves) leaves.length l

variable {H}

theorem leafAt_of_le {leaves : List Digest} {i : ℕ} (h : leaves.length ≤ i) :
    leafAt leaves i = 0 := List.getD_eq_default _ _ h

theorem leafAt_append {leaves rest : List Digest} {i : ℕ} (h : i < leaves.length) :
    leafAt (leaves ++ rest) i = leafAt leaves i := List.getD_append _ _ _ _ h

theorem leafAt_concat (leaves : List Digest) (leaf : Digest) :
    leafAt (leaves ++ [leaf]) leaves.length = leaf := by
  rw [leafAt, List.getD_append_right _ _ _ _ le_rfl, Nat.sub_self]
  rfl

theorem emptySubtree_eq (l : ℕ) : emptySubtree H l = Frontier.empty H.merge 0 l := by
  induction l with
  | zero => rfl
  | succ l ih => rw [emptySubtree, Frontier.empty, ih]

/-- The source's test of a bit. -/
theorem countBit_toNat (count : UInt64) (l : Fin treeDepth) :
    (countBit count l).toNat = (count.toNat.testBit l).toNat := by
  have hlt : l.val < 32 := l.isLt
  have hl : l.val % 2 ^ 64 % 64 = l.val := by omega
  rw [countBit, UInt64.toNat_and, UInt64.toNat_shiftRight, UInt64.toNat_ofNat', hl,
    UInt64.toNat_one, Nat.and_one_is_mod, Nat.shiftRight_eq_div_pow, Nat.toNat_testBit]

theorem countBit_eq_one (count : UInt64) (l : Fin treeDepth) :
    countBit count l = 1 ↔ count.toNat.testBit l = true := by
  rw [← UInt64.toNat_inj, countBit_toNat]
  cases count.toNat.testBit l <;> decide

theorem countBit_eq_zero (count : UInt64) (l : Fin treeDepth) :
    countBit count l = 0 ↔ count.toNat.testBit l = false := by
  rw [← UInt64.toNat_inj, countBit_toNat]
  cases count.toNat.testBit l <;> decide

/-! ## The root from the frontier -/

/-- On level `k` the running node is the subtree of the first empty leaf. -/
theorem foldl_levels {leaves : List Digest} {frontier : Fin treeDepth → Digest} {count : UInt64}
    (hcount : count.toNat = leaves.length)
    (hslots : ∀ l : Fin treeDepth,
      frontier l = Frontier.slot H.merge 0 (leafAt leaves) leaves.length l)
    {k : ℕ} (hk : k ≤ treeDepth) :
    ((List.finRange treeDepth).drop k).foldl (fun cur l =>
      if countBit count l = 1 then H.merge (frontier l) cur else H.merge cur (emptySubtree H l))
      (subtreeRoot H leaves k (leaves.length / 2 ^ k)) =
    subtreeRoot H leaves treeDepth (leaves.length / 2 ^ treeDepth) := by
  induction hj : treeDepth - k generalizing k with
  | zero =>
    obtain rfl : k = treeDepth := by omega
    rw [List.drop_of_length_le (by rw [List.length_finRange])]
    rfl
  | succ j ih =>
    have hlt : k < treeDepth := by omega
    rw [Frontier.drop_finRange hlt, List.foldl_cons]
    refine Eq.trans (congrArg (List.foldl _ · _) ?_) (ih hlt (by omega))
    -- the sibling on this level is in the frontier, or is empty
    cases hbit : leaves.length.testBit k with
    | true =>
      rw [if_pos ((countBit_eq_one _ _).2 (hcount ▸ hbit)), hslots, Frontier.slot, if_pos hbit]
      exact (Frontier.node_succ_of_bit hbit).symm
    | false =>
      rw [if_neg fun h => Bool.false_ne_true (hbit.symm.trans (hcount ▸ (countBit_eq_one _ _).1 h)),
        emptySubtree_eq]
      exact (Frontier.node_succ_of_not_bit hbit fun j hj => leafAt_of_le hj.le).symm

theorem rootFromFrontier_eq {leaves : List Digest} {frontier : Fin treeDepth → Digest}
    {count : UInt64} (hcount : count.toNat = leaves.length)
    (hslots : ∀ l : Fin treeDepth,
      frontier l = Frontier.slot H.merge 0 (leafAt leaves) leaves.length l)
    (hroom : leaves.length < 2 ^ treeDepth) :
    rootFromFrontier H frontier count = completeRoot H leaves := by
  have hfold := foldl_levels hcount hslots (Nat.zero_le treeDepth)
  have hstart : subtreeRoot H leaves 0 (leaves.length / 2 ^ 0) = emptySubtree H 0 := by
    rw [pow_zero, Nat.div_one]
    exact leafAt_of_le le_rfl
  rw [hstart, List.drop_zero, Nat.div_eq_of_lt hroom] at hfold
  exact hfold

/-! ## One more leaf -/

/-- What the loop of `append` leaves: the frontier of one more leaf; and the root, if the node was
    carried out of the last level. -/
structure Carried (H : Poseidon2) (leaves : List Digest)
    (out : (Fin treeDepth → Digest) × Digest × Bool) : Prop where
  frontier : ∀ l : Fin treeDepth,
    out.1 l = Frontier.slot H.merge 0 (leafAt leaves) leaves.length l
  full : out.2.2 = true → 2 ^ treeDepth ∣ leaves.length ∧
    out.2.1 = subtreeRoot H leaves treeDepth ((leaves.length - 1) / 2 ^ treeDepth)
  room : out.2.2 = false → ¬ 2 ^ treeDepth ∣ leaves.length

/-- The loop from level `k` on: the bits below are set, so their slots are cleared already, and the
    node is the subtree that the new leaf completes on this level. -/
theorem carry_holds {leaves : List Digest} {leaf : Digest} {count : UInt64}
    (hcount : count.toNat = leaves.length) {k : ℕ} (hk : k ≤ treeDepth)
    (hbits : 2 ^ k ∣ leaves.length + 1) {frontier : Fin treeDepth → Digest}
    (hfrontier : ∀ l : Fin treeDepth, frontier l =
      if l < k then 0 else Frontier.slot H.merge 0 (leafAt leaves) leaves.length l) :
    Carried H (leaves ++ [leaf]) (carry H count ((List.finRange treeDepth).drop k) frontier
      (subtreeRoot H (leaves ++ [leaf]) k (leaves.length / 2 ^ k))) := by
  have hlength : (leaves ++ [leaf]).length = leaves.length + 1 := List.length_append
  have hsame : ∀ j < leaves.length, leafAt (leaves ++ [leaf]) j = leafAt leaves j :=
    fun j hj => leafAt_append hj
  induction hj : treeDepth - k generalizing k frontier with
  | zero =>
    obtain rfl : k = treeDepth := by omega
    rw [List.drop_of_length_le (by rw [List.length_finRange]), carry]
    refine ⟨fun l => ?_, fun _ => ?_, fun h => nomatch h⟩
    · rw [hlength, Frontier.slot_succ_of_full hbits l.isLt]
      exact (hfrontier l).trans (if_pos l.isLt)
    · rw [hlength, Nat.add_sub_cancel]
      exact ⟨hbits, rfl⟩
  | succ j ih =>
    have hlt : k < treeDepth := by omega
    rw [Frontier.drop_finRange hlt, carry]
    cases hbit : leaves.length.testBit k with
    | false =>
      -- the node waits here for its right sibling
      rw [if_pos ((countBit_eq_zero _ _).2 (hcount ▸ hbit))]
      refine ⟨fun l => ?_, (nomatch ·), fun _ hdvd => ?_⟩
      · rw [hlength, Frontier.slot_succ hbits hbit hsame]
        dsimp only
        by_cases hl : l = ⟨k, hlt⟩
        · subst hl
          rw [Function.update_self, if_neg (lt_irrefl _), if_pos rfl]
          rfl
        · have hne : l.val ≠ k := fun h => hl (Fin.ext h)
          rw [Function.update_of_ne hl, hfrontier, if_neg hne]
      · rw [hlength] at hdvd
        have hnext := Nat.dvd_trans (pow_dvd_pow 2 hlt) hdvd
        obtain ⟨q, hq⟩ := Frontier.exists_succ_eq hnext
        have hplace : leaves.length / 2 ^ k = 2 * q + 1 :=
          Frontier.div_of_succ_eq (by rw [hq, pow_succ, Nat.mul_assoc]; rfl)
        rw [Frontier.testBit_eq_false_iff, hplace] at hbit
        omega
    | true =>
      -- its left sibling was waiting: both are joined, and the slot is cleared
      rw [if_neg fun h => Bool.false_ne_true (((countBit_eq_zero _ _).1 h).symm.trans
        (hcount ▸ hbit))]
      have hjoin : H.merge (frontier ⟨k, hlt⟩)
          (subtreeRoot H (leaves ++ [leaf]) k (leaves.length / 2 ^ k)) =
          subtreeRoot H (leaves ++ [leaf]) (k + 1) (leaves.length / 2 ^ (k + 1)) := by
        rw [hfrontier, if_neg (lt_irrefl k), Frontier.slot, if_pos hbit]
        refine Eq.trans (congrArg (H.merge · _) ?_) (Frontier.node_succ_of_bit hbit).symm
        exact Frontier.node_congr fun i hi => (hsame i (Frontier.lt_of_div_eq hbit hi)).symm
      rw [hjoin]
      refine ih hlt (Frontier.dvd_succ_of_bit hbits hbit) (fun l => ?_) (by omega)
      by_cases hl : l = ⟨k, hlt⟩
      · subst hl
        rw [Function.update_self, if_pos (Nat.lt_succ_self k)]
      · have hne : l.val ≠ k := fun h => hl (Fin.ext h)
        rw [Function.update_of_ne hl, hfrontier]
        exact if_congr (by omega) rfl rfl

theorem Tree.append_root (t : Tree) (leaf : Digest) :
    let out := carry H t.count (List.finRange treeDepth) t.frontier leaf
    (t.append H leaf).root =
      if out.2.2 then out.2.1 else rootFromFrontier H out.1 (t.count + 1) := rfl

theorem Tree.Holds.append {t : Tree} {leaves : List Digest} (h : t.Holds H leaves) (leaf : Digest)
    (hroom : leaves.length < 2 ^ treeDepth) : (t.append H leaf).Holds H (leaves ++ [leaf]) := by
  have hlength : (leaves ++ [leaf]).length = leaves.length + 1 := List.length_append
  have hcount : (t.count + 1).toNat = (leaves ++ [leaf]).length := by
    rw [hlength, ← h.count]
    refine toNat_succ ?_
    rw [h.count]
    exact (Nat.succ_le_of_lt hroom).trans_lt (by decide)
  have hleaf : subtreeRoot H (leaves ++ [leaf]) 0 (leaves.length / 2 ^ 0) = leaf := by
    rw [pow_zero, Nat.div_one]
    exact leafAt_concat leaves leaf
  have hcarried := @carry_holds H _ leaf _ h.count _ (Nat.zero_le treeDepth)
    (by rw [pow_zero]; exact one_dvd _) _
    fun l => (h.frontier l).trans (if_neg (Nat.not_lt_zero _)).symm
  rw [hleaf, List.drop_zero] at hcarried
  refine ⟨hcount, ?_, hcarried.frontier⟩
  rw [Tree.append_root]
  split_ifs with hout
  · -- only the very last leaf is carried out of the top
    rw [(hcarried.full hout).2, hlength, Nat.add_sub_cancel, Nat.div_eq_of_lt hroom]
    rfl
  · have hmore := hcarried.room (Bool.eq_false_iff.2 hout)
    refine rootFromFrontier_eq hcount hcarried.frontier ?_
    rw [hlength] at hmore ⊢
    refine lt_of_le_of_ne hroom fun heq => hmore ?_
    rw [heq]

theorem Tree.Holds.foldl {t : Tree} {leaves : List Digest} (h : t.Holds H leaves)
    (rest : List Digest) (hroom : (leaves ++ rest).length ≤ 2 ^ treeDepth) :
    (rest.foldl (Tree.append H) t).Holds H (leaves ++ rest) := by
  induction rest generalizing t leaves with
  | nil => rwa [List.append_nil]
  | cons leaf rest ih =>
    rw [List.append_cons] at hroom ⊢
    refine ih (h.append leaf ?_) hroom
    simp only [List.length_append, List.length_singleton] at hroom
    omega

/-! ## Loading -/

theorem Tree.load_of_storedAs {t : Tree} {state : PoolState} (h : t.StoredAs state)
    (hcount : t.count ≤ maxNotes) : Tree.load state = .ok t := by
  have hfrontier : allDigests state.frontier = some t.frontier := by
    rw [funext h.frontier, allDigests_digestToBytes]
  have hroot : digestFromBytes state.treeRoot = some t.root := by
    rw [h.treeRoot, digestFromBytes_digestToBytes]
  rw [Tree.load, h.noteCount, Fallible.require, if_pos hcount, hfrontier, hroot]
  rfl

variable (H) in
/-- The tree that the initial state holds. -/
def Tree.initial : Tree where
  frontier := fun _ => 0
  count := 0
  root := emptySubtree H treeDepth

theorem Tree.initial_storedAs : (Tree.initial H).StoredAs (.genesis H) where
  noteCount := rfl
  treeRoot := rfl
  frontier _ := by
    show zeroBytes = digestToBytes 0
    decide +kernel

theorem Tree.initial_holds : (Tree.initial H).Holds H [] where
  count := rfl
  root := by
    rw [completeRoot, subtreeRoot, Frontier.node_of_zero fun j _ => leafAt_of_le (Nat.zero_le j)]
    exact emptySubtree_eq treeDepth
  frontier l := by
    rw [Frontier.slot, List.length_nil, Nat.zero_testBit, if_neg Bool.false_ne_true]
    rfl

end Frontier

/-- Any leaves that fit, appended one by one to the empty tree, give the root of the complete tree
    of depth 32 over them. Slot `l` of the frontier holds the complete subtree of height `l` that
    ends at the boundary if bit `l` of the count is set, and zero otherwise. And a state that holds
    the tree in bytes can be loaded, to append more leaves as if it had never been stored. -/
theorem frontier_is_complete_tree (H : Poseidon2) (leaves : List Digest)
    (hroom : leaves.length ≤ 2 ^ 32) :
    ∃ t, appendAll H (.genesis H) leaves = .ok t ∧
      t.count.toNat = leaves.length ∧
      t.root = completeRoot H leaves ∧
      (∀ l : Fin treeDepth, t.frontier l = if leaves.length.testBit l then
        subtreeRoot H leaves l (leaves.length / 2 ^ l.val - 1) else 0) ∧
      ∀ state, t.StoredAs state → ∀ rest,
        appendAll H state rest = appendAll H (.genesis H) (leaves ++ rest) := by
  have hload : Tree.load (.genesis H) = .ok (.initial H) :=
    Tree.load_of_storedAs Tree.initial_storedAs (UInt64.zero_le)
  have hall (ls : List Digest) :
      appendAll H (.genesis H) ls = .ok (ls.foldl (Tree.append H) (.initial H)) := by
    rw [appendAll, hload]
    rfl
  have hholds := (Tree.initial_holds (H := H)).foldl leaves hroom
  refine ⟨_, hall leaves, hholds.count, hholds.root, hholds.frontier, fun state hs rest => ?_⟩
  have hle : (leaves.foldl (Tree.append H) (.initial H)).count ≤ maxNotes := by
    rw [UInt64.le_iff_toNat_le, hholds.count]
    exact hroom
  rw [hall, List.foldl_append, appendAll, Tree.load_of_storedAs hs hle]
  rfl

/-- One leaf waits on the lowest level. -/
theorem one_leaf_complete_tree :
    ∃ t, appendAll ⟨0, 0, 0, 0, 0, 0⟩ (.genesis ⟨0, 0, 0, 0, 0, 0⟩) [1] = .ok t ∧
      t.count.toNat = 1 ∧ t.frontier ⟨0, by decide⟩ = 1 ∧ t.frontier ⟨1, by decide⟩ = 0 := by
  obtain ⟨t, ht, hcount, -, hfrontier, -⟩ :=
    frontier_is_complete_tree ⟨0, 0, 0, 0, 0, 0⟩ [1] (by decide)
  refine ⟨t, ht, hcount, ?_, ?_⟩
  · rw [hfrontier]
    exact if_pos rfl
  · rw [hfrontier]
    exact if_neg (by decide)

end RougeChain.Shield
