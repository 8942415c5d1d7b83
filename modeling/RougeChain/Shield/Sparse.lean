import Mathlib
import RougeChain.Shield.Frontier

/-!
# The reference tree

`SparseTree` keeps the nodes above every leaf that was written, and takes any other node from the
empty tree. A leaf can be written at any place, and written again, and `path` hands out the siblings
from which `root_from_path` finds the root. The pool's own tree knows no more than the boundary of
what was appended.

* `SparseTree.Holds`: the nodes are those of the complete tree over the leaves;
* `frontier_root_eq_sparse_root`: after the same leaves both trees have the same root;
* `sparse_path_binds`: a path leads to the root from the leaf at its place, and from any other leaf
  only where two pairs of children on the way have one hash.
-/

namespace RougeChain.Shield

open Std (ExtTreeMap)

/-! ## Paths -/

namespace Poseidon2

variable (H : Poseidon2) (leaf : Digest) (index : UInt32) (path : Fin 32 → Digest)

/-- The digest with which `root_from_path` comes to level `k`. -/
def climb (k : ℕ) (hk : k ≤ 32) : Digest :=
  Fin.foldl k (fun cur level => H.pathStep index path cur (level.castLE hk)) leaf

/-- The two children that are hashed on a level of the way, the left one first. -/
def pathChildren (level : Fin 32) : Digest × Digest :=
  let cur := H.climb leaf index path level level.2.le
  if (index >>> UInt32.ofNat level.val) &&& 1 = 0 then (cur, path level) else (path level, cur)

variable {H leaf index path} {k : ℕ}

theorem climb_succ (hk : k < 32) : H.climb leaf index path (k + 1) hk =
    H.pathStep index path (H.climb leaf index path k hk.le) ⟨k, hk⟩ := by
  rw [climb, Fin.foldl_succ_last]
  rfl

theorem climb_eq_merge (hk : k < 32) :
    let children := H.pathChildren leaf index path ⟨k, hk⟩
    H.climb leaf index path (k + 1) hk = H.merge children.1 children.2 := by
  rw [climb_succ, pathStep, pathChildren]
  split <;> rfl

/-- Two ways up from one place that meet on level `k` are one way below, or hash different
    children to the same parent. -/
theorem climb_inj {leaf' : Digest} {path' : Fin 32 → Digest} (hk : k ≤ 32)
    (h : H.climb leaf index path k hk = H.climb leaf' index path' k hk) :
    (leaf = leaf' ∧ ∀ level : Fin 32, level.val < k → path level = path' level) ∨
      ∃ level, let children := H.pathChildren leaf index path level
        let children' := H.pathChildren leaf' index path' level
        children ≠ children' ∧
          H.merge children.1 children.2 = H.merge children'.1 children'.2 := by
  induction k with
  | zero => exact .inl ⟨h, fun level hl => absurd hl (Nat.not_lt_zero _)⟩
  | succ k ih =>
    by_cases heq : H.pathChildren leaf index path ⟨k, hk⟩ = H.pathChildren leaf' index path' ⟨k, hk⟩
    · have hboth : H.climb leaf index path k (Nat.le_of_succ_le hk) =
          H.climb leaf' index path' k (Nat.le_of_succ_le hk) ∧ path ⟨k, hk⟩ = path' ⟨k, hk⟩ := by
        rw [pathChildren, pathChildren] at heq
        split at heq
        · exact Prod.mk.inj heq
        · exact (Prod.mk.inj heq).symm
      refine (ih _ hboth.1).imp_left fun hbelow => ⟨hbelow.1, fun level hl => ?_⟩
      rcases Nat.lt_succ_iff_lt_or_eq.1 hl with hl | rfl
      · exact hbelow.2 level hl
      · exact hboth.2
    · rw [climb_eq_merge hk, climb_eq_merge hk] at h
      exact .inr ⟨⟨k, hk⟩, heq, h⟩

end Poseidon2

/-! ## The tree -/

/-- The nodes that were written, by level and place. -/
structure SparseTree where
  nodes : ExtTreeMap (ℕ × ℕ) Digest := ∅

namespace SparseTree

variable (H : Poseidon2)

def node (t : SparseTree) (level index : ℕ) : Digest :=
  t.nodes[(level, index)]?.getD (emptySubtree H level)

/-- One turn of the loop of `insert`: the node above place `idx` of a level is hashed again. -/
def lift (s : SparseTree × ℕ) (level : ℕ) : SparseTree × ℕ :=
  let idx := s.2 / 2
  let parent := H.merge (s.1.node H level (2 * idx)) (s.1.node H level (2 * idx + 1))
  (⟨s.1.nodes.insert (level + 1, idx) parent⟩, idx)

def insert (t : SparseTree) (index : UInt32) (leaf : Digest) : SparseTree :=
  ((List.range treeDepth).foldl (lift H)
    (⟨t.nodes.insert (0, index.toNat) leaf⟩, index.toNat)).1

def root (t : SparseTree) : Digest := t.node H treeDepth 0

/-- The siblings from the leaf level upward. -/
def path (t : SparseTree) (index : UInt32) : Fin 32 → Digest := fun level =>
  t.node H level (index.toNat / 2 ^ level.val ^^^ 1)

/-- Leaves written one after another, into the empty tree. -/
def build (writes : List (UInt32 × Digest)) : SparseTree :=
  writes.foldl (fun t w => t.insert H w.1 w.2) {}

/-- The nodes of the tree are those of the complete tree over the leaves. -/
def Holds (t : SparseTree) (leaf : ℕ → Digest) : Prop :=
  ∀ level ≤ treeDepth, ∀ i, t.node H level i = Frontier.node H.merge leaf level i

variable {H} {t : SparseTree} {leaf : ℕ → Digest}

theorem holds_empty : Holds H {} fun _ => 0 := fun level _ i => by
  rw [Frontier.node_of_zero fun _ _ => rfl, ← emptySubtree_eq]
  rfl

theorem node_insert (nodes : ExtTreeMap (ℕ × ℕ) Digest) (l j : ℕ) (d : Digest) (level i : ℕ) :
    node H ⟨nodes.insert (l, j) d⟩ level i =
      if l = level ∧ j = i then d else node H ⟨nodes⟩ level i := by
  simp only [node, getElem?_insert_eq, Prod.mk.injEq]
  split <;> rfl

/-- A leaf that is written changes no node that is not above it. -/
theorem node_update_of_ne {index level i : ℕ} (d : Digest) (hi : index / 2 ^ level ≠ i) :
    Frontier.node H.merge (Function.update leaf index d) level i =
      Frontier.node H.merge leaf level i :=
  Frontier.node_congr fun j hj => Function.update_of_ne (by rintro rfl; exact hi hj) _ _

/-- After `k` turns of the loop the nodes that may still be old are those above the leaf, on the
    levels after `k`. -/
theorem foldl_lift (ht : t.Holds H leaf) (index : ℕ) (d : Digest) {k : ℕ} (hk : k ≤ treeDepth) :
    let s := (List.range k).foldl (lift H) (⟨t.nodes.insert (0, index) d⟩, index)
    s.2 = index / 2 ^ k ∧ ∀ level ≤ treeDepth, ∀ i, (index / 2 ^ level = i → level ≤ k) →
      s.1.node H level i = Frontier.node H.merge (Function.update leaf index d) level i := by
  induction k with
  | zero =>
    refine ⟨(Nat.div_one index).symm, fun level hl i hnew => ?_⟩
    rw [List.range_zero, List.foldl_nil, node_insert]
    split
    · next h =>
      obtain ⟨rfl, rfl⟩ := h
      rw [Frontier.node, Function.update_self]
    · next h =>
      refine (ht level hl i).trans (node_update_of_ne d fun hi => h ?_).symm
      obtain rfl := Nat.le_zero.1 (hnew hi)
      exact ⟨rfl, by rwa [pow_zero, Nat.div_one] at hi⟩
  | succ k ih =>
    obtain ⟨hidx, hnodes⟩ := ih (Nat.le_of_succ_le hk)
    rw [List.range_succ, List.foldl_append, List.foldl_cons, List.foldl_nil, lift, hidx,
      ← Frontier.div_two_pow_succ]
    refine ⟨rfl, fun level hl i hnew => ?_⟩
    rw [node_insert]
    split
    · next h =>
      obtain ⟨rfl, rfl⟩ := h
      rw [hnodes k (Nat.le_of_succ_le hk) _ fun _ => le_rfl,
        hnodes k (Nat.le_of_succ_le hk) _ fun _ => le_rfl, Frontier.node]
    · next h =>
      refine hnodes level hl i fun hi => Nat.le_of_lt_succ ((hnew hi).lt_of_ne ?_)
      rintro rfl
      exact h ⟨rfl, hi⟩

theorem Holds.insert (ht : t.Holds H leaf) (index : UInt32) (d : Digest) :
    (t.insert H index d).Holds H (Function.update leaf index.toNat d) := fun level hl i =>
  (foldl_lift ht index.toNat d le_rfl).2 level hl i fun _ => hl

theorem Holds.foldl (ht : t.Holds H leaf) (writes : List (UInt32 × Digest)) :
    (writes.foldl (fun t w => t.insert H w.1 w.2) t).Holds H
      (writes.foldl (fun leaf w => Function.update leaf w.1.toNat w.2) leaf) := by
  induction writes generalizing t leaf with
  | nil => exact ht
  | cons w writes ih => exact ih (ht.insert w.1 w.2)

/-- The path of a place leads through the nodes above it. -/
theorem Holds.climb_eq (ht : t.Holds H leaf) (index : UInt32) {k : ℕ} (hk : k ≤ 32) :
    H.climb (leaf index.toNat) index (t.path H index) k hk =
      Frontier.node H.merge leaf k (index.toNat / 2 ^ k) := by
  induction k with
  | zero => exact congrArg leaf (Nat.div_one _).symm
  | succ k ih =>
    have hbit := shiftRight_and_one_eq_zero_iff index ⟨k, hk⟩
    rw [Frontier.testBit_eq_false_iff] at hbit
    rw [Poseidon2.climb_succ hk, ih, Poseidon2.pathStep, path, ht k (Nat.le_of_succ_le hk),
      Frontier.node, Frontier.div_two_pow_succ, if_congr hbit rfl rfl]
    -- the sibling is the right child of an even place, and the left child of an odd one
    obtain ⟨q, hq | hq⟩ := Nat.even_or_odd' (index.toNat / 2 ^ k)
    · rw [hq, if_pos (Nat.mul_mod_right 2 q), Nat.mul_div_cancel_left q Nat.two_pos,
        Nat.xor_one_of_even (even_two_mul q)]
    · rw [hq, if_neg (by omega), show (2 * q + 1) / 2 = q by omega,
        Nat.xor_one_of_odd (odd_two_mul_add_one q), Nat.add_sub_cancel]

/-- The leaf that was last written at a place. -/
def written (writes : List (UInt32 × Digest)) : ℕ → Digest :=
  writes.foldl (fun leaf w => Function.update leaf w.1.toNat w.2) fun _ => 0

theorem build_holds (writes : List (UInt32 × Digest)) : (build H writes).Holds H (written writes) :=
  holds_empty.foldl writes

end SparseTree

open SparseTree

/-- In a tree with leaves written in any order, and written again, the path of a place leads from the
    leaf last written there to the root. Any other leaf or path that leads to the root from that
    place has, on some level, other children with the same hash. -/
theorem sparse_path_binds (H : Poseidon2) (writes : List (UInt32 × Digest)) (index : UInt32) :
    let t := build H writes
    let leaf := written writes index.toNat
    H.rootFromPath leaf index (t.path H index) = t.root H ∧
      ∀ leaf' path', H.rootFromPath leaf' index path' = t.root H →
        (leaf' = leaf ∧ path' = t.path H index) ∨ ∃ level : Fin 32,
          let other := H.pathChildren leaf' index path' level
          let own := H.pathChildren leaf index (t.path H index) level
          other ≠ own ∧ H.merge other.1 other.2 = H.merge own.1 own.2 := by
  have hroot : H.rootFromPath (written writes index.toNat) index ((build H writes).path H index) =
      (build H writes).root H := by
    refine ((build_holds writes).climb_eq index le_rfl).trans ?_
    rw [Nat.div_eq_of_lt index.toNat_lt]
    exact (build_holds writes treeDepth le_rfl 0).symm
  refine ⟨hroot, fun leaf' path' h => ?_⟩
  refine (Poseidon2.climb_inj le_rfl (h.trans hroot.symm)).imp_left fun heq => ?_
  exact ⟨heq.1, funext fun level => heq.2 level level.2⟩

/-- One more leaf at the end. -/
theorem leafAt_concat_eq (leaves : List Digest) (d : Digest) :
    leafAt (leaves ++ [d]) = Function.update (leafAt leaves) leaves.length d := by
  funext i
  rcases lt_trichotomy i leaves.length with hi | rfl | hi
  · rw [leafAt_append hi, Function.update_of_ne hi.ne]
  · rw [leafAt_concat, Function.update_self]
  · rw [Function.update_of_ne hi.ne', leafAt_of_le hi.le,
      leafAt_of_le (by rw [List.length_append]; exact hi)]

/-- The tree that the pool keeps as a frontier, after any leaves that fit, has the root of the
    reference tree with the same leaves at the places from zero on. -/
theorem frontier_root_eq_sparse_root (H : Poseidon2) (leaves : List Digest)
    (hroom : leaves.length ≤ 2 ^ 32) :
    ∃ t, appendAll H (.genesis H) leaves = .ok t ∧
      t.root = (build H (leaves.zipIdx.map fun x => (UInt32.ofNat x.2, x.1))).root H := by
  have hload : Tree.load (.genesis H) = .ok (.initial H) :=
    Tree.load_of_storedAs Tree.initial_storedAs (UInt64.zero_le)
  have hsparse : (build H (leaves.zipIdx.map fun x => (UInt32.ofNat x.2, x.1))).Holds H
      (leafAt leaves) := by
    induction leaves using List.reverseRecOn with
    | nil => exact holds_empty
    | append_singleton leaves d ih =>
      rw [List.length_append] at hroom
      have hstep := (ih (Nat.le_of_succ_le hroom)).insert (UInt32.ofNat leaves.length) d
      rw [UInt32.toNat_ofNat_of_lt' hroom] at hstep
      rw [List.zipIdx_append, List.map_append, build, List.foldl_append, Nat.zero_add,
        leafAt_concat_eq]
      exact hstep
  refine ⟨_, ?_, ((Tree.initial_holds (H := H)).foldl leaves hroom).root.trans ?_⟩
  · rw [appendAll, hload]
    rfl
  · exact (hsparse treeDepth le_rfl 0).symm

theorem one_leaf_sparse_root :
    ∃ t, appendAll ⟨0, 0, 0, 0, 0, 0⟩ (.genesis ⟨0, 0, 0, 0, 0, 0⟩) [1] = .ok t ∧
      t.root = (build ⟨0, 0, 0, 0, 0, 0⟩ [(0, 1)]).root ⟨0, 0, 0, 0, 0, 0⟩ :=
  frontier_root_eq_sparse_root ⟨0, 0, 0, 0, 0, 0⟩ [1] (by decide)

end RougeChain.Shield
