import RougeChain.Library.Basic
import RougeChain.Library.Streams

/-!
# Canonical bytes

What a reader of bytes needs in order to accept exactly what the writer writes.

* `beNat`: the number that bytes stand for, the most significant first, as `Streams.beBytes` writes
  it (`beNat_beBytes`, `beBytes_beNat`);
* `split`: the first `n` bytes and the rest (`split_eq_some`);
* `toList_writeAll`: entries in the order of their keys are those of the map they are written to, and
  the entries of a map give the map back (`writeAll_toList`).
-/

namespace Canonical

open Std (ExtTreeMap TransOrd LawfulEqOrd)
open Streams (beBytes length_beBytes mod_eq_of_beBytes)

/-! ## Numbers -/

/-- The number that the bytes stand for, the most significant first. -/
def beNat : List UInt8 → ℕ
  | [] => 0
  | x :: l => x.toNat * 256 ^ l.length + beNat l

theorem beNat_lt (l : List UInt8) : beNat l < 256 ^ l.length := by
  induction l with
  | nil => exact Nat.one_pos
  | cons x l ih =>
    have hx : x.toNat + 1 ≤ 256 := x.toNat_lt
    calc x.toNat * 256 ^ l.length + beNat l
        < x.toNat * 256 ^ l.length + 256 ^ l.length := Nat.add_lt_add_left ih _
      _ = (x.toNat + 1) * 256 ^ l.length := by ring
      _ ≤ 256 * 256 ^ l.length := Nat.mul_le_mul_right _ hx
      _ = 256 ^ (x :: l).length := by rw [List.length_cons, pow_succ, Nat.mul_comm]

/-- The bytes of a number depend on its last digits only. -/
theorem beBytes_congr {w n m : ℕ} (h : n % 256 ^ w = m % 256 ^ w) : beBytes w n = beBytes w m := by
  induction w with
  | zero => rfl
  | succ w ih =>
    rw [pow_succ, Nat.mod_mul, Nat.mod_mul] at h
    have hpos : 0 < 256 ^ w := Nat.pow_pos (by decide)
    -- the lower digits and the next one can be told apart in the sum
    have hlow : n % 256 ^ w = m % 256 ^ w := by
      have := congrArg (· % 256 ^ w) h
      simpa only [Nat.add_mul_mod_self_left, Nat.mod_mod] using this
    have hdigit : n / 256 ^ w % 256 = m / 256 ^ w % 256 := by
      rw [hlow] at h
      exact Nat.eq_of_mul_eq_mul_left hpos (Nat.add_left_cancel h)
    rw [beBytes, beBytes, ih hlow]
    refine congrArg (· :: _) (UInt8.toNat_inj.1 ?_)
    rw [UInt8.toNat_ofNat', UInt8.toNat_ofNat', hdigit]

theorem beBytes_beNat (l : List UInt8) : beBytes l.length (beNat l) = l := by
  induction l with
  | nil => rfl
  | cons x l ih =>
    have hlt := beNat_lt l
    have hpos : 0 < 256 ^ l.length := Nat.pow_pos (by decide)
    rw [List.length_cons, beBytes, beNat]
    congr 1
    · rw [Nat.mul_comm, Nat.mul_add_div hpos, Nat.div_eq_of_lt hlt, Nat.add_zero, UInt8.ofNat_toNat]
    · refine (beBytes_congr ?_).trans ih
      rw [Nat.mul_comm, Nat.mul_add_mod]

theorem beNat_beBytes {w n : ℕ} (h : n < 256 ^ w) : beNat (beBytes w n) = n := by
  have hlt := beNat_lt (beBytes w n)
  have hbytes := beBytes_beNat (beBytes w n)
  rw [length_beBytes] at hlt hbytes
  have hmod := mod_eq_of_beBytes hbytes
  rwa [Nat.mod_eq_of_lt hlt, Nat.mod_eq_of_lt h] at hmod

/-! ## Pieces -/

/-- The first `n` bytes and what follows, if there are so many. -/
def split (n : ℕ) (r : List UInt8) : Option (List UInt8 × List UInt8) :=
  if r.length < n then none else some (r.take n, r.drop n)

theorem split_append {n : ℕ} {a : List UInt8} (h : a.length = n) (t : List UInt8) :
    split n (a ++ t) = some (a, t) := by
  have hlen : ¬(a ++ t).length < n := by
    rw [List.length_append, h]
    exact Nat.not_lt.2 (Nat.le_add_right _ _)
  rw [split, if_neg hlen, ← h, List.take_left, List.drop_left]

theorem split_eq_some {n : ℕ} {r a t : List UInt8} (h : split n r = some (a, t)) :
    a.length = n ∧ r = a ++ t := by
  rw [split] at h
  split at h
  · cases h
  next hlen =>
    obtain ⟨rfl, rfl⟩ := Prod.mk.inj (Option.some.inj h)
    exact ⟨List.length_take_of_le (Nat.le_of_not_lt hlen), (List.take_append_drop n r).symm⟩

/-! ## Entries in order -/

section Entries

variable {α β : Type*} [Ord α] [TransOrd α] [LawfulEqOrd α]

omit [TransOrd α] in
theorem distinct_of_ordered {l : List (α × β)} (h : l.Pairwise fun p q => compare p.1 q.1 = .lt) :
    l.Pairwise fun p q => p.1 ≠ q.1 :=
  h.imp fun {p q} hlt heq => by
    rw [LawfulEqOrd.compare_eq_iff_eq.2 heq] at hlt
    cases hlt

/-- The entries of a map, written one after another, give the map. -/
theorem writeAll_toList (m : ExtTreeMap α β) : writeAll (fun _ => some) m.toList ∅ = m := by
  refine ExtTreeMap.ext_getElem? fun k => ?_
  have h := getElem?_writeAll_toList (fun _ => some) (fun _ => true) m ∅ k
  rw [List.filter_true] at h
  rw [h, if_pos rfl, ExtTreeMap.getElem?_empty, Option.or_none, Option.bind_fun_some]

/-- Entries in the order of their keys are those of the map they make. -/
theorem toList_writeAll {l : List (α × β)} (h : l.Pairwise fun p q => compare p.1 q.1 = .lt) :
    (writeAll (fun _ => some) l ∅).toList = l := by
  have hdistinct := distinct_of_ordered h
  have hnodup : l.Nodup := hdistinct.imp fun hne heq => hne (congrArg Prod.fst heq)
  refine List.Perm.eq_of_pairwise (fun p q _ _ hpq hqp => ?_) ExtTreeMap.ordered_keys_toList h
    ((List.perm_ext_iff_of_nodup (nodup_toList _) hnodup).2 fun ⟨k, v⟩ => ?_)
  · -- no two keys are each below the other
    rw [Std.OrientedOrd.eq_swap, hqp] at hpq
    cases hpq
  · rw [ExtTreeMap.mem_toList_iff_getElem?_eq_some]
    constructor
    · intro hget
      by_contra hmem
      by_cases hkey : ∃ u, (k, u) ∈ l
      · obtain ⟨u, hu⟩ := hkey
        rw [getElem?_writeAll_of_mem _ hdistinct hu, Option.some_or] at hget
        exact hmem (Option.some.inj hget ▸ hu)
      · have hne : ∀ p ∈ l, p.1 ≠ k := by
          rintro ⟨k', u⟩ hp rfl
          exact hkey ⟨u, hp⟩
        rw [getElem?_writeAll_of_ne _ hne, ExtTreeMap.getElem?_empty] at hget
        cases hget
    · intro hmem
      rw [getElem?_writeAll_of_mem _ hdistinct hmem, Option.some_or]

end Entries

end Canonical
