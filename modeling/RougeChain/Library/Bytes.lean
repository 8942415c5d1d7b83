import Mathlib.Data.List.GetD
import Mathlib.Tactic

/-!
# Records of bytes

A record of a fixed layout is a string of bytes, and a field of it the bytes from an offset on.
Numbers in it are little-endian.

* `Bytes.field`: a field as an array of its width;
* `Bytes.leNat`, `Bytes.leBytes`: a number and its bytes, inverse to each other (`leBytes_leNat`);
* `Bytes.field_append_drop`: a field and the record after it are the record from the field on, by
  which the fields in order make up the record.
-/

namespace RougeChain.Bytes

/-- The `n` bytes of `b` from `off` on. -/
def field (n : ℕ) (b : List UInt8) (off : ℕ) : Vector UInt8 n :=
  Vector.ofFn fun i => b.getD (off + i.val) 0

/-- The number that the bytes stand for, the least significant byte first. -/
def leNat : List UInt8 → ℕ
  | [] => 0
  | x :: xs => x.toNat + 256 * leNat xs

/-- The `n` lowest bytes of a number, the least significant one first. -/
def leBytes : ℕ → ℕ → List UInt8
  | 0, _ => []
  | n + 1, v => .ofNat v :: leBytes n (v / 256)

variable {b : List UInt8} {n off : ℕ}

theorem leNat_lt (l : List UInt8) : leNat l < 256 ^ l.length := by
  induction l with
  | nil => exact Nat.one_pos
  | cons x xs ih =>
    have hx : x.toNat < 256 := x.toNat_lt
    rw [leNat, List.length_cons, pow_succ]
    omega

theorem leBytes_leNat (l : List UInt8) : leBytes l.length (leNat l) = l := by
  induction l with
  | nil => rfl
  | cons x xs ih =>
    have hx : x.toNat < 256 := x.toNat_lt
    have hdiv : (x.toNat + 256 * leNat xs) / 256 = leNat xs := by omega
    have hhead : UInt8.ofNat (x.toNat + 256 * leNat xs) = x := by
      refine UInt8.toNat_inj.1 ?_
      rw [UInt8.toNat_ofNat']
      omega
    rw [leNat, List.length_cons, leBytes, hdiv, hhead, ih]

theorem toList_field (h : off + n ≤ b.length) : (field n b off).toList = (b.drop off).take n := by
  refine List.ext_getElem ?_ fun i hi hi' => ?_
  · rw [Vector.length_toList, List.length_take, List.length_drop]
    omega
  · rw [Vector.length_toList] at hi
    have hget : (field n b off).toList[i] = b.getD (off + i) 0 := by simp [field]
    rw [hget, List.getElem_take, List.getElem_drop, List.getD_eq_getElem _ _ (by omega)]

theorem field_drop (b : List UInt8) (k : ℕ) : field n (b.drop k) off = field n b (k + off) := by
  refine Vector.ext fun i hi => ?_
  simp only [field, Vector.getElem_ofFn, List.getD_eq_getElem?_getD, List.getElem?_drop,
    Nat.add_assoc]

theorem field_take {k : ℕ} (h : off + n ≤ k) : field n (b.take k) off = field n b off := by
  refine Vector.ext fun i hi => ?_
  simp only [field, Vector.getElem_ofFn, List.getD_eq_getElem?_getD]
  rw [List.getElem?_take_of_lt (by omega)]

theorem field_append_left {c : List UInt8} (h : off + n ≤ b.length) :
    field n (b ++ c) off = field n b off := by
  refine Vector.ext fun i hi => ?_
  simp only [field, Vector.getElem_ofFn]
  rw [List.getD_append _ _ _ _ (by omega)]

theorem field_append_right (v : Vector UInt8 n) (h : off = b.length) :
    field n (b ++ v.toList) off = v := by
  subst h
  refine Vector.ext fun i hi => ?_
  simp only [field, Vector.getElem_ofFn]
  rw [List.getD_append_right _ _ _ _ (by omega), Nat.add_sub_cancel_left,
    List.getD_eq_getElem _ _ (by rwa [Vector.length_toList]), Vector.getElem_toList]

/-- A field, and what comes after it. -/
theorem field_append_drop (h : off + n ≤ b.length) :
    (field n b off).toList ++ b.drop (off + n) = b.drop off := by
  rw [toList_field h, ← List.drop_drop, List.take_append_drop]

theorem leBytes_field (n : ℕ) (b : List UInt8) (off : ℕ) :
    leBytes n (leNat (field n b off).toList) = (field n b off).toList := by
  have hlen : (field n b off).toList.length = n := Vector.length_toList
  nth_rewrite 1 [← hlen]
  exact leBytes_leNat _

end RougeChain.Bytes
