import Mathlib

/-!
# Integers as floats

A natural number below `2 ^ 53` is a float without rounding: it is normalised to 53 bits
(`ofNat_eq`), packed and unpacked without loss (`unpack_ofNat`), and rounding towards zero gives it
back (`toInt_ofNat`). This is the range in which a program may count in floats.
-/

namespace Floats

open Float.Model UnpackedFloat

/-- The places by which a number is shifted to fill 53 bits. -/
def shift (n : ℕ) : ℕ := 52 - n.log2

section Shift

variable {n : ℕ}

theorem log2_le (hn : n < 2 ^ 53) : n.log2 ≤ 52 := by
  rcases Nat.eq_zero_or_pos n with rfl | hpos
  · exact Nat.zero_le _
  · exact Nat.lt_succ_iff.1 ((Nat.log2_lt hpos.ne').2 hn)

/-- The shifted number fills 53 bits. -/
theorem bounds_shift (hpos : 0 < n) (hn : n < 2 ^ 53) :
    2 ^ 52 ≤ n * 2 ^ shift n ∧ n * 2 ^ shift n < 2 ^ 53 := by
  have hle := log2_le hn
  have hsum : n.log2 + shift n = 52 := by
    rw [shift]
    omega
  constructor
  · calc 2 ^ 52 = 2 ^ n.log2 * 2 ^ shift n := by rw [← Nat.pow_add, hsum]
      _ ≤ n * 2 ^ shift n := Nat.mul_le_mul_right _ (Nat.log2_self_le hpos.ne')
  · calc n * 2 ^ shift n < 2 ^ (n.log2 + 1) * 2 ^ shift n :=
          Nat.mul_lt_mul_of_pos_right Nat.lt_log2_self (by positivity)
      _ = 2 ^ 53 := by rw [← Nat.pow_add, Nat.add_right_comm, hsum]

theorem log2_shift (hpos : 0 < n) (hn : n < 2 ^ 53) : (n * 2 ^ shift n).log2 = 52 := by
  obtain ⟨hlow, hhigh⟩ := bounds_shift hpos hn
  exact (Nat.log2_eq_iff (by positivity)).2 ⟨hlow, hhigh⟩

end Shift

/-- A mantissa of 53 bits stays where it is. -/
theorem shiftToTargetExponent_eq {m : ℕ} {e : ℤ} (hm : m.log2 = 52) (he : -1074 ≤ e) :
    shiftToTargetExponent .binary64 m e .exact = (⟨m, false, false⟩, e) := by
  have htarget : Format.binary64.targetExponent (totalExponent m e) = e := by
    rw [Format.targetExponent, totalExponent, hm, Format.minExponent, Format.mantissaBits]
    norm_num
    omega
  rw [shiftToTargetExponent, htarget, shiftToExponent]
  simp only [sub_self, Int.toNat_zero, Nat.cast_zero, add_zero]
  rfl

/-- A mantissa of 53 bits is not rounded. -/
theorem roundWithAccuracy_eq {sign : Sign} {m : ℕ} {e : ℤ} (hm : m.log2 = 52) (he : -1074 ≤ e)
    (hpos : 0 < m) : roundWithAccuracy .binary64 sign m e .exact = .finite sign m e hpos := by
  rw [roundWithAccuracy, shiftToTargetExponent_eq hm he]
  simp only [ExtendedMantissa.roundedMantissa, ExtendedMantissa.accuracy,
    Accuracy.roundToNearestEven, shiftToTargetExponent_eq hm he, dif_neg hpos.ne']

/-- A shift to the right divides. -/
theorem mantissa_shiftRight (em : ExtendedMantissa) (k : ℕ) :
    (em >>> k).mantissa = em.mantissa / 2 ^ k := by
  induction k with
  | zero => exact (Nat.div_one _).symm
  | succ k ih =>
    change (em >>> k).mantissa / 2 = _
    rw [ih, Nat.div_div_eq_div_mul, Nat.pow_succ]

theorem ofNat_eq {n : ℕ} (hpos : 0 < n) (hn : n < 2 ^ 53) :
    UnpackedFloat.ofNat .binary64 n =
      .finite .positive (n * 2 ^ shift n) (-shift n) (by positivity) := by
  have hlog := log2_shift hpos hn
  have hle := log2_le hn
  have hshift : shift n ≤ 52 := Nat.sub_le ..
  have htarget : Format.binary64.targetExponent (totalExponent n 0) = -shift n := by
    rw [Format.targetExponent, totalExponent, Format.minExponent, Format.mantissaBits, shift]
    norm_num
    omega
  have hcompare : compare (n : ℤ) 0 = .gt := Int.compare_eq_gt.2 (by exact_mod_cast hpos)
  rw [UnpackedFloat.ofNat, UnpackedFloat.ofInt, UnpackedFloat.normalize, hcompare]
  simp only [UnpackedFloat.round, Int.toNat_natCast, htarget, UnpackedFloat.decreaseExponent,
    zero_sub, neg_neg, Nat.shiftLeft_eq]
  rw [roundWithAccuracy_eq hlog (by omega)]

/-- A fraction of 52 bits with the implicit bit before it. -/
theorem toNat_implicit {m : ℕ} (hlow : 2 ^ 52 ≤ m) (hhigh : m < 2 ^ 53) :
    (1#1 ++ BitVec.ofNat 52 m).toNat = m := by
  have hmod : m % 2 ^ 52 < 2 ^ 52 := Nat.mod_lt _ (by positivity)
  rw [BitVec.toNat_append, BitVec.toNat_ofNat m, ← Nat.shiftLeft_add_eq_or_of_lt hmod,
    Nat.shiftLeft_eq, BitVec.toNat_ofNat]
  omega

theorem sign_packComponents {spec : Format} (e : BitVec spec.exponentBits)
    (m : BitVec spec.mantissaBitsWithoutImplicit) :
    Sign.ofBitVec (unpackSign (packComponents spec .positive e m)) = .positive := by
  rw [Sign.ofBitVec, if_pos]
  refine BitVec.eq_of_getLsbD_eq fun i hi => ?_
  obtain rfl : i = 0 := Nat.lt_one_iff.1 hi
  simp [unpackSign, packComponents, BitVec.getLsbD_append, BitVec.getElem_append, Sign.toBitVec]

/-- Packing keeps a number of 53 bits with an exponent in range. -/
theorem unpack_pack {m : ℕ} {e : ℤ} (hpos : 0 < m) (hlow : 2 ^ 52 ≤ m) (hhigh : m < 2 ^ 53)
    (he : -1074 ≤ e) (he' : e ≤ 0) :
    UnpackedFloat.unpack .binary64 (UnpackedFloat.pack .binary64 (.finite .positive m e hpos)) =
      .finite .positive m e hpos := by
  have hlog : m.log2 = 52 := (Nat.log2_eq_iff hpos.ne').2 ⟨hlow, hhigh⟩
  -- the biased exponent is neither 0 nor all ones
  obtain ⟨b, hb⟩ : ∃ b : ℕ, (b : ℤ) = e + 1075 := ⟨(e + 1075).toNat, Int.toNat_of_nonneg (by omega)⟩
  have hbiased : (e + (Format.binary64.exponentBias : ℤ) + (52 : ℕ)).toNat = b := by
    rw [Format.exponentBias]
    norm_num
    omega
  have hvec : (BitVec.ofNat 11 b).toNat = b := by
    rw [BitVec.toNat_ofNat, Nat.mod_eq_of_lt (by omega)]
  have hzero : BitVec.ofNat 11 b ≠ 0#11 := fun h => by
    have := congrArg BitVec.toNat h
    rw [hvec, BitVec.toNat_zero] at this
    omega
  have hones : BitVec.ofNat 11 b ≠ -1#11 := fun h => by
    have := congrArg BitVec.toNat h
    rw [hvec, BitVec.neg_one_eq_allOnes, BitVec.toNat_allOnes] at this
    omega
  have hpack : UnpackedFloat.pack .binary64 (.finite .positive m e hpos) =
      packComponents .binary64 .positive (.ofNat 11 b) (.ofNat 52 m) := by
    simp only [UnpackedFloat.pack, hlog]
    rw [hbiased, if_neg (by omega), if_pos (by decide)]
  rw [hpack, UnpackedFloat.unpack]
  simp only [unpackMantissa_packComponents, unpackExponent_packComponents, sign_packComponents,
    if_neg hones, if_neg hzero, hvec, toNat_implicit hlow hhigh]
  congr 1
  rw [Format.exponentBias]
  norm_num
  omega

theorem unpack_ofNat {n : ℕ} (hpos : 0 < n) (hn : n < 2 ^ 53) :
    (Float.Model.ofNat n).unpack =
      .finite .positive (n * 2 ^ shift n) (-shift n) (by positivity) := by
  obtain ⟨hlow, hhigh⟩ := bounds_shift hpos hn
  have hshift : shift n ≤ 52 := Nat.sub_le ..
  have hunpack := unpack_pack (by positivity : 0 < n * 2 ^ shift n) hlow hhigh
    (by omega : (-1074 : ℤ) ≤ -shift n) (by omega)
  rw [← ofNat_eq hpos hn] at hunpack ⊢
  exact hunpack

theorem toInt_ofNat {n : ℕ} (hn : n < 2 ^ 53) (lo hi : ℤ) :
    (Float.Model.ofNat n).unpack.toInt lo hi = n := by
  rcases Nat.eq_zero_or_pos n with rfl | hpos
  · rfl
  · rw [unpack_ofNat hpos hn]
    simp only [UnpackedFloat.toInt, roundToInt, decreaseExponent, shiftToExponent, Sign.apply]
    -- the exponent is not positive: nothing is shifted to the left, and back to the right
    have hleft : (-(shift n : ℤ) - 0).toNat = 0 := by omega
    have hright : (0 - (-(shift n : ℤ) - (0 : ℕ))).toNat = shift n := by omega
    rw [hleft, hright, mantissa_shiftRight, Nat.shiftLeft_zero]
    exact congrArg Nat.cast (Nat.mul_div_cancel n (by positivity))

/-- A positive number is a positive float. -/
theorem not_ofNat_le_zero {n : ℕ} (hpos : 0 < n) (hn : n < 2 ^ 53) :
    ¬ (⟨Float.Model.ofNat n⟩ : Float) ≤ 0 := by
  have hle : (Float.Model.ofNat n).unpack.le (0 : Float).toModel.unpack = false := by
    rw [unpack_ofNat hpos hn]
    rfl
  intro h
  have htrue : (Float.Model.ofNat n).unpack.le (0 : Float).toModel.unpack = true :=
    of_decide_eq_true h
  rw [hle] at htrue
  cases htrue

end Floats
