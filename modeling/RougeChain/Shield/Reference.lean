import Mathlib.Data.List.GetD
import Mathlib.Data.ZMod.Basic
import Mathlib.NumberTheory.LucasPrimality
import Mathlib.Tactic
import Mathlib.Tactic.ReduceModChar

/-!
# The shielded pool's hashes

The primitives of the shielded pool in plain form, without the circuit: the field KoalaBear, the
domain-separated sponge over Poseidon2, Merkle paths, and the public inputs of a spend.

The Poseidon2 permutation comes from a library. `Poseidon2` collects what the code takes from it:
the two linear layers and the round constants, and the permutation, which everything outside the
circuit calls.
-/

namespace RougeChain.Shield

/-! ## The field -/

/-- The KoalaBear modulus. -/
abbrev modulus : ℕ := 0x7f000001

/-- A field element. -/
abbrev Felt := ZMod modulus

/-- The modulus is prime: 3 generates its multiplicative group, of order `2 ^ 24 * 127`. -/
theorem modulus_prime : modulus.Prime := by
  refine lucas_primality _ (3 : ZMod modulus) ?_ fun q hq hdvd => ?_
  · norm_num
    reduce_mod_char
  · rw [show (modulus - 1 : ℕ) = 2 ^ 24 * 127 by norm_num, Nat.Prime.dvd_mul hq] at hdvd
    rcases hdvd with hdvd | hdvd
    · obtain rfl := (Nat.prime_dvd_prime_iff_eq hq Nat.prime_two).1 (hq.dvd_of_dvd_pow hdvd)
      norm_num
      reduce_mod_char
      decide
    · obtain rfl := (Nat.prime_dvd_prime_iff_eq hq (by norm_num)).1 hdvd
      norm_num
      reduce_mod_char
      decide

instance : Fact modulus.Prime := ⟨modulus_prime⟩

/-! ## Layout of the sponge

A state has 24 elements: 0 to 15 are the rate, of which 0 to 7 are the digest, and 16 to 23 are
the capacity, which starts with the input length, the domain tag and an index. -/

/-- A sponge state. -/
abbrev State := Fin 24 → Felt

/-- A digest: the first eight elements of a state. -/
abbrev Digest := Fin 8 → Felt

/-- The digest that a state holds. -/
def digest (s : State) : Digest := fun i => s (i.castLE (by decide))

/-- The domain tag of the nodes of the Merkle tree. -/
abbrev dMk : ℕ := 5

/-! ## Poseidon2 -/

abbrev fullHalf : ℕ := 4
abbrev partialRounds : ℕ := 23

/-- What the code takes from the Poseidon2 library, for width 24: the linear layers and the round
    constants, and the permutation itself. -/
structure Poseidon2 where
  externalLinearLayer : State → State
  internalLinearLayer : State → State
  rcExternalInitial : Fin fullHalf → State
  rcInternal : Fin partialRounds → Felt
  rcExternalFinal : Fin fullHalf → State
  permute : State → State

/-! ## The sponge -/

/-- Adds a chunk of the input into the rate. -/
def absorb (s : State) (chunk : List Felt) : State := fun i =>
  match chunk[i.val]? with
  | some e => s i + e
  | none => s i

/-- The state before the first absorption: zero but for the capacity, which holds the length of
    the input, the domain tag and the index. -/
def spongeInit (len domain index : ℕ) : State := fun i =>
  if i.val = 16 then len
  else if i.val = 17 then domain
  else if i.val = 18 then index
  else 0

namespace Poseidon2

variable (H : Poseidon2)

/-- Absorbs the input in chunks of the rate, with a permutation after each. -/
def absorbAll (s : State) : List Felt → State
  | [] => s
  | e :: es =>
    absorbAll (H.permute (absorb s ((e :: es).take 16))) ((e :: es).drop 16)
termination_by l => l.length

/-- The domain-separated sponge with an index in the third capacity element. -/
def hashDomIdx (domain index : ℕ) (elements : List Felt) : Digest :=
  digest (H.absorbAll (spongeInit elements.length domain index) elements)

/-- The domain-separated sponge. -/
def hashDom (domain : ℕ) (elements : List Felt) : Digest := H.hashDomIdx domain 0 elements

/-- A node of the Merkle tree from its two children. -/
def merge (left right : Digest) : Digest := H.hashDom dMk (List.ofFn left ++ List.ofFn right)

/-- One level of a Merkle path: the node is the left child if the bit of the index is 0. -/
def pathStep (index : UInt32) (path : Fin 32 → Digest) (cur : Digest)
    (level : Fin 32) : Digest :=
  if (index >>> UInt32.ofNat level.val) &&& 1 = 0 then H.merge cur (path level)
  else H.merge (path level) cur

/-- The root recomputed from a leaf, its index and its siblings. -/
def rootFromPath (leaf : Digest) (index : UInt32) (path : Fin 32 → Digest) : Digest :=
  Fin.foldl 32 (H.pathStep index path) leaf

end Poseidon2

/-! ## Merkle paths -/

/-- The side of a path at a level is a bit of the position. -/
theorem shiftRight_and_one_eq_zero_iff (index : UInt32) (level : Fin 32) :
    (index >>> UInt32.ofNat level.val) &&& 1 = 0 ↔ index.toNat.testBit level.val = false := by
  have hshift : (UInt32.ofNat level.val).toNat = level.val :=
    UInt32.toNat_ofNat_of_lt' (level.2.trans (by decide))
  rw [← UInt32.toNat_inj, UInt32.toNat_and, UInt32.toNat_shiftRight, hshift,
    Nat.mod_eq_of_lt level.2, Nat.testBit, Nat.and_comm, bne_eq_false_iff_eq]
  rfl

/-! ## The statement of a spend -/

/-- The public inputs of a spend. -/
structure PublicInputs where
  anchor : Digest
  nf : Fin 2 → Digest
  cmOut : Fin 2 → Digest
  vIn : UInt64
  vOut : UInt64
  fee : UInt64
  binding : Digest

end RougeChain.Shield
