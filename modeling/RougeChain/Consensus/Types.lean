import RougeChain.Library.Basic

/-!
# Primitive types of the consensus rules

The types shared by every part of the consensus rules: keys and block ids, the
modelled hash and signature, votes, validator sets, commit certificates and
duplicate-vote evidence.

Hashes and signatures are models in the source too: a non-cryptographic 256-bit
mix (`Hasher`) and a keyed tag (`Sig`). The signed texts (`voteSignBytes`,
`proposalSignBytes`) are the real ones, as lists of characters.

Heights, rounds, times, weights and amounts are unbounded naturals here. Where
the source's width shows, it is written out: a saturating addition (`satAdd`),
a checked one (`checkedAdd`), an unchecked one (`wrap128`), or the bound
`maxTotalWeight` that a `ValidatorSet` carries. Ordered maps and sets are
`Std.ExtTreeMap` and `Std.ExtTreeSet`, which iterate in key order.
-/

namespace RougeChain.Consensus

open Std (TransOrd LawfulEqOrd TransCmp)

/-- A consensus key; the numeric order stands for the key-hash order. -/
abbrev KeyId := ℕ

/-- Quanta per XRGE. Ledger amounts are quanta, voting weights whole XRGE. -/
def quantaPerXrge : ℕ := 1000000000

/-- The total weight of a validator set stays below `2^100`. -/
def maxTotalWeight : ℕ := 2 ^ 100

def u16Max : ℕ := 2 ^ 16 - 1
def u32Max : ℕ := 2 ^ 32 - 1
def u64Max : ℕ := 2 ^ 64 - 1

/-- Addition saturating at `bound`. -/
def satAdd (bound a b : ℕ) : ℕ := min (a + b) bound

/-- Addition of `u128`s, `none` on overflow. -/
def checkedAdd (a b : ℕ) : Option ℕ := if a + b < 2 ^ 128 then some (a + b) else none

/-- The result of unchecked `u128` arithmetic, which wraps. -/
def wrap128 (x : ℕ) : ℕ := x % 2 ^ 128

theorem wrap128_eq {x : ℕ} (h : x < 2 ^ 128) : wrap128 x = x := Nat.mod_eq_of_lt h

/-- Subtraction of unsigned integers, `none` below zero. -/
def checkedSub (a b : ℕ) : Option ℕ := if b ≤ a then some (a - b) else none

/-- Multiplication of `u128`s, `none` on overflow. -/
def checkedMul (a b : ℕ) : Option ℕ := if a * b < 2 ^ 128 then some (a * b) else none

theorem checkedAdd_eq_some {a b c : ℕ} (h : checkedAdd a b = some c) : c = a + b := by
  unfold checkedAdd at h
  split at h
  · exact (Option.some.inj h).symm
  · exact absurd h (by simp)

theorem checkedSub_eq_some {a b c : ℕ} (h : checkedSub a b = some c) : a = c + b := by
  unfold checkedSub at h
  split at h
  · have := Option.some.inj h
    omega
  · exact absurd h (by simp)

/-! ## The modelled hash -/

/-- The bytes of `v` in `n` bytes, least significant first. -/
def leBytes (n v : ℕ) : List UInt8 := (List.range n).map fun i => UInt8.ofNat (v >>> (8 * i))

/-- The UTF-8 bytes of a text. -/
def utf8 (text : List Char) : List UInt8 := text.flatMap String.utf8EncodeChar

/-- Truncation to a `u64`. -/
def wrap64 (x : ℕ) : ℕ := x % 0x10000000000000000

/-- Rotation of a `u64`. -/
def rotateLeft (x n : ℕ) : ℕ := wrap64 (x <<< n) ||| (x >>> (64 - n))

/-- Four FNV-1a lanes, each a `u64`. -/
structure Hasher where
  lane0 : ℕ
  lane1 : ℕ
  lane2 : ℕ
  lane3 : ℕ

namespace Hasher

def mix (i lane b : ℕ) : ℕ :=
  rotateLeft (wrap64 ((lane ^^^ (b + i)) * 0x00000100000001b3)) (5 + 2 * i)

/-- Absorb one byte in every lane. -/
def absorb (h : Hasher) (b : UInt8) : Hasher :=
  ⟨mix 0 h.lane0 b.toNat, mix 1 h.lane1 b.toNat, mix 2 h.lane2 b.toNat, mix 3 h.lane3 b.toNat⟩

def raw (h : Hasher) (data : List UInt8) : Hasher := data.foldl absorb h

/-- Absorb length-prefixed bytes. -/
def bytes (h : Hasher) (data : List UInt8) : Hasher := (h.raw (leBytes 8 data.length)).raw data

def u64 (h : Hasher) (v : ℕ) : Hasher := h.raw (leBytes 8 v)

def u128 (h : Hasher) (v : ℕ) : Hasher := h.raw (leBytes 16 v)

/-- A hasher separated by the bytes of `tag`. -/
def new (tag : String) : Hasher :=
  (⟨0xcbf29ce484222325, 0x9e3779b97f4a7c15, 0xc2b2ae3d27d4eb4f, 0x165667b19e3779f9⟩ :
    Hasher).bytes (utf8 tag.toList)

def avalanche (x : ℕ) : ℕ :=
  let x := wrap64 ((x ^^^ (x >>> 30)) * 0xbf58476d1ce4e5b9)
  let x := wrap64 ((x ^^^ (x >>> 27)) * 0x94d049bb133111eb)
  x ^^^ (x >>> 31)

/-- The four mixed words of the result, each carrying into the next. -/
def words (h : Hasher) : ℕ × ℕ × ℕ × ℕ :=
  let m0 := avalanche (h.lane0 ^^^ rotateLeft h.lane1 31)
  let m1 := avalanche (h.lane1 ^^^ rotateLeft m0 17 ^^^ rotateLeft h.lane2 31)
  let m2 := avalanche (h.lane2 ^^^ rotateLeft m1 17 ^^^ rotateLeft h.lane3 31)
  let m3 := avalanche (h.lane3 ^^^ rotateLeft m2 17 ^^^ rotateLeft h.lane0 31)
  (m0, m1, m2, m3)

/-- The 256-bit result. -/
def finish (h : Hasher) : List UInt8 :=
  let (m0, m1, m2, m3) := h.words
  leBytes 8 m0 ++ leBytes 8 m1 ++ leBytes 8 m2 ++ leBytes 8 m3

/-- The first 64 bits of the result. -/
def finish64 (h : Hasher) : ℕ := h.words.1

theorem length_finish (h : Hasher) : h.finish.length = 32 := by
  simp [finish, leBytes]

end Hasher

/-! ## Block ids -/

/-- A block hash: 32 bytes, ordered lexicographically. -/
structure BlockId where
  bytes : List UInt8
  length_bytes : bytes.length = 32
  deriving DecidableEq

namespace BlockId

instance : Ord BlockId := ⟨fun a b => compare a.bytes b.bytes⟩

instance : TransOrd BlockId := inferInstanceAs (TransCmp (compareOn BlockId.bytes))

instance : LawfulEqOrd BlockId where
  eq_of_compare {a b} h := by
    have : a.bytes = b.bytes := LawfulEqOrd.eq_of_compare h
    cases a
    cases b
    simp_all

def hexDigit (n : UInt8) : Char :=
  ['0', '1', '2', '3', '4', '5', '6', '7', '8', '9', 'a', 'b', 'c', 'd', 'e', 'f'].getD n.toNat '0'

/-- The two hexadecimal digits of a byte. -/
def hexByte (b : UInt8) : List Char := [hexDigit (b >>> 4), hexDigit (b &&& 15)]

/-- Lowercase hexadecimal, 64 characters. -/
def hex (id : BlockId) : List Char := id.bytes.flatMap hexByte

end BlockId

def BlockId.ofHasher (h : Hasher) : BlockId := ⟨h.finish, h.length_finish⟩

/-! ## Modelled signatures and the real signed bytes -/

/-- The signing domain: `V2` before the fork, `V3` after it. -/
inductive Domain
  | V2
  | V3
  deriving DecidableEq

def Domain.tag : Domain → String
  | .V2 => "ROUGECHAIN_FINALITY_VOTE_V2"
  | .V3 => "ROUGECHAIN_CONSENSUS_V3"

inductive VoteType
  | prevote
  | precommit
  deriving DecidableEq

namespace VoteType

def name : VoteType → String
  | .prevote => "prevote"
  | .precommit => "precommit"

/-- The position in the source's declaration order. -/
def rank : VoteType → ℕ
  | .prevote => 0
  | .precommit => 1

instance : Ord VoteType := ⟨fun a b => compare a.rank b.rank⟩

instance : TransOrd VoteType := inferInstanceAs (TransCmp (compareOn VoteType.rank))

instance : LawfulEqOrd VoteType where
  eq_of_compare {a b} h := by cases a <;> cases b <;> first | rfl | exact absurd h (by decide)

end VoteType

/-- An unsigned integer in decimal, without leading zeros. -/
def decimal (n : ℕ) : List Char := Nat.toDigits 10 n

/-- The block of a vote as text. -/
def blockText : Option BlockId → List Char
  | some id => id.hex
  | none => "nil".toList

/-- The valid round of a proposer as text. -/
def polText : Option ℕ → List Char
  | some r => decimal r
  | none => "none".toList

/-- The signed text of a vote; `nil` for no block. -/
def voteSignBytes (domain : Domain) (chainId : String) (kind : VoteType) (height : ℕ)
    (round : ℕ) (block : Option BlockId) : List Char :=
  domain.tag.toList ++ "|chain=".toList ++ chainId.toList ++ "|type=".toList ++ kind.name.toList ++
    "|height=".toList ++ decimal height ++ "|round=".toList ++ decimal round ++ "|block=".toList ++
    blockText block

/-- The signed text of a proposal; `pol` is the proposer's valid round or `none`. -/
def proposalSignBytes (chainId : String) (height round : ℕ) (pol : Option ℕ)
    (block : BlockId) : List Char :=
  Domain.V3.tag.toList ++ "|chain=".toList ++ chainId.toList ++ "|type=proposal|height=".toList ++
    decimal height ++ "|round=".toList ++ decimal round ++ "|pol=".toList ++ polText pol ++
    "|block=".toList ++ block.hex

/-- A modelled signature: the key that produced it and a keyed digest of the signed bytes. -/
structure Sig where
  signer : KeyId
  tag : ℕ
  deriving DecidableEq

/-- The capability to sign with a key. -/
structure SigningKey where
  id : KeyId
  deriving DecidableEq

def sigTag (key : KeyId) (bytes : List Char) : ℕ :=
  (((Hasher.new "sig").u64 key).bytes (utf8 bytes)).finish64

def SigningKey.sign (key : SigningKey) (bytes : List Char) : Sig := ⟨key.id, sigTag key.id bytes⟩

def verifySig (key : KeyId) (bytes : List Char) (sig : Sig) : Bool :=
  sig.signer == key && sig.tag == sigTag key bytes

@[simp]
theorem verifySig_sign (key : SigningKey) (bytes : List Char) :
    verifySig key.id bytes (key.sign bytes) = true := by
  simp [verifySig, SigningKey.sign]

/-- A prevote or precommit; `block = none` is a nil vote. -/
structure Vote where
  kind : VoteType
  height : ℕ
  round : ℕ
  block : Option BlockId
  voter : KeyId
  sig : Sig
  deriving DecidableEq

namespace Vote

def signBytes (v : Vote) (domain : Domain) (chainId : String) : List Char :=
  voteSignBytes domain chainId v.kind v.height v.round v.block

/-- Create and sign a vote in an explicit domain. -/
def signIn (domain : Domain) (key : SigningKey) (chainId : String) (kind : VoteType)
    (height round : ℕ) (block : Option BlockId) : Vote :=
  { kind, height, round, block, voter := key.id
    sig := key.sign (voteSignBytes domain chainId kind height round block) }

/-- Create and sign a V3 vote. -/
def sign (key : SigningKey) (chainId : String) (kind : VoteType) (height round : ℕ)
    (block : Option BlockId) : Vote :=
  signIn .V3 key chainId kind height round block

def verify (v : Vote) (domain : Domain) (chainId : String) : Bool :=
  verifySig v.voter (v.signBytes domain chainId) v.sig

@[simp]
theorem verify_signIn (domain : Domain) (key : SigningKey) (chainId : String) (kind : VoteType)
    (height round : ℕ) (block : Option BlockId) :
    (signIn domain key chainId kind height round block).verify domain chainId = true := by
  simp [verify, signIn, signBytes]

/-- The fields in the source's declaration order, which is the order votes compare in. -/
def fields (v : Vote) : VoteType × ℕ × ℕ × Option BlockId × KeyId × KeyId × ℕ :=
  (v.kind, v.height, v.round, v.block, v.voter, v.sig.signer, v.sig.tag)

/-- The derived order on votes: `x ≤ y`. -/
def le (x y : Vote) : Bool := (compare x.fields y.fields).isLE

end Vote

/-! ## Validator sets -/

/-- The eligible set `E(h)` with weights, in key order. -/
structure ValidatorSet where
  members : List (KeyId × ℕ)
  total : ℕ
  sorted : members.Pairwise fun a b => a.1 < b.1
  weight_pos : ∀ m ∈ members, 0 < m.2
  total_eq : total = (members.map Prod.snd).sum
  total_lt : total < maxTotalWeight
  deriving DecidableEq

inductive SetError
  | duplicateKey (key : KeyId)
  | zeroWeight (key : KeyId)
  | totalTooLarge
  deriving DecidableEq

namespace ValidatorSet

/-- The order in which `members.sort()` puts the pairs. -/
def memberLE (a b : KeyId × ℕ) : Prop := a.1 < b.1 ∨ a.1 = b.1 ∧ a.2 ≤ b.2

instance : DecidableRel memberLE := fun a b =>
  inferInstanceAs (Decidable (a.1 < b.1 ∨ a.1 = b.1 ∧ a.2 ≤ b.2))

/-- The loop of `ValidatorSet::new` over the sorted members: `prev` is the key
    before, `total` the weight so far. -/
def checkMembers (prev : Option KeyId) (total : ℕ) :
    List (KeyId × ℕ) → Except SetError ℕ
  | [] => .ok total
  | (key, w) :: rest =>
    if w = 0 then .error (.zeroWeight key)
    else if prev = some key then .error (.duplicateKey key)
    else if total + w < maxTotalWeight then checkMembers (some key) (total + w) rest
    else .error .totalTooLarge

theorem checkMembers_ok {members : List (KeyId × ℕ)} {prev : Option KeyId}
    {total total' : ℕ} (hsort : members.Pairwise memberLE)
    (hprev : ∀ k, prev = some k → ∀ m ∈ members, k ≤ m.1) (ht : total < maxTotalWeight)
    (h : checkMembers prev total members = .ok total') :
    (members.Pairwise fun a b => a.1 < b.1) ∧ (∀ m ∈ members, 0 < m.2) ∧
      (∀ k, prev = some k → ∀ m ∈ members, k < m.1) ∧
      total' = total + (members.map Prod.snd).sum ∧ total' < maxTotalWeight := by
  induction members generalizing prev total with
  | nil =>
    cases h
    simp [ht]
  | cons m rest ih =>
    obtain ⟨key, w⟩ := m
    rw [List.pairwise_cons] at hsort
    simp only [checkMembers] at h
    split_ifs at h with hw hdup hlt
    have hnext : ∀ k, some key = some k → ∀ m ∈ rest, k ≤ m.1 := by
      rintro _ ⟨⟩ m hm
      rcases hsort.1 m hm with h | h
      · exact h.le
      · exact h.1.le
    obtain ⟨hs, hpos, hkey, htot, hlt'⟩ := ih hsort.2 hnext hlt h
    have hstrict : ∀ m ∈ rest, key < m.1 := hkey key rfl
    refine ⟨List.pairwise_cons.2 ⟨hstrict, hs⟩, ?_, ?_, ?_, hlt'⟩
    · intro m hm
      rcases List.mem_cons.1 hm with rfl | hm
      · exact Nat.pos_of_ne_zero hw
      · exact hpos m hm
    · intro k hk m hm
      have hne : k ≠ key := fun h => hdup (h ▸ hk)
      have hle : k ≤ key := hprev k hk (key, w) List.mem_cons_self
      rcases List.mem_cons.1 hm with rfl | hm
      · exact lt_of_le_of_ne hle hne
      · exact lt_of_le_of_lt hle (hstrict m hm)
    · rw [htot, List.map_cons, List.sum_cons, Nat.add_assoc]

instance : Std.Total memberLE := ⟨fun a b => by grind [memberLE]⟩

instance : IsTrans (KeyId × ℕ) memberLE :=
  ⟨fun a b c => by grind [memberLE]⟩

/-- Build a set; members are sorted into key order. -/
def new (members : List (KeyId × ℕ)) : Except SetError ValidatorSet :=
  let sorted := members.insertionSort memberLE
  match h : checkMembers none 0 sorted with
  | .error e => .error e
  | .ok total =>
    have hs := checkMembers_ok (List.pairwise_insertionSort memberLE members) (by simp)
      (by decide) h
    .ok { members := sorted, total, sorted := hs.1, weight_pos := hs.2.1
          total_eq := by rw [hs.2.2.2.1, Nat.zero_add], total_lt := hs.2.2.2.2 }

/-- The members are those given, in key order. -/
theorem new_members {members : List (KeyId × ℕ)} {s : ValidatorSet} (h : new members = .ok s) :
    s.members = members.insertionSort memberLE := by
  unfold new at h
  dsimp only at h
  split at h
  · cases h
  · rw [← Except.ok.inj h]

theorem mem_new {members : List (KeyId × ℕ)} {s : ValidatorSet} (h : new members = .ok s)
    {m : KeyId × ℕ} : m ∈ s.members ↔ m ∈ members := by
  rw [new_members h, List.mem_insertionSort]

/-- The set without members. -/
def empty : ValidatorSet :=
  { members := [], total := 0, sorted := .nil, weight_pos := by simp, total_eq := rfl
    total_lt := by decide }

def len (s : ValidatorSet) : ℕ := s.members.length

/-- The weight of `key`, 0 if it is not a member. -/
def weight (s : ValidatorSet) (key : KeyId) : ℕ := (s.members.lookup key).getD 0

def contains (s : ValidatorSet) (key : KeyId) : Bool := (s.members.lookup key).isSome

/-- `q = ⌊2T/3⌋ + 1`: the least stake that is more than two thirds of the total. -/
def quorum (s : ValidatorSet) : ℕ := s.total * 2 / 3 + 1

/-- `t1 = ⌊T/3⌋ + 1`: the least stake that is more than one third of the total. -/
def oneThird (s : ValidatorSet) : ℕ := s.total / 3 + 1

/-! ### Weights -/

variable {s : ValidatorSet}

theorem lookup_eq_some {members : List (KeyId × ℕ)} (hs : members.Pairwise fun a b => a.1 < b.1)
    {key : KeyId} {w : ℕ} : members.lookup key = some w ↔ (key, w) ∈ members := by
  induction members with
  | nil => simp
  | cons m rest ih =>
    obtain ⟨k, v⟩ := m
    rw [List.pairwise_cons] at hs
    rw [List.lookup_cons, List.mem_cons, Prod.mk.injEq]
    by_cases hk : key = k
    · subst hk
      have hnot : (key, w) ∉ rest := fun h => (hs.1 (key, w) h).ne rfl
      simp [hnot, eq_comm]
    · simp [beq_eq_false_iff_ne.2 hk, hk, ih hs.2]

theorem weight_of_mem {key : KeyId} {w : ℕ} (h : (key, w) ∈ s.members) : s.weight key = w := by
  rw [weight, (lookup_eq_some s.sorted).2 h, Option.getD_some]

theorem contains_iff {key : KeyId} : s.contains key = true ↔ ∃ w, (key, w) ∈ s.members := by
  rw [contains, Option.isSome_iff_exists]
  exact exists_congr fun w => lookup_eq_some s.sorted

/-- A key with weight is a member. -/
theorem mem_of_weight_pos {key : KeyId} (h : 0 < s.weight key) : (key, s.weight key) ∈ s.members := by
  rw [← lookup_eq_some s.sorted]
  rw [weight] at h ⊢
  cases hl : s.members.lookup key with
  | none => simp [hl] at h
  | some w => rfl

/-- The keys of the members. -/
def keys (s : ValidatorSet) : Finset KeyId := (s.members.map Prod.fst).toFinset

theorem nodup_keys (s : ValidatorSet) : (s.members.map Prod.fst).Nodup := by
  rw [List.Nodup, List.pairwise_map]
  exact s.sorted.imp fun h => h.ne

theorem sum_keys (s : ValidatorSet) : ∑ k ∈ s.keys, s.weight k = s.total := by
  rw [keys, List.sum_toFinset _ s.nodup_keys, List.map_map, s.total_eq]
  exact congrArg List.sum (List.map_congr_left fun m hm => weight_of_mem hm)

theorem mem_keys_of_weight_pos (s : ValidatorSet) {key : KeyId} (h : 0 < s.weight key) :
    key ∈ s.keys := by
  rw [keys, List.mem_toFinset]
  exact List.mem_map_of_mem (mem_of_weight_pos h)

/-- No set of keys weighs more than the total. -/
theorem sum_weight_le (s : ValidatorSet) (S : Finset KeyId) : ∑ k ∈ S, s.weight k ≤ s.total := by
  rw [← s.sum_keys]
  exact Finset.sum_le_sum_of_ne_zero fun k _ hk =>
    s.mem_keys_of_weight_pos (Nat.pos_of_ne_zero hk)

end ValidatorSet

/-! ## Commit certificates -/

/-- Precommit signatures over one `(height, round, block)`. -/
structure CommitCert where
  domain : Domain
  height : ℕ
  round : ℕ
  block : BlockId
  nSet : ℕ
  sigs : List (KeyId × Sig)
  deriving DecidableEq

inductive CertError
  | wrongDomain
  | setSizeMismatch
  | signerOrder
  | notInSet (key : KeyId)
  | badSignature (key : KeyId)
  | belowQuorum (held need : ℕ)
  | legacyRoundNotZero
  deriving DecidableEq

namespace CommitCert

def signers (c : CommitCert) : List KeyId := c.sigs.map Prod.fst

/-- The loop of `verify` over the signatures: `prev` is the signer before,
    `stake` the stake so far. -/
def verifySigs (set : ValidatorSet) (bytes : List Char) (prev : Option KeyId) (stake : ℕ) :
    List (KeyId × Sig) → Except CertError ℕ
  | [] => .ok stake
  | (key, sig) :: rest =>
    if prev.any fun p => decide (key ≤ p) then .error .signerOrder
    else if set.weight key = 0 then .error (.notInSet key)
    else if !verifySig key bytes sig then .error (.badSignature key)
    else verifySigs set bytes (some key) (stake + set.weight key) rest

/-- Verify against `E(height)`; returns the signer stake. -/
def verify (c : CommitCert) (expect : Domain) (chainId : String) (set : ValidatorSet) :
    Except CertError ℕ :=
  if c.domain ≠ expect then .error .wrongDomain
  else if c.domain = .V2 ∧ c.round ≠ 0 then .error .legacyRoundNotZero
  else if c.nSet ≠ set.len then .error .setSizeMismatch
  else
    let bytes := voteSignBytes c.domain chainId .precommit c.height c.round (some c.block)
    match verifySigs set bytes none 0 c.sigs with
    | .error e => .error e
    | .ok stake => if stake < set.quorum then .error (.belowQuorum stake set.quorum) else .ok stake

/-- A stable digest, which the id of the next block covers. -/
def digest (c : CommitCert) : ℕ :=
  let h := ((((Hasher.new "cert").u64 c.height).u64 c.round).raw c.block.bytes).u64 c.nSet
  let h := h.u64 (if c.domain = .V3 then 1 else 0)
  (c.sigs.foldl (fun h ks => (h.u64 ks.1).u64 ks.2.tag) h).finish64

/-- What a verified list of signatures is: strictly ascending members whose
    signatures verify, of the stake returned. -/
theorem verifySigs_ok {set : ValidatorSet} {bytes : List Char} {prev : Option KeyId}
    {stake stake' : ℕ} {sigs : List (KeyId × Sig)}
    (h : verifySigs set bytes prev stake sigs = .ok stake') :
    (sigs.map Prod.fst).Pairwise (· < ·) ∧ (∀ p, prev = some p → ∀ x ∈ sigs, p < x.1) ∧
      (∀ x ∈ sigs, 0 < set.weight x.1 ∧ verifySig x.1 bytes x.2 = true) ∧
      stake' = stake + ((sigs.map Prod.fst).map set.weight).sum := by
  induction sigs generalizing prev stake with
  | nil =>
    cases h
    simp
  | cons x rest ih =>
    obtain ⟨key, sig⟩ := x
    simp only [verifySigs] at h
    split_ifs at h with hord hw hsig
    obtain ⟨hasc, hprev, hall, hstake⟩ := ih h
    have hlt : ∀ p, prev = some p → p < key := by
      rintro p rfl
      simpa using hord
    refine ⟨?_, ?_, ?_, ?_⟩
    · rw [List.map_cons, List.pairwise_cons]
      refine ⟨fun k hk => ?_, hasc⟩
      obtain ⟨x, hx, rfl⟩ := List.mem_map.1 hk
      exact hprev key rfl x hx
    · intro p hp
      refine List.forall_mem_cons.2 ⟨hlt p hp, fun x hx => ?_⟩
      exact (hlt p hp).trans (hprev key rfl x hx)
    · exact List.forall_mem_cons.2 ⟨⟨Nat.pos_of_ne_zero hw, by simpa using hsig⟩, hall⟩
    · rw [hstake, List.map_cons, List.map_cons, List.sum_cons, Nat.add_assoc]

/-- A certificate that verifies: distinct members, whose signatures over its
    precommit bytes verify, and who make a quorum. -/
theorem verify_ok {c : CommitCert} {domain : Domain} {chainId : String} {set : ValidatorSet}
    {stake : ℕ} (h : c.verify domain chainId set = .ok stake) :
    c.domain = domain ∧ c.signers.Pairwise (· < ·) ∧
      (∀ x ∈ c.sigs, 0 < set.weight x.1 ∧
        verifySig x.1 (voteSignBytes domain chainId .precommit c.height c.round (some c.block)) x.2 =
          true) ∧
      stake = (c.signers.map set.weight).sum ∧ set.quorum ≤ stake := by
  simp only [verify] at h
  split_ifs at h with hd _ _
  have hd := not_ne_iff.1 hd
  split at h
  · cases h
  · next stake' hsigs =>
    split_ifs at h with hq
    cases h
    obtain ⟨hasc, -, hall, hstake⟩ := verifySigs_ok hsigs
    rw [hd] at hall
    exact ⟨hd, hasc, hall, by rw [hstake, Nat.zero_add]; rfl, not_lt.1 hq⟩

end CommitCert

/-! ## Evidence -/

/-- Two votes by one key for the same slot with different values, the lower vote first. -/
structure Evidence where
  a : Vote
  b : Vote
  deriving DecidableEq

namespace Evidence

/-- Build evidence from two votes if they conflict. Signatures are not checked here. -/
def fromVotes (x y : Vote) : Option Evidence :=
  if x.voter ≠ y.voter ∨ x.height ≠ y.height ∨ x.round ≠ y.round ∨ x.kind ≠ y.kind ∨
      x.block = y.block then none
  else if x.le y then some ⟨x, y⟩ else some ⟨y, x⟩

def offender (e : Evidence) : KeyId := e.a.voter

def height (e : Evidence) : ℕ := e.a.height

end Evidence

end RougeChain.Consensus
