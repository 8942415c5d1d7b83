import RougeChain.Finality.Verifier
import RougeChain.Library.Canonical

/-!
# The bytes of a validator set

The set of a height is stored as bytes: a tag, the height, the number of validators, and for each of
them, in the order of the keys, the key and its stake. The reader takes nothing else: keys out of
order or twice, a stake of zero, text that is not UTF-8 and bytes left over are all refused.

* `ValidatorSetSnapshot.readEntries_encode`, `ValidatorSetSnapshot.readEntries_eq_some`: the loop of
  the reader accepts exactly the entries that the writer writes;
* `snapshot_bytes_canonical`: what is written is read back, and what is read is what was written.
-/

namespace RougeChain.Finality

open Canonical (beNat split)
open Node
open Std (ExtTreeMap)
open Streams (beBytes)

namespace ValidatorSetSnapshot

/-! ## Writing and reading -/

def snapshotTag : List UInt8 := Json.utf8 "QVS1".toList

/-- A key, with its length, and the stake. The length keeps its last four bytes. -/
def entryBytes (e : String × U128) : List UInt8 :=
  beBytes 4 (Json.utf8 e.1.toList).length ++ (Json.utf8 e.1.toList ++ beBytes 16 e.2.toNat)

def toBytes (set : ValidatorSetSnapshot) : List UInt8 :=
  snapshotTag ++ (beBytes 8 set.height.toNat ++ (beBytes 4 set.stakes.size ++
    set.stakes.toList.flatMap entryBytes))

/-- The text with these bytes, if they are UTF-8. -/
def fromUtf8 (b : List UInt8) : Option String := String.fromUTF8? b.toByteArray

def empty (height : UInt64) : ValidatorSetSnapshot := ⟨height, ∅, fun k s h => by simp at h⟩

def withStake (set : ValidatorSetSnapshot) (k : String) (s : U128) (hs : s ≠ 0) :
    ValidatorSetSnapshot where
  height := set.height
  stakes := set.stakes.insert k s
  stakes_ne_zero a v h := by
    rw [getElem?_insert_eq] at h
    split at h
    · exact Option.some.inj h ▸ hs
    · exact set.stakes_ne_zero a v h

/-- One entry, and the bytes after it. -/
def readEntry (r : List UInt8) : Option ((String × U128) × List UInt8) := do
  let (kl, r) ← split 4 r
  let (kb, r) ← split (beNat kl) r
  let k ← fromUtf8 kb
  let (sb, r) ← split 16 r
  return ((k, .ofNat 128 (beNat sb)), r)

/-- The loop over the entries: what it leaves and the set with them. `last` is the key before. -/
def readEntries : ℕ → List UInt8 → Option String → ValidatorSetSnapshot →
    Option (List UInt8 × ValidatorSetSnapshot)
  | 0, r, _, set => some (r, set)
  | n + 1, r, last, set => do
    let (e, r) ← readEntry r
    -- ascending keys and no stake of zero
    if h : e.2 = 0 ∨ last.any (fun l => (compare l e.1).isGE) = true then none
    else readEntries n r (some e.1) (set.withStake e.1 e.2 fun hs => h (.inl hs))

def fromBytes (b : List UInt8) : Option ValidatorSetSnapshot := do
  let (tag, r) ← split 4 b
  guard (tag = snapshotTag)
  let (hb, r) ← split 8 r
  let (nb, r) ← split 4 r
  let (r, set) ← readEntries (beNat nb) r none (empty (.ofNat (beNat hb)))
  guard (r = [])
  return set

/-! ## The reader takes what the writer writes -/

theorem fromUtf8_utf8 (k : String) : fromUtf8 (Json.utf8 k.toList) = some k := by
  have hbytes : (Json.utf8 k.toList).toByteArray = k.toByteArray := by
    rw [← String.utf8Encode_toList]
    rfl
  have hvalid : k.toByteArray.IsValidUTF8 := k.isValidUTF8
  rw [fromUtf8, hbytes, String.fromUTF8?, dif_pos hvalid]
  rfl

theorem utf8_of_fromUtf8 {b : List UInt8} {k : String} (h : fromUtf8 b = some k) :
    b = Json.utf8 k.toList := by
  rw [fromUtf8, String.fromUTF8?] at h
  split at h
  next hvalid =>
    obtain rfl := Option.some.inj h
    have hbytes : (Json.utf8 (String.fromUTF8 b.toByteArray hvalid).toList).toByteArray =
        b.toByteArray := by
      change List.utf8Encode _ = _
      rw [String.utf8Encode_toList]
      rfl
    exact (List.toByteArray_inj.1 hbytes).symm
  · cases h

/-- Entries that the reader can take after the key `last`. -/
structure Takes (last : Option String) (es : List (String × U128)) : Prop where
  ordered : es.Pairwise fun p q => compare p.1 q.1 = .lt
  after : ∀ l ∈ last, ∀ e ∈ es, compare l e.1 = .lt
  positive : ∀ e ∈ es, e.2 ≠ 0
  short : ∀ e ∈ es, (Json.utf8 e.1.toList).length < 2 ^ 32

variable {last : Option String} {es : List (String × U128)} {set set' : ValidatorSetSnapshot}
  {r r' : List UInt8}

theorem any_isGE_eq_false {k : String} (h : ∀ l ∈ last, compare l k = .lt) :
    last.any (fun l => (compare l k).isGE) = false := by
  cases last with
  | none => rfl
  | some l =>
    rw [Option.any_some, h l rfl]
    rfl

theorem lt_of_any_isGE {k : String} (h : ¬last.any (fun l => (compare l k).isGE) = true) :
    ∀ l ∈ last, compare l k = .lt := by
  rintro l rfl
  rw [Option.any_some] at h
  cases hcmp : compare l k with
  | lt => rfl
  | eq => exact absurd (by rw [hcmp]; rfl) h
  | gt => exact absurd (by rw [hcmp]; rfl) h

theorem readEntry_append {e : String × U128} (h : (Json.utf8 e.1.toList).length < 2 ^ 32)
    (t : List UInt8) : readEntry (entryBytes e ++ t) = some (e, t) := by
  have hlen : (Json.utf8 e.1.toList).length < 256 ^ 4 := lt_of_lt_of_eq h (by norm_num)
  have hstake : e.2.toNat < 256 ^ 16 := lt_of_lt_of_eq e.2.isLt (by norm_num)
  have hkl := Canonical.split_append (Streams.length_beBytes 4 (Json.utf8 e.1.toList).length)
    (Json.utf8 e.1.toList ++ (beBytes 16 e.2.toNat ++ t))
  have hkb : split (beNat (beBytes 4 (Json.utf8 e.1.toList).length))
      (Json.utf8 e.1.toList ++ (beBytes 16 e.2.toNat ++ t)) =
      some (Json.utf8 e.1.toList, beBytes 16 e.2.toNat ++ t) := by
    rw [Canonical.beNat_beBytes hlen]
    exact Canonical.split_append rfl _
  have hsb := Canonical.split_append (Streams.length_beBytes 16 e.2.toNat) t
  rw [entryBytes, List.append_assoc, List.append_assoc, readEntry]
  refine Option.bind_eq_some_iff.2 ⟨_, hkl, ?_⟩
  refine Option.bind_eq_some_iff.2 ⟨_, hkb, ?_⟩
  refine Option.bind_eq_some_iff.2 ⟨_, fromUtf8_utf8 e.1, ?_⟩
  refine Option.bind_eq_some_iff.2 ⟨_, hsb, ?_⟩
  refine congrArg (fun s => some ((e.1, s), t)) ?_
  rw [Canonical.beNat_beBytes hstake, BitVec.ofNat_toNat, BitVec.setWidth_eq]

theorem readEntry_eq_some {e : String × U128} {t : List UInt8} (h : readEntry r = some (e, t)) :
    r = entryBytes e ++ t ∧ (Json.utf8 e.1.toList).length < 2 ^ 32 := by
  obtain ⟨⟨kl, r₁⟩, hkl, h₁⟩ := Option.bind_eq_some_iff.1 h
  obtain ⟨⟨kb, r₂⟩, hkb, h₂⟩ := Option.bind_eq_some_iff.1 h₁
  obtain ⟨k, hk, h₃⟩ := Option.bind_eq_some_iff.1 h₂
  obtain ⟨⟨sb, r₃⟩, hsb, h₄⟩ := Option.bind_eq_some_iff.1 h₃
  obtain ⟨rfl, rfl⟩ := Prod.mk.inj (Option.some.inj h₄)
  obtain ⟨hkl, hr⟩ := Canonical.split_eq_some hkl
  obtain ⟨hkb, hr₁⟩ := Canonical.split_eq_some hkb
  obtain ⟨hsb, hr₂⟩ := Canonical.split_eq_some hsb
  have hbytes := utf8_of_fromUtf8 hk
  -- the numbers are written as they were read
  have hkey : beBytes 4 (Json.utf8 k.toList).length = kl := by
    rw [← hbytes, hkb, ← hkl, Canonical.beBytes_beNat]
  have hstake : beBytes 16 (BitVec.ofNat 128 (beNat sb)).toNat = sb := by
    have hfits : beNat sb < 2 ^ 128 :=
      lt_of_lt_of_eq (Canonical.beNat_lt sb) (by rw [hsb]; norm_num)
    rw [BitVec.toNat_ofNat, Nat.mod_eq_of_lt hfits, ← hsb, Canonical.beBytes_beNat]
  constructor
  · rw [entryBytes, hkey, hstake, hr, hr₁, hr₂, hbytes, List.append_assoc, List.append_assoc]
  · rw [← hbytes, hkb]
    exact lt_of_lt_of_eq (Canonical.beNat_lt kl) (by rw [hkl]; norm_num)

theorem Takes.tail {e : String × U128} (h : Takes last (e :: es)) : Takes (some e.1) es where
  ordered := (List.pairwise_cons.1 h.ordered).2
  after l hl e' he' := by
    obtain rfl := Option.some.inj hl
    exact (List.pairwise_cons.1 h.ordered).1 e' he'
  positive e' he' := h.positive e' (List.mem_cons_of_mem _ he')
  short e' he' := h.short e' (List.mem_cons_of_mem _ he')

/-- The reader takes the bytes of entries that follow one another. -/
theorem readEntries_encode (h : Takes last es) (rest : List UInt8) :
    ∃ set', readEntries es.length (es.flatMap entryBytes ++ rest) last set = some (rest, set') ∧
      set'.height = set.height ∧ set'.stakes = writeAll (fun _ => some) es set.stakes := by
  induction es generalizing last set with
  | nil => exact ⟨set, rfl, rfl, rfl⟩
  | cons e es ih =>
    have hpos := h.positive e List.mem_cons_self
    have hafter := any_isGE_eq_false fun l hl => h.after l hl e List.mem_cons_self
    have hcond : ¬(e.2 = 0 ∨ last.any (fun l => (compare l e.1).isGE) = true) := by
      rw [hafter]
      simpa using hpos
    obtain ⟨set', hread, hheight, hstakes⟩ := @ih (some e.1) (set.withStake e.1 e.2 hpos) h.tail
    refine ⟨set', ?_, hheight, hstakes⟩
    rw [List.flatMap_cons, List.append_assoc, List.length_cons, readEntries,
      readEntry_append (h.short e List.mem_cons_self), Option.bind_eq_bind, Option.bind_some]
    exact (dif_neg hcond).trans hread

/-- Whatever the loop accepts are the bytes of entries that follow one another. -/
theorem readEntries_eq_some {n : ℕ} (h : readEntries n r last set = some (r', set')) :
    ∃ es, es.length = n ∧ Takes last es ∧ r = es.flatMap entryBytes ++ r' ∧
      set'.height = set.height ∧ set'.stakes = writeAll (fun _ => some) es set.stakes := by
  induction n generalizing r last set with
  | zero =>
    obtain ⟨rfl, rfl⟩ := Prod.mk.inj (Option.some.inj h)
    exact ⟨[], rfl, ⟨.nil, by simp, by simp, by simp⟩, rfl, rfl, rfl⟩
  | succ n ih =>
    obtain ⟨⟨e, r₁⟩, he, hrest⟩ := Option.bind_eq_some_iff.1 h
    obtain ⟨hr, hlen⟩ := readEntry_eq_some he
    dsimp only at hrest
    split at hrest
    · cases hrest
    next hcond =>
      rw [not_or] at hcond
      have hlast := lt_of_any_isGE hcond.2
      obtain ⟨es, hn, htakes, hr₁, hheight, hstakes⟩ := ih hrest
      refine ⟨e :: es, by rw [List.length_cons, hn], ⟨?_, ?_, ?_, ?_⟩, ?_, hheight, hstakes⟩
      · exact List.pairwise_cons.2 ⟨htakes.after e.1 rfl, htakes.ordered⟩
      · -- a key that is below the first one is below them all
        intro l hl e' he'
        rcases List.mem_cons.1 he' with rfl | he'
        · exact hlast l hl
        · exact Std.TransCmp.lt_trans (hlast l hl) (htakes.after e.1 rfl e' he')
      · exact List.forall_mem_cons.2 ⟨hcond.1, htakes.positive⟩
      · exact List.forall_mem_cons.2 ⟨hlen, htakes.short⟩
      · rw [hr, hr₁, List.flatMap_cons, List.append_assoc]

/-! ## Both directions -/

theorem ext_of_stakes (hheight : set.height = set'.height) (hstakes : set.stakes = set'.stakes) :
    set = set' := by
  cases set
  cases set'
  obtain rfl := hheight
  obtain rfl := hstakes
  rfl

theorem takes_toList (set : ValidatorSetSnapshot)
    (hkeys : ∀ k ∈ set.stakes, k.utf8ByteSize < 2 ^ 32) : Takes none set.stakes.toList where
  ordered := ExtTreeMap.ordered_keys_toList
  after l hl := by cases hl
  positive e he := set.stakes_ne_zero e.1 e.2 (ExtTreeMap.mem_toList_iff_getElem?_eq_some.1 he)
  short e he := by
    have hmem : e.1 ∈ set.stakes := ExtTreeMap.mem_iff_isSome_getElem?.2 (by
      rw [ExtTreeMap.mem_toList_iff_getElem?_eq_some.1 he]
      rfl)
    have hlen := hkeys e.1 hmem
    rwa [← String.size_toByteArray, ← String.utf8Encode_toList, List.utf8Encode,
      List.size_toByteArray] at hlen

theorem split_snapshotTag (t : List UInt8) :
    split 4 (snapshotTag ++ t) = some (snapshotTag, t) :=
  Canonical.split_append (by decide) t

theorem fromBytes_toBytes (set : ValidatorSetSnapshot) (hsize : set.stakes.size < 2 ^ 32)
    (hkeys : ∀ k ∈ set.stakes, k.utf8ByteSize < 2 ^ 32) : fromBytes set.toBytes = some set := by
  have hheight : set.height.toNat < 256 ^ 8 := lt_of_lt_of_eq set.height.toNat_lt (by norm_num)
  have hcount : set.stakes.size < 256 ^ 4 := lt_of_lt_of_eq hsize (by norm_num)
  obtain ⟨set', hread, hheight', hstakes⟩ :=
    @readEntries_encode _ _ (empty set.height) (takes_toList set hkeys) []
  have hset : set' = set :=
    ext_of_stakes hheight' (hstakes.trans (Canonical.writeAll_toList set.stakes))
  have hhb := Canonical.split_append (Streams.length_beBytes 8 set.height.toNat)
    (beBytes 4 set.stakes.size ++ set.stakes.toList.flatMap entryBytes)
  have hnb := Canonical.split_append (Streams.length_beBytes 4 set.stakes.size)
    (set.stakes.toList.flatMap entryBytes)
  rw [List.append_nil, ExtTreeMap.length_toList, hset, ← Canonical.beNat_beBytes hcount,
    ← UInt64.ofNat_toNat (x := set.height), ← Canonical.beNat_beBytes hheight] at hread
  rw [fromBytes, toBytes]
  refine Option.bind_eq_some_iff.2 ⟨_, split_snapshotTag _, ?_⟩
  refine Option.bind_eq_some_iff.2 ⟨(), (Option.guard_eq_some' _).2 rfl, ?_⟩
  refine Option.bind_eq_some_iff.2 ⟨_, hhb, ?_⟩
  refine Option.bind_eq_some_iff.2 ⟨_, hnb, ?_⟩
  refine Option.bind_eq_some_iff.2 ⟨_, hread, ?_⟩
  exact Option.bind_eq_some_iff.2 ⟨(), (Option.guard_eq_some' _).2 rfl, rfl⟩

theorem toBytes_of_fromBytes {b : List UInt8} (h : fromBytes b = some set) : set.toBytes = b := by
  obtain ⟨⟨tag, r₁⟩, htag, h₁⟩ := Option.bind_eq_some_iff.1 h
  obtain ⟨_, hguard, h₂⟩ := Option.bind_eq_some_iff.1 h₁
  obtain ⟨⟨hb, r₂⟩, hhb, h₃⟩ := Option.bind_eq_some_iff.1 h₂
  obtain ⟨⟨nb, r₃⟩, hnb, h₄⟩ := Option.bind_eq_some_iff.1 h₃
  obtain ⟨⟨r₄, set'⟩, hread, h₅⟩ := Option.bind_eq_some_iff.1 h₄
  obtain ⟨_, hend, h₆⟩ := Option.bind_eq_some_iff.1 h₅
  obtain rfl := Option.some.inj h₆
  obtain ⟨-, hr⟩ := Canonical.split_eq_some htag
  obtain ⟨hhb, hr₁⟩ := Canonical.split_eq_some hhb
  obtain ⟨hnb, hr₂⟩ := Canonical.split_eq_some hnb
  obtain ⟨es, hes, htakes, hr₃, hheight, hstakes⟩ := readEntries_eq_some hread
  have htag := (Option.guard_eq_some' _).1 hguard
  have hnil := (Option.guard_eq_some' _).1 hend
  -- the entries of the set are those that were read
  have hlist : set'.stakes.toList = es := by
    rw [hstakes]
    exact Canonical.toList_writeAll htakes.ordered
  have hheight' : beBytes 8 set'.height.toNat = hb := by
    have hlt : beNat hb < 2 ^ 64 := lt_of_lt_of_eq (Canonical.beNat_lt hb) (by rw [hhb]; norm_num)
    rw [hheight]
    change beBytes 8 (UInt64.ofNat (beNat hb)).toNat = hb
    rw [UInt64.toNat_ofNat', Nat.mod_eq_of_lt hlt, ← hhb, Canonical.beBytes_beNat]
  have hcount : beBytes 4 set'.stakes.size = nb := by
    rw [← ExtTreeMap.length_toList, hlist, hes, ← hnb, Canonical.beBytes_beNat]
  rw [toBytes, hheight', hcount, hlist, hr, htag, hr₁, hr₂, hr₃, hnil, List.append_nil]

end ValidatorSetSnapshot

/-- A set with fewer than `2 ^ 32` validators and keys shorter than `2 ^ 32` bytes is read back from
    its bytes; and bytes from which a set is read are the bytes of that set, in which every stake is
    positive. -/
theorem snapshot_bytes_canonical :
    (∀ set : ValidatorSetSnapshot, set.stakes.size < 2 ^ 32 →
        (∀ k ∈ set.stakes, k.utf8ByteSize < 2 ^ 32) →
        ValidatorSetSnapshot.fromBytes set.toBytes = some set) ∧
      ∀ (b : List UInt8) (set : ValidatorSetSnapshot),
        ValidatorSetSnapshot.fromBytes b = some set →
        set.toBytes = b ∧ ∀ k s, set.stakeOf k = some s → 0 < s.toNat := by
  refine ⟨ValidatorSetSnapshot.fromBytes_toBytes, fun b set h => ?_⟩
  refine ⟨ValidatorSetSnapshot.toBytes_of_fromBytes h, fun k s hs => ?_⟩
  have hne := set.stakes_ne_zero k s hs
  exact Nat.pos_of_ne_zero fun hzero => hne (BitVec.eq_of_toNat_eq hzero)

/-- The set of one validator, written and read. -/
theorem snapshot_bytes_solo :
    ValidatorSetSnapshot.fromBytes soloContext.validators.toBytes = some soloContext.validators ∧
      0 < (3 : U128).toNat := by
  have hread := snapshot_bytes_canonical.1 soloContext.validators (by decide +kernel) fun k hk => by
    rw [soloContext, mem_insert_eq] at hk
    obtain rfl : "ab" = k := hk.resolve_right (by simp)
    decide +kernel
  exact ⟨hread, (snapshot_bytes_canonical.2 _ _ hread).2 "ab" 3 (by decide +kernel)⟩

end RougeChain.Finality
