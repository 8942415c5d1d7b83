import RougeChain.Library.Streams
import RougeChain.Node.Encoding
import RougeChain.Node.Nft

/-!
# State roots

What the header of a block commits to: a hash of the three maps of balances and,
from an upgrade on, of that root together with NFTs and contracts. Nothing in
the stream says how many entries a section has. The entries begin with the length
of a text, whose first byte is small, and a section ends where the next one's tag
begins, with an `r`.

* `stateRootBytes_eq_iff`: the bytes that are hashed for two ledgers are the same
  exactly if the ledgers have the same entries that are not zero;
* `stateRootV2Bytes_commits`: for the extended root, the bytes determine every
  field that is hashed but one. A collection without a cap is written like one
  whose cap is the largest integer (`uncapped_like_largest_cap`).
-/

namespace RougeChain.Node.StateRoot

open Std (ExtTreeMap TransOrd LawfulEqOrd)
open Streams

/-! ## Balances -/

/-- A hash map, in the order in which it is iterated over. -/
structure HashEntries (K : Type) where
  entries : List (K × U128)
  nodup : (entries.map Prod.fst).Nodup

/-- The maps of balances. Tokens are by owner and symbol, shares by owner and pool. -/
structure LedgerMaps where
  native : HashEntries String
  token : HashEntries (String × String)
  lp : HashEntries (String × String)

def tagNative : List UInt8 := Json.utf8 "rougechain.stateroot.v1.native".toList

def tagToken : List UInt8 := Json.utf8 "rougechain.stateroot.v1.token".toList

def tagLp : List UInt8 := Json.utf8 "rougechain.stateroot.v1.lp".toList

/-- The bytes after their length. -/
def field (bytes : List UInt8) : List UInt8 := u64BeBytes (.ofNat bytes.length) ++ bytes

def textField (s : String) : List UInt8 := field (Json.utf8 s.toList)

def u128BeBytes (n : U128) : List UInt8 := beBytes 16 n.toNat

section Sorted

variable {K : Type} [Ord K] [TransOrd K]

/-- The entries that are not zero, by key. -/
def sorted (m : HashEntries K) : ExtTreeMap K U128 :=
  (m.entries.filter fun e => e.2 != 0).foldl (fun t e => t.insert e.1 e.2) ∅

end Sorted

def nativeEntry (e : String × U128) : List UInt8 := textField e.1 ++ u128BeBytes e.2

def pairEntry (e : (String × String) × U128) : List UInt8 :=
  (textField e.1.1 ++ textField e.1.2) ++ u128BeBytes e.2

/-- What is hashed. -/
def stateRootBytes (l : LedgerMaps) : List UInt8 :=
  tagNative ++ ((sorted l.native).toList.flatMap nativeEntry ++
    (tagToken ++ ((sorted l.token).toList.flatMap pairEntry ++
      (tagLp ++ (sorted l.lp).toList.flatMap pairEntry))))

def computeStateRoot (P : Platform) (l : LedgerMaps) : String :=
  hexEncode (P.sha256 (stateRootBytes l))

/-! ## NFTs and contracts -/

/-- The inputs of the extended root, in the order of their keys. -/
structure RootInput where
  balanceRoot : String
  collections : List NftCollection
  tokens : List NftToken
  /-- The contracts with the hashes of their code. -/
  contractCode : List (List UInt8 × Vector UInt8 32)
  contractState : List (List UInt8 × List UInt8)

def tagV2 : List UInt8 := Json.utf8 "rougechain.stateroot.v2".toList

def tagNftCollections : List UInt8 := Json.utf8 "rougechain.stateroot.v2.nft_collections".toList

def tagNftTokens : List UInt8 := Json.utf8 "rougechain.stateroot.v2.nft_tokens".toList

def tagContractCode : List UInt8 := Json.utf8 "rougechain.stateroot.v2.contract_code".toList

def tagContractState : List UInt8 := Json.utf8 "rougechain.stateroot.v2.contract_state".toList

/-- The source's `b as u8`. -/
def boolByte (b : Bool) : List UInt8 := [if b then 1 else 0]

/-- A collection without a cap is written with the largest one. -/
def collectionEntry (c : NftCollection) : List UInt8 :=
  textField c.collectionId ++ (textField c.creator ++ (u64BeBytes c.minted ++
    (u64BeBytes (c.maxSupply.getD (.ofNat (2 ^ 64 - 1))) ++ boolByte c.frozen)))

def tokenEntry (t : NftToken) : List UInt8 :=
  textField t.collectionId ++ (u64BeBytes t.tokenId ++ (textField t.owner ++ boolByte t.locked))

def codeEntry (e : List UInt8 × Vector UInt8 32) : List UInt8 := field e.1 ++ e.2.toList

def stateEntry (e : List UInt8 × List UInt8) : List UInt8 := field e.1 ++ field e.2

/-- What is hashed for the extended root. -/
def stateRootV2Bytes (x : RootInput) : List UInt8 :=
  tagV2 ++ (textField x.balanceRoot ++
    (tagNftCollections ++ (x.collections.flatMap collectionEntry ++
      (tagNftTokens ++ (x.tokens.flatMap tokenEntry ++
        (tagContractCode ++ (x.contractCode.flatMap codeEntry ++
          (tagContractState ++ x.contractState.flatMap stateEntry))))))))

def extendStateRootV2 (P : Platform) (x : RootInput) : String :=
  hexEncode (P.sha256 (stateRootV2Bytes x))

/-! ## Fields -/

section Fields

variable {s t : List UInt8}

theorem u64BeBytes_eq (n : UInt64) : u64BeBytes n = beBytes 8 n.toNat := by
  simp [u64BeBytes, beBytes, Nat.shiftRight_eq_div_pow]

theorem u64BeBytes_delimited : Delimited (fun _ : UInt64 => True) u64BeBytes := by
  intro a b _ _ s t h
  rw [u64BeBytes_eq, u64BeBytes_eq] at h
  obtain ⟨hnat, hrest⟩ := beBytes_append_inj a.toNat_lt b.toNat_lt h
  exact ⟨UInt64.toNat_inj.1 hnat, hrest⟩

theorem u128BeBytes_delimited : Delimited (fun _ : U128 => True) u128BeBytes := by
  intro a b _ _ s t h
  obtain ⟨hnat, hrest⟩ := beBytes_append_inj a.isLt b.isLt h
  exact ⟨BitVec.eq_of_toNat_eq hnat, hrest⟩

theorem boolByte_delimited : Delimited (fun _ : Bool => True) boolByte := by
  refine Delimited.of_length (w := 1) (fun _ _ => rfl) ?_
  rintro (_ | _) (_ | _) - - h <;> first | rfl | cases h

/-- Shorter than any text the first byte of whose length is that of a tag. -/
def Short (bytes : List UInt8) : Prop := bytes.length < 2 ^ 62

instance Short.decidable (bytes : List UInt8) : Decidable (Short bytes) :=
  inferInstanceAs (Decidable (_ < _))

theorem Short.toNat_length {bytes : List UInt8} (h : Short bytes) :
    (UInt64.ofNat bytes.length).toNat = bytes.length := by
  rw [UInt64.toNat_ofNat', Nat.mod_eq_of_lt (lt_trans h (by norm_num))]

theorem field_delimited : Delimited Short field := by
  intro a b ha hb s t h
  rw [field, field, List.append_assoc, List.append_assoc] at h
  obtain ⟨hlen, hrest⟩ := u64BeBytes_delimited trivial trivial h
  have hnat := congrArg UInt64.toNat hlen
  rw [ha.toNat_length, hb.toNat_length] at hnat
  exact List.append_inj hrest hnat

/-- A text that is short. -/
def ShortText (s : String) : Prop := Short (Json.utf8 s.toList)

instance ShortText.decidable (s : String) : Decidable (ShortText s) :=
  inferInstanceAs (Decidable (Short _))

theorem textField_delimited : Delimited ShortText textField := by
  intro a b ha hb s t h
  obtain ⟨hbytes, hrest⟩ := field_delimited ha hb h
  exact ⟨String.toList_injective (Json.utf8_inj hbytes), hrest⟩

/-- The first byte of a short field is below that of a tag. -/
theorem exists_field_eq_cons {bytes : List UInt8} (h : Short bytes) (r : List UInt8) :
    ∃ x l, field bytes ++ r = x :: l ∧ x < 'r'.toUInt8 := by
  rw [field, u64BeBytes_eq, h.toNat_length]
  refine ⟨_, _, rfl, ?_⟩
  have hdigit : bytes.length / 256 ^ 7 < 64 := Nat.div_lt_of_lt_mul (lt_of_lt_of_le h (by norm_num))
  rw [UInt8.lt_iff_toNat_lt, UInt8.toNat_ofNat', Nat.mod_eq_of_lt (lt_trans hdigit (by norm_num))]
  exact lt_trans hdigit (by decide)

theorem exists_textField_eq_cons {a : String} (h : ShortText a) (r : List UInt8) :
    ∃ x l, textField a ++ r = x :: l ∧ x < 'r'.toUInt8 := exists_field_eq_cons h r

/-- A tag begins with an `r`. -/
theorem startsFrom_tag {tag : List UInt8} (h : tag.head? = some 'r'.toUInt8) (r : List UInt8) :
    StartsFrom 'r'.toUInt8 (tag ++ r) := by
  cases tag with
  | nil => cases h
  | cons x tag =>
    obtain rfl := Option.some.inj h
    exact .cons (UInt8.le_refl _) _

end Fields

/-! ## The root of the balances -/

section Balances

variable {K : Type} [Ord K] [TransOrd K] [LawfulEqOrd K]

/-- The same entries that are not zero. -/
def SameNonzero {K : Type} (m m' : HashEntries K) : Prop :=
  ∀ k v, v ≠ 0 → ((k, v) ∈ m.entries ↔ (k, v) ∈ m'.entries)

theorem getElem?_foldl_insert [DecidableEq K] {l : List (K × U128)}
    (hl : (l.map Prod.fst).Nodup) (t : ExtTreeMap K U128) (k : K) (v : U128) :
    (l.foldl (fun t e => t.insert e.1 e.2) t)[k]? = some v ↔
      (k, v) ∈ l ∨ (k ∉ l.map Prod.fst ∧ t[k]? = some v) := by
  induction l generalizing t with
  | nil => simp
  | cons e l ih =>
    obtain ⟨a, w⟩ := e
    rw [List.map_cons, List.nodup_cons] at hl
    rw [List.foldl_cons, ih hl.2, getElem?_insert_eq, List.mem_cons, List.map_cons,
      List.mem_cons, Prod.mk.injEq]
    by_cases hka : a = k
    · subst hka
      have hnot : (a, v) ∉ l := fun h => hl.1 (List.mem_map.2 ⟨_, h, rfl⟩)
      simp [hnot, hl.1, eq_comm]
    · simp [hka, Ne.symm hka]

theorem getElem?_sorted (m : HashEntries K) (k : K) (v : U128) :
    (sorted m)[k]? = some v ↔ v ≠ 0 ∧ (k, v) ∈ m.entries := by
  classical
  have hnodup : ((m.entries.filter fun e => e.2 != 0).map Prod.fst).Nodup :=
    m.nodup.sublist (List.filter_sublist.map _)
  rw [sorted, getElem?_foldl_insert hnodup]
  simp [and_comm]

theorem sorted_eq_iff {m m' : HashEntries K} : sorted m = sorted m' ↔ SameNonzero m m' := by
  constructor
  · intro h k v hv
    have hk := getElem?_sorted m k v
    rw [h, getElem?_sorted m' k v] at hk
    tauto
  · intro h
    refine ExtTreeMap.ext_getElem? fun k => Option.ext fun v => ?_
    rw [getElem?_sorted, getElem?_sorted]
    exact and_congr_right fun hv => h k v hv

theorem eq_of_toList_eq {t t' : ExtTreeMap K U128} (h : t.toList = t'.toList) :
    t = t' := by
  refine ExtTreeMap.ext_getElem? fun k => Option.ext fun v => ?_
  rw [← ExtTreeMap.mem_toList_iff_getElem?_eq_some, h,
    ExtTreeMap.mem_toList_iff_getElem?_eq_some]

/-- The keys of a map of balances are short. -/
def HashEntries.Short {K : Type} (m : HashEntries K) (p : K → Prop) : Prop :=
  ∀ e ∈ m.entries, p e.1

instance HashEntries.Short.decidable {K : Type} (m : HashEntries K) (p : K → Prop)
    [DecidablePred p] : Decidable (m.Short p) := inferInstanceAs (Decidable (∀ e ∈ m.entries, p e.1))

theorem HashEntries.Short.sorted {m : HashEntries K} {p : K → Prop} (h : m.Short p) :
    ∀ e ∈ (sorted m).toList, p e.1 ∧ True := by
  rintro ⟨k, v⟩ he
  rw [ExtTreeMap.mem_toList_iff_getElem?_eq_some, getElem?_sorted] at he
  exact ⟨h _ he.2, trivial⟩

end Balances

/-- Both texts of a key are short. -/
def ShortPair (k : String × String) : Prop := ShortText k.1 ∧ ShortText k.2

/-- All keys are shorter than `2 ^ 62` bytes. -/
structure LedgerMaps.Short (l : LedgerMaps) : Prop where
  native : l.native.Short ShortText
  token : l.token.Short ShortPair
  lp : l.lp.Short ShortPair

theorem nativeEntry_delimited :
    Delimited (fun e : String × U128 => ShortText e.1 ∧ True) nativeEntry :=
  textField_delimited.append u128BeBytes_delimited

theorem pairEntry_delimited :
    Delimited (fun e : (String × String) × U128 => ShortPair e.1 ∧ True) pairEntry :=
  (textField_delimited.append textField_delimited).append u128BeBytes_delimited

theorem exists_nativeEntry_eq_cons (e : String × U128) (h : ShortText e.1 ∧ True) :
    ∃ x l, nativeEntry e = x :: l ∧ x < 'r'.toUInt8 := exists_textField_eq_cons h.1 _

theorem exists_pairEntry_eq_cons (e : (String × String) × U128) (h : ShortPair e.1 ∧ True) :
    ∃ x l, pairEntry e = x :: l ∧ x < 'r'.toUInt8 := by
  rw [pairEntry, List.append_assoc]
  exact exists_textField_eq_cons h.1.1 _

/-- The bytes that are hashed for two ledgers are the same exactly if the ledgers have the same
    entries that are not zero, in whatever order their maps are iterated over. -/
theorem stateRootBytes_eq_iff (l l' : LedgerMaps) (hl : l.Short) (hl' : l'.Short) :
    stateRootBytes l = stateRootBytes l' ↔
      SameNonzero l.native l'.native ∧ SameNonzero l.token l'.token ∧ SameNonzero l.lp l'.lp := by
  rw [← sorted_eq_iff, ← sorted_eq_iff, ← sorted_eq_iff]
  constructor
  · intro h
    -- Each section ends with the tag of the next one, the last with the stream.
    obtain ⟨hnative, h⟩ := nativeEntry_delimited.flatMap_append exists_nativeEntry_eq_cons
      (startsFrom_tag rfl _) (startsFrom_tag rfl _) hl.native.sorted hl'.native.sorted
      (List.append_cancel_left h)
    obtain ⟨htoken, h⟩ := pairEntry_delimited.flatMap_append exists_pairEntry_eq_cons
      (startsFrom_tag rfl _) (startsFrom_tag rfl _) hl.token.sorted hl'.token.sorted
      (List.append_cancel_left h)
    obtain ⟨hlp, -⟩ := pairEntry_delimited.flatMap_append exists_pairEntry_eq_cons
      (StartsFrom.nil _) (StartsFrom.nil _) hl.lp.sorted hl'.lp.sorted
      (by simpa only [List.append_nil] using List.append_cancel_left h)
    exact ⟨eq_of_toList_eq hnative, eq_of_toList_eq htoken, eq_of_toList_eq hlp⟩
  · rintro ⟨hnative, htoken, hlp⟩
    rw [stateRootBytes, stateRootBytes, hnative, htoken, hlp]

/-- A ledger with one account, and the same with an account that has been emptied. -/
def aliceLedger : LedgerMaps := ⟨⟨[("alice", 5)], by decide⟩, ⟨[], by decide⟩, ⟨[], by decide⟩⟩

def ghostLedger : LedgerMaps :=
  ⟨⟨[("ghost", 0), ("alice", 5)], by decide⟩, ⟨[], by decide⟩, ⟨[], by decide⟩⟩

theorem aliceLedger_root : SameNonzero aliceLedger.native ghostLedger.native :=
  ((stateRootBytes_eq_iff aliceLedger ghostLedger
    ⟨by decide, fun _ h => (nomatch h), fun _ h => (nomatch h)⟩
    ⟨by decide, fun _ h => (nomatch h), fun _ h => (nomatch h)⟩).1 (by decide +kernel)).1

/-! ## The extended root -/

/-- What is hashed of a collection, of a token and of the whole input. -/
def collectionFields (c : NftCollection) : String × String × UInt64 × Option UInt64 × Bool :=
  (c.collectionId, c.creator, c.minted, c.maxSupply, c.frozen)

def tokenFields (t : NftToken) : String × UInt64 × String × Bool :=
  (t.collectionId, t.tokenId, t.owner, t.locked)

structure RootFields where
  balanceRoot : String
  collections : List (String × String × UInt64 × Option UInt64 × Bool)
  tokens : List (String × UInt64 × String × Bool)
  contractCode : List (List UInt8 × Vector UInt8 32)
  contractState : List (List UInt8 × List UInt8)
  deriving DecidableEq

/-- Every field that the function reads. -/
def RootInput.fields (x : RootInput) : RootFields where
  balanceRoot := x.balanceRoot
  collections := x.collections.map collectionFields
  tokens := x.tokens.map tokenFields
  contractCode := x.contractCode
  contractState := x.contractState

/-- All texts are shorter than `2 ^ 62` bytes. -/
structure RootInput.Short (x : RootInput) : Prop where
  balanceRoot : ShortText x.balanceRoot
  collections : ∀ c ∈ x.collections, ShortText c.collectionId ∧ ShortText c.creator
  tokens : ∀ t ∈ x.tokens, ShortText t.collectionId ∧ ShortText t.owner
  contractCode : ∀ e ∈ x.contractCode, StateRoot.Short e.1
  contractState : ∀ e ∈ x.contractState, StateRoot.Short e.1 ∧ StateRoot.Short e.2

section Extended

/-- A collection as it is written: without a cap it has the largest one. -/
def writtenCollection (c : NftCollection) : String × String × UInt64 × UInt64 × Bool :=
  (c.collectionId, c.creator, c.minted, c.maxSupply.getD (.ofNat (2 ^ 64 - 1)), c.frozen)

theorem written_delimited : Delimited
    (fun c : String × String × UInt64 × UInt64 × Bool =>
      ShortText c.1 ∧ ShortText c.2.1 ∧ True ∧ True ∧ True)
    fun c => textField c.1 ++ (textField c.2.1 ++ (u64BeBytes c.2.2.1 ++
      (u64BeBytes c.2.2.2.1 ++ boolByte c.2.2.2.2))) :=
  textField_delimited.append (textField_delimited.append
    (u64BeBytes_delimited.append (u64BeBytes_delimited.append boolByte_delimited)))

theorem tokenFields_delimited : Delimited
    (fun t : String × UInt64 × String × Bool => ShortText t.1 ∧ True ∧ ShortText t.2.2.1 ∧ True)
    fun t => textField t.1 ++ (u64BeBytes t.2.1 ++ (textField t.2.2.1 ++ boolByte t.2.2.2)) :=
  textField_delimited.append (u64BeBytes_delimited.append
    (textField_delimited.append boolByte_delimited))

theorem digest_delimited : Delimited (fun _ : Vector UInt8 32 => True) Vector.toList :=
  Delimited.of_length (w := 32) (fun d _ => d.length_toList)
    fun _ _ _ _ h => Vector.toList_inj.1 h

theorem codeEntry_delimited : Delimited
    (fun e : List UInt8 × Vector UInt8 32 => Short e.1 ∧ True) codeEntry :=
  field_delimited.append digest_delimited

theorem stateEntry_delimited : Delimited
    (fun e : List UInt8 × List UInt8 => Short e.1 ∧ Short e.2) stateEntry :=
  field_delimited.append field_delimited

/-- The bytes of the extended root determine everything that is written. -/
theorem eq_of_stateRootV2Bytes {x y : RootInput} (hx : x.Short) (hy : y.Short)
    (h : stateRootV2Bytes x = stateRootV2Bytes y) :
    x.balanceRoot = y.balanceRoot ∧
      x.collections.map writtenCollection = y.collections.map writtenCollection ∧
      x.tokens.map tokenFields = y.tokens.map tokenFields ∧
      x.contractCode = y.contractCode ∧ x.contractState = y.contractState := by
  obtain ⟨hroot, h⟩ := textField_delimited hx.balanceRoot hy.balanceRoot (List.append_cancel_left h)
  obtain ⟨hcollections, h⟩ := (written_delimited.shows writtenCollection).flatMap_append
    (fun _ hc => exists_textField_eq_cons hc.1 _) (startsFrom_tag rfl _) (startsFrom_tag rfl _)
    (fun c hc => ⟨(hx.collections c hc).1, (hx.collections c hc).2, trivial, trivial, trivial⟩)
    (fun c hc => ⟨(hy.collections c hc).1, (hy.collections c hc).2, trivial, trivial, trivial⟩)
    (List.append_cancel_left h)
  obtain ⟨htokens, h⟩ := (tokenFields_delimited.shows tokenFields).flatMap_append
    (fun _ ht => exists_textField_eq_cons ht.1 _) (startsFrom_tag rfl _) (startsFrom_tag rfl _)
    (fun t ht => ⟨(hx.tokens t ht).1, trivial, (hx.tokens t ht).2, trivial⟩)
    (fun t ht => ⟨(hy.tokens t ht).1, trivial, (hy.tokens t ht).2, trivial⟩)
    (List.append_cancel_left h)
  obtain ⟨hcode, h⟩ := codeEntry_delimited.flatMap_append
    (fun _ he => exists_field_eq_cons he.1 _) (startsFrom_tag rfl _) (startsFrom_tag rfl _)
    (fun e he => ⟨hx.contractCode e he, trivial⟩) (fun e he => ⟨hy.contractCode e he, trivial⟩)
    (List.append_cancel_left h)
  obtain ⟨hstate, -⟩ := stateEntry_delimited.flatMap_append
    (fun _ he => exists_field_eq_cons he.1 _) (StartsFrom.nil _) (StartsFrom.nil _)
    hx.contractState hy.contractState
    (by simpa only [List.append_nil] using List.append_cancel_left h)
  exact ⟨hroot, hcollections, htokens, hcode, hstate⟩

/-- What is written of a collection leaves open whether it has a cap. -/
theorem collectionFields_eq_iff {c d : NftCollection}
    (h : writtenCollection c = writtenCollection d) :
    collectionFields c = collectionFields d ↔ c.maxSupply.isSome = d.maxSupply.isSome := by
  simp only [writtenCollection, Prod.mk.injEq] at h
  obtain ⟨hid, hcreator, hminted, hcap, hfrozen⟩ := h
  simp only [collectionFields, Prod.mk.injEq, hid, hcreator, hminted, hfrozen, true_and, and_true]
  constructor
  · intro heq
    rw [heq]
  · intro heq
    cases hc : c.maxSupply with
    | none =>
      cases hd : d.maxSupply with
      | none => rfl
      | some m =>
        rw [hc, hd] at heq
        cases heq
    | some n =>
      cases hd : d.maxSupply with
      | none =>
        rw [hc, hd] at heq
        cases heq
      | some m =>
        rw [hc, hd] at hcap
        exact congrArg some hcap

theorem map_collectionFields_eq_iff {l l' : List NftCollection}
    (h : l.map writtenCollection = l'.map writtenCollection) :
    l.map collectionFields = l'.map collectionFields ↔
      l.map (·.maxSupply.isSome) = l'.map (·.maxSupply.isSome) := by
  induction l generalizing l' with
  | nil =>
    obtain rfl := List.map_eq_nil_iff.1 h.symm
    exact ⟨fun _ => rfl, fun _ => rfl⟩
  | cons c l ih =>
    cases l' with
    | nil => cases h
    | cons d l' =>
      rw [List.map_cons, List.map_cons, List.cons.injEq] at h
      rw [List.map_cons, List.map_cons, List.map_cons, List.map_cons, List.cons.injEq,
        List.cons.injEq, ih h.2, collectionFields_eq_iff h.1]

/-- Inputs whose extended roots hash the same bytes agree in every field that is read, unless
    a collection has a cap in one of them and none in the other. -/
theorem stateRootV2Bytes_commits (x y : RootInput) (hx : x.Short) (hy : y.Short)
    (h : stateRootV2Bytes x = stateRootV2Bytes y) :
    x.fields = y.fields ↔
      x.collections.map (·.maxSupply.isSome) = y.collections.map (·.maxSupply.isSome) := by
  obtain ⟨hroot, hcollections, htokens, hcode, hstate⟩ := eq_of_stateRootV2Bytes hx hy h
  rw [← map_collectionFields_eq_iff hcollections]
  simp only [RootInput.fields, RootFields.mk.injEq, hroot, htokens, hcode, hstate, true_and,
    and_true]

/-- One collection and one token of it, under a name that is not hashed. -/
def collectionInput (name : String) (cap : Option UInt64) : RootInput where
  balanceRoot := "fcec1f34"
  collections := [{
    collectionId := "col:alice:ART", symbol := "ART", name, creator := "alice"
    description := none, image := none, maxSupply := cap, minted := 1, royaltyBps := 0
    royaltyRecipient := "alice", frozen := false, createdAt := 0, publicMint := false
    mintPrice := none, tokenGateSymbol := none, tokenGateAmount := none, discountPct := none }]
  tokens := [{
    collectionId := "col:alice:ART", tokenId := 1, owner := "bob", creator := "alice", name
    metadataUri := none, attributes := none, locked := false, mintedAt := 0, transferredAt := 0 }]
  contractCode := []
  contractState := []

theorem collectionInput_short (name : String) (cap : Option UInt64) :
    (collectionInput name cap).Short where
  balanceRoot := (by decide : ShortText "fcec1f34")
  collections := List.forall_mem_singleton.2
    (by decide : ShortText "col:alice:ART" ∧ ShortText "alice")
  tokens := List.forall_mem_singleton.2 (by decide : ShortText "col:alice:ART" ∧ ShortText "bob")
  contractCode := fun _ h => (nomatch h)
  contractState := fun _ h => (nomatch h)

theorem renamedCollection_commits :
    (collectionInput "Art" (some 10)).fields = (collectionInput "art" (some 10)).fields :=
  (stateRootV2Bytes_commits _ _ (collectionInput_short ..) (collectionInput_short ..) rfl).2 rfl

/-- A collection without a cap, and the same with the largest one. -/
theorem uncapped_like_largest_cap :
    stateRootV2Bytes (collectionInput "Art" none) =
        stateRootV2Bytes (collectionInput "Art" (some (.ofNat (2 ^ 64 - 1)))) ∧
      (collectionInput "Art" none).Short ∧
      (collectionInput "Art" (some (.ofNat (2 ^ 64 - 1)))).Short ∧
      (collectionInput "Art" none).fields ≠
        (collectionInput "Art" (some (.ofNat (2 ^ 64 - 1)))).fields :=
  ⟨rfl, collectionInput_short .., collectionInput_short .., by decide⟩

end Extended

end RougeChain.Node.StateRoot
