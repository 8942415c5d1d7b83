import RougeChain.Node.ShieldV2

/-!
# Bodies of shielded transactions, read by the wallet

The wallet writes the body of a transaction (`Body.encode`), and reads it back with offsets and
rules of its own (`Body.decode`). The node is the authority; the wallet differs from it in one
rule, that the account of a transfer is zero, which the node checks elsewhere.

* `Body.decode_eq_ok`, `Body.decode_eq_account_error`: what the wallet accepts, and what it refuses
  for its last rule only, in terms of the rules that the node applies;
* `encode_bodyAt`: the fields in order are the bytes;
* `parsers_agree`: the node and the wallet read the same.
-/

open Fallible

namespace RougeChain.Wallet

open Shield (Bytes32 PublicInputs digestFromBytes digestToBytes zeroBytes leU64 minFeeQuanta
  bindingFromBytes)
open Bytes (field)
open Node.ShieldV2 (BodyRules forM_eq_ok bodyOf kindByte typeName)

def bodyBytes : ℕ := 2546
def bodyVersion : UInt8 := 1
def offPublic : ℕ := 42
def endPublic : ℕ := 226
def offAccount : ℕ := 226
def offKem : Vector ℕ 2 := #v[258, 1402]
def offNote : Vector ℕ 2 := #v[1346, 2490]
def kemCtBytes : ℕ := 1088
def noteCtBytes : ℕ := 56

inductive TxKind where
  | shield
  | transfer
  | unshield
  deriving Repr, DecidableEq

namespace TxKind

def byte : TxKind → UInt8
  | shield => 1
  | transfer => 2
  | unshield => 3

def txType : TxKind → String
  | shield => "shield_v2"
  | transfer => "shielded_transfer_v2"
  | unshield => "unshield_v2"

/-- The kind as the pool has it. -/
def pool : TxKind → Shield.TxKind
  | shield => .shield
  | transfer => .transfer
  | unshield => .unshield

/-- The wallet's name for a kind of the pool. -/
def ofPool : Shield.TxKind → TxKind
  | .shield => shield
  | .transfer => transfer
  | .unshield => unshield

end TxKind

/-- Errors of the wallet about a body. -/
inductive BodyError where
  | request (text : String)
  | nonCanonical (what : String)
  deriving Repr, DecidableEq

/-- A decoded body. -/
structure Body where
  kind : TxKind
  chain : Bytes32
  expiryHeight : UInt64
  anchor : Bytes32
  nf : Vector Bytes32 2
  cmOut : Vector Bytes32 2
  vIn : UInt64
  vOut : UInt64
  fee : UInt64
  account : Bytes32
  kemCt : Vector (Vector UInt8 kemCtBytes) 2
  noteCt : Vector (Vector UInt8 noteCtBytes) 2
  deriving DecidableEq

/-! ## Writing and reading -/

def Body.encode (body : Body) : List UInt8 :=
  bodyVersion :: body.kind.byte :: body.chain.toList ++
    Bytes.leBytes 8 body.expiryHeight.toNat ++
    body.anchor.toList ++ (body.nf.get 0).toList ++ (body.nf.get 1).toList ++
    (body.cmOut.get 0).toList ++ (body.cmOut.get 1).toList ++
    Bytes.leBytes 8 body.vIn.toNat ++ Bytes.leBytes 8 body.vOut.toNat ++
    Bytes.leBytes 8 body.fee.toNat ++
    body.account.toList ++
    (body.kemCt.get 0).toList ++ (body.noteCt.get 0).toList ++
    (body.kemCt.get 1).toList ++ (body.noteCt.get 1).toList

def bad (m : String) : BodyError := .request ("body: " ++ m)

def decodeKind (k : UInt8) : Except BodyError TxKind :=
  if k = 1 then .ok .shield
  else if k = 2 then .ok .transfer
  else if k = 3 then .ok .unshield
  else .error (bad "unknown kind")

/-- The public amounts fit the kind. -/
def TxKind.amountsFit (kind : TxKind) (vIn vOut fee : UInt64) : Bool :=
  match kind with
  | shield => vIn > 0 && vOut == 0 && fee ≤ vIn
  | transfer => vIn == 0 && vOut == 0
  | unshield => vIn == 0 && vOut > 0

/-- The refusal of a transfer whose account is not zero. -/
def accountError : BodyError := bad "a transfer must have an all-zero account"

/-- The rules of `Body.decode` but the last one. -/
def decodeRules (b : List UInt8) : Except BodyError TxKind := do
  require (b.length = bodyBytes) (bad "wrong length")
  require (b.getD 0 0 = bodyVersion) (bad "body_version is not 1")
  let kind ← decodeKind (b.getD 1 0)
  forM [field 32 b 42, field 32 b 74, field 32 b 106, field 32 b 138, field 32 b 170] fun d =>
    require ((digestFromBytes d).isSome) (bad "a digest is not canonical")
  require (field 32 b 138 ≠ zeroBytes ∧ field 32 b 170 ≠ zeroBytes)
    (bad "an output commitment is the all-zero digest")
  require (field 32 b 74 ≠ field 32 b 106) (bad "nf1 equals nf2")
  require (kind.amountsFit (leU64 b 202) (leU64 b 210) (leU64 b 218))
    (bad "the public amounts do not fit the kind")
  require (minFeeQuanta ≤ leU64 b 218) (bad "the fee is below the minimum")
  return kind

/-- Two fields of one length. -/
def fieldPair (n : ℕ) (b : List UInt8) (off off' : ℕ) : Vector (Vector UInt8 n) 2 :=
  #v[field n b off, field n b off']

def Body.decode (b : List UInt8) : Except BodyError Body := do
  let kind ← decodeRules b
  let account := field 32 b offAccount
  require (¬ (kind = .transfer ∧ account ≠ zeroBytes)) accountError
  return {
    kind
    chain := field 32 b 2
    expiryHeight := leU64 b 34
    anchor := field 32 b 42
    nf := fieldPair 32 b 74 106
    cmOut := fieldPair 32 b 138 170
    vIn := leU64 b 202
    vOut := leU64 b 210
    fee := leU64 b 218
    account
    kemCt := fieldPair kemCtBytes b (offKem.get 0) (offKem.get 1)
    noteCt := fieldPair noteCtBytes b (offNote.get 0) (offNote.get 1) }

def bindingBytes (deriveKey : String → List UInt8 → Bytes32) (body : List UInt8) : Bytes32 :=
  digestToBytes (bindingFromBytes deriveKey body)

def publicInputsOf (deriveKey : String → List UInt8 → Bytes32) (body : List UInt8) :
    Except BodyError PublicInputs := do
  require (body.length = bodyBytes) (bad "wrong length")
  ofOption (.nonCanonical "a public input of the body") (PublicInputs.fromBytes
    ((body.drop offPublic).take (endPublic - offPublic) ++ (bindingBytes deriveKey body).toList))

/-! ## What is accepted -/

/-- The fields of the bytes. -/
def bodyAt (b : List UInt8) (kind : TxKind) : Body where
  kind := kind
  chain := field 32 b 2
  expiryHeight := leU64 b 34
  anchor := field 32 b 42
  nf := fieldPair 32 b 74 106
  cmOut := fieldPair 32 b 138 170
  vIn := leU64 b 202
  vOut := leU64 b 210
  fee := leU64 b 218
  account := field 32 b 226
  kemCt := fieldPair kemCtBytes b 258 1402
  noteCt := fieldPair noteCtBytes b 1346 2490

namespace TxKind

@[simp]
theorem pool_ofPool (kind : Shield.TxKind) : (ofPool kind).pool = kind := by cases kind <;> rfl

theorem byte_eq (kind : TxKind) : kind.byte = kindByte kind.pool := by cases kind <;> rfl

theorem txType_eq (kind : TxKind) : kind.txType = typeName kind.pool := by cases kind <;> rfl

theorem amountsFit_eq (kind : TxKind) (vIn vOut fee : UInt64) :
    kind.amountsFit vIn vOut fee = Node.ShieldV2.amountsFit kind.pool vIn vOut fee := by
  cases kind <;> rfl

end TxKind

theorem decodeKind_eq_ok {k : UInt8} {kind : TxKind} :
    decodeKind k = .ok kind ↔ k = kindByte kind.pool := by
  constructor
  · intro h
    rw [decodeKind] at h
    split_ifs at h with h1 h2 h3
    all_goals
      obtain rfl := Except.ok.inj h
      assumption
  · rintro rfl
    cases kind <;> decide

variable {b : List UInt8}

theorem decodeRules_eq_ok {kind : TxKind} :
    decodeRules b = .ok kind ↔ BodyRules b kind.pool := by
  simp only [decodeRules, bind_eq_ok, require_eq_ok, decodeKind_eq_ok, forM_eq_ok,
    TxKind.amountsFit_eq, exists_and_left, exists_const]
  constructor
  · rintro ⟨hlen, hversion, kind', hkind, hcanonical, hout, hnf, hamounts, hfee, h⟩
    obtain rfl := Except.ok.inj h
    exact ⟨hlen, hversion, hkind, hcanonical, hout, hnf, hamounts, hfee⟩
  · intro h
    exact ⟨h.length, h.version, kind, h.byte, h.canonical, h.outputs, h.nullifiers, h.amounts,
      h.fee, rfl⟩

theorem bind_ne_error {α β E : Type} {x : Except E α} {f : α → Except E β} {e : E}
    (hx : x ≠ .error e) (hf : ∀ a, f a ≠ .error e) : (x >>= f) ≠ .error e := by
  cases x with
  | error e' => exact fun h => hx (congrArg Except.error (Except.error.inj h))
  | ok a => exact hf a

theorem require_ne_error {c : Prop} [Decidable c] {E : Type} {e e' : E} (h : e ≠ e') :
    require c e ≠ .error e' := by
  rw [require]
  split_ifs
  · rintro ⟨⟩
  · exact fun herr => h (Except.error.inj herr)

/-- The rules before the last one have texts of their own. -/
theorem decodeRules_ne_accountError : decodeRules b ≠ .error accountError := by
  have hkind : decodeKind (b.getD 1 0) ≠ .error accountError := by
    rw [decodeKind]
    split_ifs
    all_goals decide
  have hdigests : ∀ l : List Bytes32, (forM l fun d => require ((digestFromBytes d).isSome)
      (bad "a digest is not canonical")) ≠ .error accountError := by
    intro l
    induction l with
    | nil => exact fun h => nomatch h
    | cons d l ih =>
      rw [List.forM_cons]
      exact bind_ne_error (require_ne_error (by decide)) fun _ => ih
  refine bind_ne_error (require_ne_error (by decide)) fun _ => ?_
  refine bind_ne_error (require_ne_error (by decide)) fun _ => ?_
  refine bind_ne_error hkind fun kind => bind_ne_error (hdigests _) fun _ => ?_
  refine bind_ne_error (require_ne_error (by decide)) fun _ => ?_
  refine bind_ne_error (require_ne_error (by decide)) fun _ => ?_
  refine bind_ne_error (require_ne_error (by decide)) fun _ => ?_
  exact bind_ne_error (require_ne_error (by decide)) fun _ h => nomatch h

theorem Body.decode_eq_ok {w : Body} :
    Body.decode b = .ok w ↔ ∃ kind, BodyRules b kind.pool ∧
      ¬ (kind = .transfer ∧ field 32 b 226 ≠ zeroBytes) ∧ w = bodyAt b kind := by
  simp only [Body.decode, bind_eq_ok, require_eq_ok, decodeRules_eq_ok,
    exists_and_left, exists_const]
  refine exists_congr fun kind => and_congr_right fun _ => and_congr_right fun _ => ?_
  exact ⟨fun h => (Except.ok.inj h).symm, fun h => congrArg Except.ok h.symm⟩

theorem Body.decode_eq_account_error :
    Body.decode b = .error accountError ↔ BodyRules b .transfer ∧ field 32 b 226 ≠ zeroBytes := by
  rw [Body.decode]
  cases hrules : decodeRules b with
  | error e =>
    refine iff_of_false (fun h => ?_) fun h => ?_
    · rw [error_bind] at h
      exact decodeRules_ne_accountError (hrules.trans (congrArg Except.error (Except.error.inj h)))
    · have hok : decodeRules b = .ok .transfer := decodeRules_eq_ok.2 h.1
      rw [hok] at hrules
      cases hrules
  | ok kind =>
    have hkind := decodeRules_eq_ok.1 hrules
    rw [ok_bind]
    by_cases hzero : kind = .transfer ∧ field 32 b 226 ≠ zeroBytes
    · refine iff_of_true ?_ ⟨?_, hzero.2⟩
      swap
      · rwa [hzero.1] at hkind
      have hfail : require (¬ (kind = .transfer ∧ field 32 b offAccount ≠ zeroBytes))
          accountError = .error accountError := if_neg (not_not.2 hzero)
      dsimp only
      rw [hfail]
      rfl
    · refine iff_of_false (fun h => ?_) fun h => hzero ⟨?_, h.2⟩
      · have hpass : require (¬ (kind = .transfer ∧ field 32 b offAccount ≠ zeroBytes))
            accountError = .ok () := if_pos hzero
        dsimp only at h
        rw [hpass] at h
        cases h
      · -- the kind is told by its byte
        have hbyte := hkind.byte.symm.trans h.1.byte
        cases kind with
        | transfer => rfl
        | shield => exact absurd hbyte (by decide)
        | unshield => exact absurd hbyte (by decide)

/-! ## The fields in order are the bytes -/

theorem drop_eq_getD_cons {i : ℕ} (h : i < b.length) : b.drop i = b.getD i 0 :: b.drop (i + 1) := by
  rw [List.drop_eq_getElem_cons h, List.getD_eq_getElem _ _ h]

theorem leBytes_leU64 (b : List UInt8) (off : ℕ) :
    Bytes.leBytes 8 (leU64 b off).toNat = (field 8 b off).toList := by
  have hlt := Bytes.leNat_lt (field 8 b off).toList
  rw [Vector.length_toList] at hlt
  have hmod : Bytes.leNat (field 8 b off).toList % 2 ^ 64 = _ := Nat.mod_eq_of_lt hlt
  rw [leU64, UInt64.toNat_ofNat', hmod, Bytes.leBytes_field]

theorem pair_zero {α : Type} (x y : α) : #v[x, y].get 0 = x := rfl

theorem pair_one {α : Type} (x y : α) : #v[x, y].get 1 = y := rfl

theorem encode_bodyAt {kind : TxKind} (h : BodyRules b kind.pool) : (bodyAt b kind).encode = b := by
  have hlen : b.length = 2546 := h.length
  have hlast : (field noteCtBytes b 2490).toList = b.drop 2490 := by
    have hend := @Bytes.field_append_drop b 56 2490 (by omega)
    rwa [List.drop_of_length_le (i := 2490 + 56) (by omega), List.append_nil] at hend
  have hversion : bodyVersion = b.getD 0 0 := h.version.symm
  have hbyte : kind.byte = b.getD 1 0 := kind.byte_eq.trans h.byte.symm
  have hfield (n off next : ℕ) (hnext : next = off + n) (hle : next ≤ 2546) :
      (field n b off).toList ++ b.drop next = b.drop off := by
    rw [hnext]
    exact Bytes.field_append_drop (by omega)
  -- from the last field to the first, each is put before the rest of the record
  simp only [Body.encode, bodyAt, leBytes_leU64, List.cons_append, List.append_assoc,
    fieldPair, pair_zero, pair_one]
  rw [hlast, hfield kemCtBytes 1402 2490 rfl (by decide),
    hfield noteCtBytes 1346 1402 rfl (by decide),
    hfield kemCtBytes 258 1346 rfl (by decide), hfield 32 226 258 rfl (by decide),
    hfield 8 218 226 rfl (by decide), hfield 8 210 218 rfl (by decide),
    hfield 8 202 210 rfl (by decide), hfield 32 170 202 rfl (by decide),
    hfield 32 138 170 rfl (by decide), hfield 32 106 138 rfl (by decide),
    hfield 32 74 106 rfl (by decide), hfield 32 42 74 rfl (by decide),
    hfield 8 34 42 rfl (by decide), hfield 32 2 34 rfl (by decide), hversion, hbyte,
    ← drop_eq_getD_cons (i := 1) (by omega), ← drop_eq_getD_cons (i := 0) (by omega),
    List.drop_zero]

/-! ## Both sides -/

/-- The body that the node reads, with the ciphertexts that it lists, as a body of the wallet. -/
def Body.assemble (body : Node.ShieldV2.ShieldV2Body) (listing : Node.ShieldV2.ListingFields) :
    Body where
  kind := .ofPool body.kind
  chain := body.chain
  expiryHeight := body.expiryHeight
  anchor := body.anchor
  nf := listing.nf
  cmOut := listing.cmOut
  vIn := body.vIn
  vOut := body.vOut
  fee := body.fee
  account := body.account
  kemCt := #v[field kemCtBytes (listing.kemCt.get 0) 0, field kemCtBytes (listing.kemCt.get 1) 0]
  noteCt :=
    #v[field noteCtBytes (listing.noteCt.get 0) 0, field noteCtBytes (listing.noteCt.get 1) 0]

/-- The ciphertexts of a listing, each by its own. -/
theorem Body.assemble_of {body : Node.ShieldV2.ShieldV2Body}
    {listing : Node.ShieldV2.ListingFields} {kem1 kem2 : Vector UInt8 kemCtBytes}
    {note1 note2 : Vector UInt8 noteCtBytes}
    (hkem1 : field kemCtBytes (listing.kemCt.get 0) 0 = kem1)
    (hkem2 : field kemCtBytes (listing.kemCt.get 1) 0 = kem2)
    (hnote1 : field noteCtBytes (listing.noteCt.get 0) 0 = note1)
    (hnote2 : field noteCtBytes (listing.noteCt.get 1) 0 = note2) :
    Body.assemble body listing = {
      kind := .ofPool body.kind
      chain := body.chain
      expiryHeight := body.expiryHeight
      anchor := body.anchor
      nf := listing.nf
      cmOut := listing.cmOut
      vIn := body.vIn
      vOut := body.vOut
      fee := body.fee
      account := body.account
      kemCt := #v[kem1, kem2]
      noteCt := #v[note1, note2] } := by
  subst hkem1 hkem2 hnote1 hnote2
  rfl

/-- A field cut out of the record, and read from its start. -/
theorem field_cut {n m : ℕ} (h : m = n) (b : List UInt8) (off : ℕ) :
    field n ((b.drop off).take m) 0 = field n b off := by
  rw [Bytes.field_take (by rw [h, Nat.zero_add]), Bytes.field_drop, Nat.add_zero]

theorem assemble_eq (b : List UInt8) (kind : TxKind) :
    Body.assemble (bodyOf b kind.pool) (Node.ShieldV2.listingOf b) = bodyAt b kind := by
  -- the offsets of the two sides are compared one field at a time
  have hkem (off : ℕ) := field_cut (n := kemCtBytes) (m := Node.ShieldV2.kemCtBytes) rfl b off
  have hnote (off : ℕ) := field_cut (n := noteCtBytes) (m := Node.ShieldV2.noteCtBytes) rfl b off
  have hkem1 : (Node.ShieldV2.listingOf b).kemCt.get 0 =
      (b.drop Node.ShieldV2.offKem1).take Node.ShieldV2.kemCtBytes := pair_zero _ _
  have hkem2 : (Node.ShieldV2.listingOf b).kemCt.get 1 =
      (b.drop Node.ShieldV2.offKem2).take Node.ShieldV2.kemCtBytes := pair_one _ _
  have hnote1 : (Node.ShieldV2.listingOf b).noteCt.get 0 =
      (b.drop Node.ShieldV2.offNote1).take Node.ShieldV2.noteCtBytes := pair_zero _ _
  have hnote2 : (Node.ShieldV2.listingOf b).noteCt.get 1 =
      (b.drop Node.ShieldV2.offNote2).take Node.ShieldV2.noteCtBytes := pair_one _ _
  refine (Body.assemble_of (congrArg (field kemCtBytes · 0) hkem1)
    (congrArg (field kemCtBytes · 0) hkem2) (congrArg (field noteCtBytes · 0) hnote1)
    (congrArg (field noteCtBytes · 0) hnote2)).trans ?_
  rw [hkem Node.ShieldV2.offKem1, hkem Node.ShieldV2.offKem2, hnote Node.ShieldV2.offNote1,
    hnote Node.ShieldV2.offNote2]
  cases kind <;> rfl

/-- The node's ciphertexts are the wallet's, byte by byte. -/
theorem bodyAt_cts {kind : TxKind} (hlen : b.length = 2546) :
    (bodyAt b kind).kemCt.map Vector.toList = (Node.ShieldV2.listingOf b).kemCt ∧
      (bodyAt b kind).noteCt.map Vector.toList = (Node.ShieldV2.listingOf b).noteCt := by
  have hcut (n off : ℕ) (hoff : off + n ≤ 2546) : (field n b off).toList = (b.drop off).take n :=
    Bytes.toList_field (by omega)
  have hpair (n off off' : ℕ) (hoff : off + n ≤ 2546) (hoff' : off' + n ≤ 2546) :
      (fieldPair n b off off').map Vector.toList =
        #v[(b.drop off).take n, (b.drop off').take n] := by
    rw [← hcut n off hoff, ← hcut n off' hoff']
    simp [fieldPair]
  exact ⟨hpair kemCtBytes 258 1402 (by decide) (by decide),
    hpair noteCtBytes 1346 2490 (by decide) (by decide)⟩

/-- For every string of bytes, type, height and chain: the node accepts a body if the wallet does,
    or refuses it for the account of a transfer only, and the body is of the type, on the chain and
    not expired. Then what the node reads and lists is what the wallet reads; written again, it is
    the string; and the public inputs are the same on both sides. -/
theorem parsers_agree (sha256 : List UInt8 → Bytes32) (deriveKey : String → List UInt8 → Bytes32)
    (b : List UInt8) (ty : String) (height : UInt64) (chainId : String) :
    ((∃ body, Node.ShieldV2.parseBody b ty height (Node.ShieldV2.chainTag sha256 chainId) =
        .ok body) ↔
      ((∃ w, Body.decode b = .ok w) ∨ Body.decode b = .error accountError) ∧
        (∃ kind : TxKind, kind.byte = b.getD 1 0 ∧ kind.txType = ty) ∧
        field 32 b 2 = sha256 (Json.utf8 chainId.toList) ∧ height ≤ leU64 b 34) ∧
    ∀ body, Node.ShieldV2.parseBody b ty height (Node.ShieldV2.chainTag sha256 chainId) =
        .ok body →
      ∃ listing pub,
        (∀ tx : Node.TxV1, tx.txType = ty →
          tx.payload.shieldV2Body = some (Node.hexEncode b) →
            Node.ShieldV2.listingFields tx = some listing) ∧
        (∀ w, Body.decode b = .ok w → w = Body.assemble body listing) ∧
        (body.nf = listing.nf ∧ body.cmOut = listing.cmOut ∧
          (Body.assemble body listing).kemCt.map Vector.toList = listing.kemCt ∧
          (Body.assemble body listing).noteCt.map Vector.toList = listing.noteCt) ∧
        (Body.assemble body listing).encode = b ∧
        (∀ proof, Node.ShieldV2.ShieldV2Tx.publicInputs deriveKey ⟨body, b, proof⟩ = .ok pub) ∧
        publicInputsOf deriveKey b = .ok pub := by
  simp only [Node.ShieldV2.parseBody_eq_ok]
  constructor
  · constructor
    · rintro ⟨body, kind, hrules, hty, hchain, hexpiry, -⟩
      rw [← TxKind.pool_ofPool kind] at hrules hty
      refine ⟨?_, ⟨.ofPool kind, ?_, ?_⟩, hchain, hexpiry⟩
      · by_cases hzero : TxKind.ofPool kind = .transfer ∧ field 32 b 226 ≠ zeroBytes
        · rw [hzero.1] at hrules
          exact .inr (Body.decode_eq_account_error.2 ⟨hrules, hzero.2⟩)
        · exact .inl ⟨_, Body.decode_eq_ok.2 ⟨_, hrules, hzero, rfl⟩⟩
      · rw [TxKind.byte_eq, hrules.byte]
      · rw [TxKind.txType_eq, hty]
    · rintro ⟨hdecode, ⟨kind, hbyte, hty⟩, hchain, hexpiry⟩
      -- the wallet has read a body of the kind that the byte tells
      obtain ⟨kind', hrules⟩ : ∃ kind' : TxKind, BodyRules b kind'.pool := by
        rcases hdecode with ⟨w, hw⟩ | herr
        · obtain ⟨kind', hrules, -⟩ := Body.decode_eq_ok.1 hw
          exact ⟨kind', hrules⟩
        · exact ⟨.transfer, (Body.decode_eq_account_error.1 herr).1⟩
      obtain rfl : kind' = kind := by
        have h := hrules.byte.symm.trans hbyte.symm
        rw [← TxKind.byte_eq] at h
        cases kind' <;> cases kind <;> first | rfl | exact absurd h (by decide)
      exact ⟨_, _, hrules, by rw [← TxKind.txType_eq, hty], hchain, hexpiry, rfl⟩
  · rintro body ⟨kind, hrules, hty, hchain, hexpiry, rfl⟩
    rw [← TxKind.pool_ofPool kind] at hrules hty ⊢
    obtain ⟨pub, hpub⟩ := Node.ShieldV2.exists_publicInputs hrules (bindingFromBytes deriveKey b)
    have hbody := assemble_eq b (TxKind.ofPool kind)
    refine ⟨Node.ShieldV2.listingOf b, pub, fun tx htx hhex => ?_, fun w hw => ?_,
      ⟨rfl, rfl, ?_⟩, ?_, fun proof => ?_, ?_⟩
    · refine Node.ShieldV2.listingFields_eq ?_ hhex hrules.length
      rw [htx, hty]
      exact Node.ShieldV2.isShieldV2Type_typeName _
    · obtain ⟨kind', hrules', -, rfl⟩ := Body.decode_eq_ok.1 hw
      have h := hrules'.byte.symm.trans hrules.byte
      rw [hbody]
      congr 1
      rw [← TxKind.byte_eq, ← TxKind.byte_eq] at h
      revert h
      cases kind' <;> cases TxKind.ofPool kind <;> decide
    · rw [hbody]
      exact bodyAt_cts hrules.length
    · rw [hbody]
      exact encode_bodyAt hrules
    · exact ofOption_eq_ok.2 hpub
    · exact bind_eq_ok.2 ⟨(), require_eq_ok.2 hrules.length,
        ofOption_eq_ok.2 hpub⟩

end RougeChain.Wallet
