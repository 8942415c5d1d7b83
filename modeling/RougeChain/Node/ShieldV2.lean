import RougeChain.Library.Bytes
import RougeChain.Node.Encoding
import RougeChain.Shield.Frontier

/-!
# Bodies of shielded transactions, read by the node

The body of a shielded transaction is a record of 2,546 bytes. The node takes it apart by offsets
and applies the rules that need no state (`parseBody`); it lists the ciphertexts of accepted
transactions (`listingFields`) and derives the public inputs of the proof (`publicInputs`).

`BodyRules` is what the bytes have to satisfy for some kind of transaction, whoever reads them.
A body is accepted if it does, and is of the type, on the chain and not expired
(`parseBody_eq_ok`).
-/

open Fallible

namespace RougeChain.Shield

/-- The lowest fee of a transaction. -/
def minFeeQuanta : UInt64 := 1000000000

/-! ## Public inputs as bytes -/

def publicInputBytes : ℕ := 5 * 32 + 3 * 8 + 32

/-- The little-endian number in the eight bytes from `off` on. -/
def leU64 (b : List UInt8) (off : ℕ) : UInt64 := .ofNat (Bytes.leNat (Bytes.field 8 b off).toList)

def PublicInputs.fromBytes (b : List UInt8) : Option PublicInputs := do
  guard (b.length = publicInputBytes)
  let anchor ← digestFromBytes (Bytes.field 32 b 0)
  let nf1 ← digestFromBytes (Bytes.field 32 b 32)
  let nf2 ← digestFromBytes (Bytes.field 32 b 64)
  let cm1 ← digestFromBytes (Bytes.field 32 b 96)
  let cm2 ← digestFromBytes (Bytes.field 32 b 128)
  let binding ← digestFromBytes (Bytes.field 32 b 184)
  return {
    anchor
    nf := ![nf1, nf2]
    cmOut := ![cm1, cm2]
    vIn := leU64 b 160
    vOut := leU64 b 168
    fee := leU64 b 176
    binding }

/-- The hash of the body to which a proof is bound: `deriveKey` is the key derivation of the hash
    library, by context and message. -/
def bindingFromBytes (deriveKey : String → List UInt8 → Bytes32) (txBytes : List UInt8) : Digest :=
  let h := deriveKey "rouge-shield/v2/binding/research-0" txBytes
  fun i => ((word h i % modulus : ℕ) : Felt)

end RougeChain.Shield

namespace RougeChain.Node.ShieldV2

open Shield (Bytes32 PublicInputs digestFromBytes digestToBytes zeroBytes leU64 minFeeQuanta
  bindingFromBytes)
open Bytes (field)

def shieldTxType : String := "shield_v2"
def transferTxType : String := "shielded_transfer_v2"
def unshieldTxType : String := "unshield_v2"

def bodyBytes : ℕ := 2546
def bodyHexChars : ℕ := 2 * bodyBytes
def offPublic : ℕ := 42
def endPublic : ℕ := 226
def offKem1 : ℕ := 258
def offNote1 : ℕ := 1346
def offKem2 : ℕ := 1402
def offNote2 : ℕ := 2490
def kemCtBytes : ℕ := 1088
def noteCtBytes : ℕ := 56

def isShieldV2Type (ty : String) : Bool :=
  [shieldTxType, transferTxType, unshieldTxType].contains ty

def chainTag (sha256 : List UInt8 → Bytes32) (chainId : String) : Bytes32 :=
  sha256 (Json.utf8 chainId.toList)

/-- The decoded body of a transaction. -/
structure ShieldV2Body where
  kind : Shield.TxKind
  chain : Bytes32
  expiryHeight : UInt64
  anchor : Bytes32
  nf : Vector Bytes32 2
  cmOut : Vector Bytes32 2
  vIn : UInt64
  vOut : UInt64
  fee : UInt64
  account : Bytes32
  deriving DecidableEq

/-- A transaction that passed the rules without state. -/
structure ShieldV2Tx where
  body : ShieldV2Body
  bodyBytes : List UInt8
  proof : List UInt8

/-! ## The parser -/

def bodyKind (k : UInt8) (ty : String) : Except String Shield.TxKind :=
  if k = 1 ∧ ty = shieldTxType then .ok .shield
  else if k = 2 ∧ ty = transferTxType then .ok .transfer
  else if k = 3 ∧ ty = unshieldTxType then .ok .unshield
  else .error s!"shield_v2: body kind {k} does not match tx_type {ty}"

/-- The amounts fit the kind. -/
def amountsFit (kind : Shield.TxKind) (vIn vOut fee : UInt64) : Bool :=
  match kind with
  | .shield => vIn > 0 && vOut == 0 && fee ≤ vIn
  | .transfer => vIn == 0 && vOut == 0
  | .unshield => vIn == 0 && vOut > 0

def parseBody (body : List UInt8) (ty : String) (height : UInt64) (expectedChain : Bytes32) :
    Except String ShieldV2Body := do
  let n := body.length
  require (n = bodyBytes) s!"shield_v2: body is {n} bytes, expected {bodyBytes}"
  let version := body.getD 0 0
  require (version = 1) s!"shield_v2: body_version {version} is not 1"
  let kind ← bodyKind (body.getD 1 0) ty
  let chain := field 32 body 2
  require (chain = expectedChain) "shield_v2: body chain id is not this chain"
  let expiryHeight := leU64 body 34
  require (height ≤ expiryHeight)
    s!"shield_v2: expired at height {expiryHeight} (block {height})"
  let anchor := field 32 body 42
  let nf1 := field 32 body 74
  let nf2 := field 32 body 106
  let cm1 := field 32 body 138
  let cm2 := field 32 body 170
  forM [("anchor", anchor), ("nf1", nf1), ("nf2", nf2), ("cm_out1", cm1), ("cm_out2", cm2)]
    fun (name, d) =>
      require ((digestFromBytes d).isSome) s!"shield_v2: {name} is not a canonical digest"
  require (cm1 ≠ zeroBytes ∧ cm2 ≠ zeroBytes)
    "shield_v2: an output commitment is the all-zero digest"
  require (nf1 ≠ nf2) "shield_v2: nf1 equals nf2"
  let vIn := leU64 body 202
  let vOut := leU64 body 210
  let fee := leU64 body 218
  require (amountsFit kind vIn vOut fee)
    s!"shield_v2: public amounts (v_in {vIn}, v_out {vOut}, fee {fee}) do not fit {ty}"
  require (minFeeQuanta ≤ fee)
    s!"shield_v2: fee {fee} quanta is below the minimum of {minFeeQuanta}"
  return {
    kind
    chain
    expiryHeight
    anchor
    nf := #v[nf1, nf2]
    cmOut := #v[cm1, cm2]
    vIn
    vOut
    fee
    account := field 32 body 226 }

/-- What a proof of the transaction is about. Panics if a digest is not canonical. -/
def ShieldV2Tx.publicInputs (deriveKey : String → List UInt8 → Bytes32) (tx : ShieldV2Tx) :
    Except Fault PublicInputs :=
  ofOption .panic (PublicInputs.fromBytes
    ((tx.bodyBytes.drop offPublic).take (endPublic - offPublic) ++
      (digestToBytes (bindingFromBytes deriveKey tx.bodyBytes)).toList))

/-- What the wallet listing shows of an accepted transaction. -/
structure ListingFields where
  nf : Vector Bytes32 2
  cmOut : Vector Bytes32 2
  kemCt : Vector (List UInt8) 2
  noteCt : Vector (List UInt8) 2
  deriving DecidableEq

def listingFields (tx : TxV1) : Option ListingFields := do
  guard (isShieldV2Type tx.txType)
  let bodyHex ← tx.payload.shieldV2Body
  guard (bodyHex.utf8ByteSize = bodyHexChars)
  let body ← hexDecode bodyHex
  guard (body.length = bodyBytes)
  return {
    nf := #v[field 32 body 74, field 32 body 106]
    cmOut := #v[field 32 body 138, field 32 body 170]
    kemCt := #v[(body.drop offKem1).take kemCtBytes, (body.drop offKem2).take kemCtBytes]
    noteCt := #v[(body.drop offNote1).take noteCtBytes, (body.drop offNote2).take noteCtBytes] }

/-! ## What is accepted -/

def kindByte : Shield.TxKind → UInt8
  | .shield => 1
  | .transfer => 2
  | .unshield => 3

def typeName : Shield.TxKind → String
  | .shield => shieldTxType
  | .transfer => transferTxType
  | .unshield => unshieldTxType

/-- The digests of a body. -/
def digestsOf (b : List UInt8) : List Bytes32 :=
  [field 32 b 42, field 32 b 74, field 32 b 106, field 32 b 138, field 32 b 170]

/-- The rules for the bytes of a body of some kind. -/
structure BodyRules (b : List UInt8) (kind : Shield.TxKind) : Prop where
  length : b.length = bodyBytes
  version : b.getD 0 0 = 1
  byte : b.getD 1 0 = kindByte kind
  canonical : ∀ d ∈ digestsOf b, (digestFromBytes d).isSome
  outputs : field 32 b 138 ≠ zeroBytes ∧ field 32 b 170 ≠ zeroBytes
  nullifiers : field 32 b 74 ≠ field 32 b 106
  amounts : amountsFit kind (leU64 b 202) (leU64 b 210) (leU64 b 218) = true
  fee : minFeeQuanta ≤ leU64 b 218

/-- The fields of the bytes. -/
def bodyOf (b : List UInt8) (kind : Shield.TxKind) : ShieldV2Body where
  kind := kind
  chain := field 32 b 2
  expiryHeight := leU64 b 34
  anchor := field 32 b 42
  nf := #v[field 32 b 74, field 32 b 106]
  cmOut := #v[field 32 b 138, field 32 b 170]
  vIn := leU64 b 202
  vOut := leU64 b 210
  fee := leU64 b 218
  account := field 32 b 226

theorem isShieldV2Type_typeName (kind : Shield.TxKind) : isShieldV2Type (typeName kind) = true := by
  cases kind <;> decide

theorem bodyKind_eq_ok {k : UInt8} {ty : String} {kind : Shield.TxKind} :
    bodyKind k ty = .ok kind ↔ k = kindByte kind ∧ ty = typeName kind := by
  constructor
  · intro h
    rw [bodyKind] at h
    split_ifs at h with h1 h2 h3
    all_goals
      obtain rfl := Except.ok.inj h
      assumption
  · rintro ⟨rfl, rfl⟩
    cases kind <;> decide

theorem forM_eq_ok {α E : Type} {f : α → Except E Unit} {l : List α} {u : Unit} :
    forM l f = .ok u ↔ ∀ x ∈ l, f x = .ok () := by
  induction l with
  | nil => exact iff_of_true rfl (by simp)
  | cons x l ih =>
    rw [List.forM_cons, bind_eq_ok, List.forall_mem_cons]
    exact ⟨fun ⟨_, hx, hl⟩ => ⟨hx, ih.1 hl⟩, fun ⟨hx, hl⟩ => ⟨(), hx, ih.2 hl⟩⟩

theorem parseBody_eq_ok {b : List UInt8} {ty : String} {height : UInt64} {chain : Bytes32}
    {body : ShieldV2Body} :
    parseBody b ty height chain = .ok body ↔ ∃ kind, BodyRules b kind ∧ ty = typeName kind ∧
      field 32 b 2 = chain ∧ height ≤ leU64 b 34 ∧ body = bodyOf b kind := by
  simp only [parseBody, bind_eq_ok, require_eq_ok, bodyKind_eq_ok, forM_eq_ok,
    exists_and_left, exists_const]
  constructor
  · rintro ⟨hlen, hversion, kind, ⟨hkind, hty⟩, hchain, hexpiry, hcanonical, hout, hnf, hamounts,
      hfee, h⟩
    refine ⟨kind, ⟨hlen, hversion, hkind, ?_, hout, hnf, hamounts, hfee⟩, hty, hchain, hexpiry,
      (Except.ok.inj h).symm⟩
    simp only [List.forall_mem_cons, digestsOf, List.not_mem_nil, false_implies, implies_true,
      and_true] at hcanonical ⊢
    exact hcanonical
  · rintro ⟨kind, h, hty, hchain, hexpiry, rfl⟩
    refine ⟨h.length, h.version, kind, ⟨h.byte, hty⟩, hchain, hexpiry, ?_, h.outputs, h.nullifiers,
      h.amounts, h.fee, rfl⟩
    have hcanonical := h.canonical
    simp only [List.forall_mem_cons, digestsOf, List.not_mem_nil, false_implies, implies_true,
      and_true] at hcanonical ⊢
    exact hcanonical

/-! ## Public inputs and listings -/

/-- The public inputs of a body by the rules, with the hash to which they are bound, exist. -/
theorem exists_publicInputs {b : List UInt8} {kind : Shield.TxKind} (h : BodyRules b kind)
    (binding : Shield.Digest) :
    ∃ pub, PublicInputs.fromBytes ((b.drop offPublic).take (endPublic - offPublic) ++
      (digestToBytes binding).toList) = some pub := by
  set part := (b.drop offPublic).take (endPublic - offPublic) with hdef
  have hpart : part.length = 184 := by
    rw [hdef, List.length_take, List.length_drop, h.length]
    decide
  have hlen : (part ++ (digestToBytes binding).toList).length = Shield.publicInputBytes := by
    rw [List.length_append, hpart, Vector.length_toList]
    rfl
  -- each digest of the body is where the public inputs have it
  have hdigest (off : ℕ) (hoff : off + 32 ≤ 184)
      (hmem : field 32 b (offPublic + off) ∈ digestsOf b) :
      ∃ d, digestFromBytes (field 32 (part ++ (digestToBytes binding).toList) off) = some d := by
    have hin : off + 32 ≤ endPublic - offPublic := hoff
    rw [Bytes.field_append_left (by omega), hdef, Bytes.field_take hin, Bytes.field_drop]
    exact Option.isSome_iff_exists.1 (h.canonical _ hmem)
  obtain ⟨anchor, ha⟩ := hdigest 0 (by decide) (by simp [digestsOf, offPublic])
  obtain ⟨nf1, hnf1⟩ := hdigest 32 (by decide) (by simp [digestsOf, offPublic])
  obtain ⟨nf2, hnf2⟩ := hdigest 64 (by decide) (by simp [digestsOf, offPublic])
  obtain ⟨cm1, hcm1⟩ := hdigest 96 (by decide) (by simp [digestsOf, offPublic])
  obtain ⟨cm2, hcm2⟩ := hdigest 128 (by decide) (by simp [digestsOf, offPublic])
  have hb : digestFromBytes (field 32 (part ++ (digestToBytes binding).toList) 184) =
      some binding := by
    rw [Bytes.field_append_right _ hpart.symm, Shield.digestFromBytes_digestToBytes]
  simp only [PublicInputs.fromBytes, guard, hlen, if_true, ha, hnf1, hnf2, hcm1, hcm2, hb,
    Option.bind_eq_bind, Option.bind_some, Option.pure_def]
  exact ⟨_, rfl⟩

theorem utf8ByteSize_hexEncode (bytes : List UInt8) :
    (hexEncode bytes).utf8ByteSize = 2 * bytes.length := by
  have hsize : ∀ d < 16, (Nat.digitChar d).utf8Size = 1 := by decide
  rw [hexEncode, String.utf8ByteSize_ofList]
  induction bytes with
  | nil => rfl
  | cons b bytes ih =>
    have hlt := b.toNat_lt
    rw [List.flatMap_cons, List.cons_append, List.cons_append, List.nil_append, String.utf8Len_cons,
      String.utf8Len_cons, ih, hsize _ (by omega), hsize _ (by omega), List.length_cons]
    omega

/-- The listing of a transaction with the body `b`. -/
def listingOf (b : List UInt8) : ListingFields where
  nf := #v[field 32 b 74, field 32 b 106]
  cmOut := #v[field 32 b 138, field 32 b 170]
  kemCt := #v[(b.drop offKem1).take kemCtBytes, (b.drop offKem2).take kemCtBytes]
  noteCt := #v[(b.drop offNote1).take noteCtBytes, (b.drop offNote2).take noteCtBytes]

theorem listingFields_eq {tx : TxV1} {b : List UInt8} (hty : isShieldV2Type tx.txType = true)
    (hbody : tx.payload.shieldV2Body = some (hexEncode b)) (hlen : b.length = bodyBytes) :
    listingFields tx = some (listingOf b) := by
  have hchars : (hexEncode b).utf8ByteSize = bodyHexChars := by
    rw [utf8ByteSize_hexEncode, hlen]
    rfl
  simp only [listingFields, hty, hbody, hexDecode_hexEncode, hlen, hchars,
    Option.bind_eq_bind, Option.bind_some, Option.pure_def, guard, if_true]
  rfl

end RougeChain.Node.ShieldV2
