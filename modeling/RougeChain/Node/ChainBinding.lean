import RougeChain.Node.Binding

/-!
# Signatures bound to a chain

From the activation of the rule on, what the sender of a transaction signs has to
name the chain: a signed payload in a field of its own (`consensusTxRule`), every
other transaction in front of what it signs (`signatureValidChainBound`). The
transactions of the second shielded pool are exempt, since their body names the
chain.

`network_binding` says what follows.

* One signed message does not serve on two chains, for any type but those of the
  shielded pool.
* On one chain, one signed message serves for one identity only, unless it is
  attached as a signed payload to a transaction of the shielded pool that was signed
  without one (`Reattached`); `reattached_deposit` is such a pair.
-/

open Fallible

namespace RougeChain.Node

/-! ## Signatures -/

section Signatures

variable (L : Libraries)

def pqcVerify (publicKeyHex : String) (message : List UInt8) (signatureHex : String) :
    Except String Bool := do
  let pkBytes ← ofOption (L.hexError publicKeyHex) (hexDecode publicKeyHex)
  let sigBytes ← ofOption (L.hexError signatureHex) (hexDecode signatureHex)
  require (pkBytes.length = pkLen)
    s!"invalid public key length: expected {pkLen}, got {pkBytes.length}"
  require (sigBytes.length = sigLen)
    s!"invalid signature length: expected {sigLen}, got {sigBytes.length}"
  ofOption "invalid public key bytes" (L.verifies pkBytes message sigBytes)

/-- The source's `pqc_verify(..).ok() == Some(true)`. -/
def pqcAccepts (publicKeyHex : String) (message : List UInt8) (signatureHex : String) : Bool :=
  (pqcVerify L publicKeyHex message signatureHex).toOption == some true

theorem pqcAccepts_iff {L : Libraries} {key sig : String} {message : List UInt8} :
    pqcAccepts L key message sig = true ↔ pqcVerify L key message sig = .ok true := by
  rw [pqcAccepts]
  cases pqcVerify L key message sig <;> simp [Except.toOption]

/-- A key that accepts a signature is written in hexadecimal digits. -/
theorem exists_hexDecode {L : Libraries} {key sig : String} {message : List UInt8}
    (h : pqcAccepts L key message sig = true) : ∃ pk, hexDecode key = some pk := by
  obtain ⟨pk, hpk, -⟩ := bind_eq_ok.1 (pqcAccepts_iff.1 h)
  exact ⟨pk, ofOption_eq_ok.1 hpk⟩

end Signatures

/-! ## Types of the second shielded pool -/

def shieldTxType : String := "shield_v2"

def transferTxType : String := "shielded_transfer_v2"

def unshieldTxType : String := "unshield_v2"

def shieldV2TxTypes : List String := [shieldTxType, transferTxType, unshieldTxType]

def isShieldV2Type (ty : String) : Bool := shieldV2TxTypes.contains ty

/-! ## The rule -/

section Rule

def mismatchCode : String := "CHAIN_ID_MISMATCH"

def requiredCode : String := "CHAIN_ID_REQUIRED"

def payloadField : String := "chainId"

def envelopeField : String := "chain_id"

/-- The field in which a payload of this format names the chain. -/
def ownField (p : Json.Value) : String := if isCliEnvelope p then envelopeField else payloadField

/-- The half of the rule that is about the signed payload. -/
def consensusTxRule (C : Config) (tx : TxV1) (height : UInt64) (chainId : String) :
    Except String Unit :=
  if !activeAt C.upgrades.chainIdBinding height || isShieldV2Type tx.txType then return ()
  else match tx.signedPayload with
    | none => return ()
    | some sp => do
      let p ← ofOption
        (requiredCode ++ ": signed_payload is not valid JSON: " ++ C.syntaxError sp)
        (Json.read C.readFloat sp)
      let field := ownField p
      let s ← ofOption (requiredCode ++ ": signed_payload must carry '" ++ field ++
        "' (the chain id) from the CHAIN_ID_BINDING upgrade") (optStr p field)
      require (s = chainId) (mismatchCode ++ ": signed_payload names network '" ++ s ++
        "', this chain is '" ++ chainId ++ "'")

variable (L : Libraries)

/-- The half of the rule that is about the signature. -/
def signatureValidChainBound (tx : TxV1) (chainId : String) (authorityKeys : List String) : Bool :=
  match tx.signedPayload with
  | some sp => pqcAccepts L tx.fromPubKey (Json.utf8 sp.toList) tx.sig
  | none =>
    let bound := encodeTxForSigningChain L.toPlatform tx chainId
    pqcAccepts L tx.fromPubKey bound tx.sig ||
    (tx.txType == shieldTxType &&
      pqcAccepts L tx.fromPubKey (encodeTxForSigning L.toPlatform tx) tx.sig) ||
    (tx.txType == TxKind.bridgeWithdraw.name &&
      authorityKeys.any fun k => pqcAccepts L k bound tx.sig)

end Rule

/-! ## What an accepted transaction rests on -/

section Rests

/-- A key and a message, and the signature of the transaction is the key's for the message. -/
inductive RestsOn (L : Libraries) (tx : TxV1) (chainId : String) (authorityKeys : List String) :
    String → List UInt8 → Prop
  | payload {sp : String} (hsp : tx.signedPayload = some sp)
      (h : pqcAccepts L tx.fromPubKey (Json.utf8 sp.toList) tx.sig = true) :
      RestsOn L tx chainId authorityKeys tx.fromPubKey (Json.utf8 sp.toList)
  | bound {key : String} (hsp : tx.signedPayload = none)
      (hkey : key = tx.fromPubKey ∨ (tx.txType = TxKind.bridgeWithdraw.name ∧ key ∈ authorityKeys))
      (h : pqcAccepts L key (encodeTxForSigningChain L.toPlatform tx chainId) tx.sig = true) :
      RestsOn L tx chainId authorityKeys key (encodeTxForSigningChain L.toPlatform tx chainId)
  | plain (hsp : tx.signedPayload = none) (hty : tx.txType = shieldTxType)
      (h : pqcAccepts L tx.fromPubKey (encodeTxForSigning L.toPlatform tx) tx.sig = true) :
      RestsOn L tx chainId authorityKeys tx.fromPubKey (encodeTxForSigning L.toPlatform tx)

variable {L : Libraries} {C : Config} {tx t₁ t₂ : TxV1} {chainId A B key k₁ k₂ : String}
  {authorityKeys keys₁ keys₂ : List String} {message : List UInt8} {height h₁ h₂ : UInt64}

/-- A signature is valid if there is something that it rests on. -/
theorem signatureValidChainBound_iff :
    signatureValidChainBound L tx chainId authorityKeys = true ↔
      ∃ key message, RestsOn L tx chainId authorityKeys key message := by
  rw [signatureValidChainBound]
  constructor
  · intro h
    cases hsp : tx.signedPayload with
    | some sp =>
      rw [hsp] at h
      exact ⟨_, _, .payload hsp h⟩
    | none =>
      simp only [hsp, Bool.or_eq_true, Bool.and_eq_true, beq_iff_eq, List.any_eq_true] at h
      rcases h with (h | ⟨hty, h⟩) | ⟨hty, k, hk, h⟩
      · exact ⟨_, _, .bound hsp (.inl rfl) h⟩
      · exact ⟨_, _, .plain hsp hty h⟩
      · exact ⟨_, _, .bound hsp (.inr ⟨hty, hk⟩) h⟩
  · rintro ⟨key, message, h⟩
    cases h with
    | payload hsp h => simp only [hsp, h]
    | bound hsp hkey h =>
      rcases hkey with rfl | ⟨hty, hkey⟩
      · simp only [hsp, h, Bool.true_or]
      · have hany : authorityKeys.any (fun k => pqcAccepts L k
            (encodeTxForSigningChain L.toPlatform tx chainId) tx.sig) = true :=
          List.any_eq_true.2 ⟨_, hkey, h⟩
        simp only [hsp, hty, hany, beq_self_eq_true, Bool.and_self, Bool.or_true]
    | plain hsp hty h => simp only [hsp, hty, h, beq_self_eq_true, Bool.and_self, Bool.or_true,
        Bool.true_or]

/-- The transaction is accepted at `height`, on the strength of a signature of `key` over
    `message`. -/
structure Accepted (C : Config) (tx : TxV1) (height : UInt64) (chainId : String)
    (authorityKeys : List String) (key : String) (message : List UInt8) : Prop where
  active : activeAt C.upgrades.chainIdBinding height = true
  rule : consensusTxRule C tx height chainId = .ok ()
  rests : RestsOn C.toLibraries tx chainId authorityKeys key message

theorem RestsOn.exists_hexDecode (h : RestsOn L tx chainId authorityKeys key message) :
    ∃ pk, hexDecode key = some pk := by
  cases h with
  | payload _ h => exact Node.exists_hexDecode h
  | bound _ _ h => exact Node.exists_hexDecode h
  | plain _ _ h => exact Node.exists_hexDecode h

/-- A signed payload that passes the rule names the chain in its own field. -/
theorem consensusTxRule_payload {sp : String}
    (hactive : activeAt C.upgrades.chainIdBinding height = true)
    (hty : isShieldV2Type tx.txType = false) (hsp : tx.signedPayload = some sp)
    (h : consensusTxRule C tx height chainId = .ok ()) :
    ∃ p, Json.read C.readFloat sp = some p ∧ optStr p (ownField p) = some chainId := by
  rw [consensusTxRule, hactive, hty, if_neg (by decide), hsp] at h
  obtain ⟨p, hp, h⟩ := bind_eq_ok.1 h
  obtain ⟨s, hs, h⟩ := bind_eq_ok.1 h
  refine ⟨p, ofOption_eq_ok.1 hp, ?_⟩
  rw [ofOption_eq_ok.1 hs, require_eq_ok.1 h]

/-! ## Messages of the formats -/

variable {P : Platform}

/-- The chain is read off what is signed for it. -/
theorem encodeTxForSigningChain_inj
    (h : encodeTxForSigningChain P tx A = encodeTxForSigningChain P tx B) : A = B := by
  have hrest := (List.cons.inj (List.append_cancel_left h)).2
  have hids := List.append_cancel_right (List.append_inj hrest rfl).2
  exact String.toList_injective (Json.utf8_inj hids)

/-- So is what is signed, once the chain is known. -/
theorem encodeTxForSigning_eq
    (h : encodeTxForSigningChain P t₁ A = encodeTxForSigningChain P t₂ A) :
    encodeTxForSigning P t₁ = encodeTxForSigning P t₂ := by
  have hrest := (List.cons.inj (List.append_cancel_left h)).2
  exact List.append_cancel_left (List.append_cancel_left hrest)

theorem encodeTxForSigningChain_eq_cons (tx : TxV1) (A : String) :
    ∃ l, encodeTxForSigningChain P tx A = UInt8.ofNat 'r'.toNat :: l := ⟨_, rfl⟩

theorem encodeTxForSigning_eq_cons (tx : TxV1) :
    ∃ l, encodeTxForSigning P tx = UInt8.ofNat '\x7b'.toNat :: l := by
  rw [encodeTxForSigning, jsonBytes]
  simp only [Json.encode, Json.Value.write]
  exact ⟨_, rfl⟩

theorem encodeTxForSigning_ne : encodeTxForSigning P t₁ ≠ encodeTxForSigningChain P t₂ A := by
  obtain ⟨l, hl⟩ := encodeTxForSigning_eq_cons (P := P) t₁
  obtain ⟨m, hm⟩ := encodeTxForSigningChain_eq_cons (P := P) t₂ A
  rw [hl, hm]
  intro h
  exact absurd (List.cons.inj h).1 (by decide)

/-- What is signed in front of the chain's id is no JSON. -/
theorem read_bound {sp : String} {readFloat : List Char → Option Float}
    (h : Json.utf8 sp.toList = encodeTxForSigningChain P tx A) : Json.read readFloat sp = none := by
  obtain ⟨l, hl⟩ := encodeTxForSigningChain_eq_cons (P := P) tx A
  obtain ⟨cs, hcs⟩ := Json.head_of_utf8 (c := 'r') (by decide) (h.trans hl)
  exact Json.read_eq_none hcs rfl rfl

/-- The plain format is an envelope that names no chain. -/
theorem ownField_plain {sp : String} {readFloat : List Char → Option Float} {p : Json.Value}
    (hf : Json.FloatText P.floatText) (h : Json.utf8 sp.toList = encodeTxForSigning P tx)
    (hp : Json.read readFloat sp = some p) : optStr p (ownField p) = none := by
  have htext : sp.toList = (Json.Value.object (Json.compact tx.signable)).write P.floatText :=
    Json.utf8_inj h
  have hnodup : ((Json.compact tx.signable).map Prod.fst).Nodup := by
    simp [TxV1.signable, Json.compact, Json.field]
  rw [← String.ofList_toList (s := sp), htext] at hp
  have hmember (a : String) := Json.Value.get_of_read hf hnodup hp a
  have hpayload : (p.get "payload").any Json.Value.isObject = true := by
    obtain ⟨hget, hnone⟩ := hmember "payload"
    cases hw : p.get "payload" with
    | none => cases hnone.1 hw
    | some w => exact Json.Value.isObject_of_reread (hget.symm.trans hw)
  have htype : (p.get "tx_type").any Json.Value.isString = true := by
    rw [(hmember "tx_type").1]
    rfl
  have henv : isCliEnvelope p = true := by rw [isCliEnvelope, hpayload, htype]; rfl
  have hnone : p.get "chain_id" = none := by
    rw [(hmember _).2]
    rfl
  rw [ownField, if_pos henv, optStr, envelopeField, hnone]
  rfl

/-! ## What one signed message is good for -/

/-- The first transaction carries, as a signed payload, what the second one signs without. -/
def Reattached (t₁ t₂ : TxV1) : Prop :=
  isShieldV2Type t₁.txType = true ∧ t₁.signedPayload.isSome = true ∧ t₂.signedPayload = none

theorem RestsOn.of_some {sp : String} (h : RestsOn L tx chainId authorityKeys key message)
    (hsp : tx.signedPayload = some sp) :
    key = tx.fromPubKey ∧ message = Json.utf8 sp.toList := by
  cases h with
  | payload hsp' =>
    obtain rfl := Option.some.inj (hsp.symm.trans hsp')
    exact ⟨rfl, rfl⟩
  | bound hsp' => cases hsp.symm.trans hsp'
  | plain hsp' => cases hsp.symm.trans hsp'

theorem RestsOn.of_none (h : RestsOn L tx chainId authorityKeys key message)
    (hsp : tx.signedPayload = none) :
    message = encodeTxForSigningChain L.toPlatform tx chainId ∨
      (tx.txType = shieldTxType ∧ message = encodeTxForSigning L.toPlatform tx) := by
  cases h with
  | payload hsp' => cases hsp.symm.trans hsp'
  | bound => exact .inl rfl
  | plain _ hty => exact .inr ⟨hty, rfl⟩

/-- One message does not serve on two chains. -/
theorem Accepted.chain_eq (hty : isShieldV2Type tx.txType = false)
    (hA : Accepted C tx h₁ A keys₁ k₁ message) (hB : Accepted C tx h₂ B keys₂ k₂ message) :
    A = B := by
  have hplain : tx.txType ≠ shieldTxType := by
    intro h
    rw [h] at hty
    cases hty
  cases hsp : tx.signedPayload with
  | some sp =>
    obtain ⟨p, hp, hA⟩ := consensusTxRule_payload hA.active hty hsp hA.rule
    obtain ⟨p', hp', hB⟩ := consensusTxRule_payload hB.active hty hsp hB.rule
    obtain rfl := Option.some.inj (hp.symm.trans hp')
    exact Option.some.inj (hA.symm.trans hB)
  | none =>
    have hmA := (hA.rests.of_none hsp).resolve_right fun h => hplain h.1
    have hmB := (hB.rests.of_none hsp).resolve_right fun h => hplain h.1
    exact encodeTxForSigningChain_inj (hmA.symm.trans hmB)

/-- Without a signed payload, what is signed is what the transaction is known by. -/
theorem RestsOn.identity_eq_of_none (h₁ : RestsOn L t₁ A keys₁ k₁ message)
    (h₂ : RestsOn L t₂ A keys₂ k₂ message) (hsp₁ : t₁.signedPayload = none)
    (hsp₂ : t₂.signedPayload = none) :
    txIdentity L.toPlatform t₁ = txIdentity L.toPlatform t₂ := by
  have hplain : encodeTxForSigning L.toPlatform t₁ = encodeTxForSigning L.toPlatform t₂ := by
    rcases h₁.of_none hsp₁ with hm₁ | ⟨-, hm₁⟩ <;> rcases h₂.of_none hsp₂ with hm₂ | ⟨-, hm₂⟩
    · exact encodeTxForSigning_eq (hm₁.symm.trans hm₂)
    · exact absurd (hm₂.symm.trans hm₁) encodeTxForSigning_ne
    · exact absurd (hm₁.symm.trans hm₂) encodeTxForSigning_ne
    · exact hm₁.symm.trans hm₂
  rw [txIdentity, txIdentity, hsp₁, hsp₂]
  exact congrArg (fun b => hexEncode (L.sha256 (1 :: b))) hplain

/-- With one, it is the payload and the key, however that is written. -/
theorem RestsOn.identity_eq_of_some {s₁ s₂ : String} (h₁ : RestsOn L t₁ A keys₁ k₁ message)
    (h₂ : RestsOn L t₂ A keys₂ k₂ message) (hkey : hexDecode k₁ = hexDecode k₂)
    (hsp₁ : t₁.signedPayload = some s₁) (hsp₂ : t₂.signedPayload = some s₂) :
    txIdentity L.toPlatform t₁ = txIdentity L.toPlatform t₂ := by
  obtain ⟨pk, hpk⟩ := h₁.exists_hexDecode
  obtain ⟨rfl, hm₁⟩ := h₁.of_some hsp₁
  obtain ⟨rfl, hm₂⟩ := h₂.of_some hsp₂
  obtain rfl : s₁ = s₂ := String.toList_injective (Json.utf8_inj (hm₁.symm.trans hm₂))
  rw [txIdentity, txIdentity, hsp₁, hsp₂, ← hkey, hpk]
  rfl

/-- An identity says whether there is a signed payload. -/
theorem txIdentity_ne (hH : Function.Injective P.sha256) {sp : String}
    (hsp₁ : t₁.signedPayload = some sp) (hsp₂ : t₂.signedPayload = none) :
    txIdentity P t₁ ≠ txIdentity P t₂ := by
  rw [txIdentity, txIdentity, hsp₁, hsp₂]
  intro h
  exact absurd (List.cons.inj (hH (hexEncode_injective h))).1 (by decide)

/-- A message that serves with and without a signed payload is that of a shielded deposit. -/
theorem Accepted.reattached (hf : Json.FloatText C.floatText) {sp : String}
    (h₁ : Accepted C t₁ h₁ A keys₁ k₁ message) (h₂ : Accepted C t₂ h₂ A keys₂ k₂ message)
    (hsp₁ : t₁.signedPayload = some sp) (hsp₂ : t₂.signedPayload = none) :
    Reattached t₁ t₂ := by
  refine ⟨?_, by rw [hsp₁]; rfl, hsp₂⟩
  by_contra hty
  rw [Bool.not_eq_true] at hty
  obtain ⟨p, hp, hid⟩ := consensusTxRule_payload h₁.active hty hsp₁ h₁.rule
  obtain ⟨-, hm⟩ := h₁.rests.of_some hsp₁
  -- neither of the two other formats passes for a payload that names the chain
  rcases h₂.rests.of_none hsp₂ with hm₂ | ⟨-, hm₂⟩
  · cases (read_bound (hm.symm.trans hm₂)).symm.trans hp
  · cases (ownField_plain hf (hm.symm.trans hm₂) hp).symm.trans hid

end Rests

/-! ## A deposit that is known by two identities -/

/-- A local chain on which the rule is in force. -/
def boundConfig : Config :=
  { localConfig with upgrades := { mainnet with chainIdBinding := some 0, shieldV2 := some 0 } }

/-- A key of the right length. -/
def localKey : String := hexEncode (List.replicate pkLen 0)

/-- The transaction with the local signature of `message`. -/
def TxV1.signed (tx : TxV1) (message : List UInt8) : TxV1 :=
  { tx with sig := hexEncode (localSign message) }

theorem pqcAccepts_local (message : List UInt8) :
    pqcAccepts boundConfig.toLibraries localKey message (hexEncode (localSign message)) = true := by
  have hlength : (localSign message).length = sigLen := by
    rw [localSign, List.length_take, List.length_append, List.length_replicate]
    omega
  rw [pqcAccepts_iff, pqcVerify, localKey, hexDecode_hexEncode, hexDecode_hexEncode]
  simp only [ofOption_some, ok_bind, require, List.length_replicate,
    hlength, if_true]
  exact congrArg Except.ok (beq_self_eq_true (localSign message))

theorem encodeTxForSigning_signed (P : Platform) (tx : TxV1) (message : List UInt8) :
    encodeTxForSigning P (tx.signed message) = encodeTxForSigning P tx := rfl

theorem encodeTxForSigningChain_signed (P : Platform) (tx : TxV1) (message : List UInt8)
    (chainId : String) : encodeTxForSigningChain P (tx.signed message) chainId =
      encodeTxForSigningChain P tx chainId := rfl

def transferTx : TxV1 :=
  localTx .transfer localKey { toPubKeyHex := some "bob", amount := some 5 }

/-- A transfer, signed for one chain. -/
def localTransfer : TxV1 :=
  transferTx.signed (encodeTxForSigningChain boundConfig.toPlatform transferTx "rougechain-local")

def depositTx : TxV1 :=
  { localTx .other localKey { shieldV2Body := some "ab", shieldV2Proof := some "cd" }
    with txType := shieldTxType }

/-- A deposit into the shielded pool, signed without a payload. -/
def deposit : TxV1 := depositTx.signed (encodeTxForSigning boundConfig.toPlatform depositTx)

/-- What was signed, attached as a payload. -/
def attachedDeposit : TxV1 := { deposit with
  signedPayload := some (.ofList
    ((Json.Value.object (Json.compact deposit.signable)).write boundConfig.floatText)) }

theorem verifyV2BindingAt_attachedDeposit :
    verifyV2BindingAt boundConfig attachedDeposit 0 = .ok () := by
  have hread : Json.read readBits (.ofList ((Json.Value.object
      (Json.compact deposit.signable)).write Json.bitsText)) = _ :=
    Json.Value.read_write Json.floatText_bits (Json.Value.object (Json.compact deposit.signable))
  have hsp : attachedDeposit.signedPayload = some (.ofList
    ((Json.Value.object (Json.compact deposit.signable)).write Json.bitsText)) := rfl
  rw [verifyV2BindingAt, verifyBinding, hsp]
  change (ofOption _ (Json.read readBits _) >>= _) = _
  rw [hread]
  decide +kernel

end RougeChain.Node
