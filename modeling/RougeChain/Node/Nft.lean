import RougeChain.Library.Runs
import RougeChain.Node.Accounts

/-!
# NFT transactions

The NFT store and `applyNftTxInner`, the part of block execution that writes it.
A call reads the store, charges the sender and returns the writes it makes, in
the order it makes them; a transaction that is refused writes nothing.

* `applyNftTxInner_change`: what the writes of one call can be;
* `owner_and_supply_kept`: over every run from the empty store in which no
  collection is created over an existing one, a token changes hands or disappears
  only by a transfer or a burn of its owner, a collection keeps its creator and
  its cap, and never has more tokens minted than the cap;
* `recreated_collection_mints_over`: creating a collection again resets its
  counter, and the next mint takes over a token someone else owns.
-/

open Fallible

namespace RougeChain.Node

open Std (ExtTreeMap)

structure NftCollection where
  collectionId : String
  symbol : String
  name : String
  creator : String
  description : Option String
  image : Option String
  maxSupply : Option UInt64
  minted : UInt64
  royaltyBps : UInt16
  royaltyRecipient : String
  frozen : Bool
  createdAt : UInt64
  publicMint : Bool
  mintPrice : Option Float
  tokenGateSymbol : Option String
  tokenGateAmount : Option Float
  discountPct : Option UInt32

structure NftToken where
  collectionId : String
  tokenId : UInt64
  owner : String
  creator : String
  name : String
  metadataUri : Option String
  attributes : Option Json.Value
  locked : Bool
  mintedAt : UInt64
  transferredAt : UInt64

/-! ## The store -/

/-- The two trees: collections by id, tokens by collection id and number. -/
structure NftStore where
  collections : ExtTreeMap String NftCollection := ∅
  tokens : ExtTreeMap String NftToken := ∅

/-- The key of a token, `collection:number`. -/
def NftToken.makeKey (collectionId : String) (tokenId : UInt64) : String :=
  collectionId ++ ":" ++ toString tokenId.toNat

/-- A write to the store. -/
inductive NftWrite where
  | saveCollection (col : NftCollection)
  | saveToken (token : NftToken)
  | deleteToken (collectionId : String) (tokenId : UInt64)

namespace NftStore

def getCollection (s : NftStore) (collectionId : String) : Option NftCollection :=
  s.collections[collectionId]?

def getToken (s : NftStore) (collectionId : String) (tokenId : UInt64) : Option NftToken :=
  s.tokens[NftToken.makeKey collectionId tokenId]?

def write (s : NftStore) : NftWrite → NftStore
  | .saveCollection col => { s with collections := s.collections.insert col.collectionId col }
  | .saveToken token =>
    { s with tokens := s.tokens.insert (NftToken.makeKey token.collectionId token.tokenId) token }
  | .deleteToken collectionId tokenId =>
    { s with tokens := s.tokens.erase (NftToken.makeKey collectionId tokenId) }

def writeAll (s : NftStore) (ws : List NftWrite) : NftStore := ws.foldl write s

end NftStore

/-! ## Execution -/

section Execution

variable (E : Env)

/-- `col:`, the first 16 bytes of the creator's key, and the symbol in upper case. -/
def NftCollection.makeCollectionId (creator symbol : String) : Except Fault String := do
  let short ← if 16 ≤ creator.utf8ByteSize then sliceTo 16 creator else .ok creator
  return "col:" ++ short ++ ":" ++ E.toUppercase symbol

/-- The same text, or, from the second contract upgrade on, the same account. -/
def nftOwnerMatches (owner signer : String) (height : UInt64) : Bool :=
  owner == signer ||
    (activeAt E.upgrades.gameReady2 height &&
      canonAddr E.toPlatform owner == canonAddr E.toPlatform signer)

def nftCreateCollection (b : Balances) (tx : TxV1) (time : UInt64) :
    Except Fault (Balances × List NftWrite) := do
  let symbol ← required "missing nft_collection_symbol" tx.payload.nftCollectionSymbol
  let name ← required "missing nft_collection_name" tx.payload.nftCollectionName
  let collectionId ← NftCollection.makeCollectionId E tx.fromPubKey symbol
  match charge E.toPlatform b tx (xrgeF64ToQuanta tx.fee) with
  | none => return (b, [])
  | some b =>
    return (b, [.saveCollection {
      collectionId
      symbol := E.toUppercase symbol
      name
      creator := tx.fromPubKey
      description := tx.payload.nftDescription
      image := tx.payload.nftImage
      maxSupply := tx.payload.nftMaxSupply
      minted := 0
      royaltyBps := tx.payload.nftRoyaltyBps.getD 0
      royaltyRecipient :=
        (tx.payload.nftRoyaltyRecipient.filter fun r =>
          Text.trim Text.isWhitespace r != "").getD tx.fromPubKey
      frozen := false
      createdAt := time
      publicMint := tx.payload.nftPublicMint.getD false
      mintPrice := tx.payload.nftMintPrice
      tokenGateSymbol := tx.payload.nftTokenGateSymbol
      tokenGateAmount := tx.payload.nftTokenGateAmount
      discountPct := tx.payload.nftDiscountPct }])

/-- What a mint costs on top of the fee: the price of the collection, less the discount of those
    who hold enough of its gate token. The creator pays nothing. -/
def nftMintCost (tb : TokenBalances) (tx : TxV1) (col : NftCollection) : Float :=
  if col.creator == tx.fromPubKey then 0
  else match col.mintPrice with
    | none => 0
    | some price =>
      match col.tokenGateSymbol, col.tokenGateAmount with
      | some gateSym, some gateAmt =>
        if gateAmt ≤ u128AsF64 (balance tb (canonAddr E.toPlatform tx.fromPubKey, gateSym)) then
          price * (1 - (col.discountPct.getD 100).toFloat / 100)
        else price
      | _, _ => price

def nftMint (b : Balances) (tb : TokenBalances) (tx : TxV1) (time : UInt64) (s : NftStore) :
    Except Fault (Balances × List NftWrite) := do
  let colId ← required "missing nft_collection_id" tx.payload.nftCollectionId
  let tokenName ← required "missing nft_token_name" tx.payload.nftTokenName
  match s.getCollection colId with
  | none => return (b, [])
  | some col =>
    if col.creator ≠ tx.fromPubKey ∧ !col.publicMint then
      -- the refusal is logged with the first bytes of the key
      let _ ← sliceTo (min 16 tx.fromPubKey.utf8ByteSize) tx.fromPubKey
      return (b, [])
    else if col.frozen then return (b, [])
    else if col.maxSupply.any fun max => max ≤ col.minted then return (b, [])
    else
      let mintCost := nftMintCost E tb tx col
      match charge E.toPlatform b tx (xrgeF64ToQuanta (tx.fee + mintCost)) with
      | none => return (b, [])
      | some b =>
        let b := if 0 < mintCost then
            credit b (canonAddr E.toPlatform col.creator) (xrgeF64ToQuanta mintCost)
          else b
        let tokenId := col.minted + 1
        return (b, [.saveCollection { col with minted := tokenId }, .saveToken {
          collectionId := colId
          tokenId
          owner := tx.fromPubKey
          creator := tx.fromPubKey
          name := tokenName
          metadataUri := tx.payload.nftMetadataUri
          attributes := tx.payload.nftAttributes
          locked := false
          mintedAt := time
          transferredAt := time }])

/-- The tokens of a batch, numbered on from `minted`; `i` is the position in the batch. -/
def batchTokens (tx : TxV1) (colId : String) (time : UInt64) :
    ℕ → UInt64 → List String → List NftToken
  | _, _, [] => []
  | i, minted, name :: names =>
    { collectionId := colId
      tokenId := minted + 1
      owner := tx.fromPubKey
      creator := tx.fromPubKey
      name
      metadataUri := tx.payload.nftBatchUris.bind (·[i]?)
      attributes := tx.payload.nftBatchAttributes.bind (·[i]?)
      locked := false
      mintedAt := time
      transferredAt := time } :: batchTokens tx colId time (i + 1) (minted + 1) names

def nftBatchMint (b : Balances) (tx : TxV1) (time : UInt64) (s : NftStore) :
    Except Fault (Balances × List NftWrite) := do
  let colId ← required "missing nft_collection_id" tx.payload.nftCollectionId
  let names ← required "missing nft_batch_names" tx.payload.nftBatchNames
  match s.getCollection colId with
  | none => return (b, [])
  | some col =>
    let count := UInt64.ofNat names.length
    if col.creator ≠ tx.fromPubKey then
      let _ ← sliceTo 16 tx.fromPubKey
      return (b, [])
    else if col.frozen then return (b, [])
    else if col.maxSupply.any fun max => max < col.minted + count then return (b, [])
    else match charge E.toPlatform b tx (xrgeF64ToQuanta tx.fee) with
      | none => return (b, [])
      | some b =>
        return (b, (batchTokens tx colId time 0 col.minted names).map .saveToken ++
          [.saveCollection { col with minted := col.minted + count }])

/-- The royalty of a sale; a gift has none, nor has a collection without one. -/
def nftRoyalty (tx : TxV1) (col : Option NftCollection) : Option Float :=
  let salePrice := (tx.payload.amount.getD 0).toFloat
  col.bind fun col =>
    if 0 < salePrice ∧ 0 < col.royaltyBps then some (salePrice * col.royaltyBps.toFloat / 10000)
    else none

def nftTransfer (b : Balances) (tx : TxV1) (time height : UInt64) (s : NftStore) :
    Except Fault (Balances × List NftWrite) := do
  let colId ← required "missing nft_collection_id" tx.payload.nftCollectionId
  let tokenId ← required "missing nft_token_id" tx.payload.nftTokenId
  let dest ← required "missing to_pub_key_hex" tx.payload.toPubKeyHex
  match s.getToken colId tokenId with
  | none => return (b, [])
  | some token =>
    if !nftOwnerMatches E token.owner tx.fromPubKey height then return (b, [])
    else if token.locked then return (b, [])
    else
      let royalty := nftRoyalty tx (s.getCollection colId)
      let totalCost := royalty.elim tx.fee (tx.fee + ·)
      let sender := canonAddr E.toPlatform tx.fromPubKey
      -- the check is on the sum rounded once, the debits are rounded one by one
      if balance b sender < xrgeF64ToQuanta totalCost then return (b, [])
      else
        let b := debit b sender (xrgeF64ToQuanta tx.fee)
        let b := match s.getCollection colId, royalty with
          | some col, some royalty =>
            if 0 < royalty then
              credit (debit b sender (xrgeF64ToQuanta royalty))
                (canonAddr E.toPlatform col.royaltyRecipient) (xrgeF64ToQuanta royalty)
            else b
          | _, _ => b
        return (b, [.saveToken { token with owner := dest, transferredAt := time }])

def nftBurn (b : Balances) (tx : TxV1) (height : UInt64) (s : NftStore) :
    Except Fault (Balances × List NftWrite) := do
  let colId ← required "missing nft_collection_id" tx.payload.nftCollectionId
  let tokenId ← required "missing nft_token_id" tx.payload.nftTokenId
  match s.getToken colId tokenId with
  | none => return (b, [])
  | some token =>
    if !nftOwnerMatches E token.owner tx.fromPubKey height then return (b, [])
    else match charge E.toPlatform b tx (xrgeF64ToQuanta tx.fee) with
      | none => return (b, [])
      | some b => return (b, [.deleteToken colId tokenId])

def nftLock (b : Balances) (tx : TxV1) (height : UInt64) (s : NftStore) :
    Except Fault (Balances × List NftWrite) := do
  let colId ← required "missing nft_collection_id" tx.payload.nftCollectionId
  let tokenId ← required "missing nft_token_id" tx.payload.nftTokenId
  match s.getToken colId tokenId with
  | none => return (b, [])
  | some token =>
    if !nftOwnerMatches E token.owner tx.fromPubKey height then return (b, [])
    else match charge E.toPlatform b tx (xrgeF64ToQuanta tx.fee) with
      | none => return (b, [])
      | some b => return (b, [.saveToken { token with locked := tx.payload.nftLocked.getD true }])

def nftFreezeCollection (b : Balances) (tx : TxV1) (s : NftStore) :
    Except Fault (Balances × List NftWrite) := do
  let colId ← required "missing nft_collection_id" tx.payload.nftCollectionId
  match s.getCollection colId with
  | none => return (b, [])
  | some col =>
    if col.creator ≠ tx.fromPubKey then return (b, [])
    else match charge E.toPlatform b tx (xrgeF64ToQuanta tx.fee) with
      | none => return (b, [])
      | some b => return (b, [.saveCollection { col with frozen := tx.payload.nftFrozen.getD true }])

/-- The NFT part of executing `tx`: the balances after it, and the writes to the store. -/
def applyNftTxInner (b : Balances) (tb : TokenBalances) (tx : TxV1) (time height : UInt64)
    (s : NftStore) : Except Fault (Balances × List NftWrite) :=
  match tx.kind with
  | .nftCreateCollection => nftCreateCollection E b tx time
  | .nftMint => nftMint E b tb tx time s
  | .nftBatchMint => nftBatchMint E b tx time s
  | .nftTransfer => nftTransfer E b tx time height s
  | .nftBurn => nftBurn E b tx height s
  | .nftLock => nftLock E b tx height s
  | .nftFreezeCollection => nftFreezeCollection E b tx s
  | _ => .ok (b, [])

end Execution

/-! ## What a call writes -/

/-- What the writes of one call can be. -/
inductive NftChange (E : Env) (tx : TxV1) (height : UInt64) (s : NftStore) : List NftWrite → Prop
  | refused : NftChange E tx height s []
  | create {col : NftCollection} (hkind : tx.kind = .nftCreateCollection) (hminted : col.minted = 0) :
    NftChange E tx height s [.saveCollection col]
  | mint {colId : String} {col : NftCollection} {token : NftToken} (hkind : tx.kind = .nftMint)
    (hcol : s.getCollection colId = some col) (hmax : ∀ m, col.maxSupply = some m → col.minted < m)
    (htoken : token.collectionId = colId) (hid : token.tokenId = col.minted + 1) :
    NftChange E tx height s [.saveCollection { col with minted := col.minted + 1 }, .saveToken token]
  | batch {colId : String} {col : NftCollection} {time : UInt64} {names : List String}
    (hkind : tx.kind = .nftBatchMint) (hcol : s.getCollection colId = some col)
    (hmax : ∀ m, col.maxSupply = some m → col.minted + UInt64.ofNat names.length ≤ m) :
    NftChange E tx height s ((batchTokens tx colId time 0 col.minted names).map .saveToken ++
      [.saveCollection { col with minted := col.minted + UInt64.ofNat names.length }])
  | transfer {colId : String} {tokenId time : UInt64} {token : NftToken} {dest : String}
    (hkind : tx.kind = .nftTransfer) (hcol : tx.payload.nftCollectionId = some colId)
    (hid : tx.payload.nftTokenId = some tokenId) (htoken : s.getToken colId tokenId = some token)
    (howner : nftOwnerMatches E token.owner tx.fromPubKey height = true) :
    NftChange E tx height s [.saveToken { token with owner := dest, transferredAt := time }]
  | burn {colId : String} {tokenId : UInt64} {token : NftToken}
    (hkind : tx.kind = .nftBurn) (hcol : tx.payload.nftCollectionId = some colId)
    (hid : tx.payload.nftTokenId = some tokenId) (htoken : s.getToken colId tokenId = some token)
    (howner : nftOwnerMatches E token.owner tx.fromPubKey height = true) :
    NftChange E tx height s [.deleteToken colId tokenId]
  | lock {colId : String} {tokenId : UInt64} {token : NftToken} {locked : Bool}
    (hkind : tx.kind = .nftLock) (htoken : s.getToken colId tokenId = some token) :
    NftChange E tx height s [.saveToken { token with locked }]
  | freeze {colId : String} {col : NftCollection} {frozen : Bool}
    (hkind : tx.kind = .nftFreezeCollection) (hcol : s.getCollection colId = some col) :
    NftChange E tx height s [.saveCollection { col with frozen }]

section Change

variable {E : Env} {b b' : Balances} {tb : TokenBalances} {tx : TxV1} {time height : UInt64}
  {s : NftStore} {ws : List NftWrite}

/-- A call that returns what it was given has refused the transaction. -/
theorem NftChange.of_refused (h : (pure (b, []) : Except Fault (Balances × List NftWrite)) =
    .ok (b', ws)) : NftChange E tx height s ws := by
  obtain ⟨-, rfl⟩ := Prod.mk.inj (Except.ok.inj h)
  exact .refused

theorem nftCreateCollection_change (hkind : tx.kind = .nftCreateCollection)
    (h : nftCreateCollection E b tx time = .ok (b', ws)) : NftChange E tx height s ws := by
  rw [nftCreateCollection] at h
  obtain ⟨symbol, -, h⟩ := bind_eq_ok.1 h
  obtain ⟨name, -, h⟩ := bind_eq_ok.1 h
  obtain ⟨collectionId, -, h⟩ := bind_eq_ok.1 h
  split at h
  · exact .of_refused h
  · obtain ⟨-, rfl⟩ := Prod.mk.inj (Except.ok.inj h)
    exact .create hkind rfl

theorem nftMint_change (hkind : tx.kind = .nftMint)
    (h : nftMint E b tb tx time s = .ok (b', ws)) : NftChange E tx height s ws := by
  rw [nftMint] at h
  obtain ⟨colId, -, h⟩ := bind_eq_ok.1 h
  obtain ⟨tokenName, -, h⟩ := bind_eq_ok.1 h
  split at h
  · exact .of_refused h
  next col hcol =>
    split at h
    · obtain ⟨_, -, h⟩ := bind_eq_ok.1 h
      exact .of_refused h
    split at h
    · exact .of_refused h
    split at h
    · exact .of_refused h
    next hmax =>
      simp only at h
      split at h
      · exact .of_refused h
      · obtain ⟨-, rfl⟩ := Prod.mk.inj (Except.ok.inj h)
        refine .mint hkind hcol (fun m hm => ?_) rfl rfl
        rwa [hm, Option.any_some, decide_eq_true_eq, UInt64.not_le] at hmax

theorem nftBatchMint_change (hkind : tx.kind = .nftBatchMint)
    (h : nftBatchMint E b tx time s = .ok (b', ws)) : NftChange E tx height s ws := by
  rw [nftBatchMint] at h
  obtain ⟨colId, -, h⟩ := bind_eq_ok.1 h
  obtain ⟨names, -, h⟩ := bind_eq_ok.1 h
  split at h
  · exact .of_refused h
  next col hcol =>
    simp only at h
    split at h
    · obtain ⟨_, -, h⟩ := bind_eq_ok.1 h
      exact .of_refused h
    split at h
    · exact .of_refused h
    split at h
    · exact .of_refused h
    next hmax =>
      split at h
      · exact .of_refused h
      · obtain ⟨-, rfl⟩ := Prod.mk.inj (Except.ok.inj h)
        refine .batch hkind hcol fun m hm => ?_
        rwa [hm, Option.any_some, decide_eq_true_eq, UInt64.not_lt] at hmax

theorem nftTransfer_change (hkind : tx.kind = .nftTransfer)
    (h : nftTransfer E b tx time height s = .ok (b', ws)) : NftChange E tx height s ws := by
  rw [nftTransfer] at h
  obtain ⟨colId, hcol, h⟩ := bind_eq_ok.1 h
  obtain ⟨tokenId, hid, h⟩ := bind_eq_ok.1 h
  obtain ⟨dest, -, h⟩ := bind_eq_ok.1 h
  split at h
  · exact .of_refused h
  next token htoken =>
    split at h
    · exact .of_refused h
    next howner =>
      split at h
      · exact .of_refused h
      simp only at h
      split at h
      · exact .of_refused h
      · obtain ⟨-, rfl⟩ := Prod.mk.inj (Except.ok.inj h)
        exact .transfer hkind (required_eq_ok.1 hcol) (required_eq_ok.1 hid) htoken
          (by simpa using howner)

theorem nftBurn_change (hkind : tx.kind = .nftBurn)
    (h : nftBurn E b tx height s = .ok (b', ws)) : NftChange E tx height s ws := by
  rw [nftBurn] at h
  obtain ⟨colId, hcol, h⟩ := bind_eq_ok.1 h
  obtain ⟨tokenId, hid, h⟩ := bind_eq_ok.1 h
  split at h
  · exact .of_refused h
  next token htoken =>
    split at h
    · exact .of_refused h
    next howner =>
      split at h
      · exact .of_refused h
      · obtain ⟨-, rfl⟩ := Prod.mk.inj (Except.ok.inj h)
        exact .burn hkind (required_eq_ok.1 hcol) (required_eq_ok.1 hid) htoken
          (by simpa using howner)

theorem nftLock_change (hkind : tx.kind = .nftLock)
    (h : nftLock E b tx height s = .ok (b', ws)) : NftChange E tx height s ws := by
  rw [nftLock] at h
  obtain ⟨colId, -, h⟩ := bind_eq_ok.1 h
  obtain ⟨tokenId, -, h⟩ := bind_eq_ok.1 h
  split at h
  · exact .of_refused h
  next token htoken =>
    split at h
    · exact .of_refused h
    split at h
    · exact .of_refused h
    · obtain ⟨-, rfl⟩ := Prod.mk.inj (Except.ok.inj h)
      exact .lock hkind htoken

theorem nftFreezeCollection_change (hkind : tx.kind = .nftFreezeCollection)
    (h : nftFreezeCollection E b tx s = .ok (b', ws)) : NftChange E tx height s ws := by
  rw [nftFreezeCollection] at h
  obtain ⟨colId, -, h⟩ := bind_eq_ok.1 h
  split at h
  · exact .of_refused h
  next col hcol =>
    split at h
    · exact .of_refused h
    split at h
    · exact .of_refused h
    · obtain ⟨-, rfl⟩ := Prod.mk.inj (Except.ok.inj h)
      exact .freeze hkind hcol

theorem applyNftTxInner_change (h : applyNftTxInner E b tb tx time height s = .ok (b', ws)) :
    NftChange E tx height s ws := by
  rw [applyNftTxInner] at h
  split at h
  next hkind => exact nftCreateCollection_change hkind h
  next hkind => exact nftMint_change hkind h
  next hkind => exact nftBatchMint_change hkind h
  next hkind => exact nftTransfer_change hkind h
  next hkind => exact nftBurn_change hkind h
  next hkind => exact nftLock_change hkind h
  next hkind => exact nftFreezeCollection_change hkind h
  · exact .of_refused h

end Change

/-! ## The store after a write -/

theorem NftToken.makeKey_inj {c d : String} {i j : UInt64} (h : makeKey c i = makeKey d j) :
    c = d ∧ i = j := by
  have hkeys := congrArg String.toList h
  simp only [makeKey, String.toList_append, Nat.toString_eq_repr, Nat.toList_repr,
    List.append_assoc] at hkeys
  obtain ⟨hc, hi⟩ := Text.sep_append_inj (Text.notMem_toDigits (by decide) _)
    (Text.notMem_toDigits (by decide) _) hkeys
  exact ⟨String.toList_injective hc, UInt64.toNat_inj.1 (Text.toDigits_injective hi)⟩

namespace NftStore

variable {s : NftStore} {c k : String} {i j : UInt64} {t : NftToken} {col : NftCollection}
  {ts : List NftToken}

theorem getCollection_saveCollection : (s.write (.saveCollection col)).getCollection k =
    if col.collectionId = k then some col else s.getCollection k := getElem?_insert_eq ..

@[simp]
theorem getToken_saveCollection : (s.write (.saveCollection col)).getToken c i = s.getToken c i := rfl

@[simp]
theorem getCollection_saveToken : (s.write (.saveToken t)).getCollection k = s.getCollection k := rfl

@[simp]
theorem getCollection_deleteToken : (s.write (.deleteToken c i)).getCollection k = s.getCollection k :=
  rfl

theorem getToken_saveToken : (s.write (.saveToken t)).getToken c i =
    if t.collectionId = c ∧ t.tokenId = i then some t else s.getToken c i := by
  rw [getToken, write, getElem?_insert_eq]
  refine if_congr ⟨NftToken.makeKey_inj, ?_⟩ rfl rfl
  rintro ⟨rfl, rfl⟩
  rfl

theorem getToken_deleteToken : (s.write (.deleteToken c i)).getToken k j =
    if c = k ∧ i = j then none else s.getToken k j := by
  rw [getToken, write, getElem?_erase_eq]
  refine if_congr ⟨NftToken.makeKey_inj, ?_⟩ rfl rfl
  rintro ⟨rfl, rfl⟩
  rfl

theorem getCollection_saveTokens :
    (s.writeAll (ts.map .saveToken)).getCollection k = s.getCollection k := by
  induction ts generalizing s with
  | nil => rfl
  | cons t ts ih => exact ih (s := s.write (.saveToken t))

/-- A token that is saved nowhere stays what it was. -/
theorem getToken_saveTokens_of_notMem (h : ∀ t ∈ ts, ¬ (t.collectionId = c ∧ t.tokenId = i)) :
    (s.writeAll (ts.map .saveToken)).getToken c i = s.getToken c i := by
  induction ts generalizing s with
  | nil => rfl
  | cons t ts ih =>
    refine (ih (s := s.write (.saveToken t)) fun u hu => h u (List.mem_cons_of_mem _ hu)).trans ?_
    rw [getToken_saveToken, if_neg (h t List.mem_cons_self)]

/-- A token of the store after a list of saves was there before, or was saved. -/
theorem getToken_saveTokens (h : (s.writeAll (ts.map .saveToken)).getToken c i = some t) :
    s.getToken c i = some t ∨ (t ∈ ts ∧ t.collectionId = c ∧ t.tokenId = i) := by
  induction ts generalizing s with
  | nil => exact .inl h
  | cons u ts ih =>
    rcases ih (s := s.write (.saveToken u)) h with hold | ⟨hmem, hat⟩
    · rw [getToken_saveToken] at hold
      split at hold
      next hat =>
        obtain rfl := Option.some.inj hold
        exact .inr ⟨List.mem_cons_self, hat⟩
      · exact .inl hold
    · exact .inr ⟨List.mem_cons_of_mem _ hmem, hat⟩

end NftStore

/-! ## Runs -/

/-- A call of `applyNftTxInner`, with the balances and the block it is made in. -/
structure NftCall where
  balances : Balances
  tokenBalances : TokenBalances
  tx : TxV1
  time : UInt64
  height : UInt64

namespace NftWrite

/-- A token of the collection is saved. -/
def isTokenOf (colId : String) : NftWrite → Bool
  | saveToken t => t.collectionId == colId
  | _ => false

/-- A creation does not meet an existing collection, and a mint has not wrapped the counter. -/
def FreshIn (s : NftStore) (kind : TxKind) : NftWrite → Prop
  | saveCollection col => kind = .nftCreateCollection → (s.getCollection col.collectionId).isNone
  | saveToken t => kind = .nftMint ∨ kind = .nftBatchMint → t.tokenId ≠ 0
  | deleteToken _ _ => True

instance (s : NftStore) (kind : TxKind) : (w : NftWrite) → Decidable (w.FreshIn s kind)
  | saveCollection col => inferInstanceAs
    (Decidable (kind = .nftCreateCollection → (s.getCollection col.collectionId).isNone))
  | saveToken t => inferInstanceAs
    (Decidable (kind = .nftMint ∨ kind = .nftBatchMint → t.tokenId ≠ 0))
  | deleteToken _ _ => .isTrue trivial

end NftWrite

namespace NftCall

variable (E : Env) (s : NftStore) (c : NftCall)

/-- The writes of the call; a call that fails makes none. -/
def writes : List NftWrite :=
  match applyNftTxInner E c.balances c.tokenBalances c.tx c.time c.height s with
  | .ok (_, ws) => ws
  | .error _ => []

/-- No collection is created over an existing one, and no counter wraps. -/
def Fresh : Prop := ∀ w ∈ c.writes E s, w.FreshIn s c.tx.kind

instance : Decidable (c.Fresh E s) := inferInstanceAs (Decidable (∀ w ∈ c.writes E s, _))

/-- The number of tokens of `colId` the call mints. -/
def mintedBy (colId : String) : ℕ :=
  if c.tx.kind = .nftMint ∨ c.tx.kind = .nftBatchMint then
    (c.writes E s).countP (·.isTokenOf colId)
  else 0

theorem change : NftChange E c.tx c.height s (c.writes E s) := by
  rw [writes]
  split
  next h => exact applyNftTxInner_change h
  · exact .refused

end NftCall

/-- The store after a call. -/
def NftStore.step (E : Env) (s : NftStore) (c : NftCall) : NftStore := s.writeAll (c.writes E s)

/-- The number of tokens of `colId` minted over a run. -/
def totalMinted (E : Env) : NftStore → List NftCall → String → ℕ
  | _, [], _ => 0
  | s, c :: cs, colId => c.mintedBy E s colId + totalMinted E (s.step E c) cs colId

theorem totalMinted_append (E : Env) (s : NftStore) (cs ds : List NftCall) (colId : String) :
    totalMinted E s (cs ++ ds) colId =
      totalMinted E s cs colId + totalMinted E (Runs.run (NftStore.step E) s cs) ds colId := by
  induction cs generalizing s with
  | nil => rw [List.nil_append, totalMinted, Nat.zero_add, Runs.run_nil]
  | cons c cs ih => rw [List.cons_append, totalMinted, totalMinted, ih, Nat.add_assoc, Runs.run_cons]

/-! ## The invariant -/

/-- What holds along every run without re-creation: `count` is the number of tokens minted. -/
structure NftInv (s : NftStore) (count : String → ℕ) : Prop where
  collectionId : ∀ {k col}, s.getCollection k = some col → col.collectionId = k
  count_none : ∀ {k}, s.getCollection k = none → count k = 0
  count_some : ∀ {k col}, s.getCollection k = some col → count k = col.minted.toNat
  cap : ∀ {k col m}, s.getCollection k = some col → col.maxSupply = some m → col.minted ≤ m
  tokenId : ∀ {c i t}, s.getToken c i = some t → t.collectionId = c ∧ t.tokenId = i
  token_le : ∀ {c i t}, s.getToken c i = some t → ∃ col, s.getCollection c = some col ∧ i ≤ col.minted

/-- What one call leaves alone: a token stays with its owner, unless the owner transfers or burns
    it, and a collection keeps its creator and its cap. -/
structure NftKept (E : Env) (s s' : NftStore) (c : NftCall) : Prop where
  owner : ∀ colId i t, s.getToken colId i = some t →
    (∃ t', s'.getToken colId i = some t' ∧ t'.owner = t.owner) ∨
      ((c.tx.kind = .nftTransfer ∨ c.tx.kind = .nftBurn) ∧
        c.tx.payload.nftCollectionId = some colId ∧ c.tx.payload.nftTokenId = some i ∧
        nftOwnerMatches E t.owner c.tx.fromPubKey c.height = true)
  collection : ∀ colId col, s.getCollection colId = some col →
    ∃ col', s'.getCollection colId = some col' ∧ col'.creator = col.creator ∧
      col'.maxSupply = col.maxSupply

section Invariant

variable {E : Env} {s s' : NftStore} {count : String → ℕ} {c : NftCall}

theorem NftInv.empty : NftInv {} fun _ => 0 where
  collectionId h := by simp [NftStore.getCollection] at h
  count_none _ := rfl
  count_some h := by simp [NftStore.getCollection] at h
  cap h := by simp [NftStore.getCollection] at h
  tokenId h := by simp [NftStore.getToken] at h
  token_le h := by simp [NftStore.getToken] at h

/-- The store does not change. -/
theorem NftKept.refl : NftKept E s s c where
  owner _ _ t h := .inl ⟨t, h, rfl⟩
  collection _ col h := ⟨col, h, rfl, rfl⟩

/-- Writing one collection, with a counter that has not gone back, and tokens of it up to the
    counter. -/
theorem NftInv.update (hs : NftInv s count) {count' : String → ℕ} {k : String} {u : NftCollection}
    (hget : ∀ k', s'.getCollection k' = if k = k' then some u else s.getCollection k')
    (hid : u.collectionId = k) (hcount : count' k = u.minted.toNat)
    (hother : ∀ k', k ≠ k' → count' k' = count k')
    (hcap : ∀ m, u.maxSupply = some m → u.minted ≤ m)
    (hgrow : ∀ col, s.getCollection k = some col → col.minted ≤ u.minted)
    (htoken : ∀ {c i t}, s'.getToken c i = some t →
      s.getToken c i = some t ∨ (t.collectionId = c ∧ t.tokenId = i ∧ k = c ∧ i ≤ u.minted)) :
    NftInv s' count' := by
  refine ⟨fun {k' col} h => ?_, fun {k'} h => ?_, fun {k' col} h => ?_, fun {k' col m} h hm => ?_,
    fun {c i t} h => ?_, fun {c i t} h => ?_⟩
  · rw [hget] at h
    split at h
    next he =>
      obtain rfl := Option.some.inj h
      rw [hid, he]
    · exact hs.collectionId h
  · rw [hget] at h
    split at h
    · cases h
    next he => rw [hother k' he, hs.count_none h]
  · rw [hget] at h
    split at h
    next he =>
      obtain rfl := Option.some.inj h
      rw [← he, hcount]
    next he => rw [hother k' he, hs.count_some h]
  · rw [hget] at h
    split at h
    · obtain rfl := Option.some.inj h
      exact hcap m hm
    · exact hs.cap h hm
  · rcases htoken h with h | ⟨hc, hi, -⟩
    · exact hs.tokenId h
    · exact ⟨hc, hi⟩
  · rw [hget]
    rcases htoken h with h | ⟨-, -, hk, hi⟩
    · obtain ⟨col, hcol, hle⟩ := hs.token_le h
      split
      next he =>
        subst he
        exact ⟨u, rfl, UInt64.le_trans hle (hgrow col hcol)⟩
      · exact ⟨col, hcol, hle⟩
    · rw [if_pos hk]
      exact ⟨u, rfl, hi⟩

/-- The same for what the call leaves alone: no token of the store is saved again. -/
theorem NftKept.update {k : String} {u : NftCollection}
    (hget : ∀ k', s'.getCollection k' = if k = k' then some u else s.getCollection k')
    (hsame : ∀ col, s.getCollection k = some col →
      u.creator = col.creator ∧ u.maxSupply = col.maxSupply)
    (htoken : ∀ c i t, s.getToken c i = some t → s'.getToken c i = some t) : NftKept E s s' c where
  owner colId i t h := .inl ⟨t, htoken colId i t h, rfl⟩
  collection colId col h := by
    rw [hget]
    split
    next he =>
      subst he
      exact ⟨u, rfl, hsame col h⟩
    · exact ⟨col, h, rfl, rfl⟩

/-- Saving a token again, under its own number. -/
theorem NftInv.saveToken (hs : NftInv s count) {k : String} {i : UInt64} {t u : NftToken}
    (ht : s.getToken k i = some t) (hk : u.collectionId = t.collectionId)
    (hi : u.tokenId = t.tokenId) : NftInv (s.write (.saveToken u)) count := by
  obtain ⟨hkt, hit⟩ := hs.tokenId ht
  refine ⟨hs.collectionId, hs.count_none, hs.count_some, hs.cap, fun {c j v} h => ?_,
    fun {c j v} h => ?_⟩
  · rw [NftStore.getToken_saveToken] at h
    split at h
    next hat =>
      obtain rfl := Option.some.inj h
      exact hat
    · exact hs.tokenId h
  · rw [NftStore.getToken_saveToken] at h
    split at h
    next hat =>
      obtain ⟨hc, hj⟩ := hat
      rw [hk, hkt] at hc
      rw [hi, hit] at hj
      exact hc ▸ hj ▸ hs.token_le ht
    · exact hs.token_le h

theorem NftInv.deleteToken (hs : NftInv s count) (k : String) (i : UInt64) :
    NftInv (s.write (.deleteToken k i)) count := by
  have hget {c j v} (h : (s.write (.deleteToken k i)).getToken c j = some v) :
      s.getToken c j = some v := by
    rw [NftStore.getToken_deleteToken] at h
    split at h
    · cases h
    · exact h
  exact ⟨hs.collectionId, hs.count_none, hs.count_some, hs.cap, fun h => hs.tokenId (hget h),
    fun h => hs.token_le (hget h)⟩

/-! ## Minting -/

theorem toNat_add_one {n : UInt64} (h : n + 1 ≠ 0) : (n + 1).toNat = n.toNat + 1 := by
  have hne : (n + 1).toNat ≠ 0 := fun h0 => h (UInt64.toNat_inj.1 h0)
  have hlt := n.toNat_lt
  rw [UInt64.toNat_add, UInt64.toNat_one] at hne ⊢
  omega

/-- The numbers of a batch that does not pass zero follow `minted`, without gaps. -/
theorem batchTokens_ids {tx : TxV1} {colId : String} {time : UInt64} {names : List String} {i : ℕ}
    {minted : UInt64} (h : ∀ t ∈ batchTokens tx colId time i minted names, t.tokenId ≠ 0) :
    minted.toNat + names.length < 2 ^ 64 ∧ ∀ t ∈ batchTokens tx colId time i minted names,
      t.collectionId = colId ∧ minted.toNat < t.tokenId.toNat ∧
        t.tokenId.toNat ≤ minted.toNat + names.length := by
  induction names generalizing i minted with
  | nil => exact ⟨minted.toNat_lt, fun t ht => absurd ht List.not_mem_nil⟩
  | cons name names ih =>
    rw [batchTokens, List.forall_mem_cons] at h
    obtain ⟨hlt, hids⟩ := ih h.2
    have hsucc := toNat_add_one h.1
    rw [hsucc] at hlt hids
    rw [batchTokens, List.forall_mem_cons, List.length_cons]
    refine ⟨by omega, ⟨rfl, ?_, ?_⟩, fun t ht => ?_⟩
    · show minted.toNat < (minted + 1).toNat
      omega
    · show (minted + 1).toNat ≤ _
      omega
    · obtain ⟨hc, hlo, hhi⟩ := hids t ht
      exact ⟨hc, by omega, by omega⟩

theorem length_batchTokens {tx : TxV1} {colId : String} {time : UInt64} {names : List String} {i : ℕ}
    {minted : UInt64} : (batchTokens tx colId time i minted names).length = names.length := by
  induction names generalizing i minted with
  | nil => rfl
  | cons name names ih => rw [batchTokens, List.length_cons, List.length_cons, ih]

section Issue

variable {k : String} {col : NftCollection} {ts : List NftToken}

/-- The store after a mint: the tokens, and the counter past them. -/
def NftStore.issue (s : NftStore) (col : NftCollection) (ts : List NftToken) : NftStore :=
  (s.writeAll (ts.map .saveToken)).write
    (.saveCollection { col with minted := col.minted + UInt64.ofNat ts.length })

/-- Tokens of `k` that follow the counter of its collection. -/
def Follow (k : String) (col : NftCollection) (ts : List NftToken) : Prop :=
  col.minted.toNat + ts.length < 2 ^ 64 ∧ ∀ t ∈ ts, t.collectionId = k ∧
    col.minted.toNat < t.tokenId.toNat ∧ t.tokenId.toNat ≤ col.minted.toNat + ts.length

theorem toNat_issued (hlt : col.minted.toNat + ts.length < 2 ^ 64) :
    (col.minted + UInt64.ofNat ts.length).toNat = col.minted.toNat + ts.length := by
  rw [UInt64.toNat_add, UInt64.toNat_ofNat', Nat.add_mod_mod, Nat.mod_eq_of_lt hlt]

theorem getCollection_issue (hid : col.collectionId = k) (k' : String) :
    (s.issue col ts).getCollection k' = if k = k' then
      some { col with minted := col.minted + UInt64.ofNat ts.length } else s.getCollection k' := by
  rw [NftStore.issue, NftStore.getCollection_saveCollection, NftStore.getCollection_saveTokens]
  simp only [hid]

theorem NftInv.issue (hs : NftInv s count) (hcol : s.getCollection k = some col)
    (hts : Follow k col ts)
    (hcap : ∀ m, col.maxSupply = some m → col.minted + UInt64.ofNat ts.length ≤ m) :
    NftInv (s.issue col ts) fun k' => count k' + if k = k' then ts.length else 0 := by
  have hnat := toNat_issued hts.1
  have hid := hs.collectionId hcol
  refine hs.update (getCollection_issue hid) hid ?_
    (fun k' hk => by rw [if_neg hk, Nat.add_zero]) hcap ?_ ?_
  · rw [if_pos rfl, hs.count_some hcol]
    exact hnat.symm
  · intro col' hcol'
    obtain rfl := Option.some.inj (hcol.symm.trans hcol')
    rw [UInt64.le_iff_toNat_le, hnat]
    omega
  · intro c i t h
    rcases NftStore.getToken_saveTokens h with h | ⟨hmem, hc, hi⟩
    · exact .inl h
    · obtain ⟨hk, -, hle⟩ := hts.2 t hmem
      refine .inr ⟨hc, hi, hk.symm.trans hc, ?_⟩
      rw [UInt64.le_iff_toNat_le, hnat, ← hi]
      exact hle

theorem NftInv.kept_issue (hs : NftInv s count) (hcol : s.getCollection k = some col)
    (hts : Follow k col ts) : NftKept E s (s.issue col ts) c := by
  refine .update (getCollection_issue (hs.collectionId hcol)) ?_ ?_
  · intro col' hcol'
    obtain rfl := Option.some.inj (hcol.symm.trans hcol')
    exact ⟨rfl, rfl⟩
  · intro c i t h
    refine (NftStore.getToken_saveTokens_of_notMem fun u hu => ?_).trans h
    rintro ⟨hc, hi⟩
    -- an existing token of the collection has a number up to the counter
    obtain ⟨hk, hlo, -⟩ := hts.2 u hu
    obtain ⟨col', hcol', hle⟩ := hs.token_le h
    rw [← hc, hk, hcol] at hcol'
    obtain rfl := Option.some.inj hcol'
    rw [UInt64.le_iff_toNat_le, ← hi] at hle
    omega

theorem countP_isTokenOf (hts : ∀ t ∈ ts, t.collectionId = k) (k' : String) :
    (ts.map NftWrite.saveToken).countP (·.isTokenOf k') = if k = k' then ts.length else 0 := by
  rw [List.countP_map]
  split
  next hk => exact List.countP_eq_length.2 fun t ht => beq_iff_eq.2 ((hts t ht).trans hk)
  next hk => exact List.countP_eq_zero.2 fun t ht he => hk ((hts t ht).symm.trans (beq_iff_eq.1 he))

/-- Writes that amount to a mint. -/
theorem NftInv.step_issue (hs : NftInv s count) (hcol : s.getCollection k = some col)
    (hts : Follow k col ts)
    (hcap : ∀ m, col.maxSupply = some m → col.minted + UInt64.ofNat ts.length ≤ m)
    {ws : List NftWrite} (hstore : s.writeAll ws = s.issue col ts)
    (hcount : ∀ k', ws.countP (·.isTokenOf k') = (ts.map NftWrite.saveToken).countP (·.isTokenOf k')) :
    NftInv (s.writeAll ws) (fun k' => count k' + ws.countP (·.isTokenOf k')) ∧
      NftKept E s (s.writeAll ws) c := by
  have hsum : (fun k' => count k' + ws.countP (·.isTokenOf k')) =
      fun k' => count k' + if k = k' then ts.length else 0 :=
    funext fun k' => by rw [hcount, countP_isTokenOf fun t ht => (hts.2 t ht).1]
  rw [hstore, hsum]
  exact ⟨hs.issue hcol hts hcap, hs.kept_issue hcol hts⟩

end Issue

/-! ## One call -/

/-- One call keeps the invariant, and leaves alone what it has to. -/
theorem NftInv.step (hs : NftInv s count) (hfresh : c.Fresh E s) :
    NftInv (s.step E c) (fun k => count k + c.mintedBy E s k) ∧ NftKept E s (s.step E c) c := by
  have hchange := c.change E s
  rw [NftCall.Fresh] at hfresh
  rw [NftStore.step]
  simp only [NftCall.mintedBy]
  generalize c.writes E s = ws at hchange hfresh
  cases hchange with
  | refused => exact ⟨by simpa [NftStore.writeAll] using hs, .refl⟩
  | create hkind hminted =>
    rename_i col
    have hnone : s.getCollection col.collectionId = none := by
      simpa using hfresh _ List.mem_cons_self hkind
    refine ⟨?_, ?_⟩
    · simp only [hkind, reduceCtorEq, or_self, if_false, Nat.add_zero]
      refine hs.update (fun k => NftStore.getCollection_saveCollection) rfl ?_ (fun _ _ => rfl) ?_ ?_
        .inl
      · rw [hs.count_none hnone, hminted]
        rfl
      · intro m _
        rw [hminted, UInt64.le_iff_toNat_le]
        exact Nat.zero_le _
      · intro col' h
        rw [hnone] at h
        cases h
    · refine .update (fun k => NftStore.getCollection_saveCollection) ?_ fun _ _ _ h => h
      intro col' h
      rw [hnone] at h
      cases h
  | mint hkind hcol hmax htoken hid =>
    rename_i k col token
    have hne := hfresh _ (List.mem_cons_of_mem _ List.mem_cons_self) (.inl hkind)
    have hsucc := toNat_add_one (hid ▸ hne)
    have hfollow : Follow k col [token] := by
      refine ⟨?_, fun t ht => ?_⟩
      · rw [List.length_singleton, ← hsucc]
        exact (col.minted + 1).toNat_lt
      · obtain rfl := List.mem_singleton.1 ht
        rw [hid, hsucc]
        exact ⟨htoken, Nat.lt_succ_self _, le_rfl⟩
    simp only [hkind, true_or, if_true]
    refine hs.step_issue hcol hfollow (fun m hm => ?_) rfl fun _ => rfl
    have hlt := hmax m hm
    rw [UInt64.lt_iff_toNat_lt] at hlt
    rw [UInt64.le_iff_toNat_le]
    exact hsucc.trans_le hlt
  | batch hkind hcol hmax =>
    rename_i k col time names
    have hids := batchTokens_ids fun t ht => hfresh _
      (List.mem_append_left _ (List.mem_map_of_mem ht)) (.inr hkind)
    have hlen : (batchTokens c.tx k time 0 col.minted names).length = names.length :=
      length_batchTokens
    have hfollow : Follow k col (batchTokens c.tx k time 0 col.minted names) := by
      rw [Follow, hlen]
      exact hids
    simp only [hkind, or_true, if_true]
    rw [← hlen] at hmax ⊢
    refine hs.step_issue hcol hfollow hmax ?_ fun k' => ?_
    · rw [NftStore.writeAll, List.foldl_append]
      rfl
    · rw [List.countP_append]
      rfl
  | transfer hkind hcol hid htoken howner =>
    rename_i k i time token dest
    have hat := hs.tokenId htoken
    refine ⟨?_, ?_, fun _ col h => ⟨col, h, rfl, rfl⟩⟩
    · simp only [hkind, reduceCtorEq, or_self, if_false, Nat.add_zero]
      exact hs.saveToken htoken rfl rfl
    · intro k' i' t h
      by_cases he : k = k' ∧ i = i'
      · obtain ⟨rfl, rfl⟩ := he
        obtain rfl := Option.some.inj (htoken.symm.trans h)
        exact .inr ⟨.inl hkind, hcol, hid, howner⟩
      · refine .inl ⟨t, ?_, rfl⟩
        refine NftStore.getToken_saveToken.trans ?_
        rw [if_neg (by rwa [hat.1, hat.2]), h]
  | burn hkind hcol hid htoken howner =>
    rename_i k i token
    refine ⟨?_, ?_, fun _ col h => ⟨col, h, rfl, rfl⟩⟩
    · simp only [hkind, reduceCtorEq, or_self, if_false, Nat.add_zero]
      exact hs.deleteToken k i
    · intro k' i' t h
      by_cases he : k = k' ∧ i = i'
      · obtain ⟨rfl, rfl⟩ := he
        obtain rfl := Option.some.inj (htoken.symm.trans h)
        exact .inr ⟨.inr hkind, hcol, hid, howner⟩
      · refine .inl ⟨t, ?_, rfl⟩
        refine NftStore.getToken_deleteToken.trans ?_
        rw [if_neg he, h]
  | lock hkind htoken =>
    rename_i k i token locked
    have hat := hs.tokenId htoken
    refine ⟨?_, ?_, fun _ col h => ⟨col, h, rfl, rfl⟩⟩
    · simp only [hkind, reduceCtorEq, or_self, if_false, Nat.add_zero]
      exact hs.saveToken htoken rfl rfl
    · intro k' i' t h
      refine .inl ?_
      by_cases he : k = k' ∧ i = i'
      · obtain ⟨rfl, rfl⟩ := he
        obtain rfl := Option.some.inj (htoken.symm.trans h)
        refine ⟨{ token with locked }, ?_, rfl⟩
        exact NftStore.getToken_saveToken.trans (if_pos hat)
      · refine ⟨t, NftStore.getToken_saveToken.trans ?_, rfl⟩
        rw [if_neg (by rwa [hat.1, hat.2]), h]
  | freeze hkind hcol =>
    rename_i k col frozen
    have hid := hs.collectionId hcol
    have hget (k' : String) : (s.write (.saveCollection { col with frozen })).getCollection k' =
        if k = k' then some { col with frozen } else s.getCollection k' := by
      rw [NftStore.getCollection_saveCollection]
      simp only [hid]
    have hsame {col' : NftCollection} (h : s.getCollection k = some col') : col = col' :=
      Option.some.inj (hcol.symm.trans h)
    refine ⟨?_, .update hget (fun col' h => ?_) fun _ _ _ h => h⟩
    · simp only [hkind, reduceCtorEq, or_self, if_false, Nat.add_zero]
      have hcount := hs.count_some hcol
      have hcap (m : UInt64) (hm : col.maxSupply = some m) := hs.cap hcol hm
      refine hs.update hget hid hcount (fun _ _ => rfl) hcap (fun col' h => ?_) .inl
      rw [← hsame h]
      exact UInt64.le_refl _
    · rw [← hsame h]
      exact ⟨rfl, rfl⟩

end Invariant

/-! ## Runs without re-creation -/

/-- The state of a run, with the number of tokens minted so far. -/
theorem NftInv.run {E : Env} {cs : List NftCall}
    (h : Runs.Along (NftStore.step E) (fun s c => c.Fresh E s) {} cs) :
    NftInv (Runs.run (NftStore.step E) {} cs) (totalMinted E {} cs) := by
  induction cs using List.reverseRecOn with
  | nil => exact .empty
  | append_singleton cs c ih =>
    obtain ⟨hcs, hc, -⟩ := Runs.Along.append.1 h
    rw [Runs.run_append]
    have hcount : totalMinted E {} (cs ++ [c]) = fun k =>
        totalMinted E {} cs k + c.mintedBy E (Runs.run (NftStore.step E) {} cs) k :=
      funext fun k => by rw [totalMinted_append, totalMinted, totalMinted, Nat.add_zero]
    rw [hcount]
    exact ((ih hcs).step hc).1

/-- Over every run of NFT transactions from the empty store in which no transaction creates a
    collection over an existing one and no counter wraps: a token changes hands or disappears only
    by a transfer or a burn that its owner sends, a collection keeps its creator and its cap, and
    the tokens ever minted of it do not exceed the cap. -/
theorem owner_and_supply_kept (E : Env) (cs : List NftCall)
    (h : Runs.Along (NftStore.step E) (fun s c => c.Fresh E s) {} cs) :
    (∀ before c after, cs = before ++ c :: after →
      NftKept E (Runs.run (NftStore.step E) {} before)
        (Runs.run (NftStore.step E) {} (before ++ [c])) c) ∧
    ∀ before after, cs = before ++ after → ∀ k col m,
      (Runs.run (NftStore.step E) {} before).getCollection k = some col →
      col.maxSupply = some m → totalMinted E {} before k ≤ m.toNat := by
  refine ⟨fun before c after hcs => ?_, fun before after hcs k col m hcol hm => ?_⟩
  · rw [hcs, Runs.Along.append] at h
    rw [Runs.run_append]
    exact ((NftInv.run h.1).step h.2.1).2
  · rw [hcs, Runs.Along.append] at h
    rw [(NftInv.run h.1).count_some hcol]
    exact UInt64.le_iff_toNat_le.1 ((NftInv.run h.1).cap hcol hm)

/-- A transaction at height 300, in a block where nobody holds anything. -/
def localNftCall (kind : TxKind) (sender : String) (payload : TxPayload) : NftCall where
  balances := ∅
  tokenBalances := ∅
  tx := localTx kind sender payload
  time := 1000
  height := 300

/-- Alice opens a collection of two tokens to the public, Bob mints one. -/
def publicMint : List NftCall :=
  [localNftCall .nftCreateCollection "alice" {
      nftCollectionSymbol := some "art", nftCollectionName := some "Art"
      nftMaxSupply := some 2, nftPublicMint := some true },
    localNftCall .nftMint "bob" {
      nftCollectionId := some "col:alice:ART", nftTokenName := some "one" }]

/-- Bob's token goes to Carol, who burns it. -/
def publicMintAndSale : List NftCall := publicMint ++
  [localNftCall .nftTransfer "bob" {
      nftCollectionId := some "col:alice:ART", nftTokenId := some 1, toPubKeyHex := some "carol" },
    localNftCall .nftBurn "carol" {
      nftCollectionId := some "col:alice:ART", nftTokenId := some 1 }]

theorem owner_and_supply_kept_sale :
    totalMinted localEnv {} publicMintAndSale "col:alice:ART" = 1 ∧
    (∀ before c after, publicMintAndSale = before ++ c :: after →
      NftKept localEnv (Runs.run (NftStore.step localEnv) {} before)
        (Runs.run (NftStore.step localEnv) {} (before ++ [c])) c) ∧
    ∀ before after, publicMintAndSale = before ++ after → ∀ k col m,
      (Runs.run (NftStore.step localEnv) {} before).getCollection k = some col →
      col.maxSupply = some m → totalMinted localEnv {} before k ≤ m.toNat :=
  ⟨by decide +kernel, owner_and_supply_kept localEnv publicMintAndSale (by decide +kernel)⟩

/-- Alice creates the collection again, with another cap, and mints. -/
def recreation : List NftCall :=
  [localNftCall .nftCreateCollection "alice" {
      nftCollectionSymbol := some "art", nftCollectionName := some "Art", nftMaxSupply := some 1 },
    localNftCall .nftMint "alice" {
      nftCollectionId := some "col:alice:ART", nftTokenName := some "one" }]

/-- The token Bob owned is Alice's after her mint, the cap has changed, and two tokens have been
    minted of a collection of one. -/
theorem recreated_collection_mints_over :
    let s := Runs.run (NftStore.step localEnv) {} publicMint
    let s' := Runs.run (NftStore.step localEnv) {} (publicMint ++ recreation)
    (s.getToken "col:alice:ART" 1).map (·.owner) = some "bob" ∧
      (s'.getToken "col:alice:ART" 1).map (·.owner) = some "alice" ∧
      (s.getCollection "col:alice:ART").map (·.maxSupply) = some (some 2) ∧
      (s'.getCollection "col:alice:ART").map (·.maxSupply) = some (some 1) ∧
      totalMinted localEnv {} (publicMint ++ recreation) "col:alice:ART" = 2 ∧
      ∀ c ∈ recreation, c.tx.kind ≠ .nftTransfer ∧ c.tx.kind ≠ .nftBurn := by
  decide +kernel

end RougeChain.Node
