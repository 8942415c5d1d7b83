import RougeChain.Library.Floats
import RougeChain.Library.Runs
import RougeChain.Node.Binding

/-!
# Mintable tokens

Under `TOKEN_MINTING` a block may create a token with a cap, and its creator may mint more of it.
What has been minted is a counter in the token's metadata, a record that block execution and the
metadata calls of the API read, change and write back as a whole, without a lock between them. Each
read and each write of the store is a step of its own here, and the steps of one block and any
number of calls take turns.

* `Sound`: the counter and the mint in progress are what the mints have credited, within the cap;
* `issuance_capped`: it holds in every run in which no metadata call changes the token's entry of
  the mint ledger;
* `cap_exceeded`: a call that writes back what it read before a mint undoes the counter, and the
  cap is exceeded.
-/

open Fallible

namespace RougeChain.Node

open Std (ExtTreeMap)

/-! ## The store -/

structure TokenMetadata where
  symbol : String
  name : String
  creator : String
  tokenId : String
  image : Option String
  description : Option String
  website : Option String
  twitter : Option String
  discord : Option String
  createdAt : Int64
  updatedAt : Int64
  frozen : Bool
  mintable : Bool
  maxSupply : Option UInt64
  totalMinted : UInt64
  initialSupply : Option UInt64
  mintEnabledHeight : Option UInt64

namespace TokenMetadata

/-- Mintable because a block made it so. -/
def consensusMintable (r : TokenMetadata) : Bool := r.mintable && r.mintEnabledHeight.isSome

def generateTokenId (P : Platform) (creator symbol : String) (createdAt : Int64) : String :=
  hexEncode ((P.sha256 (creator ++ ":" ++ P.toUppercase symbol ++ ":" ++
    toString createdAt).toUTF8.toList).take 16)

end TokenMetadata

abbrev MetadataStore := ExtTreeMap String TokenMetadata

variable (P : Platform)

def setMetadata (store : MetadataStore) (r : TokenMetadata) : MetadataStore :=
  store.insert (P.toUppercase r.symbol) r

def getMetadata (store : MetadataStore) (symbol : String) : Option TokenMetadata :=
  store[P.toUppercase symbol]?

/-- The record of a new token; `mint` is its supply and its height, if a block made it mintable. -/
def newMetadata (symbol name creator : String) (image description : Option String) (mintable : Bool)
    (maxSupply : Option UInt64) (mint : Option (UInt64 × UInt64)) (now : Int64) :
    TokenMetadata where
  symbol := P.toUppercase symbol
  name := name
  creator := creator
  tokenId := TokenMetadata.generateTokenId P creator symbol now
  image := image
  description := description
  website := none
  twitter := none
  discord := none
  createdAt := now
  updatedAt := now
  frozen := false
  mintable := mintable
  maxSupply := maxSupply
  totalMinted := 0
  initialSupply := mint.map Prod.fst
  mintEnabledHeight := mint.map Prod.snd

/-! ## Rules of transactions -/

/-- The largest integer that a float counts to. -/
def tokenMintMaxAmount : UInt64 := 9007199254740991

def checkMaxSupply (initial : UInt64) : Option UInt64 → Except String Unit
  | none => return ()
  | some max => do
    require (max ≤ tokenMintMaxAmount) "max_supply must be at most 9007199254740991"
    require (initial ≤ max)
      ("max_supply " ++ toString max ++ " is below the initial supply " ++ toString initial)

/-- What a block may carry, from the activation on. -/
def tokenMintingTxRule (tx : TxV1) : Except String Unit :=
  let p := tx.payload
  let hasFields := p.tokenMintable.isSome || p.tokenMaxSupply.isSome
  match tx.kind with
  | .createToken =>
    if p.tokenMintable = some false then .error "token_mintable must be omitted rather than false"
    else if p.tokenMintable = some true then do
      let initial := p.tokenTotalSupply.getD 0
      require (initial ≤ tokenMintMaxAmount)
        "a mintable token's initial supply must be at most 9007199254740991"
      checkMaxSupply initial p.tokenMaxSupply
    else require p.tokenMaxSupply.isNone "max_supply requires mintable: true"
  | .mintTokens => do
    require (¬ hasFields) "mint_tokens cannot carry token_mintable / token_max_supply"
    require (p.tokenTotalSupply.getD 0 ≤ tokenMintMaxAmount)
      "mint amount must be at most 9007199254740991"
  | _ => require (¬ hasFields)
    (tx.txType ++ " cannot carry token_mintable / token_max_supply")

def reservedSymbols : List String := ["XRGE", "QETH", "QUSDC", "ETH", "USDC"]

def checkTokenName : Option String → Except String Unit
  | none => return ()
  | some name =>
    let length := (Text.trim Text.isWhitespace name).toList.length
    require (1 ≤ length ∧ length ≤ 64)
      ("name must be 1-64 chars (got " ++ toString length ++ ")")

def createTokenStaticCheck (tx : TxV1) : Except String Unit := do
  let sym ← ofOption "missing symbol" tx.payload.tokenSymbol
  let trimmed := Text.trim Text.isWhitespace sym
  require (P.toUppercase trimmed ∉ reservedSymbols) ("reserved symbol '" ++ sym ++ "'")
  require (1 ≤ trimmed.toList.length ∧ trimmed.toList.length ≤ 10)
    ("symbol must be 1-10 chars (got " ++ toString trimmed.toList.length ++ ")")
  require (¬ trimmed.toList.any Text.isWhitespace) "symbol contains whitespace"
  checkTokenName tx.payload.tokenName

/-- The symbol under which a token is kept. -/
def canonSymbol (sym : String) : String := P.toUppercase (Text.trim Text.isWhitespace sym)

def checkCap (sym : String) (issued amount after : UInt64) : Option UInt64 → Except String Unit
  | none => return ()
  | some max => require (after ≤ max)
    ("mint would exceed the max supply of " ++ sym ++ ": " ++ toString issued ++ " issued + " ++
      toString amount ++ " > " ++ toString max)

/-- The rule for a mint: who, what, how much, and the fee. It reads the store once. -/
def checkTokenMint (store : MetadataStore) (tx : TxV1) (senderXrgeQuanta : U128) :
    Except String (String × UInt64) := do
  let sym ← ofOption "token_symbol is required"
    ((tx.payload.tokenSymbol.map (canonSymbol P)).filter (· != ""))
  let amount := tx.payload.tokenTotalSupply.getD 0
  require (amount ≠ 0) "amount must be greater than zero"
  require (amount ≤ tokenMintMaxAmount) "mint amount must be at most 9007199254740991"
  let r ← ofOption ("token " ++ sym ++ " does not exist") (getMetadata P store sym)
  require (r.creator = tx.fromPubKey) ("only the creator of " ++ sym ++ " can mint")
  require r.consensusMintable ("token " ++ sym ++ " is not mintable")
  let issued ← ofOption "supply overflow"
    (checkedAdd64 (r.initialSupply.getD 0) r.totalMinted)
  let after ← ofOption "supply overflow" (checkedAdd64 issued amount)
  checkCap sym issued amount after r.maxSupply
  require (xrgeF64ToQuanta tx.fee ≤ senderXrgeQuanta) "insufficient XRGE for the mint fee"
  return (sym, amount)

/-- What the ledger credits for a mint; the amount goes through a float. -/
def mintArm (tx : TxV1) (xrgeBal : U128) : Option (String × U128) := do
  let sym ← tx.payload.tokenSymbol
  let amount := natAsF64 (tx.payload.tokenTotalSupply.getD 0).toNat
  guard (¬ amount ≤ 0)
  guard (xrgeF64ToQuanta tx.fee ≤ xrgeBal)
  return (canonSymbol P sym, f64AsU128 amount)

/-! ## Steps -/

/-- What block execution is doing. -/
inductive Exec where
  | outside
  /-- Between two transactions of a block. -/
  | between
  /-- A new symbol has been found free; the record is still to be written. -/
  | creating (tx : TxV1) (mint : Option (UInt64 × UInt64))
  /-- A mint has been approved and credited; the counter is still to be read. -/
  | minting (sym : String) (amount : UInt64)
  /-- The counter has been read; the record with the new one is still to be written. -/
  | adding (sym : String) (amount : UInt64) (r : TokenMetadata)
  /-- The counter could not be changed; the block is still to be rolled back. -/
  | failed (sym : String) (amount : UInt64)

/-- The store, and for the statements: the supply and the cap of each token that a block has
    created mintable, and what has been credited for mints. -/
structure MintLedger where
  store : MetadataStore := ∅
  created : ExtTreeMap String (UInt64 × Option UInt64) := ∅
  minted : List (String × U128) := []

structure MintState where
  ledger : MintLedger := {}
  /-- The ledger when the block began. -/
  snapshot : MintLedger := {}
  exec : Exec := .outside
  /-- The records that metadata calls are about to write. -/
  calls : List TokenMetadata := []

/-- The steps of block execution and of the metadata calls. The balance of a sender, the time and
    the creator that a search of the chain finds are given. -/
inductive MintAction where
  | beginBlock
  | commitBlock
  | rollback
  | create (tx : TxV1) (xrgeBal : U128) (height : UInt64)
  | register (now : Int64)
  | mint (tx : TxV1) (xrgeBal : U128)
  | addMintedRead
  | addMintedWrite
  | update (symbol updater : String) (image description website twitter discord : Option String)
    (now : Int64)
  | freeze (symbol : String) (frozen : Bool) (now : Int64)
  | claim (symbol claimer : String) (found : Option String) (now : Int64)
  | write (i : ℕ)

namespace MintState

variable (s : MintState)

/-- A block may create a symbol that has no record. -/
def create (tx : TxV1) (xrgeBal : U128) (height : UInt64) : MintState :=
  match tx.payload.tokenSymbol with
  | none => s
  | some sym =>
    if (getMetadata P s.ledger.store (canonSymbol P sym)).isSome then s
    else
      let mint := if tx.payload.tokenMintable = some true ∧ (createTokenStaticCheck P tx).toBool ∧
          xrgeF64ToQuanta tx.fee ≤ xrgeBal
        then some (tx.payload.tokenTotalSupply.getD 0, height) else none
      { s with exec := .creating tx mint }

/-- The record of a token that a block creates. -/
def createdMetadata (tx : TxV1) (mint : Option (UInt64 × UInt64)) (now : Int64) : TokenMetadata :=
  let sym := canonSymbol P (tx.payload.tokenSymbol.getD "")
  newMetadata P sym (tx.payload.tokenName.getD sym) tx.fromPubKey tx.payload.metadataImage
    tx.payload.metadataDescription mint.isSome (if mint.isSome then tx.payload.tokenMaxSupply else none)
    mint now

def register (tx : TxV1) (mint : Option (UInt64 × UInt64)) (now : Int64) : MintState :=
  let r := createdMetadata P tx mint now
  { s with
    exec := .between
    ledger.store := setMetadata P s.ledger.store r
    ledger.created := mint.elim s.ledger.created fun m => s.ledger.created.insert
      (canonSymbol P (tx.payload.tokenSymbol.getD "")) (m.1, tx.payload.tokenMaxSupply) }

/-- A mint that passes the rule is credited. -/
def mint (tx : TxV1) (xrgeBal : U128) : MintState :=
  match checkTokenMint P s.ledger.store tx xrgeBal with
  | .error _ => s
  | .ok (sym, amount) =>
    { s with
      exec := .minting sym amount
      ledger.minted := s.ledger.minted ++ (mintArm P tx xrgeBal).toList }

def addMintedRead (sym : String) (amount : UInt64) : MintState :=
  match getMetadata P s.ledger.store sym with
  | none => { s with exec := .failed sym amount }
  | some r => match checkedAdd64 r.totalMinted amount with
    | none => { s with exec := .failed sym amount }
    | some total => { s with exec := .adding sym amount { r with totalMinted := total } }

def update (symbol updater : String) (image description website twitter discord : Option String)
    (now : Int64) : MintState :=
  match getMetadata P s.ledger.store symbol with
  | none => s
  | some r =>
    if r.creator = updater then
      { s with calls := s.calls ++ [{ r with
        image := image.or r.image
        description := description.or r.description
        website := website.or r.website
        twitter := twitter.or r.twitter
        discord := discord.or r.discord
        updatedAt := now }] }
    else s

def freeze (symbol : String) (frozen : Bool) (now : Int64) : MintState :=
  match getMetadata P s.ledger.store symbol with
  | none => s
  | some r => { s with calls := s.calls ++ [{ r with frozen, updatedAt := now }] }

def claimReserved : List String := ["XRGE", "QBTC", "QETH", "QUSDC", "ETH", "USDC"]

def claim (symbol claimer : String) (found : Option String) (now : Int64) : MintState :=
  if P.toUppercase symbol ∈ claimReserved then s
  else if (getMetadata P s.ledger.store symbol).isSome then s
  else if found = some claimer then
    { s with calls := s.calls ++ [newMetadata P symbol symbol claimer none none false none none now] }
  else s

/-- A step that does not fit what block execution is doing changes nothing, and neither does
    a transaction that no block may carry. -/
def step (s : MintState) (a : MintAction) : MintState :=
  match a, s.exec with
  | .beginBlock, .outside => { s with exec := .between, snapshot := s.ledger }
  | .commitBlock, .between => { s with exec := .outside }
  | .rollback, .outside => s
  | .rollback, _ => { s with exec := .outside, ledger := s.snapshot }
  | .create tx xrgeBal height, .between =>
    if tx.kind = .createToken ∧ (tokenMintingTxRule tx).toBool then s.create P tx xrgeBal height
    else s
  | .register now, .creating tx mint => s.register P tx mint now
  | .mint tx xrgeBal, .between =>
    if tx.kind = .mintTokens ∧ (tokenMintingTxRule tx).toBool then s.mint P tx xrgeBal else s
  | .addMintedRead, .minting sym amount => s.addMintedRead P sym amount
  | .addMintedWrite, .adding _ _ r =>
    { s with exec := .between, ledger.store := setMetadata P s.ledger.store r }
  | .update symbol updater image description website twitter discord now, _ =>
    s.update P symbol updater image description website twitter discord now
  | .freeze symbol frozen now, _ => s.freeze P symbol frozen now
  | .claim symbol claimer found now, _ => s.claim P symbol claimer found now
  | .write i, _ => match s.calls[i]? with
    | some r => { s with ledger.store := setMetadata P s.ledger.store r, calls := s.calls.eraseIdx i }
    | none => s
  | _, _ => s

end MintState

/-! ## The mint ledger -/

/-- What the state root commits to of a token that a block has made mintable. -/
structure MintEntry where
  initialSupply : Option UInt64
  maxSupply : Option UInt64
  totalMinted : UInt64
  enabledHeight : Option UInt64
  deriving DecidableEq

def TokenMetadata.mintEntry (r : TokenMetadata) : Option MintEntry :=
  if r.consensusMintable then
    some ⟨r.initialSupply, r.maxSupply, r.totalMinted, r.mintEnabledHeight⟩
  else none

def entryAt (store : MetadataStore) (k : String) : Option MintEntry :=
  store[k]?.bind TokenMetadata.mintEntry

/-- What has been credited for mints of a token. -/
def credited (k : String) (minted : List (String × U128)) : ℕ :=
  (minted.map fun e => if e.1 = k then e.2.toNat else 0).sum

/-- What has been credited for the mint in progress and is not counted yet. -/
def Exec.inFlight (k : String) : Exec → ℕ
  | .minting sym amount => if sym = k then amount.toNat else 0
  | .adding sym amount _ => if sym = k then amount.toNat else 0
  | .failed sym amount => if sym = k then amount.toNat else 0
  | .outside => 0
  | .between => 0
  | .creating _ _ => 0

/-- A metadata call does not change the token's entry of the mint ledger. -/
def MintState.keepsEntry (s : MintState) : MintAction → Bool
  | .write i =>
    (s.calls[i]?).all fun r => entryAt s.ledger.store (P.toUppercase r.symbol) == r.mintEntry
  | _ => true

/-- Every record is under its own symbol. Of a token that no block has made mintable, nothing is
    minted; the counter of the others is what has been credited but for the mint in progress, and
    the cap holds. -/
structure MintLedger.Sound (l : MintLedger) (inFlight : String → ℕ) : Prop where
  keys : ∀ (k : String) (r : TokenMetadata), l.store[k]? = some r → P.toUppercase r.symbol = k
  uncreated : ∀ k : String, l.created[k]? = none → entryAt l.store k = none ∧ credited k l.minted = 0
  created : ∀ (k : String) (initial : UInt64) (max : Option UInt64),
    l.created[k]? = some (initial, max) →
      (∃ e, entryAt l.store k = some e ∧ e.initialSupply = some initial ∧ e.maxSupply = max ∧
        e.totalMinted.toNat + inFlight k = credited k l.minted) ∧
      ∀ m, max = some m → initial.toNat + credited k l.minted ≤ m.toNat

/-- What block execution knows of the token it is working on. -/
def MintLedger.Fits (l : MintLedger) : Exec → Prop
  | .creating tx mint =>
    l.created[canonSymbol P (tx.payload.tokenSymbol.getD "")]? = none ∧
      ∀ initial height, mint = some (initial, height) →
        ∀ m, tx.payload.tokenMaxSupply = some m → initial ≤ m
  | .minting sym _ => P.toUppercase sym = sym ∧ l.created[sym]? ≠ none
  | .adding sym amount r => P.toUppercase r.symbol = sym ∧ l.created[sym]? ≠ none ∧
    ∃ e, entryAt l.store sym = some e ∧ ∃ total : UInt64,
      total.toNat = e.totalMinted.toNat + amount.toNat ∧
      r.mintEntry = some { e with totalMinted := total }
  | _ => True

structure MintState.Inv (s : MintState) : Prop where
  now : s.ledger.Sound P fun k => s.exec.inFlight k
  before : s.snapshot.Sound P fun _ => 0
  fits : s.ledger.Fits P s.exec

section Steps

variable {P} {s : MintState} {l : MintLedger} {f : String → ℕ} {k : String}

theorem credited_append (a b : List (String × U128)) :
    credited k (a ++ b) = credited k a + credited k b := by
  rw [credited, List.map_append, List.sum_append]
  rfl

theorem mintEntry_eq_some {r : TokenMetadata} {e : MintEntry} : r.mintEntry = some e ↔
    r.consensusMintable = true ∧
      e = ⟨r.initialSupply, r.maxSupply, r.totalMinted, r.mintEnabledHeight⟩ := by
  rw [TokenMetadata.mintEntry]
  split
  · next hmintable => simp only [hmintable, true_and, Option.some.injEq, eq_comm]
  · next hmintable => simp only [hmintable, false_and, reduceCtorEq]

theorem entryAt_setMetadata (store : MetadataStore) (r : TokenMetadata) (k : String) :
    entryAt (setMetadata P store r) k =
      if P.toUppercase r.symbol = k then r.mintEntry else entryAt store k := by
  rw [entryAt, setMetadata, getElem?_insert_eq]
  split <;> rfl

theorem keys_setMetadata {store : MetadataStore} (r : TokenMetadata)
    (h : ∀ (k : String) (r : TokenMetadata), store[k]? = some r → P.toUppercase r.symbol = k) :
    ∀ (k : String) (r' : TokenMetadata), (setMetadata P store r)[k]? = some r' →
      P.toUppercase r'.symbol = k := by
  intro k r' hr
  rw [setMetadata, getElem?_insert_eq] at hr
  split at hr
  · next hk =>
    obtain rfl := Option.some.inj hr
    exact hk
  · exact h k r' hr

/-- Only the entries matter. -/
theorem MintLedger.Sound.set (h : l.Sound P f) (r : TokenMetadata)
    (hr : entryAt l.store (P.toUppercase r.symbol) = r.mintEntry) :
    MintLedger.Sound P { l with store := setMetadata P l.store r } f := by
  have hentry (k : String) : entryAt (setMetadata P l.store r) k = entryAt l.store k := by
    rw [entryAt_setMetadata]
    split
    · next hk => rw [← hk, hr]
    · rfl
  refine ⟨keys_setMetadata r h.keys, ?_, ?_⟩
  · intro k hk
    rw [hentry]
    exact h.uncreated k hk
  · intro k initial max hk
    simp only [hentry]
    exact h.created k initial max hk

theorem MintLedger.Fits.set {exec : Exec} (h : l.Fits P exec) (r : TokenMetadata)
    (hr : entryAt l.store (P.toUppercase r.symbol) = r.mintEntry) :
    MintLedger.Fits P { l with store := setMetadata P l.store r } exec := by
  cases exec with
  | adding sym amount r' =>
    obtain ⟨hsym, hcreated, e, he, hrest⟩ := h
    refine ⟨hsym, hcreated, e, ?_, hrest⟩
    rw [entryAt_setMetadata]
    split
    · next hk => rw [← hr, hk, he]
    · exact he
  | _ => exact h

/-- A write of a metadata call that keeps the entry. -/
theorem MintState.Inv.write (h : s.Inv P) {i : ℕ} {r : TokenMetadata}
    (hr : entryAt s.ledger.store (P.toUppercase r.symbol) = r.mintEntry) :
    MintState.Inv P { s with ledger.store := setMetadata P s.ledger.store r
                             calls := s.calls.eraseIdx i } :=
  ⟨h.now.set r hr, h.before, h.fits.set r hr⟩

variable (hupper : ∀ t, P.toUppercase (P.toUppercase t) = P.toUppercase t)

theorem mintEntry_createdMetadata {tx : TxV1} {mint : Option (UInt64 × UInt64)} {now : Int64} :
    (MintState.createdMetadata P tx mint now).mintEntry =
      mint.map fun m => ⟨some m.1, tx.payload.tokenMaxSupply, 0, some m.2⟩ := by
  cases mint <;> rfl

include hupper

theorem toUppercase_createdMetadata {tx : TxV1} {mint : Option (UInt64 × UInt64)} {now : Int64} :
    P.toUppercase (MintState.createdMetadata P tx mint now).symbol =
      canonSymbol P (tx.payload.tokenSymbol.getD "") := by
  rw [MintState.createdMetadata, newMetadata, hupper, canonSymbol, hupper]

omit hupper in
/-- The rule for a block that creates a mintable token. -/
theorem tokenMintingTxRule_max {tx : TxV1} (hkind : tx.kind = .createToken)
    (hrule : (tokenMintingTxRule tx).toBool = true) (hmintable : tx.payload.tokenMintable = some true)
    {m : UInt64} (hm : tx.payload.tokenMaxSupply = some m) :
    tx.payload.tokenTotalSupply.getD 0 ≤ m := by
  cases hok : tokenMintingTxRule tx with
  | error e =>
    rw [hok] at hrule
    cases hrule
  | ok u =>
    rw [tokenMintingTxRule] at hok
    simp only [hkind] at hok
    rw [if_neg (by rw [hmintable]; decide), if_pos hmintable] at hok
    obtain ⟨_, _, hok⟩ := bind_eq_ok.1 hok
    rw [hm, checkMaxSupply] at hok
    obtain ⟨_, _, hok⟩ := bind_eq_ok.1 hok
    exact require_eq_ok.1 hok

theorem MintState.Inv.create (h : s.Inv P) (hexec : s.exec = .between) {tx : TxV1} {xrgeBal : U128}
    {height : UInt64} (hkind : tx.kind = .createToken) (hrule : (tokenMintingTxRule tx).toBool = true) :
    (s.create P tx xrgeBal height).Inv P := by
  rw [MintState.create]
  split
  · exact h
  · next sym hsym =>
    split
    · exact h
    · next hfree =>
      have hnow := h.now
      rw [hexec] at hnow
      refine ⟨hnow, h.before, ?_, ?_⟩
      · -- a token that a block has made mintable has a record
        rw [hsym, Option.getD_some]
        by_contra hcreated
        obtain ⟨⟨initial, max⟩, hc⟩ := Option.ne_none_iff_exists'.1 hcreated
        obtain ⟨⟨e, he, -⟩, -⟩ := hnow.created _ initial max hc
        rw [Bool.not_eq_true, Option.isSome_eq_false_iff, Option.isNone_iff_eq_none, getMetadata,
          canonSymbol, hupper] at hfree
        rw [entryAt, canonSymbol, hfree] at he
        cases he
      · intro initial height' hmint m hm
        split at hmint
        · next hmintable =>
          obtain ⟨rfl, -⟩ := Prod.mk.inj (Option.some.inj hmint)
          exact tokenMintingTxRule_max hkind hrule hmintable.1 hm
        · cases hmint

theorem MintState.Inv.register (h : s.Inv P) {tx : TxV1} {mint : Option (UInt64 × UInt64)}
    {now : Int64} (hexec : s.exec = .creating tx mint) : (s.register P tx mint now).Inv P := by
  have hnow := h.now
  have hfits := h.fits
  rw [hexec] at hnow hfits
  obtain ⟨hfree, hmax⟩ := hfits
  have hkey : P.toUppercase (MintState.createdMetadata P tx mint now).symbol =
      canonSymbol P (tx.payload.tokenSymbol.getD "") := toUppercase_createdMetadata hupper
  obtain ⟨hnone, hzero⟩ := hnow.uncreated _ hfree
  have hentry (k : String) := entryAt_setMetadata (P := P) s.ledger.store
    (MintState.createdMetadata P tx mint now) k
  rw [hkey, mintEntry_createdMetadata] at hentry
  refine ⟨⟨keys_setMetadata _ hnow.keys, fun k hk => ?_, fun k initial max hk => ?_⟩, h.before,
    trivial⟩
  · -- the token itself is created, or its record is not mintable
    simp only [MintState.register, hentry] at hk ⊢
    cases mint with
    | none =>
      split
      · next heq => exact ⟨rfl, heq ▸ hzero⟩
      · exact hnow.uncreated k hk
    | some m =>
      rw [Option.elim_some, getElem?_insert_eq] at hk
      split at hk
      · cases hk
      · next hne =>
        rw [if_neg hne]
        exact hnow.uncreated k hk
  · simp only [MintState.register, hentry] at hk ⊢
    cases mint with
    | none =>
      have hne : canonSymbol P (tx.payload.tokenSymbol.getD "") ≠ k := fun heq => by
        rw [Option.elim_none, ← heq, hfree] at hk
        cases hk
      rw [if_neg hne]
      exact hnow.created k initial max hk
    | some m =>
      rw [Option.elim_some, getElem?_insert_eq] at hk
      split at hk
      · next heq =>
        obtain ⟨rfl, rfl⟩ := Prod.mk.inj (Option.some.inj hk)
        subst heq
        refine ⟨⟨_, if_pos rfl, rfl, rfl, hzero.symm⟩, fun max hmax' => ?_⟩
        rw [hzero]
        exact UInt64.le_iff_toNat_le.1 (hmax m.1 m.2 rfl max hmax')
      · next hne =>
        rw [if_neg hne]
        exact hnow.created k initial max hk

omit hupper in
/-- A mint that passes the rule: the token, what its counter says, and the cap. -/
theorem checkTokenMint_eq_ok {store : MetadataStore} {tx : TxV1} {xrgeBal : U128} {sym : String}
    {amount : UInt64} (h : checkTokenMint P store tx xrgeBal = .ok (sym, amount)) :
    ∃ sym₀, tx.payload.tokenSymbol = some sym₀ ∧ sym = canonSymbol P sym₀ ∧
      tx.payload.tokenTotalSupply.getD 0 = amount ∧ 0 < amount.toNat ∧ amount.toNat < 2 ^ 53 ∧
      xrgeF64ToQuanta tx.fee ≤ xrgeBal ∧ ∃ r, store[P.toUppercase sym]? = some r ∧
        r.consensusMintable = true ∧ ∀ initial, r.initialSupply = some initial →
          ∀ m, r.maxSupply = some m →
            initial.toNat + r.totalMinted.toNat + amount.toNat ≤ m.toNat := by
  obtain ⟨sym', hsym, h⟩ := bind_eq_ok.1 h
  obtain ⟨_, hpos, h⟩ := bind_eq_ok.1 h
  obtain ⟨_, hle, h⟩ := bind_eq_ok.1 h
  obtain ⟨r, hr, h⟩ := bind_eq_ok.1 h
  obtain ⟨_, _, h⟩ := bind_eq_ok.1 h
  obtain ⟨_, hmintable, h⟩ := bind_eq_ok.1 h
  obtain ⟨issued, hissued, h⟩ := bind_eq_ok.1 h
  obtain ⟨after, hafter, h⟩ := bind_eq_ok.1 h
  obtain ⟨_, hcap, h⟩ := bind_eq_ok.1 h
  obtain ⟨_, hfee, h⟩ := bind_eq_ok.1 h
  cases h
  replace hsym := (Option.filter_eq_some_iff.1 (ofOption_eq_ok.1 hsym)).1
  obtain ⟨sym₀, hsym₀, rfl⟩ := Option.map_eq_some_iff.1 hsym
  have hissued' := checkedAdd64_eq_some (ofOption_eq_ok.1 hissued)
  have hafter' := checkedAdd64_eq_some (ofOption_eq_ok.1 hafter)
  have hle' := UInt64.le_iff_toNat_le.1 (require_eq_ok.1 hle)
  refine ⟨sym₀, hsym₀, rfl, rfl, ?_, lt_of_le_of_lt hle' (by decide), require_eq_ok.1 hfee,
    r, ofOption_eq_ok.1 hr, require_eq_ok.1 hmintable, fun initial hi m hm => ?_⟩
  · exact Nat.pos_of_ne_zero fun hzero =>
      require_eq_ok.1 hpos (UInt64.toNat_inj.1 hzero)
  · rw [hm, checkCap] at hcap
    have hcap' := UInt64.le_iff_toNat_le.1 (require_eq_ok.1 hcap)
    rw [hi, Option.getD_some] at hissued'
    omega

omit hupper in
/-- What is credited is what was asked for: below `2 ^ 53` a float is exact. -/
theorem mintArm_eq {tx : TxV1} {xrgeBal : U128} {sym : String} {amount : UInt64}
    (hsym : tx.payload.tokenSymbol = some sym) (hamount : tx.payload.tokenTotalSupply.getD 0 = amount)
    (hpos : 0 < amount.toNat) (hlt : amount.toNat < 2 ^ 53)
    (hfee : xrgeF64ToQuanta tx.fee ≤ xrgeBal) :
    ∃ n, mintArm P tx xrgeBal = some (canonSymbol P sym, n) ∧ n.toNat = amount.toNat := by
  refine ⟨f64AsU128 (natAsF64 amount.toNat), ?_, ?_⟩
  · rw [mintArm, hsym, hamount]
    have hposf : ¬ natAsF64 amount.toNat ≤ 0 := Floats.not_ofNat_le_zero hpos hlt
    simp only [Option.bind_eq_bind, Option.bind_some, hposf, hfee, not_false_eq_true, guard_true]
    rfl
  · rw [f64AsU128, natAsF64, Floats.toInt_ofNat hlt, Int.toNat_natCast, BitVec.toNat_ofNat]
    omega

theorem MintState.Inv.mint (h : s.Inv P) (hexec : s.exec = .between) {tx : TxV1} {xrgeBal : U128} :
    (s.mint P tx xrgeBal).Inv P := by
  rw [MintState.mint]
  split
  · exact h
  · next sym amount hok =>
    obtain ⟨sym₀, hsym₀, hsym, hamount, hpos, hlt, hfee, r, hr, hmintable, hcap⟩ :=
      checkTokenMint_eq_ok hok
    obtain ⟨n, harm, hn⟩ := mintArm_eq (P := P) hsym₀ hamount hpos hlt hfee
    rw [← hsym] at harm
    have hnow := h.now
    rw [hexec] at hnow
    have hupperSym : P.toUppercase sym = sym := by rw [hsym, canonSymbol, hupper]
    rw [hupperSym] at hr
    have hentry : entryAt s.ledger.store sym = some ⟨r.initialSupply, r.maxSupply, r.totalMinted,
        r.mintEnabledHeight⟩ := by
      rw [entryAt, hr]
      exact if_pos hmintable
    have hcreated : s.ledger.created[sym]? ≠ none := fun hnone => by
      rw [(hnow.uncreated sym hnone).1] at hentry
      cases hentry
    have hcredited (k : String) : credited k (s.ledger.minted ++ (mintArm P tx xrgeBal).toList) =
        credited k s.ledger.minted + if sym = k then amount.toNat else 0 := by
      rw [credited_append, harm, Option.toList_some, credited, credited, List.map_singleton,
        List.sum_singleton, hn]
    refine ⟨⟨hnow.keys, fun k hk => ?_, fun k initial max hk => ?_⟩, h.before, hupperSym, hcreated⟩
    · have hne : sym ≠ k := fun heq => hcreated (heq ▸ hk)
      dsimp only
      rw [hcredited, if_neg hne]
      exact hnow.uncreated k hk
    · obtain ⟨⟨e, he, hi, hmax, htotal⟩, hbound⟩ := hnow.created k initial max hk
      dsimp only
      rw [hcredited]
      refine ⟨⟨e, he, hi, hmax, ?_⟩, fun m hm => ?_⟩
      · change e.totalMinted.toNat + (if sym = k then amount.toNat else 0) = _
        rw [← htotal]
        rfl
      · split
        · next heq =>
          subst heq
          rw [hentry] at he
          obtain rfl := Option.some.inj he
          have hle := hcap initial hi m (hmax.trans hm)
          change r.totalMinted.toNat + 0 = _ at htotal
          omega
        · exact hbound m hm

omit hupper in
theorem MintState.Inv.addMintedRead (h : s.Inv P) {sym : String} {amount : UInt64}
    (hexec : s.exec = .minting sym amount) : (s.addMintedRead P sym amount).Inv P := by
  have hnow := h.now
  have hfits := h.fits
  rw [hexec] at hnow hfits
  obtain ⟨hupperSym, hcreated⟩ := hfits
  obtain ⟨⟨initial, max⟩, hc⟩ := Option.ne_none_iff_exists'.1 hcreated
  obtain ⟨⟨e, he, -⟩, -⟩ := hnow.created sym initial max hc
  rw [MintState.addMintedRead]
  split
  · exact ⟨hnow, h.before, trivial⟩
  · next r hr =>
    split
    · exact ⟨hnow, h.before, trivial⟩
    · next total htotal =>
      rw [getMetadata, hupperSym] at hr
      have hentry : r.mintEntry = some e := by
        rw [← he, entryAt, hr]
        rfl
      obtain ⟨hmintable, rfl⟩ := mintEntry_eq_some.1 hentry
      exact ⟨hnow, h.before, hnow.keys sym r hr, hcreated, _, he, total, checkedAdd64_eq_some htotal,
        if_pos hmintable⟩

omit hupper in
theorem MintState.Inv.addMintedWrite (h : s.Inv P) {sym : String} {amount : UInt64}
    {r : TokenMetadata} (hexec : s.exec = .adding sym amount r) :
    MintState.Inv P { s with exec := .between, ledger.store := setMetadata P s.ledger.store r } := by
  have hnow := h.now
  have hfits := h.fits
  rw [hexec] at hnow hfits
  obtain ⟨hsym, hcreated, e, he, total, htotal, hr⟩ := hfits
  refine ⟨⟨keys_setMetadata r hnow.keys, fun k hk => ?_, fun k initial max hk => ?_⟩, h.before,
    trivial⟩
  · have hne : sym ≠ k := fun heq => hcreated (heq ▸ hk)
    rw [entryAt_setMetadata, hsym, if_neg hne]
    exact hnow.uncreated k hk
  · obtain ⟨⟨e', he', hi, hmax, hcount⟩, hbound⟩ := hnow.created k initial max hk
    refine ⟨?_, hbound⟩
    rw [entryAt_setMetadata, hsym]
    split
    · next heq =>
      subst heq
      rw [he] at he'
      obtain rfl := Option.some.inj he'
      refine ⟨_, hr, hi, hmax, ?_⟩
      change e.totalMinted.toNat + (if sym = sym then amount.toNat else 0) = _ at hcount
      rw [if_pos rfl] at hcount
      exact (Nat.add_zero _).trans (htotal.trans hcount)
    · next hne =>
      refine ⟨e', he', hi, hmax, ?_⟩
      change e'.totalMinted.toNat + (if sym = k then amount.toNat else 0) = _ at hcount
      rw [if_neg hne] at hcount
      exact hcount

theorem MintState.Inv.step (h : s.Inv P) {a : MintAction} (ha : s.keepsEntry P a = true) :
    (s.step P a).Inv P := by
  rw [MintState.step.eq_def]
  split
  · next hexec =>
    have hnow := h.now
    rw [hexec] at hnow
    exact ⟨hnow, hnow, trivial⟩
  · next hexec =>
    have hnow := h.now
    rw [hexec] at hnow
    exact ⟨hnow, h.before, trivial⟩
  · exact h
  · exact ⟨h.before, h.before, trivial⟩
  · next tx xrgeBal height hexec =>
    split
    · next hrule => exact h.create hupper hexec hrule.1 hrule.2
    · exact h
  · next now tx mint hexec => exact h.register hupper hexec
  · next tx xrgeBal hexec =>
    split
    · exact h.mint hupper hexec
    · exact h
  · next sym amount hexec => exact h.addMintedRead hexec
  · next sym amount r hexec => exact h.addMintedWrite hexec
  · -- a call that reads leaves the ledger and the block alone
    rw [MintState.update]
    split
    · exact h
    · split
      · exact ⟨h.now, h.before, h.fits⟩
      · exact h
  · rw [MintState.freeze]
    split
    · exact h
    · exact ⟨h.now, h.before, h.fits⟩
  · rw [MintState.claim]
    split_ifs
    · exact h
    · exact h
    · exact ⟨h.now, h.before, h.fits⟩
    · exact h
  · next i =>
    rw [MintState.keepsEntry] at ha
    split
    · next r hr =>
      rw [hr, Option.all_some] at ha
      exact h.write (eq_of_beq ha)
    · exact h
  · exact h

end Steps

/-- The store before any block has created a mintable token: every record is under its own symbol,
    and none was made mintable by a block. -/
def MetadataStore.Legacy (store : MetadataStore) : Prop :=
  ∀ (k : String) (r : TokenMetadata), store[k]? = some r →
    P.toUppercase r.symbol = k ∧ r.mintEnabledHeight = none

theorem inv_start {store : MetadataStore} (h : store.Legacy P) :
    MintState.Inv P { ledger := { store } } := by
  refine ⟨⟨fun k r hr => (h k r hr).1, fun k _ => ⟨?_, rfl⟩, fun k _ _ hk => ?_⟩,
    ⟨fun k r hr => ?_, fun _ _ => ⟨rfl, rfl⟩, fun k _ _ hk => ?_⟩, trivial⟩
  · rw [entryAt]
    cases hr : store[k]? with
    | none => rfl
    | some r =>
      rw [Option.bind_some, TokenMetadata.mintEntry, if_neg]
      rw [TokenMetadata.consensusMintable, (h k r hr).2]
      simp
  · exact nomatch hk
  · exact nomatch hr
  · exact nomatch hk

/-- In every interleaving of blocks and metadata calls in which no call changes a token's entry of
    the mint ledger, the counter of a token that a block has created mintable is what the accepted
    mints have credited, but for the one in progress, and with the initial supply that is within
    the cap. -/
theorem issuance_capped (hupper : ∀ t, P.toUppercase (P.toUppercase t) = P.toUppercase t)
    (store : MetadataStore) (hstore : store.Legacy P) (acts : List MintAction)
    (hkeeps : Runs.Along (MintState.step P) (fun s a => s.keepsEntry P a = true)
      { ledger := { store } } acts)
    (k : String) (initial : UInt64) (max : Option UInt64)
    (hcreated : (Runs.run (MintState.step P) { ledger := { store } } acts).ledger.created[k]? =
      some (initial, max)) :
    let s := Runs.run (MintState.step P) { ledger := { store } } acts
    (∃ r, s.ledger.store[k]? = some r ∧
      r.totalMinted.toNat + s.exec.inFlight k = credited k s.ledger.minted) ∧
    ∀ m, max = some m → initial.toNat + credited k s.ledger.minted ≤ m.toNat := by
  intro s
  have hinv : s.Inv P :=
    hkeeps.invariant (I := MintState.Inv P) (fun _ _ ha h => h.step hupper ha) (inv_start P hstore)
  obtain ⟨⟨e, he, -, -, htotal⟩, hbound⟩ := hinv.now.created k initial max hcreated
  refine ⟨?_, hbound⟩
  obtain ⟨r, hr, hentry⟩ := Option.bind_eq_some_iff.1 he
  obtain ⟨-, rfl⟩ := mintEntry_eq_some.1 hentry
  exact ⟨r, hr, htotal⟩

/-- A block with a token of 4 units and a cap of 10. -/
def cappedToken : List MintAction :=
  [.beginBlock,
    .create (localTx .createToken "alice" { tokenSymbol := some "qtok", tokenTotalSupply := some 4
                                            tokenMintable := some true
                                            tokenMaxSupply := some 10 }) 0 7,
    .register 100, .commitBlock]

/-- A block in which 6 units are minted. -/
def mintSix : List MintAction :=
  [.beginBlock,
    .mint (localTx .mintTokens "alice" { tokenSymbol := some "QTOK"
                                         tokenTotalSupply := some 6 }) 0,
    .addMintedRead, .addMintedWrite, .commitBlock]

def newImage : MintAction := .update "qtok" "alice" (some "q.png") none none none none 200

theorem toUppercase_local (t : String) : localEnv.toUppercase (localEnv.toUppercase t) =
    localEnv.toUppercase t := by
  simp only [localEnv, String.toList_ofList, List.map_map]
  refine congrArg String.ofList (List.map_congr_left fun c _ => ?_)
  exact Char.toUpper_toUpper_eq_toUpper c

/-- The token is minted up to its cap while its image is changed, before or after the mint. -/
theorem mintSix_capped :
    let s := Runs.run (MintState.step localEnv.toPlatform) {}
      (cappedToken ++ [newImage, .write 0] ++ mintSix ++ [newImage, .write 0] ++ mintSix)
    s.ledger.created["QTOK"]? = some (4, some 10) ∧ credited "QTOK" s.ledger.minted = 6 ∧
      4 + credited "QTOK" s.ledger.minted ≤ 10 := by
  have hcreated : (Runs.run (MintState.step localEnv.toPlatform) {}
      (cappedToken ++ [newImage, .write 0] ++ mintSix ++ [newImage, .write 0] ++
        mintSix)).ledger.created["QTOK"]? = some (4, some 10) := by decide +kernel
  refine ⟨hcreated, by decide +kernel, ?_⟩
  exact (issuance_capped localEnv.toPlatform toUppercase_local ∅ (fun _ _ h => nomatch h) _
    (by decide +kernel) "QTOK" 4 (some 10) hcreated).2 10 rfl

/-- A call writes back the record that it read before a mint: 6 units are minted twice, the counter
    knows of one mint, and 16 units exceed the cap of 10. -/
theorem cap_exceeded :
    let s := Runs.run (MintState.step localEnv.toPlatform) {}
      (cappedToken ++ [newImage] ++ mintSix ++ [.write 0] ++ mintSix)
    s.ledger.created["QTOK"]? = some (4, some 10) ∧ s.exec.inFlight "QTOK" = 0 ∧
      (s.ledger.store["QTOK"]?).map (·.totalMinted) = some 6 ∧
      credited "QTOK" s.ledger.minted = 12 := by
  decide +kernel

end RougeChain.Node
