import RougeChain.Library.Lines
import RougeChain.Library.Links
import RougeChain.Library.Runs
import RougeChain.Node.Encoding

/-!
# The signing journal

A validator signs a vote only after its slot, everything the vote says but the block, is locked to
the block in a file that nobody changes any more. The record is written to a temporary file, which
then gets the name of the slot by a hard link; whoever finds the slot taken reads it back.

Any number of processes share the directory, which may hold anything when they start. Their calls
are tasks that take one file operation at a time, in any order; an operation may fail, a write may
stop half way, and a process may be gone at any point.

* `VoteIntent.parse_record`: a record reads back as what was written;
* `Task.advance_good`: one operation of a task keeps what every task relies on;
* `journal_signs_once`: all votes ever signed for one slot are for the same block.
-/

open Fallible

namespace RougeChain.Finality

open Node

def prevote : String := "prevote"

def precommit : String := "precommit"

/-- There is one round only. -/
def onlyRound : UInt32 := 0

/-- Sixty-four lowercase hexadecimal digits. -/
def isHash (s : String) : Bool :=
  s.utf8ByteSize == 64 && s.toList.all fun c => c.isDigit || ('a' ≤ c && c ≤ 'f')

/-- The text of a vote. -/
def voteSigningText (chainId voteType : String) (height : UInt64) (round : UInt32)
    (blockHash : String) : List Char :=
  "ROUGECHAIN_FINALITY_VOTE_V2|chain=".toList ++ chainId.toList ++ "|type=".toList ++
    voteType.toList ++ "|height=".toList ++ Nat.toDigits 10 height.toNat ++ "|round=".toList ++
    Nat.toDigits 10 round.toNat ++ "|block=".toList ++ blockHash.toList

/-- What a validator signs. -/
def voteSigningMessage (chainId voteType : String) (height : UInt64) (round : UInt32)
    (blockHash : String) : List UInt8 :=
  Json.utf8 (voteSigningText chainId voteType height round blockHash)

/-! ## Intents and their records -/

inductive JournalError where
  | io (e : String)
  | equivocation (lockedBlockHash requestedBlockHash : String)
  | corrupt (reason : String)
  | badRequest (field : String)
  | sign (e : String)
  deriving DecidableEq

/-- What a vote commits to. -/
structure VoteIntent where
  chainId : String
  validatorPubKey : String
  voteType : String
  height : UInt64
  round : UInt32
  blockHash : String
  deriving DecidableEq

namespace VoteIntent

variable (sha256 : List UInt8 → Vector UInt8 32) (intent : VoteIntent)

def isAsciiHexdigit (c : Char) : Bool :=
  c.isDigit || ('a' ≤ c && c ≤ 'f') || ('A' ≤ c && c ≤ 'F')

def validate : Except JournalError Unit := do
  require (intent.voteType = prevote ∨ intent.voteType = precommit)
    (.badRequest "vote type")
  require (intent.round = onlyRound) (.badRequest "round")
  require (isHash intent.blockHash = true) (.badRequest "block hash")
  require (intent.chainId ≠ "" ∧ '\n' ∉ intent.chainId.toList ∧
    '|' ∉ intent.chainId.toList) (.badRequest "chain id")
  require (intent.validatorPubKey ≠ "" ∧
    intent.validatorPubKey.toList.all isAsciiHexdigit = true) (.badRequest "validator key")

def magic : List Char := "QVJ1".toList

/-- The slot is everything but the block. -/
def slotId : List Char :=
  (hexEncode (sha256 (Json.utf8 (magic ++ '|' :: intent.chainId.toList ++
    '|' :: intent.validatorPubKey.toList ++ '|' :: intent.voteType.toList ++
    '|' :: Nat.toDigits 10 intent.height.toNat ++
    '|' :: Nat.toDigits 10 intent.round.toNat))).toList).toList

/-- The number with zeros before it, of at least `w` digits. -/
def zeroPadded (w n : ℕ) : List Char :=
  List.replicate (w - (Nat.toDigits 10 n).length) '0' ++ Nat.toDigits 10 n

def slotName : List Char :=
  zeroPadded 20 intent.height.toNat ++ '-' :: intent.voteType.toList ++
    '-' :: (intent.slotId sha256).take 32 ++ ".vote".toList

/-- The name of a temporary file, by the process and its counter. -/
def tmpName (pid ctr : ℕ) : List Char :=
  ".tmp-".toList ++ Nat.toDigits 10 pid ++ '-' :: Nat.toDigits 10 ctr ++
    '-' :: (intent.slotId sha256).take 16

/-- A line of a record. -/
def keyLine (key : String) (value : List Char) : List Char := key.toList ++ '=' :: value

/-- The lines of a record before its checksum. -/
def bodyLines : List (List Char) :=
  [magic, keyLine "chain" intent.chainId.toList,
    keyLine "validator" intent.validatorPubKey.toList,
    keyLine "type" intent.voteType.toList,
    keyLine "height" (Nat.toDigits 10 intent.height.toNat),
    keyLine "round" (Nat.toDigits 10 intent.round.toNat),
    keyLine "block" intent.blockHash.toList]

def checksum (body : List Char) : List Char := (hexEncode (sha256 (Json.utf8 body)).toList).toList

def record : List Char :=
  let body := Text.unlines intent.bodyLines
  body ++ ("sha256=".toList ++ checksum sha256 body ++ ['\n'])

/-- What stands after the key and the equals sign. -/
def lineField (key : String) (line : List Char) : Option (List Char) := do
  let rest ← line.dropPrefix? key.toList
  rest.dropPrefix? ['=']

/-- The intent of a record, by its lines. -/
def ofLines : List (List Char) → Option VoteIntent
  | [first, chain, validator, type, height, round, block] => do
    guard (first = magic)
    let chainId ← lineField "chain" chain
    let validatorPubKey ← lineField "validator" validator
    let voteType ← lineField "type" type
    let heightText ← lineField "height" height
    let height ← Text.parseUnsigned 64 heightText
    let roundText ← lineField "round" round
    let round ← Text.parseUnsigned 32 roundText
    let blockHash ← lineField "block" block
    return {
      chainId := .ofList chainId
      validatorPubKey := .ofList validatorPubKey
      voteType := .ofList voteType
      height := .ofNat height
      round := .ofNat round
      blockHash := .ofList blockHash }
  | _ => none

def parse (text : List Char) : Option VoteIntent := do
  let n ← Text.rfind "sha256=".toList text
  let body := text.take n
  let tail ← (text.drop n).dropPrefix? "sha256=".toList
  let sum ← if tail.getLast? = some '\n' then some tail.dropLast else none
  guard (checksum sha256 body = sum)
  ofLines (Text.lines body)

/-! ### Records read back -/

variable {sha256} {intent : VoteIntent}

/-- What a valid intent says about its texts. -/
structure Valid (intent : VoteIntent) : Prop where
  voteType : intent.voteType = prevote ∨ intent.voteType = precommit
  round : intent.round = onlyRound
  blockHash : isHash intent.blockHash = true
  chainId : intent.chainId ≠ "" ∧ '\n' ∉ intent.chainId.toList ∧ '|' ∉ intent.chainId.toList
  validatorPubKey : intent.validatorPubKey.toList.all isAsciiHexdigit = true

theorem valid_of_validate {u : Unit} (h : intent.validate = .ok u) : intent.Valid := by
  obtain ⟨_, htype, h⟩ := bind_eq_ok.1 h
  obtain ⟨_, hround, h⟩ := bind_eq_ok.1 h
  obtain ⟨_, hblock, h⟩ := bind_eq_ok.1 h
  obtain ⟨_, hchain, h⟩ := bind_eq_ok.1 h
  rw [require_eq_ok] at htype hround hblock hchain h
  exact ⟨htype, hround, hblock, hchain, h.2⟩

theorem notMem_of_all {p : Char → Bool} {s : List Char} {c : Char} (h : s.all p = true)
    (hc : p c = false) : c ∉ s := fun hmem => by
  rw [List.all_eq_true] at h
  exact absurd (h c hmem) (by rw [hc]; decide)

/-- A text that is neither the end of a line nor a carriage return stands in none of the lines
    but that of the chain. -/
theorem Valid.notMem {c : Char} (h : intent.Valid) (hc : c = '\n' ∨ c = '\r') :
    c ∉ intent.validatorPubKey.toList ∧ c ∉ intent.voteType.toList ∧
      (∀ n, c ∉ Nat.toDigits 10 n) ∧ c ∉ intent.blockHash.toList := by
  have hblock : intent.blockHash.toList.all (fun c => c.isDigit || ('a' ≤ c && c ≤ 'f')) = true :=
    (Bool.and_eq_true_iff.1 h.blockHash).2
  refine ⟨notMem_of_all h.validatorPubKey ?_, ?_, fun n => Text.notMem_toDigits ?_ n,
    notMem_of_all hblock ?_⟩
  · rcases hc with rfl | rfl <;> decide
  · rcases h.voteType with htype | htype <;> rw [htype] <;> rcases hc with rfl | rfl <;> decide
  · rcases hc with rfl | rfl <;> decide
  · rcases hc with rfl | rfl <;> decide

theorem notMem_keyLine {c : Char} {key : String} {value : List Char} (hkey : c ∉ key.toList)
    (hc : c ≠ '=') (hvalue : c ∉ value) : c ∉ keyLine key value := by
  rw [keyLine, List.mem_append, List.mem_cons]
  tauto

@[simp]
theorem lineField_keyLine (key : String) (value : List Char) :
    lineField key (keyLine key value) = some value := by
  rw [lineField, keyLine, Text.dropPrefix?_append]
  exact Text.dropPrefix?_append ['='] value

theorem stripCr_keyLine {key : String} {value : List Char} (hvalue : value ≠ []) :
    Text.stripCr (keyLine key value) = keyLine key (Text.stripCr value) := by
  rw [keyLine, Text.stripCr_append _ (List.cons_ne_nil _ _), keyLine]
  exact congrArg (key.toList ++ ·) (Text.stripCr_append ['='] hvalue)

theorem lines_bodyLines (h : intent.Valid) :
    Text.lines (Text.unlines intent.bodyLines) =
      ({ intent with
        chainId := .ofList (Text.stripCr intent.chainId.toList) } : VoteIntent).bodyLines := by
  obtain ⟨hkey, htype, hdigits, hblock⟩ := h.notMem (c := '\n') (.inl rfl)
  obtain ⟨hkey', htype', hdigits', hblock'⟩ := h.notMem (c := '\r') (.inr rfl)
  have hchain : intent.chainId.toList ≠ [] := fun hnil =>
    h.chainId.1 (String.toList_eq_nil_iff.1 hnil)
  have hlines : ∀ l ∈ intent.bodyLines, '\n' ∉ l := by
    intro l hl
    simp only [bodyLines, List.mem_cons, List.not_mem_nil, or_false] at hl
    rcases hl with rfl | rfl | rfl | rfl | rfl | rfl | rfl
    · decide
    · exact notMem_keyLine (by decide) (by decide) h.chainId.2.1
    · exact notMem_keyLine (by decide) (by decide) hkey
    · exact notMem_keyLine (by decide) (by decide) htype
    · exact notMem_keyLine (by decide) (by decide) (hdigits _)
    · exact notMem_keyLine (by decide) (by decide) (hdigits _)
    · exact notMem_keyLine (by decide) (by decide) hblock
  -- only the line of the chain can end with a carriage return
  have hline {key : String} {value : List Char} (hkey : '\r' ∉ key.toList) (hvalue : '\r' ∉ value) :
      Text.stripCr (keyLine key value) = keyLine key value :=
    Text.stripCr_of_notMem (notMem_keyLine hkey (by decide) hvalue)
  rw [Text.lines_unlines hlines]
  simp only [bodyLines, List.map_cons, List.map_nil, String.toList_ofList]
  rw [stripCr_keyLine hchain, hline (by decide) hkey', hline (by decide) htype',
    hline (by decide) (hdigits' _), hline (by decide) (hdigits' _), hline (by decide) hblock']
  rfl

theorem ofLines_bodyLines (intent : VoteIntent) : ofLines intent.bodyLines = some intent := by
  rw [bodyLines, ofLines]
  simp only [guard_true, lineField_keyLine, Option.bind_eq_bind, Option.bind_some,
    Text.parseUnsigned_toDigits intent.height.toNat_lt,
    Text.parseUnsigned_toDigits intent.round.toNat_lt, String.ofList_toList, UInt64.ofNat_toNat,
    UInt32.ofNat_toNat]
  rfl

/-- A record reads back as what was written, up to a carriage return at the end of the chain id. -/
theorem parse_record (h : intent.Valid) :
    parse sha256 (intent.record sha256) =
      some { intent with chainId := .ofList (Text.stripCr intent.chainId.toList) } := by
  have hsum : 's' ∉ "ha256=".toList ++ (checksum sha256 (Text.unlines intent.bodyLines) ++ ['\n']) := by
    rw [List.mem_append, List.mem_append, not_or, not_or]
    exact ⟨by decide, notMem_hexEncode (by decide) _, by decide⟩
  have hfind := Text.rfind_append (Text.unlines intent.bodyLines) hsum
  have htail : "sha256=".toList ++ checksum sha256 (Text.unlines intent.bodyLines) ++ ['\n'] =
      's' :: ("ha256=".toList ++ (checksum sha256 (Text.unlines intent.bodyLines) ++ ['\n'])) := by
    rw [List.append_assoc]
    rfl
  have hword : "sha256=".toList = 's' :: "ha256=".toList := rfl
  rw [record, parse, htail, hword, hfind]
  simp only [Option.bind_eq_bind, Option.bind_some, List.take_left, List.drop_left]
  rw [← List.cons_append, Text.dropPrefix?_append, lines_bodyLines h, ofLines_bodyLines]
  simp

end VoteIntent

/-! ## Calls of `sign_vote` -/

/-- What became of the hard link. -/
inductive LinkOutcome where
  | linked
  | alreadyExists
  | err (e : String)
  deriving DecidableEq

/-- A signed vote, with the chain it was signed for. -/
structure SignedVote where
  intent : VoteIntent
  signature : String
  deriving DecidableEq

/-- The message that `sign_vote` returns. -/
def SignedVote.vote (v : SignedVote) : VoteMessage where
  voteType := v.intent.voteType
  height := v.intent.height
  round := v.intent.round
  blockHash := v.intent.blockHash
  voterPubKey := v.intent.validatorPubKey
  signature := v.signature

/-- How far a call is; each step is one file operation. -/
inductive JournalPhase where
  | called
  /-- The slot was not there. -/
  | absent
  | writing (handle : ℕ) (rest : List Char)
  | synced (handle : ℕ)
  | tried (handle : ℕ) (outcome : LinkOutcome)
  | removed (outcome : LinkOutcome)
  /-- The slot is there and will be read. -/
  | existing
  | locked
  | done (result : Except JournalError SignedVote)

structure Task where
  pid : ℕ
  ctr : ℕ
  intent : VoteIntent
  phase : JournalPhase

/-- What the operating system, or the signing library, answers. -/
inductive Answer where
  /-- The operation succeeds; a write has written `n` characters. -/
  | ok (n : ℕ)
  | signed (signature : String)
  | failed (e : String)

section Model

variable (sha256 : List UInt8 → Vector UInt8 32) (dir : String)

/-- The path as it is displayed. -/
def slotPath (name : List Char) : String :=
  if dir = "" ∨ dir.toList.getLast? = some '/' then dir ++ .ofList name
  else dir ++ "/" ++ .ofList name

def readSlot (path : String) (text : List Char) (want : VoteIntent) :
    Except JournalError VoteIntent := do
  let got ← ofOption (.corrupt (path ++ ": bad record or checksum"))
    (VoteIntent.parse sha256 text)
  require (got.slotId sha256 = want.slotId sha256)
    (.corrupt (path ++ ": record belongs to another slot"))
  return got

/-- Whether the slot is locked to the block of the intent. -/
def checkExisting (path : String) (text : List Char) (intent : VoteIntent) :
    Except JournalError Unit := do
  let got ← readSlot sha256 path text intent
  require (got.blockHash = intent.blockHash)
    (.equivocation got.blockHash intent.blockHash)

namespace Task

def tmp (t : Task) : List Char := t.intent.tmpName sha256 t.pid t.ctr

def slot (t : Task) : List Char := t.intent.slotName sha256

def fail (e : JournalError) : JournalPhase := .done (.error e)

/-- The next operation of the task, on the directory it finds. -/
def advance (d : Links (List Char)) (t : Task) : Answer → Links (List Char) × JournalPhase
  | .ok n =>
    match t.phase with
    | .called =>
      match t.intent.validate with
      | .error e => (d, fail e)
      | .ok _ => (d, if (d.entry (t.slot sha256)).isSome then .existing else .absent)
    | .absent =>
      match d.createNew (t.tmp sha256) with
      | none => (d, fail (.io "File exists (os error 17)"))
      | some d' => (d', .writing d.next (t.intent.record sha256))
    | .writing handle [] => (d, .synced handle)
    | .writing handle (c :: rest) =>
      (d.append handle ((c :: rest).take n), .writing handle ((c :: rest).drop n))
    | .synced handle =>
      if (d.entry (t.slot sha256)).isSome then (d, .tried handle .alreadyExists)
      else
        match d.link (t.tmp sha256) (t.slot sha256) with
        | none => (d, .tried handle (.err "No such file or directory (os error 2)"))
        | some d' => (d', .tried handle .linked)
    | .tried _ outcome => (d.remove (t.tmp sha256), .removed outcome)
    -- the directory is synced after the link
    | .removed .linked => (d, .locked)
    | .removed .alreadyExists => (d, .existing)
    | .removed (.err e) => (d, fail (.io e))
    | .existing =>
      let path := slotPath dir (t.slot sha256)
      match d.read (t.slot sha256) with
      | none => (d, fail (.corrupt (path ++ ": No such file or directory (os error 2)")))
      | some text =>
        match checkExisting sha256 path text t.intent with
        | .error e => (d, fail e)
        | .ok _ => (d, .locked)
    | .locked | .done _ => (d, t.phase)
  | .signed signature =>
    match t.phase with
    | .locked => (d, .done (.ok ⟨t.intent, signature⟩))
    | phase => (d, phase)
  | .failed e =>
    match t.phase with
    -- a failed look for the slot counts as not finding it
    | .called =>
      match t.intent.validate with
      | .error e => (d, fail e)
      | .ok _ => (d, .absent)
    | .absent | .writing .. => (d, fail (.io e))
    | .synced handle => (d, .tried handle (.err e))
    -- that the temporary file stays is ignored
    | .tried _ outcome => (d, .removed outcome)
    | .removed .linked => (d, fail (.io e))
    | .removed .alreadyExists => (d, .existing)
    | .removed (.err e) => (d, fail (.io e))
    | .existing => (d, fail (.corrupt (slotPath dir (t.slot sha256) ++ ": " ++ e)))
    | .locked => (d, fail (.sign e))
    | .done _ => (d, t.phase)

end Task

/-! ## Processes -/

/-- The directory, the calls that are under way or have returned, and every vote ever returned. -/
structure SigningJournal where
  disk : Links (List Char)
  tasks : ℕ → Option Task := fun _ => none
  signed : List SignedVote := []

inductive JournalAction where
  /-- Process `pid` calls `sign_vote`, with this value of its counter. -/
  | call (task pid ctr : ℕ) (intent : VoteIntent)
  | turn (task : ℕ) (answer : Answer)
  /-- A process is gone, with its calls. -/
  | crash (pid : ℕ)

namespace SigningJournal

/-- The vote that a call has just returned. -/
def returned : JournalPhase → List SignedVote
  | .done (.ok v) => [v]
  | _ => []

def step (j : SigningJournal) : JournalAction → SigningJournal
  | .call task pid ctr intent =>
    if (j.tasks task).isSome then j
    else { j with tasks := Function.update j.tasks task (some ⟨pid, ctr, intent, .called⟩) }
  | .turn task answer =>
    match j.tasks task with
    | none => j
    | some t =>
      let (disk, phase) := t.advance sha256 dir j.disk answer
      { disk
        tasks := Function.update j.tasks task (some { t with phase })
        signed := returned phase ++ j.signed }
  | .crash pid =>
    { j with tasks := fun n => (j.tasks n).filter (·.pid ≠ pid) }

end SigningJournal

/-! ## What the tasks rely on -/

/-- The slot is there and locked to the block of the intent. -/
def Settled (d : Links (List Char)) (intent : VoteIntent) : Prop :=
  intent.Valid ∧ ∃ text got, d.read (intent.slotName sha256) = some text ∧
    VoteIntent.parse sha256 text = some got ∧ got.blockHash = intent.blockHash

/-- The file a task has made and not yet given up. -/
def JournalPhase.handle : JournalPhase → Option ℕ
  | .writing i _ | .synced i | .tried i _ => some i
  | _ => none

/-- What a task relies on at each point: its temporary file `tmp` is its own and holds its record,
    which nobody can read as a slot before it is complete; a slot it has locked is locked. -/
def JournalPhase.Good (d : Links (List Char)) (tmp : List Char) (intent : VoteIntent) :
    JournalPhase → Prop
  | .called => True
  | .absent | .existing => intent.Valid
  | .writing i rest => intent.Valid ∧ d.entry tmp = some i ∧
      (∀ p, d.entry p = some i → p = tmp) ∧ d.data i ++ rest = intent.record sha256
  | .synced i => intent.Valid ∧ d.entry tmp = some i ∧ d.data i = intent.record sha256
  | .tried i outcome => intent.Valid ∧ d.entry tmp = some i ∧
      (outcome = .linked → Settled sha256 d intent)
  | .removed outcome => intent.Valid ∧ (outcome = .linked → Settled sha256 d intent)
  | .locked => Settled sha256 d intent
  | .done (.ok v) => v.intent = intent ∧ Settled sha256 d intent
  | .done (.error _) => True

variable {sha256 dir} {d d' : Links (List Char)} {t : Task} {intent : VoteIntent}

theorem VoteIntent.isDigit_of_mem_zeroPadded {w n : ℕ} {c : Char} (hc : c ∈ zeroPadded w n) :
    c.isDigit = true := by
  rcases List.mem_append.1 hc with hc | hc
  · rw [List.eq_of_mem_replicate hc]
    rfl
  · exact Nat.isDigit_of_mem_toDigits (by decide) le_rfl hc

/-- No slot has the name of a temporary file. -/
theorem VoteIntent.slotName_ne_tmpName (intent intent' : VoteIntent) (pid ctr : ℕ) :
    intent.slotName sha256 ≠ intent'.tmpName sha256 pid ctr := by
  intro h
  have hne : zeroPadded 20 intent.height.toNat ≠ [] := by
    rw [zeroPadded]
    exact List.append_ne_nil_of_right_ne_nil _ Nat.toDigits_ne_nil
  obtain ⟨c, cs, hcs⟩ := List.exists_cons_of_ne_nil hne
  have hdigit : c.isDigit = true := isDigit_of_mem_zeroPadded (hcs ▸ List.mem_cons_self)
  have hdot : c = '.' := by
    rw [slotName, hcs] at h
    exact (List.cons.inj h).1
  rw [hdot] at hdigit
  exact absurd hdigit (by decide)

theorem Settled.kept {mine : ℕ} (h : Settled sha256 d intent)
    (hkept : Links.Kept d d' (t.tmp sha256) mine) : Settled sha256 d' intent := by
  obtain ⟨hvalid, text, got, hread, hparse, hblock⟩ := h
  exact ⟨hvalid, text, got, hkept.read (VoteIntent.slotName_ne_tmpName intent t.intent _ _) hread, hparse,
    hblock⟩

/-- What a task relies on is left alone by a task with another file. -/
theorem JournalPhase.Good.kept {tmp : List Char} {phase : JournalPhase} {mine : ℕ}
    (h : phase.Good sha256 d tmp intent) (hkept : Links.Kept d d' (t.tmp sha256) mine)
    (hmine : ∀ i, phase.handle = some i → i ≠ mine) : phase.Good sha256 d' tmp intent := by
  cases phase with
  | called => trivial
  | absent => exact h
  | existing => exact h
  | writing i rest =>
    obtain ⟨hvalid, htmp, honly, hdata⟩ := h
    have hi := hmine i rfl
    refine ⟨hvalid, hkept.entry _ i htmp (.inl hi), fun p hp => ?_, ?_⟩
    · exact honly p (hkept.entry_of_ne p i hp hi)
    · rw [hkept.data_of_ne i (d.entry_lt _ i htmp) hi]
      exact hdata
  | synced i =>
    obtain ⟨hvalid, htmp, hdata⟩ := h
    have hi := hmine i rfl
    refine ⟨hvalid, hkept.entry _ i htmp (.inl hi), ?_⟩
    rw [hkept.data_of_ne i (d.entry_lt _ i htmp) hi]
    exact hdata
  | tried i outcome =>
    obtain ⟨hvalid, htmp, hsettled⟩ := h
    exact ⟨hvalid, hkept.entry _ i htmp (.inl (hmine i rfl)), fun ho => (hsettled ho).kept hkept⟩
  | removed outcome => exact ⟨h.1, fun ho => (h.2 ho).kept hkept⟩
  | locked => exact Settled.kept h hkept
  | done result =>
    cases result with
    | ok v => exact ⟨h.1, h.2.kept hkept⟩
    | error e => trivial

/-- What one operation of a task does: it touches no file but the task's own, which is new or the
    one it had, and what the task relies on from now on holds. -/
structure Advanced (sha256 : List UInt8 → Vector UInt8 32) (d : Links (List Char)) (t : Task)
    (d' : Links (List Char)) (phase : JournalPhase) (mine : ℕ) : Prop where
  kept : Links.Kept d d' (t.tmp sha256) mine
  mine_eq : t.phase.handle = some mine ∨ mine = d.next
  handle_eq : ∀ i, phase.handle = some i → i = mine
  good : phase.Good sha256 d' (t.tmp sha256) t.intent

/-- An operation that changes no file. -/
theorem Advanced.idle {phase : JournalPhase} (hhandle : phase.handle = t.phase.handle ∨
    phase.handle = none) (hgood : phase.Good sha256 d (t.tmp sha256) t.intent) :
    ∃ mine, Advanced sha256 d t d phase mine := by
  cases hold : t.phase.handle with
  | none =>
    refine ⟨d.next, .refl .., .inr rfl, fun i hi => ?_, hgood⟩
    rcases hhandle with hhandle | hhandle <;> rw [hhandle] at hi
    · rw [hold] at hi
      cases hi
    · cases hi
  | some mine =>
    refine ⟨mine, .refl .., .inl hold, fun i hi => ?_, hgood⟩
    rcases hhandle with hhandle | hhandle <;> rw [hhandle] at hi
    · rw [hold] at hi
      exact (Option.some.inj hi).symm
    · cases hi

/-- After the link the slot holds the complete record. -/
theorem read_link {i : ℕ} (htmp : d.entry (t.tmp sha256) = some i)
    (hdata : d.data i = t.intent.record sha256)
    (hlink : d.link (t.tmp sha256) (t.slot sha256) = some d') :
    d'.read (t.intent.slotName sha256) = some (t.intent.record sha256) := by
  obtain ⟨-, hentry, hsame⟩ := Links.link_eq_some hlink htmp
  rw [Links.read, hentry]
  change (Function.update d.entry (t.slot sha256) (some i) (t.slot sha256)).map d'.data = _
  rw [Function.update_self, Option.map_some, hsame, hdata]

/-- What a slot that was read back and accepted says. -/
theorem checkExisting_eq_ok {path : String} {text : List Char} {u : Unit}
    (h : checkExisting sha256 path text intent = .ok u) :
    ∃ got, VoteIntent.parse sha256 text = some got ∧ got.slotId sha256 = intent.slotId sha256 ∧
      got.blockHash = intent.blockHash := by
  obtain ⟨got, hgot, hblock⟩ := bind_eq_ok.1 h
  obtain ⟨got', hparse, hslot⟩ := bind_eq_ok.1 hgot
  obtain ⟨_, hid, hreturn⟩ := bind_eq_ok.1 hslot
  rw [ofOption_eq_ok] at hparse
  rw [require_eq_ok] at hid hblock
  obtain rfl := Except.ok.inj hreturn
  exact ⟨got', hparse, hid, hblock⟩

/-- What one operation of a task can be, whether it succeeds or fails. -/
inductive Task.Moves (sha256 : List UInt8 → Vector UInt8 32) (d : Links (List Char)) (t : Task) :
    Links (List Char) → JournalPhase → Prop
  | stays : Moves sha256 d t d t.phase
  | fails (e : JournalError) : Moves sha256 d t d (fail e)
  | looks {phase : JournalPhase} (hvalid : t.intent.Valid)
      (hphase : phase = .existing ∨ phase = .absent) : Moves sha256 d t d phase
  | creates {d' : Links (List Char)} (hphase : t.phase = .absent)
      (hcreate : d.createNew (t.tmp sha256) = some d') :
      Moves sha256 d t d' (.writing d.next (t.intent.record sha256))
  | writes {i : ℕ} {rest : List Char} (n : ℕ) (hphase : t.phase = .writing i rest) :
      Moves sha256 d t (d.append i (rest.take n)) (.writing i (rest.drop n))
  | syncs {i : ℕ} (hphase : t.phase = .writing i []) : Moves sha256 d t d (.synced i)
  | links {i : ℕ} {d' : Links (List Char)} (hphase : t.phase = .synced i)
      (hlink : d.link (t.tmp sha256) (t.slot sha256) = some d') :
      Moves sha256 d t d' (.tried i .linked)
  | tries {i : ℕ} {outcome : LinkOutcome} (hphase : t.phase = .synced i)
      (hnot : outcome ≠ .linked) : Moves sha256 d t d (.tried i outcome)
  | removes {i : ℕ} {outcome : LinkOutcome} {d' : Links (List Char)}
      (hphase : t.phase = .tried i outcome) (hd : d' = d ∨ d' = d.remove (t.tmp sha256)) :
      Moves sha256 d t d' (.removed outcome)
  | reads (hphase : t.phase = .removed .alreadyExists) : Moves sha256 d t d .existing
  | locks (hphase : t.phase = .removed .linked) : Moves sha256 d t d .locked
  | finds {path : String} {text : List Char} {u : Unit} (hphase : t.phase = .existing)
      (hread : d.read (t.slot sha256) = some text)
      (hcheck : checkExisting sha256 path text t.intent = .ok u) : Moves sha256 d t d .locked
  | signs (signature : String) (hphase : t.phase = .locked) :
      Moves sha256 d t d (.done (.ok ⟨t.intent, signature⟩))

theorem Task.advance_moves (dir : String) (d : Links (List Char)) (t : Task) (answer : Answer) :
    Moves sha256 d t (t.advance sha256 dir d answer).1 (t.advance sha256 dir d answer).2 := by
  obtain ⟨pid, ctr, intent, phase⟩ := t
  cases answer with
  | ok n =>
    rcases phase with _ | _ | ⟨i, _ | ⟨c, rest⟩⟩ | i | ⟨i, outcome⟩ | (_ | _ | e) | _ | _ | result
    · simp only [advance]
      split
      · exact .fails _
      next hvalid =>
        refine .looks (VoteIntent.valid_of_validate hvalid) ?_
        split
        · exact .inl rfl
        · exact .inr rfl
    · simp only [advance]
      split
      · exact .fails _
      next hcreate => exact .creates rfl hcreate
    · exact .syncs rfl
    · exact .writes n rfl
    · simp only [advance]
      split
      · exact .tries rfl (by decide)
      · split
        · exact .tries rfl (by decide)
        next hlink => exact .links rfl hlink
    · exact .removes rfl (.inr rfl)
    · exact .locks rfl
    · exact .reads rfl
    · exact .fails _
    · simp only [advance]
      split
      · exact .fails _
      next hread =>
        split
        · exact .fails _
        next hcheck => exact .finds rfl hread hcheck
    · exact .stays
    · exact .stays
  | signed signature =>
    rw [advance]
    split
    next hphase => exact .signs signature hphase
    · exact .stays
  | failed e =>
    rcases phase with _ | _ | _ | i | ⟨i, outcome⟩ | (_ | _ | e') | _ | _ | result
    · simp only [advance]
      split
      · exact .fails _
      next hvalid => exact .looks (VoteIntent.valid_of_validate hvalid) (.inr rfl)
    · exact .fails _
    · exact .fails _
    · exact .tries rfl nofun
    · exact .removes rfl (.inl rfl)
    · exact .fails _
    · exact .reads rfl
    · exact .fails _
    · exact .fails _
    · exact .fails _
    · exact .stays

/-- One operation of a task keeps what every task relies on. -/
theorem Task.Moves.good {phase : JournalPhase} (hmove : t.Moves sha256 d d' phase)
    (h : t.phase.Good sha256 d (t.tmp sha256) t.intent) :
    ∃ mine, Advanced sha256 d t d' phase mine := by
  cases hmove with
  | stays => exact Advanced.idle (.inl rfl) h
  | fails e => exact Advanced.idle (.inr rfl) trivial
  | looks hvalid hphase =>
    rcases hphase with rfl | rfl
    · exact Advanced.idle (.inr rfl) hvalid
    · exact Advanced.idle (.inr rfl) hvalid
  | creates hphase hcreate =>
    rw [hphase] at h
    obtain ⟨hfree, hentry, hdata⟩ := Links.createNew_eq_some hcreate
    refine ⟨d.next, Links.kept_createNew hcreate, .inr rfl, fun i hi => (Option.some.inj hi).symm,
      h, ?_, fun p hp => ?_, ?_⟩
    · rw [hentry, Function.update_self]
    · -- no old name points to a file that has never been used
      rw [hentry, Function.update_apply] at hp
      split at hp
      next hptmp => exact hptmp
      · exact absurd (d.entry_lt p _ hp) (Nat.lt_irrefl _)
    · rw [hdata, Function.update_self, List.nil_append]
  | @writes i rest n hphase =>
    rw [hphase] at h
    obtain ⟨hvalid, htmp, honly, hdata⟩ := h
    refine ⟨i, Links.kept_append _ honly, .inl (hphase ▸ rfl),
      fun j hj => (Option.some.inj hj).symm, hvalid, htmp, honly, ?_⟩
    rw [← hdata, Links.append]
    change Function.update d.data i _ i ++ _ = _
    rw [Function.update_self, List.append_assoc, List.take_append_drop]
  | syncs hphase =>
    rw [hphase] at h
    obtain ⟨hvalid, htmp, -, hdata⟩ := h
    rw [List.append_nil] at hdata
    exact Advanced.idle (.inl (hphase ▸ rfl)) ⟨hvalid, htmp, hdata⟩
  | @links i _ hphase hlink =>
    rw [hphase] at h
    obtain ⟨hvalid, htmp, hdata⟩ := h
    have hkept := Links.kept_link hlink htmp
    refine ⟨i, hkept _, .inl (hphase ▸ rfl), fun j hj => (Option.some.inj hj).symm, hvalid, ?_,
      fun _ => ⟨hvalid, _, _, read_link htmp hdata hlink, VoteIntent.parse_record hvalid, rfl⟩⟩
    exact (hkept (t.slot sha256)).entry _ _ htmp
      (.inr (VoteIntent.slotName_ne_tmpName t.intent t.intent _ _).symm)
  | tries hphase hnot =>
    rw [hphase] at h
    exact Advanced.idle (.inl (hphase ▸ rfl)) ⟨h.1, h.2.1, fun ho => absurd ho hnot⟩
  | @removes i outcome _ hphase hd =>
    rw [hphase] at h
    rcases hd with rfl | rfl
    · exact Advanced.idle (.inr rfl) ⟨h.1, h.2.2⟩
    · have hkept := Links.kept_remove h.2.1
      refine ⟨i, hkept, .inl (hphase ▸ rfl), fun j hj => ?_, h.1, fun ho => (h.2.2 ho).kept hkept⟩
      cases hj
  | reads hphase =>
    rw [hphase] at h
    exact Advanced.idle (.inr rfl) h.1
  | locks hphase =>
    rw [hphase] at h
    exact Advanced.idle (.inr rfl) (h.2 rfl)
  | finds hphase hread hcheck =>
    rw [hphase] at h
    obtain ⟨got, hparse, -, hblock⟩ := checkExisting_eq_ok hcheck
    exact Advanced.idle (.inr rfl) ⟨h, _, got, hread, hparse, hblock⟩
  | signs signature hphase =>
    rw [hphase] at h
    exact Advanced.idle (.inr rfl) ⟨rfl, h⟩

theorem Task.advance_good (answer : Answer) (h : t.phase.Good sha256 d (t.tmp sha256) t.intent) :
    ∃ mine, Advanced sha256 d t (t.advance sha256 dir d answer).1
      (t.advance sha256 dir d answer).2 mine :=
  (advance_moves dir d t answer).good h

namespace SigningJournal

variable {j : SigningJournal}

/-- What holds of the journal all along: every task can rely on what it relies on, no two have made
    the same file, and every vote that was returned is one its slot is locked to. -/
structure Inv (sha256 : List UInt8 → Vector UInt8 32) (j : SigningJournal) : Prop where
  good : ∀ n t, j.tasks n = some t → t.phase.Good sha256 j.disk (t.tmp sha256) t.intent
  distinct : ∀ m n t u i, j.tasks m = some t → j.tasks n = some u → t.phase.handle = some i →
    u.phase.handle = some i → m = n
  signed : ∀ v ∈ j.signed, Settled sha256 j.disk v.intent

theorem Inv.start (d : Links (List Char)) : Inv sha256 { disk := d } where
  good _ _ h := by cases h
  distinct _ _ _ _ _ h := by cases h
  signed _ h := by cases h

theorem update_eq_some {f : ℕ → Option Task} {m n : ℕ} {u : Task}
    (h : Function.update f n (some t) m = some u) : (m = n ∧ t = u) ∨ (m ≠ n ∧ f m = some u) := by
  rw [Function.update_apply] at h
  split at h
  next hmn => exact .inl ⟨hmn, Option.some.inj h⟩
  next hmn => exact .inr ⟨hmn, h⟩

/-- A file that a task has made is not new. -/
theorem Inv.handle_lt (hinv : Inv sha256 j) {n i : ℕ} (ht : j.tasks n = some t)
    (hi : t.phase.handle = some i) : i < j.disk.next := by
  have hgood := hinv.good n t ht
  have hentry : j.disk.entry (t.tmp sha256) = some i := by
    cases hphase : t.phase <;> rw [hphase] at hi hgood <;> cases hi
    · exact hgood.2.1
    · exact hgood.2.1
    · exact hgood.2.1
  exact j.disk.entry_lt _ i hentry

/-- The file that an operation touches is no other task's. -/
theorem Inv.handle_ne (hinv : Inv sha256 j) {m n mine i : ℕ} {u : Task} {phase : JournalPhase}
    (ht : j.tasks n = some t) (hu : j.tasks m = some u) (hmn : m ≠ n)
    (hadv : Advanced sha256 j.disk t d' phase mine) (hi : u.phase.handle = some i) : i ≠ mine := by
  rintro rfl
  rcases hadv.mine_eq with hmine | hmine
  · exact hmn (hinv.distinct m n u t i hu ht hi hmine)
  · exact (hinv.handle_lt hu hi).ne hmine

/-- One operation of one task. -/
theorem Inv.turn (hinv : Inv sha256 j) {n mine : ℕ} {phase : JournalPhase}
    (ht : j.tasks n = some t) (hadv : Advanced sha256 j.disk t d' phase mine) :
    Inv sha256 {
      disk := d'
      tasks := Function.update j.tasks n (some { t with phase })
      signed := returned phase ++ j.signed } where
  good m u hu := by
    obtain ⟨-, rfl⟩ | ⟨hmn, hu⟩ := update_eq_some hu
    · exact hadv.good
    · exact (hinv.good m u hu).kept hadv.kept fun i hi => hinv.handle_ne ht hu hmn hadv hi
  distinct m k u v i hu hv hi hi' := by
    obtain ⟨hm, rfl⟩ | ⟨hm, hu⟩ := update_eq_some hu <;>
      obtain ⟨hk, rfl⟩ | ⟨hk, hv⟩ := update_eq_some hv
    · rw [hm, hk]
    · exact absurd (hadv.handle_eq i hi) (hinv.handle_ne ht hv hk hadv hi')
    · exact absurd (hadv.handle_eq i hi') (hinv.handle_ne ht hu hm hadv hi)
    · exact hinv.distinct m k u v i hu hv hi hi'
  signed v hv := by
    rcases List.mem_append.1 hv with hv | hv
    · -- a vote is returned by a task whose slot is locked
      have hgood := hadv.good
      cases phase with
      | done result =>
        cases result with
        | ok w =>
          obtain rfl := List.mem_singleton.1 hv
          rw [hgood.1]
          exact hgood.2
        | error e => cases hv
      | _ => cases hv
    · exact (hinv.signed v hv).kept hadv.kept

theorem Inv.step (hinv : Inv sha256 j) (a : JournalAction) : Inv sha256 (j.step sha256 dir a) := by
  cases a with
  | call n pid ctr intent =>
    rw [SigningJournal.step]
    split
    · exact hinv
    · refine ⟨fun m u hu => ?_, fun m k u v i hu hv hi hi' => ?_, hinv.signed⟩
      · obtain ⟨-, rfl⟩ | ⟨-, hu⟩ := update_eq_some hu
        · trivial
        · exact hinv.good m u hu
      · obtain ⟨-, rfl⟩ | ⟨-, hu⟩ := update_eq_some hu
        · cases hi
        obtain ⟨-, rfl⟩ | ⟨-, hv⟩ := update_eq_some hv
        · cases hi'
        · exact hinv.distinct m k u v i hu hv hi hi'
  | turn n answer =>
    rw [SigningJournal.step]
    split
    · exact hinv
    next t ht =>
      obtain ⟨mine, hadv⟩ : ∃ mine, Advanced sha256 j.disk t
          (t.advance sha256 dir j.disk answer).1 (t.advance sha256 dir j.disk answer).2 mine :=
        Task.advance_good answer (hinv.good n t ht)
      exact hinv.turn ht hadv
  | crash pid =>
    have hold : ∀ n t, (j.tasks n).filter (·.pid ≠ pid) = some t → j.tasks n = some t :=
      fun n t h => (Option.filter_eq_some_iff.1 h).1
    exact ⟨fun n t h => hinv.good n t (hold n t h), fun m n t u i hm hn =>
      hinv.distinct m n t u i (hold m t hm) (hold n u hn), hinv.signed⟩

theorem Inv.run (d : Links (List Char)) (acts : List JournalAction) :
    Inv sha256 (Runs.run (SigningJournal.step sha256 dir) { disk := d } acts) := by
  induction acts using List.reverseRecOn with
  | nil => exact Inv.start d
  | append_singleton acts a ih =>
    rw [Runs.run_append]
    exact ih.step a

/-- Votes for one slot are for the same block. -/
theorem Inv.block_unique (hinv : Inv sha256 j) {v v' : SignedVote} (hv : v ∈ j.signed)
    (hv' : v' ∈ j.signed) (hslot : v.intent.slotName sha256 = v'.intent.slotName sha256) :
    v.intent.blockHash = v'.intent.blockHash := by
  obtain ⟨-, text, got, hread, hparse, hblock⟩ := hinv.signed v hv
  obtain ⟨-, text', got', hread', hparse', hblock'⟩ := hinv.signed v' hv'
  rw [hslot, hread'] at hread
  obtain rfl := Option.some.inj hread
  rw [hparse'] at hparse
  obtain rfl := Option.some.inj hparse
  exact hblock.symm.trans hblock'

end SigningJournal

theorem VoteIntent.slotName_congr {intent' : VoteIntent} (hchain : intent.chainId = intent'.chainId)
    (hkey : intent.validatorPubKey = intent'.validatorPubKey)
    (htype : intent.voteType = intent'.voteType) (hheight : intent.height = intent'.height)
    (hround : intent.round = intent'.round) :
    intent.slotName sha256 = intent'.slotName sha256 := by
  rw [slotName, slotName, slotId, slotId, hchain, hkey, htype, hheight, hround]

/-- All votes ever returned for one chain, key, type, height and round are for the same block,
    whatever the directory held and in whatever order the processes took their steps. -/
theorem journal_signs_once (sha256 : List UInt8 → Vector UInt8 32) (dir : String)
    (d : Links (List Char)) (acts : List JournalAction) {v v' : SignedVote}
    (hv : v ∈ (Runs.run (SigningJournal.step sha256 dir) { disk := d } acts).signed)
    (hv' : v' ∈ (Runs.run (SigningJournal.step sha256 dir) { disk := d } acts).signed)
    (hchain : v.intent.chainId = v'.intent.chainId)
    (hkey : v.intent.validatorPubKey = v'.intent.validatorPubKey)
    (htype : v.intent.voteType = v'.intent.voteType) (hheight : v.intent.height = v'.intent.height)
    (hround : v.intent.round = v'.intent.round) : v.intent.blockHash = v'.intent.blockHash :=
  (SigningJournal.Inv.run d acts).block_unique hv hv'
    (VoteIntent.slotName_congr hchain hkey htype hheight hround)

/-- A directory without files. -/
def emptyDisk : Links (List Char) := ⟨fun _ => none, fun _ => [], 0, fun _ _ h => by cases h⟩

def sampleIntent : VoteIntent where
  chainId := "rougechain-devnet-1"
  validatorPubKey := "ab"
  voteType := "precommit"
  height := 7
  round := 0
  blockHash := .ofList (List.replicate 64 'a')

/-- Two processes find the slot free; one wins the link, the other reads it back. -/
def sampleRace : List JournalAction :=
  [.call 0 1 0 sampleIntent, .call 1 2 0 sampleIntent, .turn 0 (.ok 0), .turn 1 (.ok 0),
    .turn 0 (.ok 0), .turn 0 (.ok 9), .turn 0 (.ok 999), .turn 0 (.ok 0),
    .turn 1 (.ok 0), .turn 1 (.ok 999), .turn 1 (.ok 0),
    .turn 0 (.ok 0), .turn 1 (.ok 0), .turn 0 (.ok 0), .turn 0 (.ok 0), .turn 0 (.signed "s"),
    .turn 1 (.ok 0), .turn 1 (.ok 0), .turn 1 (.ok 0), .turn 1 (.signed "t")]

/-- The journal after the race. -/
def raced : SigningJournal :=
  Runs.run (SigningJournal.step (fun _ => .replicate 32 0) "journal") { disk := emptyDisk } sampleRace

theorem signed_raced : raced.signed = [⟨sampleIntent, "t"⟩, ⟨sampleIntent, "s"⟩] := by
  decide +kernel

theorem sampleRace_signs_once :
    ∃ v ∈ raced.signed, ∃ v' ∈ raced.signed,
      v.signature ≠ v'.signature ∧ v.intent.blockHash = v'.intent.blockHash := by
  have hv : ⟨sampleIntent, "s"⟩ ∈ raced.signed := by simp [signed_raced]
  have hv' : ⟨sampleIntent, "t"⟩ ∈ raced.signed := by simp [signed_raced]
  exact ⟨_, hv, _, hv', by decide, journal_signs_once _ _ _ _ hv hv' rfl rfl rfl rfl rfl⟩

end Model

end RougeChain.Finality
