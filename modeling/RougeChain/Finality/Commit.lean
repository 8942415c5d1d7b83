import RougeChain.Finality.Journal

/-!
# Signing again

A vote that was journaled and never left the node is signed again after a restart: `commit` finds
the slot taken, reads the record back and sees that it is its own. `commit` is the function here, on
a directory whose operations succeed; before it, any number of processes may have used the directory
in any way the journal allows.

* `SigningJournal.Slotted.run`: once `commit` has returned, what the slot holds reads back as a
  record of this slot and block, whatever happens next;
* `journaled_vote_resigned_iff`: so the vote can be signed again and no other can, if and only if the
  chain id does not end with a carriage return, which `lines` takes off when the record is read.
-/

open Fallible

namespace RougeChain.Finality

open Node

inductive Commit where
  /-- The slot was free and is now locked to the block. -/
  | locked
  /-- The same intent was journaled before. -/
  | alreadyLocked
  deriving DecidableEq

section Model

variable (sha256 : List UInt8 → Vector UInt8 32) (dir : String)

/-- Lock the slot to the block of the intent, on a directory whose operations succeed. -/
def commit (d : Links (List Char)) (pid ctr : ℕ) (intent : VoteIntent) :
    Links (List Char) × Except JournalError Commit :=
  let slot := intent.slotName sha256
  let tmp := intent.tmpName sha256 pid ctr
  match intent.validate with
  | .error e => (d, .error e)
  | .ok _ =>
    match d.read slot with
    | some text =>
      (d, (checkExisting sha256 (slotPath dir slot) text intent).map fun _ => .alreadyLocked)
    | none =>
      match d.createNew tmp with
      | none => (d, .error (.io "File exists (os error 17)"))
      | some d₁ =>
        let d₂ := d₁.append d.next (intent.record sha256)
        match d₂.link tmp slot with
        | none => (d₂.remove tmp, .error (.io "No such file or directory (os error 2)"))
        | some d₃ => (d₃.remove tmp, .ok .locked)

/-! ## The function and the task -/

/-- A task that is left alone takes a turn; `n` characters are written at once. -/
def Task.turnAlone (s : Links (List Char) × Task) (n : ℕ) : Links (List Char) × Task :=
  let (d, phase) := s.2.advance sha256 dir s.1 (.ok n)
  (d, { s.2 with phase })

/-- Where the task stands when `commit` has returned. -/
def Commit.phase : Except JournalError Commit → JournalPhase
  | .ok _ => .locked
  | .error e => .done (.error e)

variable {sha256 dir} {d : Links (List Char)} {intent : VoteIntent}

theorem Task.turnAlone_eq {t : Task} {d' : Links (List Char)} {phase : JournalPhase} {n : ℕ}
    (h : t.advance sha256 dir d (.ok n) = (d', phase)) :
    turnAlone sha256 dir (d, t) n = (d', { t with phase }) := by
  rw [turnAlone, h]

theorem read_eq_none {name : List Char} (h : d.entry name = none) : d.read name = none := by
  rw [Links.read, h, Option.map_none]

theorem isSome_entry {name text : List Char} (h : d.read name = some text) :
    (d.entry name).isSome = true := by
  obtain ⟨i, hi, -⟩ := Option.map_eq_some_iff.1 h
  rw [hi]
  rfl

theorem VoteIntent.record_eq_cons (intent : VoteIntent) (sha256 : List UInt8 → Vector UInt8 32) :
    ∃ c rest, intent.record sha256 = c :: rest :=
  ⟨_, _, rfl⟩

/-- A call that finds its slot taken. -/
theorem Task.alone_existing {pid ctr n : ℕ} {text : List Char} {u : Unit}
    (hvalid : intent.validate = .ok u) (hread : d.read (intent.slotName sha256) = some text) :
    Runs.run (turnAlone sha256 dir) (d, ⟨pid, ctr, intent, .called⟩) [n, n] =
      (d, ⟨pid, ctr, intent, Commit.phase ((checkExisting sha256
        (slotPath dir (intent.slotName sha256)) text intent).map fun _ => .alreadyLocked)⟩) := by
  have hfirst : Task.advance sha256 dir d ⟨pid, ctr, intent, .called⟩ (.ok n) = (d, .existing) := by
    simp only [advance, hvalid]
    exact congrArg (Prod.mk d) (if_pos (isSome_entry hread))
  rw [Runs.run_cons, turnAlone_eq hfirst, Runs.run_cons, Runs.run_nil]
  refine turnAlone_eq (?_ : _ = (d, _))
  simp only [advance, slot, hread]
  cases checkExisting sha256 (slotPath dir (intent.slotName sha256)) text intent with
  | error e => rfl
  | ok u => rfl

/-- A call that makes its record and links it. -/
theorem Task.alone_absent {pid ctr n : ℕ} {d₁ : Links (List Char)} {u : Unit}
    (hn : (intent.record sha256).length ≤ n) (hvalid : intent.validate = .ok u)
    (hfree : d.entry (intent.slotName sha256) = none)
    (hcreate : d.createNew (intent.tmpName sha256 pid ctr) = some d₁) :
    ∃ outcome d₃,
      Runs.run (turnAlone sha256 dir) (d, ⟨pid, ctr, intent, .called⟩) [n, n, n, n, n] =
        (d₃, ⟨pid, ctr, intent, .tried d.next outcome⟩) ∧
      match (d₁.append d.next (intent.record sha256)).link (intent.tmpName sha256 pid ctr)
          (intent.slotName sha256) with
      | none => d₃ = d₁.append d.next (intent.record sha256) ∧
          outcome = .err "No such file or directory (os error 2)"
      | some d' => d₃ = d' ∧ outcome = .linked := by
  obtain ⟨c, rest, hrecord⟩ := intent.record_eq_cons sha256
  have hcalled : Task.advance sha256 dir d ⟨pid, ctr, intent, .called⟩ (.ok n) = (d, .absent) := by
    simp only [advance, hvalid, slot, hfree]
    rfl
  have habsent : Task.advance sha256 dir d ⟨pid, ctr, intent, .absent⟩ (.ok n) =
      (d₁, .writing d.next (intent.record sha256)) := by
    simp only [advance, tmp, hcreate]
  have hwriting : Task.advance sha256 dir d₁
      ⟨pid, ctr, intent, .writing d.next (intent.record sha256)⟩ (.ok n) =
      (d₁.append d.next (intent.record sha256), .writing d.next []) := by
    simp only [hrecord, advance]
    rw [← hrecord, List.take_of_length_le hn, List.drop_of_length_le hn]
  have hsyncing : Task.advance sha256 dir (d₁.append d.next (intent.record sha256))
      ⟨pid, ctr, intent, .writing d.next []⟩ (.ok n) =
      (d₁.append d.next (intent.record sha256), .synced d.next) := rfl
  -- making the temporary file leaves the slot free
  have hstill : (d₁.append d.next (intent.record sha256)).entry (intent.slotName sha256) = none := by
    obtain ⟨-, hentry, -⟩ := Links.createNew_eq_some hcreate
    change d₁.entry _ = none
    rw [hentry, Function.update_of_ne (VoteIntent.slotName_ne_tmpName intent intent pid ctr)]
    exact hfree
  rw [Runs.run_cons, turnAlone_eq hcalled, Runs.run_cons, turnAlone_eq habsent, Runs.run_cons,
    turnAlone_eq hwriting, Runs.run_cons, turnAlone_eq hsyncing, Runs.run_cons, Runs.run_nil]
  cases hlink : (d₁.append d.next (intent.record sha256)).link (intent.tmpName sha256 pid ctr)
      (intent.slotName sha256) with
  | none =>
    refine ⟨_, _, turnAlone_eq (?_ : _ = (d₁.append d.next (intent.record sha256), _)), rfl, rfl⟩
    simp only [advance, slot, tmp, hstill, hlink]
    rfl
  | some d' =>
    refine ⟨_, _, turnAlone_eq (?_ : _ = (d', _)), rfl, rfl⟩
    simp only [advance, slot, tmp, hstill, hlink]
    rfl

/-- The function does what a task does that nobody disturbs. -/
theorem commit_alone (d : Links (List Char)) (pid ctr : ℕ) (intent : VoteIntent) :
    ∃ turns, Runs.run (Task.turnAlone sha256 dir) (d, ⟨pid, ctr, intent, .called⟩) turns =
      ((commit sha256 dir d pid ctr intent).1,
        ⟨pid, ctr, intent, Commit.phase (commit sha256 dir d pid ctr intent).2⟩) := by
  simp only [commit]
  cases hvalid : intent.validate with
  | error e =>
    have hcalled : Task.advance sha256 dir d ⟨pid, ctr, intent, .called⟩ (.ok 0) =
        (d, .done (.error e)) := by
      simp only [Task.advance, hvalid]
      rfl
    refine ⟨[0], ?_⟩
    rw [Runs.run_cons, Task.turnAlone_eq hcalled]
    rfl
  | ok u =>
    dsimp only
    cases hread : d.read (intent.slotName sha256) with
    | some text => exact ⟨[0, 0], Task.alone_existing hvalid hread⟩
    | none =>
      have hfree : d.entry (intent.slotName sha256) = none := Option.map_eq_none_iff.1 hread
      dsimp only
      cases hcreate : d.createNew (intent.tmpName sha256 pid ctr) with
      | none =>
        have hcalled : Task.advance sha256 dir d ⟨pid, ctr, intent, .called⟩ (.ok 0) =
            (d, .absent) := by
          simp only [Task.advance, hvalid, Task.slot, hfree]
          rfl
        have habsent : Task.advance sha256 dir d ⟨pid, ctr, intent, .absent⟩ (.ok 0) =
            (d, .done (.error (.io "File exists (os error 17)"))) := by
          simp only [Task.advance, Task.tmp, hcreate]
          rfl
        refine ⟨[0, 0], ?_⟩
        rw [Runs.run_cons, Task.turnAlone_eq hcalled, Runs.run_cons, Task.turnAlone_eq habsent]
        rfl
      | some d₁ =>
        obtain ⟨outcome, d₃, hrun, hlink⟩ :=
          @Task.alone_absent _ dir _ _ _ _ _ _ _ le_rfl hvalid hfree hcreate
        -- two more turns take the temporary name away and return
        refine ⟨List.replicate 5 (intent.record sha256).length ++ [0, 0], ?_⟩
        rw [Runs.run_append]
        refine (congrArg (fun s => Runs.run _ s [0, 0]) hrun).trans ?_
        dsimp only
        cases hd : (d₁.append d.next (intent.record sha256)).link (intent.tmpName sha256 pid ctr)
            (intent.slotName sha256) with
        | none =>
          rw [hd] at hlink
          obtain ⟨rfl, rfl⟩ := hlink
          rfl
        | some d' =>
          rw [hd] at hlink
          obtain ⟨rfl, rfl⟩ := hlink
          rfl

/-! ## What the slot holds -/

/-- The slot of the intent reads back as a record of this slot and block. -/
def HoldsRecord (sha256 : List UInt8 → Vector UInt8 32) (d : Links (List Char))
    (intent : VoteIntent) : Prop :=
  ∃ text got, d.read (intent.slotName sha256) = some text ∧
    VoteIntent.parse sha256 text = some got ∧ got.slotId sha256 = intent.slotId sha256 ∧
    got.blockHash = intent.blockHash

/-- The chain id does not end with a carriage return. -/
def VoteIntent.Plain (intent : VoteIntent) : Prop := intent.chainId.toList.getLast? ≠ some '\r'

instance VoteIntent.decidablePlain (intent : VoteIntent) : Decidable intent.Plain :=
  inferInstanceAs (Decidable (_ ≠ _))

/-- A record reads back as it was written if and only if its chain id does not end with a carriage
    return. -/
theorem VoteIntent.parse_record_eq_iff (sha256 : List UInt8 → Vector UInt8 32)
    (h : intent.Valid) :
    parse sha256 (intent.record sha256) = some intent ↔ intent.Plain := by
  rw [parse_record h]
  constructor
  · intro heq hcr
    have hchain := congrArg VoteIntent.chainId (Option.some.inj heq)
    have hlist := congrArg String.toList hchain
    rw [String.toList_ofList, Text.stripCr, if_pos hcr] at hlist
    have hlen := congrArg List.length hlist
    have hne : intent.chainId.toList ≠ [] := fun hnil => by
      rw [hnil] at hcr
      cases hcr
    have hpos := List.length_pos_iff.2 hne
    rw [List.length_dropLast] at hlen
    omega
  · intro hplain
    rw [Text.stripCr, if_neg hplain, String.ofList_toList]

/-- What a call has done to its slot: it has put its record there, or found it. -/
def JournalPhase.Slotted (sha256 : List UInt8 → Vector UInt8 32) (d : Links (List Char))
    (intent : VoteIntent) : JournalPhase → Prop
  | .tried _ .linked | .removed .linked => d.read (intent.slotName sha256) = some (intent.record sha256)
  | .locked => intent.Plain → HoldsRecord sha256 d intent
  | _ => True

variable {d' : Links (List Char)} {t : Task} {mine : ℕ}

theorem HoldsRecord.kept (h : HoldsRecord sha256 d intent)
    (hkept : Links.Kept d d' (t.tmp sha256) mine) : HoldsRecord sha256 d' intent := by
  obtain ⟨text, got, hread, hgot⟩ := h
  exact ⟨text, got,
    hkept.read (VoteIntent.slotName_ne_tmpName intent t.intent _ _) hread, hgot⟩

theorem JournalPhase.Slotted.kept {phase : JournalPhase} (h : phase.Slotted sha256 d intent)
    (hkept : Links.Kept d d' (t.tmp sha256) mine) : phase.Slotted sha256 d' intent := by
  have hread {text : List Char} (hr : d.read (intent.slotName sha256) = some text) :
      d'.read (intent.slotName sha256) = some text :=
    hkept.read (VoteIntent.slotName_ne_tmpName intent t.intent _ _) hr
  cases phase with
  | tried i outcome =>
    cases outcome with
    | linked => exact hread h
    | _ => trivial
  | removed outcome =>
    cases outcome with
    | linked => exact hread h
    | _ => trivial
  | locked => exact fun hplain => (h hplain).kept hkept
  | _ => trivial

/-- The record that was linked is one of this slot. -/
theorem HoldsRecord.of_linked (hvalid : intent.Valid) (hplain : intent.Plain)
    (h : d.read (intent.slotName sha256) = some (intent.record sha256)) :
    HoldsRecord sha256 d intent :=
  ⟨_, intent, h, (VoteIntent.parse_record_eq_iff sha256 hvalid).2 hplain, rfl, rfl⟩

/-- One operation of a task keeps what it has done to its slot. -/
theorem Task.Moves.slotted {phase : JournalPhase} (hmove : t.Moves sha256 d d' phase)
    (hgood : t.phase.Good sha256 d (t.tmp sha256) t.intent)
    (hkept : Links.Kept d d' (t.tmp sha256) mine)
    (h : t.phase.Slotted sha256 d t.intent) : phase.Slotted sha256 d' t.intent := by
  cases hmove with
  | stays => exact h
  | looks hvalid hphase => rcases hphase with rfl | rfl <;> trivial
  | links hphase hlink =>
    rw [hphase] at hgood
    exact read_link hgood.2.1 hgood.2.2 hlink
  | @tries _ outcome _ hnot =>
    cases outcome with
    | linked => exact absurd rfl hnot
    | _ => trivial
  | @removes _ outcome _ hphase hd =>
    rw [hphase] at h
    cases outcome with
    | linked => exact hkept.read (VoteIntent.slotName_ne_tmpName t.intent t.intent _ _) h
    | _ => trivial
  | locks hphase =>
    rw [hphase] at h hgood
    exact fun hplain => .of_linked hgood.1 hplain h
  | finds hphase hread hcheck =>
    obtain ⟨got, hgot⟩ := checkExisting_eq_ok hcheck
    exact fun _ => ⟨_, got, hread, hgot⟩
  | _ => trivial

namespace SigningJournal

variable {j : SigningJournal}

/-- What the calls have done to their slots. -/
structure Slotted (sha256 : List UInt8 → Vector UInt8 32) (j : SigningJournal) : Prop
    extends Inv sha256 j where
  slotted : ∀ n t, j.tasks n = some t → t.phase.Slotted sha256 j.disk t.intent

theorem Slotted.start (d : Links (List Char)) : Slotted sha256 { disk := d } :=
  ⟨Inv.start d, fun _ _ h => by cases h⟩

/-- A step of the journal changes no slot that is taken. -/
theorem Inv.read_step (hinv : Inv sha256 j) (a : JournalAction) {text : List Char}
    (h : j.disk.read (intent.slotName sha256) = some text) :
    (j.step sha256 dir a).disk.read (intent.slotName sha256) = some text := by
  cases a with
  | call n pid ctr intent' =>
    rw [SigningJournal.step]
    split <;> exact h
  | turn n answer =>
    rw [SigningJournal.step]
    split
    · exact h
    next t ht =>
      obtain ⟨mine, hadv⟩ := @Task.advance_good _ dir _ _ answer (hinv.good n t ht)
      exact hadv.kept.read (VoteIntent.slotName_ne_tmpName intent t.intent _ _) h
  | crash pid => exact h

theorem Slotted.step (h : Slotted sha256 j) (a : JournalAction) :
    Slotted sha256 (j.step sha256 dir a) := by
  refine ⟨h.toInv.step a, ?_⟩
  cases a with
  | call n pid ctr intent =>
    rw [SigningJournal.step]
    split
    · exact h.slotted
    · intro m u hu
      obtain ⟨-, rfl⟩ | ⟨-, hu⟩ := update_eq_some hu
      · trivial
      · exact h.slotted m u hu
  | turn n answer =>
    rw [SigningJournal.step]
    split
    · exact h.slotted
    next t ht =>
      obtain ⟨mine, hadv⟩ := @Task.advance_good _ dir _ _ answer (h.good n t ht)
      intro m u hu
      obtain ⟨-, rfl⟩ | ⟨-, hu⟩ := update_eq_some hu
      · exact (Task.advance_moves dir _ t answer).slotted (h.good n t ht) hadv.kept
          (h.slotted n t ht)
      · exact (h.slotted m u hu).kept hadv.kept
  | crash pid =>
    exact fun n t ht => h.slotted n t (Option.filter_eq_some_iff.1 ht).1

theorem Slotted.run (sha256 : List UInt8 → Vector UInt8 32) (dir : String)
    (d : Links (List Char)) (acts : List JournalAction) :
    Slotted sha256 (Runs.run (SigningJournal.step sha256 dir) { disk := d } acts) :=
  Runs.run_invariant (fun _ a h => h.step a) acts (Slotted.start d)

/-- What a slot holds, it holds for good. -/
theorem Inv.holdsRecord_run (dir : String) (acts : List JournalAction) (hinv : Inv sha256 j)
    (h : HoldsRecord sha256 j.disk intent) :
    HoldsRecord sha256 (Runs.run (SigningJournal.step sha256 dir) j acts).disk intent := by
  obtain ⟨text, got, hread, hgot⟩ := h
  have hkept : Inv sha256 (Runs.run (SigningJournal.step sha256 dir) j acts) ∧
      (Runs.run (SigningJournal.step sha256 dir) j acts).disk.read (intent.slotName sha256) =
        some text :=
    Runs.run_invariant (I := fun j => Inv sha256 j ∧ j.disk.read (intent.slotName sha256) = some text)
      (fun _ a h => ⟨h.1.step a, h.1.read_step a h.2⟩) acts ⟨hinv, hread⟩
  exact ⟨text, got, hkept.2, hgot⟩

end SigningJournal

/-! ## Signing again -/

/-- Two intents for one slot. -/
def VoteIntent.SameSlot (intent intent' : VoteIntent) : Prop :=
  intent.chainId = intent'.chainId ∧ intent.validatorPubKey = intent'.validatorPubKey ∧
    intent.voteType = intent'.voteType ∧ intent.height = intent'.height ∧
    intent.round = intent'.round

theorem VoteIntent.SameSlot.slotId {intent' : VoteIntent} (h : intent.SameSlot intent') :
    intent.slotId sha256 = intent'.slotId sha256 := by
  obtain ⟨hchain, hkey, htype, hheight, hround⟩ := h
  rw [VoteIntent.slotId, VoteIntent.slotId, hchain, hkey, htype, hheight, hround]

theorem commit_of_holdsRecord {intent' : VoteIntent} {u : Unit} (pid ctr : ℕ)
    (h : HoldsRecord sha256 d intent) (hslot : intent.SameSlot intent')
    (hvalid : intent'.validate = .ok u) :
    (commit sha256 dir d pid ctr intent').2 =
      if intent.blockHash = intent'.blockHash then .ok .alreadyLocked
      else .error (.equivocation intent.blockHash intent'.blockHash) := by
  obtain ⟨text, got, hread, hparse, hid, hblock⟩ := h
  obtain ⟨hchain, hkey, htype, hheight, hround⟩ := hslot
  rw [VoteIntent.slotName_congr hchain hkey htype hheight hround] at hread
  have hid' : got.slotId sha256 = intent'.slotId sha256 :=
    hid.trans (VoteIntent.SameSlot.slotId ⟨hchain, hkey, htype, hheight, hround⟩)
  have hgot (path : String) : readSlot sha256 path text intent' = .ok got := by
    rw [readSlot, hparse, ofOption_some, ok_bind, require, if_pos hid']
    rfl
  simp only [commit, hvalid, hread, checkExisting, hgot, ok_bind, hblock]
  rw [require]
  split
  · rfl
  · rfl

end Model

/-- For every intent that `validate` takes: its record reads back as it was written, and after
    `commit` has returned for it in any run of the journal, every later `commit` of it says that it
    is already locked and every `commit` of its slot with another block is refused, whatever the
    processes have done in between and whether or not they were restarted; all this if and only if
    the chain id does not end with a carriage return. -/
theorem journaled_vote_resigned_iff (sha256 : List UInt8 → Vector UInt8 32) (dir : String)
    {intent : VoteIntent} (hvalid : intent.validate = .ok ()) :
    (VoteIntent.parse sha256 (intent.record sha256) = some intent ∧
      ∀ (d : Links (List Char)) (acts more : List JournalAction) (n : ℕ) (t : Task),
        (Runs.run (SigningJournal.step sha256 dir) { disk := d } acts).tasks n = some t →
        t.intent = intent → t.phase = .locked →
        ∀ pid ctr,
          let disk := (Runs.run (SigningJournal.step sha256 dir) { disk := d } (acts ++ more)).disk
          (commit sha256 dir disk pid ctr intent).2 = .ok .alreadyLocked ∧
          ∀ intent', intent.SameSlot intent' → intent'.validate = .ok () →
            intent'.blockHash ≠ intent.blockHash →
            (commit sha256 dir disk pid ctr intent').2 =
              .error (.equivocation intent.blockHash intent'.blockHash)) ↔
    intent.Plain := by
  have hparse := VoteIntent.parse_record_eq_iff sha256 (VoteIntent.valid_of_validate hvalid)
  refine ⟨fun h => hparse.1 h.1, fun hplain => ⟨hparse.2 hplain, ?_⟩⟩
  rintro d acts more n t ht rfl hphase pid ctr
  -- the slot is right when the call returns, and stays so
  have hslotted := SigningJournal.Slotted.run sha256 dir d acts
  have hnow : HoldsRecord sha256
      (Runs.run (SigningJournal.step sha256 dir) { disk := d } acts).disk t.intent := by
    have := hslotted.slotted n t ht
    rw [hphase] at this
    exact this hplain
  have hlater := hslotted.toInv.holdsRecord_run dir more hnow
  rw [← Runs.run_append] at hlater
  constructor
  · rw [commit_of_holdsRecord pid ctr hlater ⟨rfl, rfl, rfl, rfl, rfl⟩ hvalid, if_pos rfl]
  · intro intent' hslot hvalid' hne
    rw [commit_of_holdsRecord pid ctr hlater hslot hvalid', if_neg (Ne.symm hne)]

theorem resigned_sampleIntent :
    sampleIntent.Plain ∧ VoteIntent.parse (fun _ => .replicate 32 0)
      (sampleIntent.record fun _ => .replicate 32 0) = some sampleIntent := by
  have hplain : sampleIntent.Plain := by decide +kernel
  exact ⟨hplain, ((journaled_vote_resigned_iff (fun _ => .replicate 32 0) "journal"
    (by decide +kernel)).2 hplain).1⟩

/-! ## A carriage return -/

/-- An intent whose chain id ends with a carriage return. -/
def returnIntent : VoteIntent := { sampleIntent with chainId := "devnet\r" }

/-- A digest that shows the length of the text. -/
def lengthDigest (text : List UInt8) : Vector UInt8 32 := .replicate 32 (.ofNat text.length)

/-- The vote is journaled, and can never be signed again. -/
theorem returnIntent_stuck :
    returnIntent.validate = .ok () ∧
      VoteIntent.parse lengthDigest (returnIntent.record lengthDigest) ≠ some returnIntent ∧
      (commit lengthDigest "journal" emptyDisk 1 0 returnIntent).2 = .ok .locked ∧
      (commit lengthDigest "journal" (commit lengthDigest "journal" emptyDisk 1 0 returnIntent).1
        1 1 returnIntent).2 = .error (.corrupt (slotPath "journal"
          (returnIntent.slotName lengthDigest) ++ ": record belongs to another slot")) := by
  refine ⟨by decide +kernel, by decide +kernel, by decide +kernel, by decide +kernel⟩

end RougeChain.Finality
