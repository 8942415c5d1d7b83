import RougeChain.Library.JsonText

/-!
# Reading the text of a JSON value

`Json.read` reads a whole text: white space may stand between the tokens, arrays
and objects nest up to a depth, and an object keeps its members in the order of
their keys, the last of those with one key. How a literal that is not an integer
is read as a float is a parameter.

* `readValue_write`: a written value is read up to where it ends, whatever
  follows, as the value that `Value.reread` says;
* `get_orderMembers`: an object read from distinct members has just those;
* `read_eq_none`: a text that begins with no token of JSON is not read.
-/

namespace Json

/-! ## Tokens -/

def isSpace (c : Char) : Bool := c == ' ' || c == '\n' || c == '\t' || c == '\r'

/-- The next character that is not white space, and what follows it. -/
def next (s : List Char) : Option (Char × List Char) :=
  match s.dropWhile isSpace with
  | [] => none
  | c :: rest => some (c, rest)

/-- The text after the character `c`, if that comes next. -/
def expect (c : Char) (s : List Char) : Option (List Char) := do
  let (d, rest) ← next s
  if d = c then some rest else none

def hexDigit (c : Char) : Option ℕ :=
  if c.isDigit then some (c.toNat - '0'.toNat)
  else if 'a' ≤ c ∧ c ≤ 'f' then some (c.toNat - 'a'.toNat + 10)
  else if 'A' ≤ c ∧ c ≤ 'F' then some (c.toNat - 'A'.toNat + 10)
  else none

/-- Four hexadecimal digits. -/
def readHex4 : List Char → Option (ℕ × List Char)
  | a :: b :: c :: d :: rest => do
    let a ← hexDigit a
    let b ← hexDigit b
    let c ← hexDigit c
    let d ← hexDigit d
    return (((a * 16 + b) * 16 + c) * 16 + d, rest)
  | _ => none

/-- The character after `\u`; two surrogates make one, and a single one makes none. -/
def readUnicode (s : List Char) : Option (Char × List Char) := do
  let (n, rest) ← readHex4 s
  if 0xDC00 ≤ n ∧ n ≤ 0xDFFF then none
  else if 0xD800 ≤ n ∧ n ≤ 0xDBFF then
    match rest with
    | '\\' :: 'u' :: rest => do
      let (m, rest) ← readHex4 rest
      if 0xDC00 ≤ m ∧ m ≤ 0xDFFF then
        some (Char.ofNat (0x10000 + (n - 0xD800) * 0x400 + (m - 0xDC00)), rest)
      else none
    | _ => none
  else some (Char.ofNat n, rest)

/-- The character after a backslash. -/
def readEscape : List Char → Option (Char × List Char)
  | [] => none
  | c :: rest =>
    if c = 'u' then readUnicode rest
    else if c = '"' ∨ c = '\\' ∨ c = '/' then some (c, rest)
    else if c = 'b' ∨ c = 'f' ∨ c = 'n' ∨ c = 'r' ∨ c = 't' then some (unescape c, rest)
    else none

/-- The characters up to the closing quote; at most `n` of them with it. -/
def readChars : ℕ → List Char → Option (List Char × List Char)
  | 0, _ | _, [] => none
  | n + 1, c :: rest =>
    if c = '"' then some ([], rest)
    else if c = '\\' then do
      let (d, rest) ← readEscape rest
      let (l, rest) ← readChars n rest
      return (d :: l, rest)
    else if c.toNat < 32 then none
    else do
      let (l, rest) ← readChars n rest
      return (c :: l, rest)

/-- A string whose opening quote has been read. -/
def readString (s : List Char) : Option (String × List Char) := do
  let (l, rest) ← readChars s.length s
  return (String.ofList l, rest)

/-- The value of digits that do not begin with a superfluous zero. -/
def readDigits (l : List Char) : Option ℕ :=
  if l ≠ [] ∧ l.all Char.isDigit = true ∧ (l.head? = some '0' → l = ['0']) then
    some (Nat.ofDigitChars 10 l 0)
  else none

/-- The word `word` stands for `v`. -/
def readWord (word : String) (v : Value) (s : List Char) : Option (Value × List Char) :=
  if word.toList.isPrefixOf s then some (v, s.drop word.toList.length) else none

section Read

variable (readFloat : List Char → Option Float)

/-- An integer that fits into 64 bits is one, every other number a float. -/
def readNumber (token : List Char) : Option Number :=
  let float := Number.float <$> readFloat token
  match token with
  | '-' :: digits =>
    match readDigits digits with
    | some n => if 0 < n ∧ n ≤ 2 ^ 63 then some (.negInt (.ofInt (-n))) else float
    | none => float
  | _ =>
    match readDigits token with
    | some n => if n < 2 ^ 64 then some (.posInt (.ofNat n)) else float
    | none => float

/-! ## Values -/

/-- A reader of values. -/
abbrev Reader := List Char → Option (Value × List Char)

/-- The items up to the closing bracket; at most `n`. -/
def readItems (inner : Reader) : ℕ → List Char → Option (List Value × List Char)
  | 0, _ => none
  | n + 1, s => do
    let (v, s) ← inner s
    let (c, rest) ← next s
    if c = ']' then some ([v], rest)
    else if c = ',' then do
      let (vs, rest) ← readItems inner n rest
      return (v :: vs, rest)
    else none

/-- An array whose opening bracket has been read. -/
def readArray (inner : Reader) (s : List Char) : Option (List Value × List Char) :=
  match expect ']' s with
  | some rest => some ([], rest)
  | none => readItems inner s.length s

/-- The members up to the closing brace; at most `n`. -/
def readMembers (inner : Reader) : ℕ → List Char → Option (List (String × Value) × List Char)
  | 0, _ => none
  | n + 1, s => do
    let s ← expect '"' s
    let (k, s) ← readString s
    let s ← expect ':' s
    let (v, s) ← inner s
    let (c, rest) ← next s
    if c = '\x7d' then some ([(k, v)], rest)
    else if c = ',' then do
      let (ms, rest) ← readMembers inner n rest
      return ((k, v) :: ms, rest)
    else none

/-- Writes a member of an object that is kept in the order of its keys. -/
def insertMember (k : String) (v : Value) : List (String × Value) → List (String × Value)
  | [] => [(k, v)]
  | (l, w) :: ms =>
    match compare k l with
    | .lt => (k, v) :: (l, w) :: ms
    | .eq => (k, v) :: ms
    | .gt => (l, w) :: insertMember k v ms

/-- The members in the order of their keys, the last of those with one key. -/
def orderMembers (ms : List (String × Value)) : List (String × Value) :=
  ms.foldl (fun acc m => insertMember m.1 m.2 acc) []

/-- An object whose opening brace has been read. -/
def readObject (inner : Reader) (s : List Char) : Option (List (String × Value) × List Char) :=
  match expect '\x7d' s with
  | some rest => some ([], rest)
  | none => readMembers inner s.length s

/-- A value; what stands inside an array or an object is read by `inner`, if it may nest. -/
def readWith (inner : Option Reader) : Reader := fun s => do
  let (c, rest) ← next s
  if c = 'n' then readWord "ull" .null rest
  else if c = 't' then readWord "rue" (.bool true) rest
  else if c = 'f' then readWord "alse" (.bool false) rest
  else if c = '"' then do
    let (text, rest) ← readString rest
    return (.string text, rest)
  else if c = '[' then do
    let (items, rest) ← readArray (← inner) rest
    return (.array items, rest)
  else if c = '\x7b' then do
    let (members, rest) ← readObject (← inner) rest
    return (.object (orderMembers members), rest)
  else if isNumberChar c then do
    let n ← readNumber readFloat ((c :: rest).takeWhile isNumberChar)
    return (.number n, rest.dropWhile isNumberChar)
  else none

/-- A value that nests up to `depth` arrays and objects. -/
def readValue : ℕ → Reader
  | 0 => readWith readFloat none
  | depth + 1 => readWith readFloat (some (readValue depth))

/-- A text that is one value. -/
def read (s : String) : Option Value := do
  let (v, rest) ← readValue readFloat 127 s.toList
  if rest.all isSpace then some v else none

end Read

/-! ## Decoding -/

/-- How a value of a type is read off a JSON value. -/
class Decode (α : Type) where
  decode : Value → Option α

export Decode (decode)

instance : Decode Value := ⟨some⟩

instance : Decode String := ⟨Value.asStr⟩

instance : Decode Bool := ⟨Value.asBool⟩

instance : Decode UInt64 := ⟨Value.asU64⟩

instance : Decode UInt32 :=
  ⟨fun v => v.asU64.bind fun n => if n.toNat < UInt32.size then some n.toUInt32 else none⟩

instance : Decode UInt16 :=
  ⟨fun v => v.asU64.bind fun n => if n.toNat < UInt16.size then some n.toUInt16 else none⟩

instance : Decode UInt8 :=
  ⟨fun v => v.asU64.bind fun n => if n.toNat < UInt8.size then some n.toUInt8 else none⟩

instance : Decode Float := ⟨Value.asF64⟩

instance {α : Type} [Decode α] : Decode (List α) := ⟨fun v => v.asArray.bind (List.mapM decode)⟩

/-- The member `name` of an object, if it is there and not null. -/
def optional {α : Type} [Decode α] (v : Value) (name : String) : Option (Option α) :=
  match v.get name with
  | none | some .null => some none
  | some x => (decode x).map some

/-! ## Reading what was written -/

theorem next_cons {c : Char} (hc : isSpace c = false) (s : List Char) :
    next (c :: s) = some (c, s) := by
  rw [next, List.dropWhile_cons, hc, if_neg Bool.false_ne_true]

theorem expect_cons {c d : Char} (hd : isSpace d = false) (s : List Char) :
    expect c (d :: s) = if d = c then some s else none := by
  rw [expect, next_cons hd]
  rfl

section Strings

theorem hexDigit_digitChar : ∀ d < 16, hexDigit (Nat.digitChar d) = some d := by decide

/-- A control character is read off its escape. -/
theorem readUnicode_control {n : ℕ} (hn : n < 32) (s : List Char) :
    readUnicode ('0' :: '0' :: Nat.digitChar (n / 16) :: Nat.digitChar (n % 16) :: s) =
      some (Char.ofNat n, s) := by
  have hi := hexDigit_digitChar (n / 16) (by omega)
  have lo := hexDigit_digitChar (n % 16) (Nat.mod_lt _ (by decide))
  have hzero : hexDigit '0' = some 0 := rfl
  have hex : readHex4 ('0' :: '0' :: Nat.digitChar (n / 16) :: Nat.digitChar (n % 16) :: s) =
      some (n, s) := by
    simp only [readHex4, hzero, hi, lo, Option.bind_eq_bind, Option.bind_some, Option.pure_def,
      Option.some.injEq, Prod.mk.injEq, and_true]
    omega
  simp only [readUnicode, hex, Option.bind_eq_bind, Option.bind_some]
  rw [if_neg (by omega), if_neg (by omega)]

theorem readChars_escapeChar (n : ℕ) (c : Char) (s : List Char) :
    readChars (n + 1) (escapeChar c ++ s) = (readChars n s).map fun p => (c :: p.1, p.2) := by
  have hback {n : ℕ} (h : c.toNat = n) : c = Char.ofNat n := h ▸ (Char.ofNat_toNat c).symm
  have hescape {d : Char} {t : List Char} (h : readEscape (d :: t) = some (c, s)) :
      readChars (n + 1) ('\\' :: d :: t) = (readChars n s).map fun p => (c :: p.1, p.2) := by
    rw [readChars, if_neg (by decide), if_pos rfl, h]
    simp only [Option.bind_eq_bind, Option.bind_some]
    cases readChars n s <;> rfl
  rw [escapeChar]
  split_ifs with h₁ h₂ h₃ h₄ h₅ h₆ h₇ h₈
  · exact hescape (by rw [h₁]; rfl)
  · exact hescape (by rw [h₂]; rfl)
  · exact hescape (by rw [hback h₃]; rfl)
  · exact hescape (by rw [hback h₄]; rfl)
  · exact hescape (by rw [hback h₅]; rfl)
  · exact hescape (by rw [hback h₆]; rfl)
  · exact hescape (by rw [hback h₇]; rfl)
  · refine hescape ?_
    rw [readEscape, if_pos rfl]
    exact (readUnicode_control h₈ s).trans (by rw [Char.ofNat_toNat])
  · rw [List.cons_append, List.nil_append, readChars, if_neg h₁, if_neg h₂, if_neg h₈]
    cases readChars n s <;> rfl

theorem readChars_escape {l : List Char} {n : ℕ} (hn : l.length < n) (s : List Char) :
    readChars n (l.flatMap escapeChar ++ '"' :: s) = some (l, s) := by
  induction l generalizing n with
  | nil =>
    obtain ⟨n, rfl⟩ := Nat.exists_eq_add_of_lt hn
    rfl
  | cons c l ih =>
    obtain ⟨n, rfl⟩ : ∃ m, n = m + 1 := ⟨n - 1, by omega⟩
    rw [List.flatMap_cons, List.append_assoc, readChars_escapeChar,
      ih (by simpa using hn), Option.map_some]

theorem length_le_length_escape (l : List Char) : l.length ≤ (l.flatMap escapeChar).length := by
  induction l with
  | nil => exact le_rfl
  | cons c l ih =>
    obtain ⟨d, t, hd, -⟩ := escapeChar_eq_cons c
    rw [List.flatMap_cons, List.length_append, hd, List.length_cons, List.length_cons]
    omega

theorem readString_writeString (k : String) (s : List Char) :
    readString (k.toList.flatMap escapeChar ++ '"' :: s) = some (k, s) := by
  have hlength : k.toList.length < (k.toList.flatMap escapeChar ++ '"' :: s).length := by
    have hle := length_le_length_escape k.toList
    rw [List.length_append, List.length_cons]
    omega
  rw [readString, readChars_escape hlength]
  simp

end Strings

section Members

variable {k a : String} {v : Value} {ms : List (String × Value)}

theorem get_insertMember :
    (Value.object (insertMember k v ms)).get a =
      if k = a then some v else (Value.object ms).get a := by
  induction ms with
  | nil =>
    rw [insertMember]
    by_cases h : k = a <;> simp [Value.get, h]
  | cons m ms ih =>
    obtain ⟨l, w⟩ := m
    simp only [Value.get] at ih ⊢
    rw [insertMember]
    cases hc : compare k l with
    | lt => by_cases h : k = a <;> simp [h]
    | eq =>
      obtain rfl := Std.LawfulEqOrd.compare_eq_iff_eq.1 hc
      by_cases h : k = a <;> simp [h]
    | gt =>
      have hne : l ≠ k := by
        rintro rfl
        rw [Std.LawfulEqOrd.compare_eq_iff_eq.2 rfl] at hc
        cases hc
      by_cases hla : l = a
      · subst hla
        simp [hne.symm]
      · simp only [List.find?_cons, beq_eq_false_iff_ne.2 hla]
        exact ih

/-- The last member with a key is the one the object has. -/
theorem get_orderMembers (ms : List (String × Value)) (a : String) :
    (Value.object (orderMembers ms)).get a = (Value.object ms.reverse).get a := by
  induction ms using List.reverseRecOn with
  | nil => rfl
  | append_singleton ms m ih =>
    rw [orderMembers, List.foldl_append, List.foldl_cons, List.foldl_nil, get_insertMember,
      List.reverse_append]
    change _ = (Value.object (m :: ms.reverse)).get a
    rw [orderMembers] at ih
    rw [ih]
    by_cases h : m.1 = a <;> simp [Value.get, h]

end Members

section Values

variable {floatText : Float → List Char} {readFloat : List Char → Option Float}

variable (floatText readFloat) in
/-- What the text of a number is read as. -/
def Number.reread : Number → Option Value
  | .float x =>
    if x.isFinite then .number <$> readNumber readFloat (floatText x) else some .null
  | n => .number <$> readNumber readFloat (n.write floatText)

namespace Value

variable (floatText readFloat) in
/-- What the text of a value is read as, when what stands inside it is read as `inner` says. -/
def rereadWith (inner : Option (Value → Option Value)) : Value → Option Value
  | number n => n.reread floatText readFloat
  | array items => do
    let vs ← items.mapM (← inner)
    return array vs
  | object members => do
    let f ← inner
    let ms ← members.mapM fun m => (f m.2).map fun v => (m.1, v)
    return object (orderMembers ms)
  | v => some v

variable (floatText readFloat) in
/-- What the text of a value is read as, with `depth` arrays and objects to nest. -/
def reread : ℕ → Value → Option Value
  | 0 => rereadWith floatText readFloat none
  | depth + 1 => rereadWith floatText readFloat (some (reread depth))

/-- A number that is finite is read from its text. -/
theorem reread_finite {n : Number} (hn : n.Finite) :
    n.reread floatText readFloat = (readNumber readFloat (n.write floatText)).map number := by
  cases n with
  | float x =>
    have hx : x.isFinite = true := hn
    rw [Number.reread, Number.write, if_pos hx, if_pos hx]
    rfl
  | _ => rfl

/-- A value begins with no bracket that closes, and no white space. -/
theorem exists_write_eq_cons (ht : FloatText floatText) (v : Value) :
    ∃ c l, v.write floatText = c :: l ∧ tagOf c ≠ 7 := by
  cases v with
  | null => exact ⟨'n', _, rfl, by decide⟩
  | bool b => cases b <;> exact ⟨_, _, rfl, by decide⟩
  | string s => exact ⟨'"', _, rfl, by decide⟩
  | array items => exact ⟨'[', _, by rw [write], by decide⟩
  | object members => exact ⟨'\x7b', _, by rw [write], by decide⟩
  | number n =>
    rw [write]
    by_cases hn : n.Finite
    · obtain ⟨c, l, hcl⟩ := List.exists_cons_of_ne_nil (Number.write_ne_nil ht hn)
      have htag := tagOf_isNumberChar (Number.number_write ht hn c (hcl ▸ List.mem_cons_self))
      exact ⟨c, l, hcl, by rw [htag]; decide⟩
    · cases n with
      | float x =>
        have hx : ¬x.isFinite = true := hn
        rw [Number.write, if_neg hx]
        exact ⟨'n', _, rfl, by decide⟩
      | _ => exact absurd trivial hn

theorem tagOf_of_isSpace {c : Char} (h : isSpace c = true) : tagOf c = 7 := by
  simp only [isSpace, Bool.or_eq_true, beq_iff_eq] at h
  rcases h with ((rfl | rfl) | rfl) | rfl <;> rfl

/-- The text of a number is one token. -/
theorem readWith_number {inner : Option Reader} {l s : List Char} (hne : l ≠ [])
    (hl : ∀ c ∈ l, isNumberChar c = true) (hs : Stops s) :
    readWith readFloat inner (l ++ s) =
      (readNumber readFloat l).map fun n => (number n, s) := by
  obtain ⟨c, l, rfl⟩ := List.exists_cons_of_ne_nil hne
  have hc := hl c List.mem_cons_self
  have hspace : isSpace c = false := by
    by_contra hspace
    rw [Bool.not_eq_false] at hspace
    exact absurd ((tagOf_isNumberChar hc).symm.trans (tagOf_of_isSpace hspace)) (by decide)
  have htail : s.dropWhile isNumberChar = s ∧ s.takeWhile isNumberChar = [] := by
    cases s with
    | nil => exact ⟨rfl, rfl⟩
    | cons d s => simp [hs d rfl]
  have hall : ∀ c ∈ l, isNumberChar c = true := fun d hd => hl d (List.mem_cons_of_mem _ hd)
  have htake : (c :: (l ++ s)).takeWhile isNumberChar = c :: l := by
    rw [← List.cons_append, List.takeWhile_append_of_pos hl, htail.2, List.append_nil]
  have hdrop : (l ++ s).dropWhile isNumberChar = s := by
    rw [List.dropWhile_append_of_pos hall, htail.1]
  have hne : c ≠ 'n' ∧ c ≠ 't' ∧ c ≠ 'f' ∧ c ≠ '"' ∧ c ≠ '[' ∧ c ≠ '\x7b' := by
    refine ⟨?_, ?_, ?_, ?_, ?_, ?_⟩
    all_goals
      rintro rfl
      revert hc
      decide
  simp only [readWith, List.cons_append, next_cons hspace, Option.bind_eq_bind, Option.bind_some,
    hne, if_false, hc, if_true, htake, hdrop]
  cases readNumber readFloat (c :: l) <;> rfl

theorem writeItems_false (a : Value) (as : List Value) :
    writeItems floatText false (a :: as) = ',' :: writeItems floatText true (a :: as) := by
  rw [writeItems, writeItems]
  rfl

theorem writeMembers_false (m : String × Value) (ms : List (String × Value)) :
    writeMembers floatText false (m :: ms) = ',' :: writeMembers floatText true (m :: ms) := by
  rw [writeMembers, writeMembers]
  rfl

/-- Items that are read one by one are read up to the bracket. -/
theorem readItems_write {inner : Reader} {f : Value → Option Value} {as : List Value}
    (hinner : ∀ a ∈ as, ∀ s, Stops s →
      inner (a.write floatText ++ s) = (f a).map fun v => (v, s))
    (hne : as ≠ []) {n : ℕ} (hn : as.length ≤ n) (s : List Char) :
    readItems inner n (writeItems floatText true as ++ s) = (as.mapM f).map fun vs => (vs, s) := by
  induction as generalizing n with
  | nil => exact absurd rfl hne
  | cons a as ih =>
    obtain ⟨n, rfl⟩ : ∃ m, n = m + 1 := ⟨n - 1, by rw [List.length_cons] at hn; omega⟩
    rw [List.forall_mem_cons] at hinner
    rw [writeItems, if_pos rfl, List.nil_append, List.append_assoc, readItems,
      hinner.1 _ (stops_items as s), List.mapM_cons]
    cases f a with
    | none => rfl
    | some v =>
      simp only [Option.map_some, Option.bind_eq_bind, Option.bind_some]
      cases as with
      | nil => rw [writeItems]; rfl
      | cons b as =>
        rw [writeItems_false, List.cons_append, next_cons rfl]
        have hrest := ih hinner.2 (List.cons_ne_nil b as) (n := n) (by simpa using hn)
        simp only [Option.bind_some, if_neg (show ',' ≠ ']' by decide), if_true, hrest]
        cases (b :: as).mapM f <;> rfl

theorem readMembers_write {inner : Reader} {f : Value → Option Value}
    {as : List (String × Value)}
    (hinner : ∀ m ∈ as, ∀ s, Stops s →
      inner (m.2.write floatText ++ s) = (f m.2).map fun v => (v, s))
    (hne : as ≠ []) {n : ℕ} (hn : as.length ≤ n) (s : List Char) :
    readMembers inner n (writeMembers floatText true as ++ s) =
      (as.mapM fun m => (f m.2).map fun v => (m.1, v)).map fun ms => (ms, s) := by
  induction as generalizing n with
  | nil => exact absurd rfl hne
  | cons m as ih =>
    obtain ⟨n, rfl⟩ : ∃ m, n = m + 1 := ⟨n - 1, by rw [List.length_cons] at hn; omega⟩
    obtain ⟨k, a⟩ := m
    rw [List.forall_mem_cons] at hinner
    have hkey : readString (k.toList.flatMap escapeChar ++
        '"' :: ':' :: (a.write floatText ++ (writeMembers floatText false as ++ s))) = _ :=
      readString_writeString k _
    have htext : writeMembers floatText true ((k, a) :: as) ++ s =
        '"' :: (k.toList.flatMap escapeChar ++
          '"' :: ':' :: (a.write floatText ++ (writeMembers floatText false as ++ s))) := by
      simp [writeMembers, writeString]
    rw [htext, readMembers, expect_cons rfl, if_pos rfl]
    simp only [Option.bind_eq_bind, Option.bind_some, hkey, expect_cons (c := ':') (d := ':') rfl,
      if_true, hinner.1 _ (stops_members as s), List.mapM_cons]
    cases f a with
    | none => rfl
    | some v =>
      simp only [Option.map_some, Option.bind_some]
      cases as with
      | nil => rw [writeMembers]; rfl
      | cons b as =>
        rw [writeMembers_false, List.cons_append, next_cons rfl]
        have hrest := ih hinner.2 (List.cons_ne_nil b as) (n := n) (by simpa using hn)
        simp only [Option.bind_some, if_neg (show ',' ≠ '\x7d' by decide), if_true, hrest]
        cases (b :: as).mapM fun m => (f m.2).map fun v => (m.1, v) <;> rfl

/-- A comma or the bracket stands for every item. -/
theorem length_lt_writeItems (as : List Value) :
    as.length < (writeItems floatText false as).length := by
  induction as with
  | nil =>
    rw [writeItems]
    exact Nat.zero_lt_one
  | cons a as ih =>
    rw [writeItems, List.length_append, List.length_append, List.length_cons]
    exact Nat.lt_of_lt_of_le (Nat.add_lt_add_right ih 1) (by
      rw [if_neg Bool.false_ne_true, List.length_singleton]
      omega)

theorem length_lt_writeMembers (ms : List (String × Value)) :
    ms.length < (writeMembers floatText false ms).length := by
  induction ms with
  | nil =>
    rw [writeMembers]
    exact Nat.zero_lt_one
  | cons m ms ih =>
    rw [writeMembers, List.length_append, List.length_append, List.length_cons, List.length_cons,
      List.length_append]
    exact Nat.lt_of_lt_of_le (Nat.add_lt_add_right ih 1) (by omega)

theorem length_le_writeItems (as : List Value) (s : List Char) :
    as.length ≤ (writeItems floatText true as ++ s).length := by
  cases as with
  | nil => exact Nat.zero_le _
  | cons a as =>
    have hlt : as.length < (writeItems floatText false as).length := length_lt_writeItems as
    rw [writeItems, List.length_append, List.length_append, List.length_append, List.length_cons]
    omega

theorem length_le_writeMembers (ms : List (String × Value)) (s : List Char) :
    ms.length ≤ (writeMembers floatText true ms ++ s).length := by
  cases ms with
  | nil => exact Nat.zero_le _
  | cons m ms =>
    have hlt : ms.length < (writeMembers floatText false ms).length := length_lt_writeMembers ms
    rw [writeMembers, List.length_append, List.length_append, List.length_append, List.length_cons,
      List.length_cons, List.length_append]
    omega

theorem readArray_write (ht : FloatText floatText) {inner : Reader} {f : Value → Option Value}
    (hinner : ∀ a s, Stops s → inner (a.write floatText ++ s) = (f a).map fun v => (v, s))
    (as : List Value) (s : List Char) :
    readArray inner (writeItems floatText true as ++ s) = (as.mapM f).map fun vs => (vs, s) := by
  cases as with
  | nil =>
    rw [writeItems]
    rfl
  | cons a as =>
    have hbracket : expect ']' (writeItems floatText true (a :: as) ++ s) = none := by
      obtain ⟨c, l, hcl, htag⟩ := exists_write_eq_cons ht a
      have hspace : isSpace c = false := by
        by_contra hspace
        exact htag (tagOf_of_isSpace (Bool.of_not_eq_false hspace))
      rw [writeItems, if_pos rfl, hcl, List.nil_append, List.cons_append, List.cons_append,
        expect_cons hspace, if_neg]
      rintro rfl
      exact htag rfl
    rw [readArray, hbracket]
    exact readItems_write (fun a _ => hinner a) (List.cons_ne_nil a as)
      (length_le_writeItems (a :: as) s) s

theorem readObject_write {inner : Reader} {f : Value → Option Value}
    (hinner : ∀ a s, Stops s → inner (a.write floatText ++ s) = (f a).map fun v => (v, s))
    (ms : List (String × Value)) (s : List Char) :
    readObject inner (writeMembers floatText true ms ++ s) =
      (ms.mapM fun m => (f m.2).map fun v => (m.1, v)).map fun ms => (ms, s) := by
  cases ms with
  | nil =>
    rw [writeMembers]
    rfl
  | cons m ms =>
    have hbrace : expect '\x7d' (writeMembers floatText true (m :: ms) ++ s) = none := by
      rw [writeMembers, if_pos rfl, writeString]
      exact (expect_cons rfl _).trans (if_neg (by decide))
    rw [readObject, hbrace]
    exact readMembers_write (fun m _ => hinner m.2) (List.cons_ne_nil m ms)
      (length_le_writeMembers (m :: ms) s) s

theorem readWith_quote (inner : Option Reader) (t : List Char) :
    readWith readFloat inner ('"' :: t) = (readString t).map fun p => (string p.1, p.2) := by
  rw [readWith, next_cons rfl]
  cases h : readString t <;> simp [h]

theorem readWith_bracket (inner : Option Reader) (t : List Char) :
    readWith readFloat inner ('[' :: t) =
      inner.bind fun r => (readArray r t).map fun p => (array p.1, p.2) := by
  rw [readWith, next_cons rfl]
  cases inner with
  | none => rfl
  | some r => cases h : readArray r t <;> simp [h]

theorem readWith_brace (inner : Option Reader) (t : List Char) :
    readWith readFloat inner ('\x7b' :: t) =
      inner.bind fun r => (readObject r t).map fun p => (object (orderMembers p.1), p.2) := by
  rw [readWith, next_cons rfl]
  cases inner with
  | none => rfl
  | some r => cases h : readObject r t <;> simp [h]

/-- A written value is read up to where it ends, if what stands inside it is. -/
theorem readWith_write (ht : FloatText floatText) (inner : Option (Reader × (Value → Option Value)))
    (hinner : ∀ r ∈ inner, ∀ a s, Stops s →
      r.1 (a.write floatText ++ s) = (r.2 a).map fun v => (v, s))
    (v : Value) {s : List Char} (hs : Stops s) :
    readWith readFloat (inner.map Prod.fst) (v.write floatText ++ s) =
      (v.rereadWith floatText readFloat (inner.map Prod.snd)).map fun v => (v, s) := by
  cases v with
  | null => rfl
  | bool b => cases b <;> rfl
  | number n =>
    rw [write, rereadWith]
    by_cases hn : n.Finite
    · rw [readWith_number (Number.write_ne_nil ht hn) (Number.number_write ht hn) hs,
        reread_finite hn, Option.map_map]
      rfl
    · cases n with
      | float x =>
        have hx : ¬x.isFinite = true := hn
        rw [Number.write, if_neg hx, Number.reread, if_neg hx]
        rfl
      | _ => exact absurd trivial hn
  | string k =>
    rw [write, writeString, List.cons_append, List.append_assoc, readWith_quote]
    exact congrArg _ (readString_writeString k s)
  | array items =>
    rw [write, List.cons_append, readWith_bracket, rereadWith]
    rcases inner with _ | r
    · rfl
    · rw [Option.map_some, Option.bind_some, readArray_write ht (hinner r rfl)]
      cases h : items.mapM r.2 <;> simp [h]
  | object members =>
    rw [write, List.cons_append, readWith_brace, rereadWith]
    rcases inner with _ | r
    · rfl
    · rw [Option.map_some, Option.bind_some, readObject_write (hinner r rfl)]
      cases h : members.mapM fun m => (r.2 m.2).map fun v => (m.1, v) <;> simp [h]

/-- A written value is read up to where it ends, as the value that its text stands for. -/
theorem readValue_write (ht : FloatText floatText) (depth : ℕ) (v : Value) {s : List Char}
    (hs : Stops s) : readValue readFloat depth (v.write floatText ++ s) =
      (v.reread floatText readFloat depth).map fun v => (v, s) := by
  induction depth generalizing v s with
  | zero => exact readWith_write ht none (fun _ h => nomatch h) v hs
  | succ depth ih =>
    refine readWith_write ht (some (readValue readFloat depth, reread floatText readFloat depth))
      ?_ v hs
    rintro r hr a s hs
    obtain rfl := Option.some.inj hr
    exact ih a hs

theorem read_write (ht : FloatText floatText) (v : Value) :
    read readFloat (String.ofList (v.write floatText)) = v.reread floatText readFloat 127 := by
  have h : readValue readFloat 127 (v.write floatText ++ []) = _ := readValue_write ht 127 v .nil
  rw [List.append_nil] at h
  rw [read, String.toList_ofList, h]
  cases v.reread floatText readFloat 127 <;> rfl

theorem isObject_of_reread {depth : ℕ} {ms : List (String × Value)} {w : Value}
    (h : reread floatText readFloat depth (object ms) = some w) : w.isObject = true := by
  cases depth with
  | zero => cases h
  | succ depth =>
    rw [reread, rereadWith] at h
    simp only [Option.bind_eq_bind, Option.bind_some, Option.bind_eq_some_iff, Option.pure_def,
      Option.some.injEq] at h
    obtain ⟨ns, -, rfl⟩ := h
    rfl

/-- The members of an object of distinct keys. -/
theorem get_eq_some_iff {ms : List (String × Value)} (hms : (ms.map Prod.fst).Nodup) {a : String}
    {w : Value} : (object ms).get a = some w ↔ (a, w) ∈ ms := by
  induction ms with
  | nil => simp [get]
  | cons m ms ih =>
    obtain ⟨k, v⟩ := m
    rw [List.map_cons, List.nodup_cons] at hms
    simp only [get] at ih ⊢
    by_cases hk : k = a
    · subst hk
      have hnot : (k, w) ∉ ms := fun h => hms.1 (List.mem_map.2 ⟨_, h, rfl⟩)
      simp [hnot, eq_comm]
    · simp [hk, Ne.symm hk, ih hms.2]

theorem get_eq_none_iff {ms : List (String × Value)} {a : String} :
    (object ms).get a = none ↔ a ∉ ms.map Prod.fst := by
  rw [get, Option.map_eq_none_iff, List.find?_eq_none, List.mem_map]
  exact ⟨fun h ⟨m, hm, hma⟩ => h m hm (beq_iff_eq.2 hma),
    fun h m hm hma => h ⟨m, hm, beq_iff_eq.1 hma⟩⟩

theorem get_reverse {ms : List (String × Value)} (hms : (ms.map Prod.fst).Nodup) (a : String) :
    (object ms.reverse).get a = (object ms).get a := by
  have hrev : (ms.reverse.map Prod.fst).Nodup := by
    rw [List.map_reverse]
    exact List.nodup_reverse.2 hms
  refine Option.ext fun w => ?_
  rw [get_eq_some_iff hrev, get_eq_some_iff hms, List.mem_reverse]

theorem get_mapM {f : Value → Option Value} {ms ns : List (String × Value)}
    (h : (ms.mapM fun m => (f m.2).map fun v => (m.1, v)) = some ns) (a : String) :
    ns.map Prod.fst = ms.map Prod.fst ∧ (object ns).get a = ((object ms).get a).bind f := by
  induction ms generalizing ns with
  | nil =>
    obtain rfl := Option.some.inj h
    exact ⟨rfl, rfl⟩
  | cons m ms ih =>
    obtain ⟨k, u⟩ := m
    simp only [List.mapM_cons, Option.bind_eq_bind, Option.bind_eq_some_iff, Option.map_eq_some_iff,
      Option.pure_def, Option.some.injEq] at h
    obtain ⟨_, ⟨v, hv, rfl⟩, ns, hns, rfl⟩ := h
    obtain ⟨hkeys, hget⟩ := ih hns
    refine ⟨by rw [List.map_cons, List.map_cons, hkeys], ?_⟩
    simp only [get] at hget ⊢
    by_cases hk : k = a
    · simp [hk, hv]
    · simp [hk, hget]

/-- A member of a written object is read from the text of the member. -/
theorem get_of_read (ht : FloatText floatText) {ms : List (String × Value)} {v : Value}
    (hms : (ms.map Prod.fst).Nodup)
    (h : read readFloat (String.ofList ((object ms).write floatText)) = some v) (a : String) :
    v.get a = ((object ms).get a).bind (reread floatText readFloat 126) ∧
      (v.get a = none ↔ (object ms).get a = none) := by
  rw [read_write ht, reread, rereadWith] at h
  simp only [Option.bind_eq_bind, Option.bind_some, Option.bind_eq_some_iff, Option.pure_def,
    Option.some.injEq] at h
  obtain ⟨ns, hns, rfl⟩ := h
  obtain ⟨hkeys, hget⟩ := get_mapM hns a
  rw [get_orderMembers, get_reverse (hkeys ▸ hms)]
  exact ⟨hget, by rw [get_eq_none_iff, get_eq_none_iff, hkeys]⟩

end Value

end Values

/-- A text that begins with no token of JSON is not read. -/
theorem read_eq_none {readFloat : List Char → Option Float} {s : String} {c : Char}
    {l : List Char} (hs : s.toList = c :: l) (hc : Value.tagOf c = 7) (hspace : isSpace c = false) :
    read readFloat s = none := by
  have hnumber : isNumberChar c = false := by
    by_contra hnumber
    rw [Value.tagOf_isNumberChar (Bool.of_not_eq_false hnumber)] at hc
    cases hc
  have hne : c ≠ 'n' ∧ c ≠ 't' ∧ c ≠ 'f' ∧ c ≠ '"' ∧ c ≠ '[' ∧ c ≠ '\x7b' := by
    refine ⟨?_, ?_, ?_, ?_, ?_, ?_⟩
    all_goals
      rintro rfl
      cases hc
  rw [read, hs, readValue, readWith, next_cons hspace]
  simp [hne, hnumber]

end Json
