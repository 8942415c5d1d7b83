import RougeChain.Library.Json
import RougeChain.Library.Text

/-!
# The text of a JSON value

`Value.write` is the compact text of a value, without white space, as a program
hashes and signs it. How a float is written is a parameter; all that is assumed
of it is that two floats have two texts, which are numbers and not integers
(`FloatText`). Two texts have two encodings in UTF-8 (`utf8_inj`).
-/

namespace Json

/-- The bytes of a text in UTF-8. -/
def utf8 (text : List Char) : List UInt8 := text.flatMap String.utf8EncodeChar

theorem utf8_inj {s t : List Char} (h : utf8 s = utf8 t) : s = t := by
  have hbytes : (String.ofList s).toByteArray = (String.ofList t).toByteArray := by
    rw [String.toByteArray_ofList, String.toByteArray_ofList, List.utf8Encode, List.utf8Encode]
    exact congrArg List.toByteArray h
  exact String.ofList_injective (String.toByteArray_inj.1 hbytes)

/-- A byte below 128 is a character of its own. -/
theorem eq_of_utf8EncodeChar_append {c : Char} {b : UInt8} {s t : List UInt8} (hb : b.toNat < 128)
    (h : String.utf8EncodeChar c ++ s = b :: t) : c.toNat = b.toNat := by
  have hcons {n : ℕ} {l : List UInt8} (h : UInt8.ofNat n :: l ++ s = b :: t) (hn : n < 256) :
      n = b.toNat := by
    rw [← (List.cons.inj h).1, UInt8.toNat_ofNat', Nat.mod_eq_of_lt hn]
  have hlt : c.val.toNat < 1114112 := by
    have := c.valid
    rcases this with h | h <;> omega
  rw [String.utf8EncodeChar] at h
  split_ifs at h with h₁ h₂ h₃
  · exact hcons h (h₁.trans_lt (by decide))
  all_goals
    have := hcons h (by omega)
    omega

/-- The first character of a text is read off its first byte. -/
theorem head_of_utf8 {s : List Char} {c : Char} {t : List UInt8} (hc : c.toNat < 128)
    (h : utf8 s = UInt8.ofNat c.toNat :: t) : ∃ l, s = c :: l := by
  rcases s with _ | ⟨d, s⟩
  · cases h
  · rw [utf8, List.flatMap_cons] at h
    have hbyte : (UInt8.ofNat c.toNat).toNat = c.toNat := by
      rw [UInt8.toNat_ofNat', Nat.mod_eq_of_lt (by omega)]
    have hd := eq_of_utf8EncodeChar_append (by omega) h
    rw [hbyte] at hd
    exact ⟨s, by rw [← Char.ofNat_toNat d, hd, Char.ofNat_toNat]⟩

/-! ## Strings -/

/-- A character inside a string. -/
def escapeChar (c : Char) : List Char :=
  if c = '"' then ['\\', '"']
  else if c = '\\' then ['\\', '\\']
  else if c.toNat = 8 then ['\\', 'b']
  else if c.toNat = 9 then ['\\', 't']
  else if c.toNat = 10 then ['\\', 'n']
  else if c.toNat = 12 then ['\\', 'f']
  else if c.toNat = 13 then ['\\', 'r']
  else if c.toNat < 32 then
    ['\\', 'u', '0', '0', Nat.digitChar (c.toNat / 16), Nat.digitChar (c.toNat % 16)]
  else [c]

def writeString (s : String) : List Char := '"' :: (s.toList.flatMap escapeChar ++ ['"'])

/-- The character that a letter after a backslash stands for. -/
def unescape (c : Char) : Char :=
  if c = 'b' then Char.ofNat 8 else if c = 't' then Char.ofNat 9 else if c = 'n' then Char.ofNat 10
  else if c = 'f' then Char.ofNat 12 else if c = 'r' then Char.ofNat 13 else c

theorem escapeChar_eq_cons (c : Char) : ∃ d l, escapeChar c = d :: l ∧ d ≠ '"' := by
  rw [escapeChar]
  split_ifs with h₁
  all_goals first | exact ⟨_, _, rfl, by decide⟩ | exact ⟨_, _, rfl, h₁⟩

/-! ## Numbers -/

def isNumberChar (c : Char) : Bool :=
  c.isDigit || c == '-' || c == '+' || c == '.' || c == 'e' || c == 'E'

/-- A rest that does not go on with a number. -/
def Stops (s : List Char) : Prop := ∀ c ∈ s.head?, isNumberChar c = false

theorem Stops.nil : Stops [] := fun _ h => nomatch h

theorem Stops.cons {c : Char} {s : List Char} (h : isNumberChar c = false) : Stops (c :: s) := by
  intro d hd
  obtain rfl := Option.some.inj hd
  exact h

/-- What is assumed of the texts of floats. -/
structure FloatText (floatText : Float → List Char) : Prop where
  inj : ∀ {x y}, x.isFinite = true → y.isFinite = true → floatText x = floatText y → x = y
  number : ∀ {x}, x.isFinite = true → ∀ c ∈ floatText x, isNumberChar c = true
  /-- The text is not that of an integer. -/
  marked : ∀ {x}, x.isFinite = true → '.' ∈ floatText x ∨ 'e' ∈ floatText x

variable (floatText : Float → List Char)

namespace Number

/-- A negative number is negative, a float is finite, and a wide integer needs its width. -/
def Valid : Number → Prop
  | posInt _ => True
  | negInt n => n.toInt < 0
  | float x => x.isFinite = true
  | wide n => 2 ^ 64 ≤ n.toNat

/-- The number has a text of its own. -/
def Finite : Number → Prop
  | float x => x.isFinite = true
  | _ => True

def write : Number → List Char
  | posInt n => Nat.toDigits 10 n.toNat
  | negInt n =>
    if n.toInt < 0 then '-' :: Nat.toDigits 10 n.toInt.natAbs else Nat.toDigits 10 n.toInt.natAbs
  | float x => if x.isFinite then floatText x else "null".toList
  | wide n => Nat.toDigits 10 n.toNat

variable {floatText} {a b : Number}

theorem isNumberChar_of_digit {c : Char} {n : ℕ} (h : c ∈ Nat.toDigits 10 n) :
    isNumberChar c = true := by
  rw [isNumberChar, Nat.isDigit_of_mem_toDigits (by decide) le_rfl h]
  rfl

theorem number_write (ht : FloatText floatText) (ha : a.Finite) :
    ∀ c ∈ a.write floatText, isNumberChar c = true := by
  intro c hc
  cases a with
  | posInt n => exact isNumberChar_of_digit hc
  | negInt n =>
    rw [write] at hc
    split_ifs at hc
    · rcases List.mem_cons.1 hc with rfl | hc
      · rfl
      · exact isNumberChar_of_digit hc
    · exact isNumberChar_of_digit hc
  | float x =>
    have hfinite : x.isFinite = true := ha
    rw [write, if_pos hfinite] at hc
    exact ht.number hfinite c hc
  | wide n => exact isNumberChar_of_digit hc

theorem write_ne_nil (ht : FloatText floatText) (ha : a.Finite) : a.write floatText ≠ [] := by
  cases a with
  | posInt n => exact Nat.toDigits_ne_nil
  | negInt n =>
    rw [write]
    split_ifs
    · exact List.cons_ne_nil _ _
    · exact Nat.toDigits_ne_nil
  | float x =>
    have hfinite : x.isFinite = true := ha
    rw [write, if_pos hfinite]
    rcases ht.marked hfinite with h | h
    all_goals exact List.ne_nil_of_mem h
  | wide n => exact Nat.toDigits_ne_nil

end Number

/-! ## Values -/

namespace Value

mutual

/-- The text of the value, without white space. -/
def write : Value → List Char
  | null => "null".toList
  | bool true => "true".toList
  | bool false => "false".toList
  | number n => n.write floatText
  | string s => writeString s
  | array items => '[' :: writeItems true items
  | object members => '\x7b' :: writeMembers true members

/-- The items and the closing bracket; `first` when no item stands before them. -/
def writeItems (first : Bool) : List Value → List Char
  | [] => [']']
  | a :: as => (if first then [] else [',']) ++ (write a ++ writeItems false as)

def writeMembers (first : Bool) : List (String × Value) → List Char
  | [] => ['\x7d']
  | (k, a) :: as =>
    (if first then [] else [',']) ++ (writeString k ++ ':' :: (write a ++ writeMembers false as))

end

/-- What the first character of a text says about its value. -/
def tagOf (c : Char) : ℕ :=
  if c = 'n' then 0 else if c = 't' then 1 else if c = 'f' then 2 else if c = '"' then 3
  else if c = '[' then 4 else if c = '\x7b' then 5 else if isNumberChar c then 6 else 7

variable {floatText}

theorem tagOf_isNumberChar {c : Char} (h : isNumberChar c = true) : tagOf c = 6 := by
  rw [tagOf, if_pos h]
  split_ifs with h₁ h₂ h₃ h₄ h₅ h₆
  all_goals first | rfl | (subst c; revert h; decide)

/-- After an item comes a comma or a bracket. -/
theorem stops_items (as : List Value) (s : List Char) :
    Stops (writeItems floatText false as ++ s) := by
  cases as with
  | nil =>
    rw [writeItems]
    exact .cons rfl
  | cons a as =>
    rw [writeItems, if_neg Bool.false_ne_true]
    exact .cons rfl

theorem stops_members (as : List (String × Value)) (s : List Char) :
    Stops (writeMembers floatText false as ++ s) := by
  rcases as with _ | ⟨⟨k, a⟩, as⟩
  · rw [writeMembers]
    exact .cons rfl
  · rw [writeMembers, if_neg Bool.false_ne_true]
    exact .cons rfl

end Value

/-! ## Encoding

How the fields of a record become the members of an object. -/

/-- The value that a program writes for an `α`. -/
class Encode (α : Type) where
  encode : α → Value

export Encode (encode)

instance : Encode Value := ⟨fun v => v⟩

instance : Encode String := ⟨.string⟩

instance : Encode Bool := ⟨.bool⟩

instance : Encode UInt64 := ⟨fun n => .number (.posInt n)⟩

instance : Encode UInt32 := ⟨fun n => .number (.posInt n.toUInt64)⟩

instance : Encode UInt16 := ⟨fun n => .number (.posInt n.toUInt64)⟩

instance : Encode UInt8 := ⟨fun n => .number (.posInt n.toUInt64)⟩

instance : Encode (BitVec 128) :=
  ⟨fun n => if n.toNat < 2 ^ 64 then .number (.posInt (.ofNat n.toNat)) else .number (.wide n)⟩

/-- A float that is not finite is written as `null`. -/
instance : Encode Float := ⟨fun x => if x.isFinite then .number (.float x) else .null⟩

instance {α : Type} [Encode α] : Encode (List α) := ⟨fun l => .array (l.map encode)⟩

/-- A field that is left out when it is absent. -/
def field {α : Type} [Encode α] (name : String) (x : Option α) : String × Option Value :=
  (name, x.map encode)

/-- A field that is written as `null` when it is absent. -/
def shown {α : Type} [Encode α] (name : String) (x : Option α) : String × Option Value :=
  (name, some ((x.map encode).getD .null))

/-- The members of an object that leaves absent fields out. -/
def compact (fields : List (String × Option Value)) : List (String × Value) :=
  fields.filterMap fun f => f.2.map (Prod.mk f.1)

/-! ## A text of floats -/

/-- Writes a float by its bits. -/
def bitsText (x : Float) : List Char := '.' :: Nat.toDigits 10 x.toBits.toNat

theorem floatText_bits : FloatText bitsText where
  inj {x y} _ _ h := by
    have hbits : x.toModel.toBits = y.toModel.toBits :=
      UInt64.toNat_inj.1 (Text.toDigits_injective (List.cons.inj h).2)
    rcases x with ⟨⟨b, hb⟩⟩
    rcases y with ⟨⟨c, hc⟩⟩
    obtain rfl : b = c := hbits
    rfl
  number _ c hc := by
    rcases List.mem_cons.1 hc with rfl | hc
    · rfl
    · exact Number.isNumberChar_of_digit hc
  marked _ := .inl List.mem_cons_self

end Json
