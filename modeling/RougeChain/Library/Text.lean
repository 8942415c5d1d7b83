import Mathlib.Data.List.DropRight
import Mathlib.Tactic

/-!
# Text

Strings as lists of characters, for programs that trim them, cut them and look for words in them.

* `trim p s` drops the characters that meet `p` from both ends of `s`;
* `lower` changes the ASCII letters only, `eqIgnoreCase` compares up to them;
* `mentions s word` looks for `word` in `s`, up to the case of ASCII letters;
* a text joined by a separator that one side does not contain is read off the
  whole (`append_sep_inj`, `sep_append_inj`).
-/

namespace Text

/-- The characters of `l` without those at both ends that meet `p`. -/
def trimList (p : Char → Bool) (l : List Char) : List Char :=
  ((l.dropWhile p).reverse.dropWhile p).reverse

/-- The text `s` without the characters at both ends that meet `p`. -/
def trim (p : Char → Bool) (s : String) : String := String.ofList (trimList p s.toList)

/-- The text with its ASCII letters in lower case. -/
def lower (s : String) : String := String.ofList (s.toList.map Char.toLower)

/-- Whether `word`, given in lower case, occurs in `s` up to the case of ASCII letters. -/
def mentions (s word : String) : Bool := decide (word.toList <:+: s.toList.map Char.toLower)

/-- The first `n` characters of `s`. -/
def slice (n : ℕ) (s : String) : String := String.ofList (s.toList.take n)

/-- The characters that take the first `n` bytes of UTF-8, if a character ends there. -/
def takeBytesList (n : ℕ) : List Char → Option (List Char)
  | [] => if n = 0 then some [] else none
  | c :: l =>
    if n = 0 then some []
    else if c.utf8Size ≤ n then (takeBytesList (n - c.utf8Size) l).map (c :: ·) else none

/-- The first `n` bytes of `s`, if it has them and a character ends there. -/
def takeBytes (n : ℕ) (s : String) : Option String := (takeBytesList n s.toList).map String.ofList

/-- Whether the text is `n` hexadecimal digits. -/
def isHex (n : ℕ) (s : String) : Bool :=
  s.toList.length == n &&
    s.toList.all fun c => c.isDigit || ('a' ≤ c.toLower && c.toLower ≤ 'f')

/-- Equality up to the case of ASCII letters. -/
def eqIgnoreCase (s t : String) : Bool := lower s == lower t

/-- White space as Unicode has it, the characters of the property `White_Space`. -/
def isWhitespace (c : Char) : Bool :=
  let n := c.toNat
  (9 ≤ n && n ≤ 13) || n == 0x20 || n == 0x85 || n == 0xA0 || n == 0x1680 ||
    (0x2000 ≤ n && n ≤ 0x200A) || n == 0x2028 || n == 0x2029 || n == 0x202F || n == 0x205F ||
    n == 0x3000

/-- White space as JavaScript has it: without the control character U+0085, with the byte order
    mark. -/
def isJsWhitespace (c : Char) : Bool :=
  (isWhitespace c && c.toNat != 0x85) || c.toNat == 0xFEFF

/-! ## Texts without white space -/

theorem trimList_eq_self {p : Char → Bool} {l : List Char} (h : ∀ c ∈ l, p c = false) :
    trimList p l = l := by
  have hdrop {l : List Char} (h : ∀ c ∈ l, p c = false) : l.dropWhile p = l := by
    cases l with
    | nil => rfl
    | cons c l => rw [List.dropWhile_cons, h c List.mem_cons_self, if_neg Bool.false_ne_true]
  rw [trimList, hdrop h, hdrop fun c hc => h c (List.mem_reverse.1 hc), List.reverse_reverse]

/-- A trimmed text is not trimmed further. -/
theorem trimList_trimList (p : Char → Bool) (l : List Char) :
    trimList p (trimList p l) = trimList p l := by
  have hfront : (trimList p l).dropWhile p = trimList p l := by
    have hsub : trimList p l <+: l.dropWhile p := by
      rw [trimList, ← List.reverse_suffix, List.reverse_reverse]
      exact List.dropWhile_suffix p
    cases ht : trimList p l with
    | nil => rfl
    | cons c t =>
      obtain ⟨r, hr⟩ := ht ▸ hsub
      have hc : p c = false := by
        have hhead := List.head_dropWhile_not p (l := l) (by rw [← hr]; exact List.cons_ne_nil _ _)
        simpa only [← hr, List.cons_append, List.head_cons] using hhead
      rw [List.dropWhile_cons, hc, if_neg Bool.false_ne_true]
  rw [trimList, hfront, trimList, List.reverse_reverse, List.dropWhile_idempotent]

theorem trim_trim (p : Char → Bool) (s : String) : trim p (trim p s) = trim p s := by
  rw [trim, trim, String.toList_ofList, trimList_trimList]

theorem trim_eq_self {p : Char → Bool} {s : String} (h : ∀ c ∈ s.toList, p c = false) :
    trim p s = s := by
  rw [trim, trimList_eq_self h, String.ofList_toList]

/-- The ASCII letters are not white space. -/
theorem isWhitespace_of_letter {c : Char} (h : 48 ≤ c.toNat ∧ c.toNat ≤ 122) :
    isWhitespace c = false := by
  simp only [isWhitespace, Bool.or_eq_false_iff, Bool.and_eq_false_iff, beq_eq_false_iff_ne,
    decide_eq_false_iff_not]
  omega

/-- A letter in upper case or a character that does not change in lower case. -/
theorem toLower_cases (c : Char) : (65 ≤ c.toNat ∧ c.toNat ≤ 90) ∨ c.toLower = c := by
  by_cases h : c.val ≥ 'A'.val ∧ c.val ≤ 'Z'.val
  · left
    simp only [ge_iff_le, UInt32.le_iff_toNat_le] at h
    exact h
  · right
    exact dif_neg h

theorem toLower_of_isWhitespace {c : Char} (h : isWhitespace c = true) : c.toLower = c := by
  rcases toLower_cases c with hc | hc
  · rw [isWhitespace_of_letter ⟨by omega, by omega⟩] at h
    cases h
  · exact hc

/-- A text that is a word without white space in lower case has none itself. -/
theorem trim_of_lower {s word : String} (h : lower s = word)
    (hword : word.toList.any isWhitespace = false) : trim isWhitespace s = s := by
  refine trim_eq_self fun c hc => ?_
  by_contra hw
  rw [Bool.not_eq_false] at hw
  have hmem : c.toLower ∈ word.toList := by
    rw [← h, lower, String.toList_ofList]
    exact List.mem_map_of_mem hc
  rw [toLower_of_isWhitespace hw] at hmem
  rw [List.any_eq_true.2 ⟨c, hmem, hw⟩] at hword
  cases hword

theorem trim_of_isHex {n : ℕ} {s : String} (h : isHex n s = true) : trim isWhitespace s = s := by
  rw [isHex, Bool.and_eq_true, List.all_eq_true] at h
  refine trim_eq_self fun c hc => isWhitespace_of_letter ?_
  have hdigit := h.2 c hc
  rw [Bool.or_eq_true, Bool.and_eq_true] at hdigit
  rcases hdigit with hdigit | ⟨ha, hf⟩
  · simp only [Char.isDigit, Bool.and_eq_true, decide_eq_true_eq, ge_iff_le,
      UInt32.le_iff_toNat_le] at hdigit
    exact ⟨hdigit.1, hdigit.2.trans (by decide)⟩
  · rcases toLower_cases c with hc | hc
    · omega
    · rw [hc, decide_eq_true_eq] at ha hf
      have ha' : 97 ≤ c.toNat := ha
      have hf' : c.toNat ≤ 102 := hf
      omega

/-! ## Separated texts -/

/-- Two texts without the separator, followed by it, are read off the whole. -/
theorem append_sep_inj {α : Type*} {c : α} {a a' s s' : List α} (ha : c ∉ a) (ha' : c ∉ a')
    (h : a ++ c :: s = a' ++ c :: s') : a = a' ∧ s = s' := by
  induction a generalizing a' with
  | nil =>
    cases a' with
    | nil => exact ⟨rfl, (List.cons.inj h).2⟩
    | cons d a' => exact absurd ((List.cons.inj h).1 ▸ List.mem_cons_self) ha'
  | cons d a ih =>
    cases a' with
    | nil => exact absurd ((List.cons.inj h).1 ▸ List.mem_cons_self) ha
    | cons d' a' =>
      obtain ⟨rfl, htail⟩ := List.cons.inj h
      rw [List.mem_cons, not_or] at ha ha'
      obtain ⟨rfl, rfl⟩ := ih ha.2 ha'.2 htail
      exact ⟨rfl, rfl⟩

/-- Two texts without the separator, after it, are read off the whole. -/
theorem sep_append_inj {α : Type*} {c : α} {a a' s s' : List α} (hs : c ∉ s) (hs' : c ∉ s')
    (h : a ++ c :: s = a' ++ c :: s') : a = a' ∧ s = s' := by
  have hrev := congrArg List.reverse h
  simp only [List.reverse_append, List.reverse_cons, List.append_assoc, List.cons_append,
    List.nil_append] at hrev
  obtain ⟨h₁, h₂⟩ := append_sep_inj (by simpa using hs) (by simpa using hs') hrev
  exact ⟨List.reverse_injective h₂, List.reverse_injective h₁⟩

theorem toDigits_injective : Function.Injective (Nat.toDigits 10) := by
  intro m n h
  have hm := Nat.ofDigitChars_ten_toDigits (n := m)
  rwa [h, Nat.ofDigitChars_ten_toDigits, eq_comm] at hm

theorem notMem_toDigits {c : Char} (hc : c.isDigit = false) (n : ℕ) : c ∉ Nat.toDigits 10 n :=
  fun h => absurd (Nat.isDigit_of_mem_toDigits (by decide) le_rfl h) (by rw [hc]; decide)

end Text
