import RougeChain.Library.Text

/-!
# Lines

Reading a text of lines back.

* `rfind word text` is where a word occurs last (`rfind_append`);
* `lines text` are the lines of a text, without the ends of lines, and `unlines` puts lines
  together again (`lines_unlines`). A carriage return before the end of a line belongs to it and
  is lost;
* `parseUnsigned w` reads a decimal of at most `w` bits (`parseUnsigned_toDigits`).
-/

namespace Text

/-- Where `word` occurs last in the text. -/
def rfind (word : List Char) : List Char → Option ℕ
  | [] => if word = [] then some 0 else none
  | c :: text =>
    match rfind word text with
    | some n => some (n + 1)
    | none => if word <+: c :: text then some 0 else none

/-- The line without a carriage return at its end. -/
def stripCr (line : List Char) : List Char :=
  if line.getLast? = some '\r' then line.dropLast else line

/-- The lines of a text. What stands after the last end of a line is a line if it is not empty,
    and keeps its carriage return. -/
def lines (text : List Char) : List (List Char) :=
  let pieces := text.splitOn '\n'
  pieces.dropLast.map stripCr ++ (pieces.getLast?.toList.filter (· ≠ []))

/-- Each line followed by the end of the line. -/
def unlines (ls : List (List Char)) : List Char := ls.flatMap (· ++ ['\n'])

/-- An unsigned decimal of at most `w` bits; a plus sign may stand before it. -/
def parseUnsigned (w : ℕ) (text : List Char) : Option ℕ :=
  let digits := if text.head? = some '+' then text.tail else text
  let n := Nat.ofDigitChars 10 digits 0
  if digits ≠ [] ∧ digits.all Char.isDigit ∧ n < 2 ^ w then some n else none

variable {c : Char} {word text : List Char}

theorem rfind_eq_none (h : c ∉ text) : rfind (c :: word) text = none := by
  induction text with
  | nil => rfl
  | cons d text ih =>
    rw [List.mem_cons, not_or] at h
    have hprefix : ¬ (c :: word) <+: d :: text := fun hp => h.1 (List.cons_prefix_cons.1 hp).1
    rw [rfind, ih h.2]
    exact if_neg hprefix

/-- A word whose first letter does not come again occurs last where it stands. -/
theorem rfind_append (a : List Char) (h : c ∉ word ++ text) :
    rfind (c :: word) (a ++ (c :: (word ++ text))) = some a.length := by
  induction a with
  | nil =>
    have hprefix : (c :: word) <+: c :: (word ++ text) := ⟨text, rfl⟩
    rw [List.nil_append, rfind, rfind_eq_none h]
    exact if_pos hprefix
  | cons d a ih => rw [List.cons_append, rfind, ih, List.length_cons]

theorem splitOn_unlines {ls : List (List Char)} (h : ∀ l ∈ ls, '\n' ∉ l) :
    (unlines ls).splitOn '\n' = ls ++ [[]] := by
  induction ls with
  | nil => rfl
  | cons l ls ih =>
    rw [List.forall_mem_cons] at h
    have hfree : ∀ x ∈ l, (x == '\n') = false := fun x hx =>
      beq_eq_false_iff_ne.2 fun hxn => h.1 (hxn ▸ hx)
    have hhead : unlines (l :: ls) = l ++ '\n' :: unlines ls := by
      rw [unlines, List.flatMap_cons, List.append_assoc]
      rfl
    rw [hhead, List.splitOn, List.splitOnP_append_cons_of_forall_mem hfree '\n' rfl]
    exact congrArg (l :: ·) (ih h.2)

theorem lines_unlines {ls : List (List Char)} (h : ∀ l ∈ ls, '\n' ∉ l) :
    lines (unlines ls) = ls.map stripCr := by
  rw [lines, splitOn_unlines h]
  simp

theorem stripCr_of_notMem {line : List Char} (h : '\r' ∉ line) : stripCr line = line :=
  if_neg fun hlast => h (List.mem_of_getLast? hlast)

theorem stripCr_append (a : List Char) {b : List Char} (hb : b ≠ []) :
    stripCr (a ++ b) = a ++ stripCr b := by
  rw [stripCr, stripCr, List.getLast?_append_of_ne_nil a hb]
  split
  · exact List.dropLast_append_of_ne_nil hb
  · rfl

@[simp]
theorem dropPrefix?_append (word text : List Char) :
    (word ++ text).dropPrefix? word = some text :=
  List.dropPrefix?_eq_some_iff.2 ⟨word, rfl, beq_self_eq_true word⟩

theorem parseUnsigned_toDigits {w n : ℕ} (h : n < 2 ^ w) :
    parseUnsigned w (Nat.toDigits 10 n) = some n := by
  have hplus : (Nat.toDigits 10 n).head? ≠ some '+' := fun hhead =>
    notMem_toDigits (by decide) n (List.mem_of_head? hhead)
  have hdigits : (Nat.toDigits 10 n).all Char.isDigit = true := List.all_eq_true.2 fun c hc =>
    Nat.isDigit_of_mem_toDigits (by decide) le_rfl hc
  rw [parseUnsigned, if_neg hplus, Nat.ofDigitChars_ten_toDigits]
  exact if_pos ⟨Nat.toDigits_ne_nil, hdigits, h⟩

end Text
