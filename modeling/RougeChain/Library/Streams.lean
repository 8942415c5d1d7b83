import Mathlib.Tactic

/-!
# Streams of records

Bytes that are written one after another, and what is read off them again.

* `beBytes w n`: the `w` bytes of a number, the most significant first (`beBytes_append_inj`);
* `Delimited p enc`: an encoding that shows where it ends, for the values that meet `p`; so are
  encodings one after another (`Delimited.append`). With `Shows p view enc` the bytes need only
  say what `view` sees of the value;
* `Shows.flatMap_append`: records are told apart from what follows them by their first byte, so that
  they need not be counted.
-/

namespace Streams

variable {α β γ : Type*} {p : α → Prop} {q : β → Prop} {enc : α → List UInt8}
  {enc' : β → List UInt8} {view : α → γ} {s t : List UInt8}

/-! ## Numbers -/

/-- The `w` bytes of `n`, the most significant first. -/
def beBytes : ℕ → ℕ → List UInt8
  | 0, _ => []
  | w + 1, n => UInt8.ofNat (n / 256 ^ w) :: beBytes w n

@[simp]
theorem length_beBytes (w n : ℕ) : (beBytes w n).length = w := by
  induction w with
  | zero => rfl
  | succ w ih => rw [beBytes, List.length_cons, ih]

/-- The bytes of a number give its value, up to their number. -/
theorem mod_eq_of_beBytes {w n m : ℕ} (h : beBytes w n = beBytes w m) :
    n % 256 ^ w = m % 256 ^ w := by
  induction w with
  | zero => rw [pow_zero, Nat.mod_one, Nat.mod_one]
  | succ w ih =>
    obtain ⟨hhead, htail⟩ := List.cons.inj h
    have hdigit : n / 256 ^ w % 256 = m / 256 ^ w % 256 := by
      have hnat := congrArg UInt8.toNat hhead
      rwa [UInt8.toNat_ofNat', UInt8.toNat_ofNat'] at hnat
    rw [pow_succ, Nat.mod_mul, Nat.mod_mul, ih htail, hdigit]

/-- A number that fits is read back, and with it what follows. -/
theorem beBytes_append_inj {w n m : ℕ} (hn : n < 256 ^ w) (hm : m < 256 ^ w)
    (h : beBytes w n ++ s = beBytes w m ++ t) : n = m ∧ s = t := by
  obtain ⟨hbytes, hrest⟩ := List.append_inj h (by rw [length_beBytes, length_beBytes])
  refine ⟨?_, hrest⟩
  rw [← Nat.mod_eq_of_lt hn, ← Nat.mod_eq_of_lt hm]
  exact mod_eq_of_beBytes hbytes

/-! ## Encodings that show where they end -/

/-- Of the values that meet `p`, the bytes say what `view` sees and where they end. -/
def Shows (p : α → Prop) (view : α → γ) (enc : α → List UInt8) : Prop :=
  ∀ ⦃a b⦄, p a → p b → ∀ ⦃s t⦄, enc a ++ s = enc b ++ t → view a = view b ∧ s = t

/-- Of the values that meet `p`, the bytes say which it is and where they end. -/
def Delimited (p : α → Prop) (enc : α → List UInt8) : Prop :=
  ∀ ⦃a b⦄, p a → p b → ∀ ⦃s t⦄, enc a ++ s = enc b ++ t → a = b ∧ s = t

/-- What is written of a value by way of `view`. -/
theorem Delimited.shows (h : Delimited p enc) (view : β → α) :
    Shows (fun b => p (view b)) view fun b => enc (view b) := fun _ _ ha hb _ _ heq => h ha hb heq

/-- Two encodings one after the other. -/
theorem Delimited.append (h : Delimited p enc) (h' : Delimited q enc') :
    Delimited (fun x : α × β => p x.1 ∧ q x.2) fun x => enc x.1 ++ enc' x.2 := by
  rintro ⟨a, b⟩ ⟨a', b'⟩ ⟨ha, hb⟩ ⟨ha', hb'⟩ s t heq
  rw [List.append_assoc, List.append_assoc] at heq
  obtain ⟨rfl, hrest⟩ := h ha ha' heq
  obtain ⟨rfl, hst⟩ := h' hb hb' hrest
  exact ⟨rfl, hst⟩

/-- Bytes of one length each. -/
theorem Delimited.of_length {w : ℕ} (hlen : ∀ a, p a → (enc a).length = w)
    (hinj : ∀ a b, p a → p b → enc a = enc b → a = b) : Delimited p enc := by
  intro a b ha hb s t heq
  obtain ⟨hbytes, hrest⟩ := List.append_inj heq (by rw [hlen a ha, hlen b hb])
  exact ⟨hinj a b ha hb hbytes, hrest⟩

/-- What does not begin with a byte below `c`. -/
def StartsFrom (c : UInt8) (s : List UInt8) : Prop := ∀ x ∈ s.head?, c ≤ x

theorem StartsFrom.nil (c : UInt8) : StartsFrom c [] := fun _ h => nomatch h

theorem StartsFrom.cons {c x : UInt8} (h : c ≤ x) (s : List UInt8) : StartsFrom c (x :: s) := by
  rintro y hy
  obtain rfl := Option.some.inj hy
  exact h

/-- Records that begin with a byte below `c`, before something that does not: the records are read
    back, and what follows them. -/
theorem Shows.flatMap_append {c : UInt8} (henc : Shows p view enc)
    (hhead : ∀ a, p a → ∃ x l, enc a = x :: l ∧ x < c) (hs : StartsFrom c s)
    (ht : StartsFrom c t) {l l' : List α} (hl : ∀ a ∈ l, p a) (hl' : ∀ a ∈ l', p a)
    (h : l.flatMap enc ++ s = l'.flatMap enc ++ t) : l.map view = l'.map view ∧ s = t := by
  -- A record cannot be taken for what follows the other list.
  have hne {a : α} {r u : List UInt8} (ha : p a) (hu : StartsFrom c u) : u ≠ enc a ++ r := by
    rintro rfl
    obtain ⟨x, b, hx, hlt⟩ := hhead a ha
    rw [hx] at hu
    exact absurd (hu x rfl) (UInt8.not_le.2 hlt)
  induction l generalizing l' with
  | nil =>
    cases l' with
    | nil => exact ⟨rfl, h⟩
    | cons b l' =>
      rw [List.flatMap_cons, List.append_assoc] at h
      exact absurd h (hne (hl' b List.mem_cons_self) hs)
  | cons a l ih =>
    cases l' with
    | nil =>
      rw [List.flatMap_cons, List.append_assoc] at h
      exact absurd h.symm (hne (hl a List.mem_cons_self) ht)
    | cons b l' =>
      rw [List.flatMap_cons, List.flatMap_cons, List.append_assoc, List.append_assoc] at h
      obtain ⟨hview, hrest⟩ := henc (hl a List.mem_cons_self) (hl' b List.mem_cons_self) h
      obtain ⟨hviews, hst⟩ := ih (fun a ha => hl a (List.mem_cons_of_mem _ ha))
        (fun a ha => hl' a (List.mem_cons_of_mem _ ha)) hrest
      exact ⟨by rw [List.map_cons, List.map_cons, hview, hviews], hst⟩

theorem Delimited.flatMap_append {c : UInt8} (henc : Delimited p enc)
    (hhead : ∀ a, p a → ∃ x l, enc a = x :: l ∧ x < c) (hs : StartsFrom c s)
    (ht : StartsFrom c t) {l l' : List α} (hl : ∀ a ∈ l, p a) (hl' : ∀ a ∈ l', p a)
    (h : l.flatMap enc ++ s = l'.flatMap enc ++ t) : l = l' ∧ s = t := by
  obtain ⟨hviews, hst⟩ := (henc.shows id).flatMap_append hhead hs ht hl hl' h
  rw [List.map_id, List.map_id] at hviews
  exact ⟨hviews, hst⟩

end Streams
