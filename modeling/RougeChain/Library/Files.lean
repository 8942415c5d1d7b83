import Mathlib.Tactic

/-!
# Files

A directory as the processes that use it see it. A name points to a file, and a handle keeps
pointing to the file it was opened on, whatever becomes of the name. So two writers that create
the same name share one file, a write goes where the handle's file now is, and `rename` moves the
file with the handles that are open on it.

Contents are lists of characters. A write through a fresh handle replaces the beginning of the
file and keeps what lies beyond (`write`).

* `read_create_of_ne`, `read_write_of_ne`: what is done to one name's file leaves another alone;
* `read_write_self`, `read_rename_self`: what a write and a rename put where.
-/

/-- A directory: the file each name points to, and what the files contain. A file has at most one
    name. -/
structure Files (P : Type) where
  entry : P → Option ℕ
  data : ℕ → List Char
  /-- Files from here on have never been used. -/
  next : ℕ
  entry_lt : ∀ p i, entry p = some i → i < next
  entry_inj : ∀ p q i, entry p = some i → entry q = some i → p = q

namespace Files

variable {P : Type} [DecidableEq P] (d : Files P)

/-- The directory without files. -/
def empty (P : Type) : Files P := ⟨fun _ => none, fun _ => [], 0, by simp, by simp⟩

/-- The contents of the file named `p`. -/
def read (p : P) : Option (List Char) := (d.entry p).map d.data

/-- Open `p` for writing: the file it points to is emptied, or a new one made. The number is the
    handle. -/
def create (p : P) : Files P × ℕ :=
  match h : d.entry p with
  | some i => ({ d with data := Function.update d.data i [] }, i)
  | none =>
    ({ entry := Function.update d.entry p (some d.next)
       data := Function.update d.data d.next []
       next := d.next + 1
       entry_lt := by
        intro q i hq
        rw [Function.update_apply] at hq
        split at hq
        · cases hq
          exact Nat.lt_succ_self _
        · exact Nat.lt_succ_of_lt (d.entry_lt q i hq)
       entry_inj := by
        intro q r i hq hr
        rw [Function.update_apply] at hq hr
        split at hq <;> split at hr
        · rename_i hqp hrp
          rw [hqp, hrp]
        · cases hq
          exact absurd (d.entry_lt r _ hr) (Nat.lt_irrefl _)
        · cases hr
          exact absurd (d.entry_lt q _ hq) (Nat.lt_irrefl _)
        · exact d.entry_inj q r i hq hr }, d.next)

/-- Write `s` through a handle that stands at the beginning of the file. -/
def write (i : ℕ) (s : List Char) : Files P :=
  { d with data := Function.update d.data i (s ++ (d.data i).drop s.length) }

/-- Move the file named `p` to the name `q`; nothing is done when there is no such file. -/
def rename (p q : P) : Option (Files P) :=
  match h : d.entry p with
  | none => none
  | some i => some
    { d with
      entry := fun r => if r = q then some i else if r = p then none else d.entry r
      entry_lt := by
        intro r j hr
        split at hr
        · cases hr
          exact d.entry_lt p _ h
        · split at hr
          · cases hr
          · exact d.entry_lt r j hr
      entry_inj := by
        intro r r' j hr hr'
        split at hr <;> split at hr'
        · rename_i hrq hrq'
          rw [hrq, hrq']
        · cases hr
          split at hr'
          · cases hr'
          · exact absurd (d.entry_inj r' p _ hr' h) ‹_›
        · cases hr'
          split at hr
          · cases hr
          · exact absurd (d.entry_inj r p _ hr h) ‹_›
        · split at hr
          · cases hr
          · split at hr'
            · cases hr'
            · exact d.entry_inj r r' j hr hr' }

variable {d} {p q : P}

@[simp]
theorem entry_create_self : (d.create p).1.entry p = some (d.create p).2 := by
  rw [create]
  split
  · assumption
  · exact Function.update_self ..

theorem entry_create_of_ne (h : q ≠ p) : (d.create p).1.entry q = d.entry q := by
  rw [create]
  split
  · rfl
  · exact Function.update_of_ne h ..

@[simp]
theorem data_create : (d.create p).1.data (d.create p).2 = [] := by
  rw [create]
  split <;> exact Function.update_self ..

/-- Opening `p` empties no other file. -/
theorem data_create_of_ne {i : ℕ} (h : i ≠ (d.create p).2) :
    (d.create p).1.data i = d.data i := by
  rw [create] at h ⊢
  split at h
  · next j hj => simpa [hj] using Function.update_of_ne h [] d.data
  · next hj => exact Function.update_of_ne h ..

omit [DecidableEq P] in
/-- Two names that point to files point to different ones. -/
theorem ne_of_entry {i j : ℕ} (hne : q ≠ p) (hq : d.entry q = some j) (hp : d.entry p = some i) :
    j ≠ i := fun h => hne (d.entry_inj q p j hq (h ▸ hp))

/-- Opening `p` leaves the file of another name as it is. -/
theorem read_create_of_ne (hne : q ≠ p) : (d.create p).1.read q = d.read q := by
  rw [read, read, entry_create_of_ne hne]
  cases hq : d.entry q with
  | none => rfl
  | some j =>
    have hj : (d.create p).1.entry q = some j := by rw [entry_create_of_ne hne, hq]
    rw [Option.map_some, Option.map_some, data_create_of_ne (ne_of_entry hne hj entry_create_self)]

omit [DecidableEq P] in
@[simp]
theorem entry_write (i : ℕ) (s : List Char) : (d.write i s).entry = d.entry := rfl

omit [DecidableEq P] in
/-- Writing an empty file fills it. -/
theorem read_write_self {i : ℕ} (s : List Char) (h : d.entry p = some i) (hd : d.data i = []) :
    (d.write i s).read p = some s := by
  simp [read, write, h, hd]

omit [DecidableEq P] in
/-- Writing the file of `p` leaves the file of another name as it is. -/
theorem read_write_of_ne {i : ℕ} (s : List Char) (hne : q ≠ p) (hi : d.entry p = some i) :
    (d.write i s).read q = d.read q := by
  rw [read, read, entry_write]
  cases hj : d.entry q with
  | none => rfl
  | some j => simp [write, Function.update_of_ne (ne_of_entry hne hj hi)]

/-- A rename finds the file it moves. -/
theorem exists_rename {s : List Char} (h : d.read p = some s) : ∃ d', d.rename p q = some d' := by
  rw [read, Option.map_eq_some_iff] at h
  obtain ⟨i, hi, -⟩ := h
  rw [rename]
  split
  · next hn =>
    rw [hi] at hn
    cases hn
  · exact ⟨_, rfl⟩

/-- After a rename, the new name holds what the old one held. -/
theorem read_rename_self {d' : Files P} (h : d.rename p q = some d') : d'.read q = d.read p := by
  rw [rename] at h
  split at h
  · cases h
  · next i hi =>
    cases h
    simp [read, hi]

end Files
