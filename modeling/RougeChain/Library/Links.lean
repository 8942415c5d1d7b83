import Mathlib.Tactic

/-!
# Names and files

A directory in which a file may have several names. A file is made under a name that is free
(`createNew`), grows through a handle (`append`), gets another name that is free (`link`) and
loses names (`remove`). The handle is the number of the file.

`Kept d d' tmp mine` says that `d'` differs from `d` at most in the file `mine` and its name `tmp`:
that is what one writer does to the others, whichever operation it performs
(`kept_createNew`, `kept_append`, `kept_link`, `kept_remove`).
-/

/-- The file each name points to, and what the files contain. -/
structure Links (P : Type) where
  entry : P → Option ℕ
  data : ℕ → List Char
  /-- Files from here on have never been used. -/
  next : ℕ
  entry_lt : ∀ p i, entry p = some i → i < next

namespace Links

variable {P : Type} [DecidableEq P] (d : Links P)

/-- The contents of the file named `p`. -/
def read (p : P) : Option (List Char) := (d.entry p).map d.data

/-- An empty file under a name that is free; its handle is `d.next`. -/
def createNew (p : P) : Option (Links P) :=
  if d.entry p = none then
    some {
      entry := Function.update d.entry p (some d.next)
      data := Function.update d.data d.next []
      next := d.next + 1
      entry_lt := by
        intro q i hq
        rw [Function.update_apply] at hq
        split at hq
        · exact Option.some.inj hq ▸ Nat.lt_succ_self _
        · exact Nat.lt_succ_of_lt (d.entry_lt q i hq) }
  else none

/-- Write `s` at the end of the file. -/
def append (i : ℕ) (s : List Char) : Links P :=
  { d with data := Function.update d.data i (d.data i ++ s) }

/-- Give the file named `p` the name `q` as well, if there is such a file and `q` is free. -/
def link (p q : P) : Option (Links P) :=
  match h : d.entry p with
  | none => none
  | some i =>
    if d.entry q = none then
      some {
        d with
        entry := Function.update d.entry q (some i)
        entry_lt := by
          intro r j hr
          rw [Function.update_apply] at hr
          split at hr
          · exact Option.some.inj hr ▸ d.entry_lt p i h
          · exact d.entry_lt r j hr }
    else none

/-- Take the name `p` away. -/
def remove (p : P) : Links P :=
  { d with
    entry := Function.update d.entry p none
    entry_lt := by
      intro q i hq
      rw [Function.update_apply] at hq
      split at hq
      · cases hq
      · exact d.entry_lt q i hq }

/-! ## What a writer leaves alone -/

/-- `d'` is `d` up to the file `mine` and the name `tmp` of it. -/
structure Kept (d d' : Links P) (tmp : P) (mine : ℕ) : Prop where
  entry : ∀ p i, d.entry p = some i → i ≠ mine ∨ p ≠ tmp → d'.entry p = some i
  entry_of_ne : ∀ p i, d'.entry p = some i → i ≠ mine → d.entry p = some i
  data_of_ne : ∀ i < d.next, i ≠ mine → d'.data i = d.data i
  /-- No file with another name is written to. -/
  data_of_entry : ∀ p i, d.entry p = some i → p ≠ tmp → d'.data i = d.data i

variable {d} {d' : Links P} {p q tmp : P} {i mine : ℕ}

omit [DecidableEq P] in
theorem Kept.refl (d : Links P) (tmp : P) (mine : ℕ) : Kept d d tmp mine :=
  ⟨fun _ _ h _ => h, fun _ _ h _ => h, fun _ _ _ => rfl, fun _ _ _ _ => rfl⟩

omit [DecidableEq P] in
/-- Under another name the same text is read. -/
theorem Kept.read {text : List Char} (h : Kept d d' tmp mine) (hp : p ≠ tmp)
    (hread : d.read p = some text) : d'.read p = some text := by
  obtain ⟨i, hi, rfl⟩ := Option.map_eq_some_iff.1 hread
  rw [Links.read, h.entry p i hi (.inr hp), Option.map_some, h.data_of_entry p i hi hp]

theorem createNew_eq_some (h : d.createNew p = some d') : d.entry p = none ∧
    d'.entry = Function.update d.entry p (some d.next) ∧
    d'.data = Function.update d.data d.next [] := by
  rw [createNew] at h
  split at h
  next hfree =>
    obtain rfl := Option.some.inj h
    exact ⟨hfree, rfl, rfl⟩
  · cases h

theorem link_eq_some (h : d.link p q = some d') (hp : d.entry p = some i) : d.entry q = none ∧
    d'.entry = Function.update d.entry q (some i) ∧ d'.data = d.data := by
  rw [link] at h
  split at h
  · cases h
  next j hj =>
    obtain rfl : j = i := Option.some.inj (hj.symm.trans hp)
    split at h
    next hfree =>
      obtain rfl := Option.some.inj h
      exact ⟨hfree, rfl, rfl⟩
    · cases h

theorem kept_createNew (h : d.createNew p = some d') : Kept d d' p d.next := by
  obtain ⟨hfree, hentry, hdata⟩ := createNew_eq_some h
  have hold : ∀ q i, d.entry q = some i → d'.entry q = some i := fun q i hq => by
    rw [hentry, Function.update_of_ne fun hqp => by rw [hqp, hfree] at hq; cases hq]
    exact hq
  have hsame : ∀ i < d.next, d'.data i = d.data i := fun i hi => by
    rw [hdata, Function.update_of_ne hi.ne]
  refine ⟨fun q i hq _ => hold q i hq, fun q i hq hi => ?_, fun i hi _ => hsame i hi,
    fun q i hq _ => hsame i (d.entry_lt q i hq)⟩
  rw [hentry, Function.update_apply] at hq
  split at hq
  · exact absurd (Option.some.inj hq).symm hi
  · exact hq

omit [DecidableEq P] in
/-- Writing to a file that has no name but `tmp`. -/
theorem kept_append (s : List Char) (h : ∀ p, d.entry p = some i → p = tmp) :
    Kept d (d.append i s) tmp i := by
  refine ⟨fun _ _ h _ => h, fun _ _ h _ => h, fun j _ hj => Function.update_of_ne hj .., ?_⟩
  intro p j hp hptmp
  refine Function.update_of_ne ?_ ..
  rintro rfl
  exact hptmp (h p hp)

theorem kept_link (h : d.link p q = some d') (hp : d.entry p = some i) (tmp : P) :
    Kept d d' tmp i := by
  obtain ⟨hfree, hentry, hdata⟩ := link_eq_some h hp
  refine ⟨fun r j hr _ => ?_, fun r j hr hj => ?_, fun j _ _ => congrFun hdata j,
    fun r j _ _ => congrFun hdata j⟩
  · rw [hentry, Function.update_of_ne fun hrq => by rw [hrq, hfree] at hr; cases hr]
    exact hr
  · rw [hentry, Function.update_apply] at hr
    split at hr
    · exact absurd (Option.some.inj hr).symm hj
    · exact hr

theorem kept_remove (hp : d.entry p = some i) : Kept d (d.remove p) p i := by
  refine ⟨fun q j hq hne => ?_, fun q j hq _ => ?_, fun _ _ _ => rfl, fun _ _ _ _ => rfl⟩
  · refine (Function.update_of_ne ?_ ..).trans hq
    rintro rfl
    obtain rfl : i = j := Option.some.inj (hp.symm.trans hq)
    exact hne.elim (fun h => h rfl) fun h => h rfl
  · change Function.update d.entry p none q = some j at hq
    rw [Function.update_apply] at hq
    split at hq
    · cases hq
    · exact hq

end Links
