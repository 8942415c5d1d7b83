import Mathlib.Tactic

/-!
# Runs

A transition system given by a function `step`: a run is a list of actions, taken one after
another (`run`). `Along step ok s as` says that every action of the run meets `ok` in the state
it is taken in, and `Along.invariant` is the induction every safety result of this development
uses: what one step keeps, as long as it meets `ok`, the whole run keeps.
-/

namespace Runs

variable {S A : Type*} (step : S → A → S)

/-- The state after the actions `as`. -/
def run (s : S) (as : List A) : S := as.foldl step s

@[simp]
theorem run_nil (s : S) : run step s [] = s := rfl

@[simp]
theorem run_cons (s : S) (a : A) (as : List A) :
    run step s (a :: as) = run step (step s a) as := rfl

theorem run_append (s : S) (as bs : List A) :
    run step s (as ++ bs) = run step (run step s as) bs := List.foldl_append

/-- Every action of the run meets `ok` in the state it is taken in. -/
def Along (ok : S → A → Prop) : S → List A → Prop
  | _, [] => True
  | s, a :: as => ok s a ∧ Along ok (step s a) as

instance Along.decidable (ok : S → A → Prop) [∀ s a, Decidable (ok s a)] :
    ∀ s as, Decidable (Along step ok s as)
  | _, [] => .isTrue trivial
  | s, a :: as => @instDecidableAnd _ _ _ (Along.decidable ok (step s a) as)

variable {step} {ok : S → A → Prop} {I : S → Prop}

/-- What every step keeps, the run keeps. -/
theorem run_invariant (hstep : ∀ s a, I s → I (step s a)) : ∀ {s} as, I s → I (run step s as)
  | _, [], hs => hs
  | s, a :: as, hs => run_invariant hstep as (hstep s a hs)

/-- What every step that meets `ok` keeps, the run keeps. -/
theorem Along.invariant (hstep : ∀ s a, ok s a → I s → I (step s a)) :
    ∀ {s as}, Along step ok s as → I s → I (run step s as)
  | _, [], _, hs => hs
  | s, a :: _, ⟨ha, has⟩, hs => has.invariant hstep (hstep s a ha hs)

/-- What a step that meets `ok` meets as well in a state that the run keeps to. -/
theorem Along.strengthen {ok' : S → A → Prop} (hstep : ∀ s a, ok s a → I s → I (step s a))
    (h : ∀ s a, ok s a → I s → ok' s a) :
    ∀ {s as}, Along step ok s as → I s → Along step ok' s as
  | _, [], _, _ => trivial
  | s, a :: _, ⟨ha, has⟩, hs => ⟨h s a ha hs, has.strengthen hstep h (hstep s a ha hs)⟩

/-- A fact about the actions of a run, whatever the states, holds along it. -/
theorem Along.and {q : A → Prop} :
    ∀ {s as}, Along step ok s as → (∀ a ∈ as, q a) → Along step (fun s a => ok s a ∧ q a) s as
  | _, [], _, _ => trivial
  | _, a :: _, ⟨ha, has⟩, hq =>
    ⟨⟨ha, hq a List.mem_cons_self⟩, has.and fun b hb => hq b (List.mem_cons_of_mem _ hb)⟩

theorem Along.append {s : S} {as bs : List A} :
    Along step ok s (as ++ bs) ↔ Along step ok s as ∧ Along step ok (run step s as) bs := by
  induction as generalizing s with
  | nil => simp [Along]
  | cons a as ih => simp only [List.cons_append, Along, ih, run_cons, and_assoc]

/-- A run that stops early still meets `ok` all along. -/
theorem Along.take {s : S} {as : List A} (h : Along step ok s as) (n : ℕ) :
    Along step ok s (as.take n) := by
  rw [← List.take_append_drop n as, Along.append] at h
  exact h.1

/-! ## Tasks

Several activities that take turns are a list of tasks; a turn replaces one of them. -/

variable {T : Type*} {l : List T} {i : ℕ} {t t' : T}

/-- Counting after one task has moved. -/
theorem countP_set_add (p : T → Bool) (t' : T) (h : l[i]? = some t) :
    (l.set i t').countP p + (p t).toNat = l.countP p + (p t').toNat := by
  obtain ⟨hi, rfl⟩ := List.getElem?_eq_some_iff.1 h
  have hpos : p l[i] = true → 0 < l.countP p := fun hp =>
    List.countP_pos_iff.2 ⟨l[i], List.getElem_mem hi, hp⟩
  rw [List.countP_set hi]
  generalize List.countP p l = n at hpos ⊢
  cases hp : p l[i] <;> cases hp' : p t' <;> simp [hp] at hpos ⊢ <;> omega

/-- What all tasks but one had, and the new one has, all have after its move. -/
theorem forall_mem_set {P : T → Prop} (hl : ∀ u ∈ l, P u) (ht' : P t') : ∀ u ∈ l.set i t', P u := by
  intro u hu
  rcases List.mem_or_eq_of_mem_set hu with hu | rfl
  · exact hl u hu
  · exact ht'

/-- Where at most one task counts, no other counts beside it. -/
theorem eq_or_of_countP_le_one {p : T → Bool} (hone : l.countP p ≤ 1) (h : l[i]? = some t)
    (ht : p t = true) (t' : T) : ∀ u ∈ l.set i t', u = t' ∨ p u = false := by
  obtain ⟨hi, rfl⟩ := List.getElem?_eq_some_iff.1 h
  have hsplit : l = l.take i ++ l[i] :: l.drop (i + 1) := by
    rw [List.getElem_cons_drop, List.take_append_drop]
  rw [hsplit, List.countP_append, List.countP_cons_of_pos ht] at hone
  intro u hu
  rw [List.set_eq_take_append_cons_drop, if_pos hi, List.mem_append, List.mem_cons] at hu
  rcases hu with hu | rfl | hu
  · exact .inr (Bool.eq_false_iff.2 (List.countP_eq_zero.1 (by omega) u hu))
  · exact .inl rfl
  · exact .inr (Bool.eq_false_iff.2 (List.countP_eq_zero.1 (by omega) u hu))

end Runs
