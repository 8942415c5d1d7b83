import Mathlib.Tactic

/-!
# Fallible computations and sums over maps

Two small pieces of infrastructure.

* Inversion of the `do` blocks of `Except`: a block that succeeds is a chain of
  steps that succeed (`Fallible.bind_eq_ok`), and a check that succeeds holds
  (`Fallible.require_eq_ok`).
* `entrySum f m` and `valueSum f m`, the sum of `f` over the entries or over the
  values of an ordered map, and how it changes when a value is written
  (`entrySum_insert`, `valueSum_insert`) or rewritten in place (`valueSum_map`).
-/

open Std (TransOrd LawfulEqOrd ExtTreeMap)

attribute [instance] lexOrd

namespace Fallible

variable {ε : Type*} {α β : Type}

@[simp]
theorem ok_bind (x : α) (f : α → Except ε β) : (Except.ok x >>= f) = f x := rfl

@[simp]
theorem error_bind (e : ε) (f : α → Except ε β) : (Except.error e >>= f) = .error e := rfl

/-- The value of `x`, or the error `e`. -/
def ofOption (e : ε) : Option α → Except ε α
  | some a => .ok a
  | none => .error e

@[simp]
theorem ofOption_some (e : ε) (a : α) : ofOption e (some a) = .ok a := rfl

@[simp]
theorem ofOption_none (e : ε) : ofOption e (none : Option α) = .error e := rfl

theorem ofOption_eq_ok {e : ε} {x : Option α} {a : α} : ofOption e x = .ok a ↔ x = some a := by
  cases x <;> simp

theorem mapError_eq_ok {ε' : Type*} {f : ε → ε'} {x : Except ε α} {a : α} :
    x.mapError f = .ok a ↔ x = .ok a := by
  cases x <;> simp [Except.mapError]

/-- Goes on when `c` holds, and fails with `e` otherwise. -/
def require (c : Prop) [Decidable c] (e : ε) : Except ε Unit := if c then .ok () else .error e

theorem require_eq_ok {c : Prop} [Decidable c] {e : ε} {u : Unit} :
    require c e = .ok u ↔ c := by
  rw [require]
  split <;> simp_all

/-- A block that succeeds is a step that succeeds and a rest that does. -/
theorem bind_eq_ok {x : Except ε α} {f : α → Except ε β} {b : β} :
    x >>= f = .ok b ↔ ∃ a, x = .ok a ∧ f a = .ok b := by
  cases x with
  | error e => simp
  | ok a => simp

/-- Whatever `x` hands out is one of `p`. -/
def Yields (x : Except ε α) (p : α → Prop) : Prop := ∀ a, x = .ok a → p a

variable {p : α → Prop} {q : β → Prop}

theorem Yields.error (e : ε) : Yields (.error e) p := fun _ h => nomatch h

theorem Yields.bind {x : Except ε α} {f : α → Except ε β} (hx : Yields x p)
    (hf : ∀ a, p a → Yields (f a) q) : Yields (x >>= f) q := by
  intro b hb
  obtain ⟨a, ha, hb⟩ := bind_eq_ok.1 hb
  exact hf a (hx a ha) b hb

/-- A step of which nothing is asked. -/
theorem Yields.step {x : Except ε α} {f : α → Except ε β} (hf : ∀ a, Yields (f a) q) :
    Yields (x >>= f) q := Yields.bind (p := fun _ => True) (fun _ _ => trivial) fun a _ => hf a

theorem mapM_ok {f : α → Except ε β} {g : α → β} {l : List α} (h : ∀ a ∈ l, f a = .ok (g a)) :
    l.mapM f = .ok (l.map g) := by
  induction l with
  | nil => rfl
  | cons a l ih =>
    obtain ⟨ha, hl⟩ := List.forall_mem_cons.1 h
    rw [List.mapM_cons, ha, ok_bind, ih hl, ok_bind, List.map_cons]
    rfl

/-- What `mapM` hands out, where `f` hands out nothing but `g`. -/
theorem mapM_eq_ok {f : α → Except ε β} {g : α → β} {l : List α} {l' : List β}
    (hf : ∀ a b, f a = .ok b → b = g a) (h : l.mapM f = .ok l') : l' = l.map g := by
  induction l generalizing l' with
  | nil => exact (Except.ok.inj h).symm
  | cons a l ih =>
    rw [List.mapM_cons] at h
    obtain ⟨b, hb, h⟩ := bind_eq_ok.1 h
    obtain ⟨bs, hbs, h⟩ := bind_eq_ok.1 h
    rw [← Except.ok.inj h, List.map_cons, ← hf a b hb, ← ih hbs]

end Fallible

section ValueSum

variable {α β : Type*} [Ord α] [TransOrd α] [LawfulEqOrd α]

/-- Lookup after a write, for a key order whose equality is equality. -/
theorem getElem?_insert_eq [DecidableEq α] (m : ExtTreeMap α β) (k a : α) (v : β) :
    (m.insert k v)[a]? = if k = a then some v else m[a]? := by
  simp only [ExtTreeMap.getElem?_insert, LawfulEqOrd.compare_eq_iff_eq]

/-- Lookup after a removal, for a key order whose equality is equality. -/
theorem getElem?_erase_eq [DecidableEq α] (m : ExtTreeMap α β) (k a : α) :
    (m.erase k)[a]? = if k = a then none else m[a]? := by
  simp only [ExtTreeMap.getElem?_erase, LawfulEqOrd.compare_eq_iff_eq]

theorem mem_insert_eq (m : ExtTreeMap α β) (k a : α) (v : β) :
    a ∈ m.insert k v ↔ k = a ∨ a ∈ m := by
  simp only [ExtTreeMap.mem_insert, LawfulEqOrd.compare_eq_iff_eq]

/-- Lookup after a write that leaves a value alone, for a key order whose equality is equality. -/
theorem getElem?_insertIfNew_eq [DecidableEq α] (m : ExtTreeMap α β) (k a : α) (v : β) :
    (m.insertIfNew k v)[a]? = if k = a ∧ m[k]? = none then some v else m[a]? := by
  simp only [ExtTreeMap.getElem?_insertIfNew, LawfulEqOrd.compare_eq_iff_eq,
    ← ExtTreeMap.isSome_getElem?_iff_mem, Bool.not_eq_true, Option.isSome_eq_false_iff,
    Option.isNone_iff_eq_none]

/-- The sum of `f` over the entries of `m`. -/
def entrySum (f : α → β → ℕ) (m : ExtTreeMap α β) : ℕ := (m.toList.map fun p => f p.1 p.2).sum

/-- The sum of `f` over the values of `m`. -/
def valueSum (f : β → ℕ) (m : ExtTreeMap α β) : ℕ := (m.toList.map fun p => f p.2).sum

theorem nodup_toList (m : ExtTreeMap α β) : m.toList.Nodup := by
  refine m.distinct_keys_toList.imp fun {a b} h he => h ?_
  rw [he]
  exact Std.ReflCmp.compare_self

omit [LawfulEqOrd α] in
@[simp]
theorem entrySum_empty (f : α → β → ℕ) : entrySum f (∅ : ExtTreeMap α β) = 0 := by
  have hnil : (∅ : ExtTreeMap α β).toList = [] := by
    rw [← List.isEmpty_iff, ExtTreeMap.isEmpty_toList]
    exact ExtTreeMap.isEmpty_empty
  rw [entrySum, hnil, List.map_nil, List.sum_nil]

omit [LawfulEqOrd α] in
@[simp]
theorem valueSum_empty (f : β → ℕ) : valueSum f (∅ : ExtTreeMap α β) = 0 :=
  entrySum_empty fun _ => f

/-- Taking one entry out of the sum. -/
theorem entrySum_eq_add_erase (f : α → β → ℕ) {m : ExtTreeMap α β} {k : α} {v : β}
    (h : m[k]? = some v) : entrySum f m = f k v + entrySum f (m.erase k) := by
  have hperm : m.toList.Perm ((k, v) :: (m.erase k).toList) := by
    refine (List.perm_ext_iff_of_nodup (nodup_toList m) ?_).2 fun ⟨a, b⟩ => ?_
    · refine List.nodup_cons.2 ⟨fun hmem => ?_, nodup_toList _⟩
      rw [ExtTreeMap.mem_toList_iff_getElem?_eq_some, ExtTreeMap.getElem?_erase_self] at hmem
      exact absurd hmem (by simp)
    · classical
      rw [List.mem_cons, ExtTreeMap.mem_toList_iff_getElem?_eq_some,
        ExtTreeMap.mem_toList_iff_getElem?_eq_some, getElem?_erase_eq, Prod.mk.injEq]
      by_cases hk : k = a
      · subst hk
        simp [h, eq_comm]
      · simp [hk, Ne.symm hk]
  rw [entrySum, (hperm.map _).sum_eq, List.map_cons, List.sum_cons]
  rfl

theorem entrySum_erase_of_none (f : α → β → ℕ) {m : ExtTreeMap α β} {k : α} (h : m[k]? = none) :
    entrySum f (m.erase k) = entrySum f m := by
  classical
  congr 1
  refine ExtTreeMap.ext_getElem? fun a => ?_
  rw [getElem?_erase_eq]
  split
  · next hk => rw [← hk, h]
  · rfl

/-- Writing `v` at `k` replaces what was counted there. -/
theorem entrySum_insert (f : α → β → ℕ) (m : ExtTreeMap α β) (k : α) (v : β) :
    entrySum f (m.insert k v) + (m[k]?.map (f k)).getD 0 = entrySum f m + f k v := by
  have herase : (m.insert k v).erase k = m.erase k := by
    refine ExtTreeMap.ext_getElem? fun a => ?_
    simp only [ExtTreeMap.getElem?_erase, ExtTreeMap.getElem?_insert]
    split <;> rfl
  rw [entrySum_eq_add_erase f (ExtTreeMap.getElem?_insert_self (k := k) (v := v)), herase]
  cases h : m[k]? with
  | none => simp [entrySum_erase_of_none f h, Nat.add_comm]
  | some u =>
    rw [entrySum_eq_add_erase f h, Option.map_some, Option.getD_some]
    ring

theorem valueSum_insert (f : β → ℕ) (m : ExtTreeMap α β) (k : α) (v : β) :
    valueSum f (m.insert k v) + (m[k]?.map f).getD 0 = valueSum f m + f v :=
  entrySum_insert (fun _ => f) m k v

omit [LawfulEqOrd α] in
/-- Rewriting values without changing what they count. -/
theorem valueSum_map {γ : Type*} (f : β → ℕ) (f' : γ → ℕ) (g : α → β → γ) (m : ExtTreeMap α β)
    (h : ∀ k v, f' (g k v) = f v) : valueSum f' (m.map g) = valueSum f m := by
  rw [valueSum, ExtTreeMap.toList_map, List.map_map]
  exact congrArg List.sum (List.map_congr_left fun p _ => h p.1 p.2)

end ValueSum

section WriteAll

variable {α β γ : Type*} [Ord α] [TransOrd α] [LawfulEqOrd α] {f : α → β → Option γ}
  {l : List (α × β)} {k : α} {b : β}

omit [LawfulEqOrd α] in
/-- Write, one after another, what `f` makes of the entries of `l`. -/
def writeAll (f : α → β → Option γ) (l : List (α × β)) (m : ExtTreeMap α γ) : ExtTreeMap α γ :=
  l.foldl (fun m p => (f p.1 p.2).elim m (m.insert p.1)) m

theorem getElem?_elim_insert (m : ExtTreeMap α γ) (v : Option γ) (a : α) [Decidable (a = k)] :
    (v.elim m (m.insert a))[k]? = if a = k then v.or m[k]? else m[k]? := by
  classical
  cases v with
  | none => simp
  | some v => simp [getElem?_insert_eq]

theorem getElem?_writeAll_of_ne (m : ExtTreeMap α γ) (h : ∀ p ∈ l, p.1 ≠ k) :
    (writeAll f l m)[k]? = m[k]? := by
  classical
  induction l generalizing m with
  | nil => rfl
  | cons p l ih =>
    rw [List.forall_mem_cons] at h
    rw [writeAll, List.foldl_cons]
    exact (ih _ h.2).trans ((getElem?_elim_insert ..).trans (if_neg h.1))

theorem getElem?_writeAll_of_mem (m : ExtTreeMap α γ) (hl : l.Pairwise fun p q => p.1 ≠ q.1)
    (h : (k, b) ∈ l) : (writeAll f l m)[k]? = (f k b).or m[k]? := by
  classical
  induction l generalizing m with
  | nil => cases h
  | cons p l ih =>
    obtain ⟨hhead, htail⟩ := List.pairwise_cons.1 hl
    rw [writeAll, List.foldl_cons]
    rcases List.mem_cons.1 h with rfl | hmem
    · refine (getElem?_writeAll_of_ne _ fun q hq => (hhead q hq).symm).trans ?_
      exact (getElem?_elim_insert ..).trans (if_pos rfl)
    · refine (ih _ htail hmem).trans ?_
      rw [getElem?_elim_insert, if_neg (hhead _ hmem)]

/-- Writing what `f` makes of the entries of a map whose keys meet `q`. -/
theorem getElem?_writeAll_toList (f : α → β → Option γ) (q : α → Bool) (m : ExtTreeMap α β)
    (m₀ : ExtTreeMap α γ) (k : α) :
    (writeAll f (m.toList.filter fun p => q p.1) m₀)[k]? =
      if q k then (m[k]?.bind (f k)).or m₀[k]? else m₀[k]? := by
  have hdistinct : (m.toList.filter fun p => q p.1).Pairwise fun p q => p.1 ≠ q.1 := by
    refine (m.distinct_keys_toList.imp fun {a b} h hab => h ?_).sublist List.filter_sublist
    exact LawfulEqOrd.compare_eq_iff_eq.2 hab
  split
  next hq =>
    cases hk : m[k]? with
    | none =>
      rw [Option.bind_none, Option.none_or]
      refine getElem?_writeAll_of_ne _ fun p hp hpk => ?_
      have hmem := ExtTreeMap.mem_toList_iff_getElem?_eq_some.1 (List.mem_filter.1 hp).1
      rw [hpk, hk] at hmem
      cases hmem
    | some b =>
      exact getElem?_writeAll_of_mem _ hdistinct (List.mem_filter.2
        ⟨ExtTreeMap.mem_toList_iff_getElem?_eq_some.2 hk, hq⟩)
  next hq =>
    refine getElem?_writeAll_of_ne _ fun p hp hpk => hq ?_
    exact hpk ▸ (List.mem_filter.1 hp).2

end WriteAll
