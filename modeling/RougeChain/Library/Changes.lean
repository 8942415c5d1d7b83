import Mathlib.Data.List.Basic

/-!
# Changes to a map

A log of writes and deletes, and the map it makes of another one. Of each key only the last change
counts (`after_apply`), so two logs that change the same keys lead to the same map exactly when
they agree on the last change of every key (`after_eq_iff`).
-/

namespace RougeChain.Changes

variable {K V : Type*} [DecidableEq K] {m : K → Option V} {k : K} {a b : List (K × Option V)}

/-- The map after a log: each entry writes a value, or deletes the key. -/
def after (m : K → Option V) : List (K × Option V) → K → Option V
  | [] => m
  | (k, v) :: log => after (fun k' => if k = k' then v else m k') log

/-- The last change of a key. -/
def lastOn (k : K) : List (K × Option V) → Option (Option V)
  | [] => none
  | (k', v) :: log => (lastOn k log).or (if k' = k then some v else none)

@[simp]
theorem lastOn_nil : lastOn k ([] : List (K × Option V)) = none := rfl

theorem lastOn_append : lastOn k (a ++ b) = (lastOn k b).or (lastOn k a) := by
  induction a with
  | nil => rw [List.nil_append, lastOn_nil, Option.or_none]
  | cons e a ih => rw [List.cons_append, lastOn, lastOn, ih, Option.or_assoc]

/-- Only the last change of a key counts. -/
theorem after_apply (m : K → Option V) (log : List (K × Option V)) (k : K) :
    after m log k = (lastOn k log).getD (m k) := by
  induction log generalizing m with
  | nil => rfl
  | cons e log ih =>
    rw [after, ih, lastOn]
    cases lastOn k log with
    | some v => rfl
    | none =>
      rw [Option.none_or]
      split <;> rfl

theorem after_append : after m (a ++ b) = after (after m a) b := by
  induction a generalizing m with
  | nil => rfl
  | cons e a ih => exact ih

theorem lastOn_eq_none : lastOn k a = none ↔ ∀ e ∈ a, e.1 ≠ k := by
  induction a with
  | nil => exact ⟨fun _ _ h => absurd h List.not_mem_nil, fun _ => rfl⟩
  | cons e a ih =>
    rw [lastOn, Option.or_eq_none_iff, ih, List.forall_mem_cons, and_comm]
    refine and_congr_left fun _ => ?_
    split
    · next h => exact ⟨fun h' => (nomatch h'), fun h' => absurd h h'⟩
    · next h => exact ⟨fun _ => h, fun _ => rfl⟩

theorem mem_of_lastOn {v : Option V} (h : lastOn k a = some v) : (k, v) ∈ a := by
  induction a with
  | nil => cases h
  | cons e a ih =>
    rw [lastOn, Option.or_eq_some_iff] at h
    rcases h with h | ⟨-, h⟩
    · exact List.mem_cons_of_mem e (ih h)
    · split at h
      · next hk => rw [← hk, ← Option.some.inj h]; exact List.mem_cons_self
      · cases h

/-- Where each key is changed at most once, any change of a key is its last one. -/
theorem lastOn_eq_some {v : Option V} (hdistinct : a.Pairwise fun e e' => e.1 ≠ e'.1)
    (h : (k, v) ∈ a) : lastOn k a = some v := by
  induction a with
  | nil => exact absurd h List.not_mem_nil
  | cons e a ih =>
    obtain ⟨hhead, htail⟩ := List.pairwise_cons.1 hdistinct
    rw [lastOn]
    rcases List.mem_cons.1 h with rfl | hmem
    · rw [lastOn_eq_none.2 fun e he => (hhead e he).symm, if_pos rfl, Option.none_or]
    · rw [ih htail hmem, Option.some_or]

/-- Two logs of the same keys lead to the same map if and only if they agree on each last change. -/
theorem after_eq_iff (h : ∀ k, lastOn k a = none ↔ lastOn k b = none) :
    (∀ k, after m a k = after m b k) ↔ ∀ k, lastOn k a = lastOn k b := by
  refine forall_congr' fun k => ?_
  rw [after_apply, after_apply]
  have hk := h k
  cases ha : lastOn k a with
  | none =>
    rw [hk.1 ha]
    exact ⟨fun _ => rfl, fun _ => rfl⟩
  | some v =>
    cases hb : lastOn k b with
    | none => exact absurd (hk.2 hb) (by rw [ha]; exact Option.some_ne_none v)
    | some w => exact ⟨congrArg some, Option.some.inj⟩

end RougeChain.Changes
