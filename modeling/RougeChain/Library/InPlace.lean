import RougeChain.Library.Basic

/-!
# Code that changes a state in place

Code with a mutable reference to a state may fail after it has written. `InPlace.Code S E α` is such
code: when it fails, the state keeps what was written before. A function that hands out the new
state together with its answer cannot do that; `InPlace.Refines x f` says that the code `x` behaves
like the function `f`, and in particular that it is *atomic* (`Refines.atomic`).

The rules are those of code that makes all its checks before its first write: reading may come
before anything (`Refines.reads_bind`), and writes that cannot fail come last (`Refines.writes`).
-/

namespace RougeChain.InPlace

/-- Code with a mutable reference to a state, which may fail. -/
abbrev Code (S E α : Type) := ExceptT E (StateM S) α

variable {S T E E' α β : Type}

/-- The answer of the code, and the state it leaves. -/
def exec (x : Code S E α) (s : S) : Except E α × S := (x.run.run s : Except E α × S)

/-- Code that reads the state, and changes nothing. -/
def reads (f : S → Except E α) : Code S E α := fun s => (f s, s)

/-- Code that writes, and does not fail. -/
def writes (f : S → S) : Code S E Unit := fun s => (.ok (), f s)

/-- Code on a part of the state, which fails with an error of its own. -/
def within (get : S → T) (set : S → T → S) (wrap : E' → E) (x : Code T E' α) : Code S E α :=
  fun s => ((exec x (get s)).1.mapError wrap, set s (exec x (get s)).2)

/-- The state that a function leaves is the old one if it fails. -/
def settle (s : S) : Except E (α × S) → Except E α × S
  | .ok (a, s') => (.ok a, s')
  | .error e => (.error e, s)

/-- The code leaves what the function says. -/
def Refines (x : Code S E α) (f : S → Except E (α × S)) : Prop := ∀ s, exec x s = settle s (f s)

/-- Code that leaves the state as it was whenever it fails. -/
def Atomic (x : Code S E α) : Prop := ∀ s e, (exec x s).1 = .error e → (exec x s).2 = s

/-! ## Running -/

@[simp]
theorem exec_reads (f : S → Except E α) (s : S) : exec (reads f) s = (f s, s) := rfl

theorem exec_bind_ok {x : Code S E α} {k : α → Code S E β} {s s' : S} {a : α}
    (h : exec x s = (.ok a, s')) : exec (x >>= k) s = exec (k a) s' := by
  have hx : x s = (Except.ok a, s') := h
  show (ExceptT.bindCont k (x s).1) (x s).2 = _
  rw [hx]
  rfl

theorem exec_bind_error {x : Code S E α} {k : α → Code S E β} {s s' : S} {e : E}
    (h : exec x s = (.error e, s')) : exec (x >>= k) s = (.error e, s') := by
  have hx : x s = (Except.error e, s') := h
  show (ExceptT.bindCont k (x s).1) (x s).2 = _
  rw [hx]
  rfl

theorem exec_writes_bind (f : S → S) (k : Unit → Code S E β) (s : S) :
    exec (writes f >>= k) s = exec (k ()) (f s) := exec_bind_ok rfl

theorem exec_reads_bind_ok {f : S → Except E α} {k : α → Code S E β} {s : S} {a : α}
    (h : f s = .ok a) : exec (reads f >>= k) s = exec (k a) s :=
  exec_bind_ok (Prod.ext h rfl)

theorem exec_reads_bind_error {f : S → Except E α} {k : α → Code S E β} {s : S} {e : E}
    (h : f s = .error e) : exec (reads f >>= k) s = (.error e, s) :=
  exec_bind_error (Prod.ext h rfl)

/-- Two readings in a row are one. -/
theorem reads_bind_reads (f : S → Except E α) (g : α → S → Except E β) :
    (reads f >>= fun a => reads (g a)) = reads fun s => f s >>= fun a => g a s := by
  funext s
  have hright : reads (fun s => f s >>= fun a => g a s) s = (f s >>= fun a => g a s, s) := rfl
  rw [hright]
  cases h : f s with
  | ok a => exact exec_reads_bind_ok (k := fun a => reads (g a)) h
  | error e => exact exec_reads_bind_error (k := fun a => reads (g a)) h

/-! ## Checks first, writes after -/

theorem Refines.atomic {x : Code S E α} {f : S → Except E (α × S)} (h : Refines x f) :
    Atomic x := by
  intro s e he
  rw [h s] at he ⊢
  cases hf : f s with
  | ok p =>
    rw [hf] at he
    exact nomatch he
  | error e => rfl

/-- What it leaves when it succeeds. -/
theorem Refines.eq_ok {x : Code S E α} {f : S → Except E (α × S)} (h : Refines x f) {s s' : S}
    {a : α} : exec x s = (.ok a, s') ↔ f s = .ok (a, s') := by
  rw [h s]
  rcases f s with e | ⟨b, s''⟩
  · exact iff_of_false (fun he => nomatch he) fun he => nomatch he
  · show (Except.ok b, s'') = _ ↔ _
    rw [Prod.mk.injEq, Except.ok.injEq, Except.ok.injEq, Prod.mk.injEq]

theorem atomic_reads (f : S → Except E α) : Atomic (reads f) := fun _ _ _ => rfl

theorem Refines.reads_bind {g : S → Except E α} {k : α → Code S E β}
    {f : α → S → Except E (β × S)} (h : ∀ a, Refines (k a) (f a)) :
    Refines (reads g >>= k) fun s => g s >>= fun a => f a s := by
  intro s
  dsimp only
  cases hg : g s with
  | ok a => exact (exec_reads_bind_ok hg).trans (h a s)
  | error e => exact exec_reads_bind_error hg

/-- Code that always succeeds, with the answer `a`, and leaves `w s`. -/
theorem Refines.writes {x : Code S E α} {a : α} {w : S → S} (h : ∀ s, exec x s = (.ok a, w s)) :
    Refines x fun s => .ok (a, w s) := h

theorem Refines.within {x : Code T E' α} {f : T → Except E' (α × T)} (h : Refines x f)
    (get : S → T) (set : S → T → S) (wrap : E' → E) (hset : ∀ s, set s (get s) = s)
    (k : α → β) : Refines (within get set wrap x >>= fun a => pure (k a))
      fun s => (f (get s)).mapError wrap >>= fun p => .ok (k p.1, set s p.2) := by
  intro s
  dsimp only
  cases hf : f (get s) with
  | ok p =>
    obtain ⟨a, t⟩ := p
    have hx : exec (InPlace.within get set wrap x) s = (.ok a, set s t) := by
      show ((exec x (get s)).1.mapError wrap, set s (exec x (get s)).2) = _
      rw [h (get s), hf]
      rfl
    exact exec_bind_ok hx
  | error e =>
    have hx : exec (InPlace.within get set wrap x) s = (.error (wrap e), s) := by
      show ((exec x (get s)).1.mapError wrap, set s (exec x (get s)).2) = _
      rw [h (get s), hf]
      exact Prod.ext rfl (hset s)
    exact exec_bind_error hx

end RougeChain.InPlace
