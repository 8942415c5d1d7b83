import Mathlib

/-!
# JSON values

The values of JSON as a parser hands them to a program: numbers are non-negative
integers of 64 bits, negative ones, or floats; an object is its list of members.
A program may also write integers of 128 bits.

`==` is the equality of programs, not of proofs: two floats are compared as
floats are, so that `0.0 == -0.0` holds and no `NaN` equals anything. It is
still symmetric and transitive, for floats and for values, which is what two
checks against a common third value need.
-/

/-! ## The equality of floats -/

namespace Float.Model.UnpackedFloat

/-- Two canonical floats that compare equal: the same infinity, two zeros, or the same number. -/
def Same : UnpackedFloat → UnpackedFloat → Prop
  | .infinity s, .infinity t => s = t
  | .zero _, .zero _ => True
  | .finite s m e _, .finite t n f _ => s = t ∧ m = n ∧ e = f
  | _, _ => False

theorem compare_sign_eq_eq {s t : Sign} : compare s t = .eq ↔ s = t := by
  cases s <;> cases t <;> simp [compare]

theorem compare_eq_eq {x y : UnpackedFloat} : x.compare y = some .eq ↔ x.Same y := by
  rcases x with s | _ | s | ⟨s, m, e, hm⟩ <;> rcases y with t | _ | t | ⟨t, n, f, hn⟩ <;>
    (try cases s) <;> (try cases t) <;>
    simp [UnpackedFloat.compare, Same, Ordering.then_eq_eq, compare_sign_eq_eq, and_comm]

theorem Same.symm {x y : UnpackedFloat} (h : x.Same y) : y.Same x := by
  rcases x with s | _ | s | ⟨s, m, e, hm⟩ <;> rcases y with t | _ | t | ⟨t, n, f, hn⟩ <;>
    simp_all [Same]

theorem Same.trans {x y z : UnpackedFloat} (h : x.Same y) (h' : y.Same z) : x.Same z := by
  rcases x with s | _ | s | ⟨s, m, e, hm⟩ <;> rcases y with t | _ | t | ⟨t, n, f, hn⟩ <;>
    rcases z with u | _ | u | ⟨u, k, g, hk⟩ <;> simp_all [Same]

end Float.Model.UnpackedFloat

theorem Float.beq_iff {x y : Float} : (x == y) = true ↔ x.toModel.unpack.Same y.toModel.unpack := by
  rw [← Float.Model.UnpackedFloat.compare_eq_eq]
  exact beq_iff_eq (a := x.toModel.unpack.compare y.toModel.unpack) (b := some .eq)

instance Float.partialEquivBEq : PartialEquivBEq Float where
  symm h := Float.beq_iff.2 (Float.beq_iff.1 h).symm
  trans h h' := Float.beq_iff.2 ((Float.beq_iff.1 h).trans (Float.beq_iff.1 h'))

/-! ## Lists and options of what is compared -/

section Containers

variable {α β : Type} [BEq α] [BEq β] [PartialEquivBEq β]

/-- Values that are compared by what `f` makes of them. -/
theorem PartialEquivBEq.of_map (f : α → β) (h : ∀ a b, (a == b) = (f a == f b)) :
    PartialEquivBEq α where
  symm hab := by
    rw [h] at hab ⊢
    exact PartialEquivBEq.symm hab
  trans hab hbc := by
    rw [h] at hab hbc ⊢
    exact PartialEquivBEq.trans hab hbc

variable [PartialEquivBEq α]

instance Prod.partialEquivBEq : PartialEquivBEq (α × β) where
  symm h := by
    obtain ⟨h₁, h₂⟩ := Bool.and_eq_true_iff.1 h
    exact Bool.and_eq_true_iff.2 ⟨PartialEquivBEq.symm h₁, PartialEquivBEq.symm h₂⟩
  trans h h' := by
    obtain ⟨h₁, h₂⟩ := Bool.and_eq_true_iff.1 h
    obtain ⟨h₁', h₂'⟩ := Bool.and_eq_true_iff.1 h'
    exact Bool.and_eq_true_iff.2 ⟨PartialEquivBEq.trans h₁ h₁', PartialEquivBEq.trans h₂ h₂'⟩

omit [BEq β] [PartialEquivBEq β]

instance Option.partialEquivBEq : PartialEquivBEq (Option α) where
  symm {a b} h := by
    cases a <;> cases b <;> simp_all [PartialEquivBEq.symm]
  trans {a b c} h h' := by
    cases a <;> cases b <;> cases c <;> simp_all
    exact PartialEquivBEq.trans h h'

instance List.partialEquivBEq : PartialEquivBEq (List α) where
  symm {a b} h := by
    induction a generalizing b with
    | nil => cases b <;> simp_all
    | cons x a ih =>
      cases b with
      | nil => simp at h
      | cons y b =>
        simp only [List.cons_beq_cons, Bool.and_eq_true] at h ⊢
        exact ⟨PartialEquivBEq.symm h.1, ih h.2⟩
  trans {a b c} h h' := by
    induction a generalizing b c with
    | nil => cases b <;> cases c <;> simp_all
    | cons x a ih =>
      cases b with
      | nil => simp at h
      | cons y b =>
        cases c with
        | nil => simp at h'
        | cons z c =>
          simp only [List.cons_beq_cons, Bool.and_eq_true] at h h' ⊢
          exact ⟨PartialEquivBEq.trans h.1 h'.1, ih h.2 h'.2⟩

end Containers

/-! ## Values -/

namespace Json

/-- A number: an integer of 64 bits, a negative one, a float, or a wide integer, which no parser
    hands out. -/
inductive Number where
  | posInt (n : UInt64)
  | negInt (n : Int64)
  | float (x : Float)
  | wide (n : BitVec 128)

namespace Number

protected def beq : Number → Number → Bool
  | posInt a, posInt b => a == b
  | negInt a, negInt b => a == b
  | float a, float b => a == b
  | wide a, wide b => a == b
  | _, _ => false

instance : BEq Number := ⟨Number.beq⟩

theorem beq_def (a b : Number) : (a == b) = a.beq b := rfl

instance : PartialEquivBEq Number where
  symm {a b} h := by
    cases a <;> cases b <;> simp_all [beq_def, Number.beq, PartialEquivBEq.symm]
  trans {a b c} h h' := by
    cases a <;> cases b <;> simp_all only [beq_def, Number.beq, Bool.false_eq_true] <;>
      cases c <;> simp_all only [Bool.false_eq_true]
    all_goals exact PartialEquivBEq.trans h h'

end Number

inductive Value where
  | null
  | bool (b : Bool)
  | number (n : Number)
  | string (s : String)
  | array (items : List Value)
  | object (members : List (String × Value))

namespace Value

mutual

protected def beq : Value → Value → Bool
  | null, null => true
  | bool a, bool b => a == b
  | number a, number b => a == b
  | string a, string b => a == b
  | array as, array bs => beqItems as bs
  | object as, object bs => beqMembers as bs
  | _, _ => false

def beqItems : List Value → List Value → Bool
  | [], [] => true
  | a :: as, b :: bs => a.beq b && beqItems as bs
  | _, _ => false

def beqMembers : List (String × Value) → List (String × Value) → Bool
  | [], [] => true
  | (k, a) :: as, (l, b) :: bs => k == l && a.beq b && beqMembers as bs
  | _, _ => false

end

instance : BEq Value := ⟨Value.beq⟩

theorem bool_beq {a : Bool} {b : Value} : (bool a).beq b = true ↔ bool a = b := by
  cases b <;> simp [Value.beq]

theorem string_beq {a : String} {b : Value} : (string a).beq b = true ↔ string a = b := by
  cases b <;> simp [Value.beq]

theorem null_beq {b : Value} : null.beq b = true ↔ null = b := by
  cases b <;> simp [Value.beq]

theorem number_beq {a : Number} {b : Value} :
    (number a).beq b = true ↔ ∃ b', b = number b' ∧ (a == b') = true := by
  cases b <;> simp [Value.beq]

theorem array_beq {as : List Value} {b : Value} :
    (array as).beq b = true ↔ ∃ bs, b = array bs ∧ beqItems as bs = true := by
  cases b <;> simp [Value.beq]

theorem object_beq {as : List (String × Value)} {b : Value} :
    (object as).beq b = true ↔ ∃ bs, b = object bs ∧ beqMembers as bs = true := by
  cases b <;> simp [Value.beq]

theorem nil_beqItems {bs : List Value} : beqItems [] bs = true ↔ [] = bs := by
  cases bs <;> simp [beqItems]

theorem cons_beqItems {a : Value} {as bs : List Value} : beqItems (a :: as) bs = true ↔
    ∃ b bs', bs = b :: bs' ∧ a.beq b = true ∧ beqItems as bs' = true := by
  cases bs <;> simp [beqItems]

theorem nil_beqMembers {bs : List (String × Value)} : beqMembers [] bs = true ↔ [] = bs := by
  cases bs <;> simp [beqMembers]

theorem cons_beqMembers {k : String} {a : Value} {as bs : List (String × Value)} :
    beqMembers ((k, a) :: as) bs = true ↔
      ∃ b bs', (k, b) :: bs' = bs ∧ a.beq b = true ∧ beqMembers as bs' = true := by
  rcases bs with _ | ⟨⟨l, b⟩, bs⟩ <;> simp [beqMembers, and_assoc]

mutual

theorem beq_symm : ∀ a b : Value, a.beq b = true → b.beq a = true
  | null, b, h => by rw [← null_beq.1 h]; rfl
  | bool a, b, h => by rw [← bool_beq.1 h, bool_beq]
  | number a, b, h => by
    obtain ⟨b', rfl, hab⟩ := number_beq.1 h
    exact number_beq.2 ⟨a, rfl, PartialEquivBEq.symm hab⟩
  | string a, b, h => by rw [← string_beq.1 h, string_beq]
  | array as, b, h => by
    obtain ⟨bs, rfl, hab⟩ := array_beq.1 h
    exact array_beq.2 ⟨as, rfl, beqItems_symm as bs hab⟩
  | object as, b, h => by
    obtain ⟨bs, rfl, hab⟩ := object_beq.1 h
    exact object_beq.2 ⟨as, rfl, beqMembers_symm as bs hab⟩

theorem beqItems_symm : ∀ as bs : List Value, beqItems as bs = true → beqItems bs as = true
  | [], bs, h => by rw [← nil_beqItems.1 h]; rfl
  | a :: as, bs, h => by
    obtain ⟨b, bs', rfl, hab, habs⟩ := cons_beqItems.1 h
    exact cons_beqItems.2 ⟨a, as, rfl, beq_symm a b hab, beqItems_symm as bs' habs⟩

theorem beqMembers_symm :
    ∀ as bs : List (String × Value), beqMembers as bs = true → beqMembers bs as = true
  | [], bs, h => by rw [← nil_beqMembers.1 h]; rfl
  | (k, a) :: as, bs, h => by
    obtain ⟨b, bs', rfl, hab, habs⟩ := cons_beqMembers.1 h
    exact cons_beqMembers.2 ⟨a, as, rfl, beq_symm a b hab, beqMembers_symm as bs' habs⟩

end

mutual

theorem beq_trans : ∀ a b c : Value, a.beq b = true → b.beq c = true → a.beq c = true
  | null, b, c, h, h' => by rwa [← null_beq.1 h] at h'
  | bool a, b, c, h, h' => by rwa [← bool_beq.1 h] at h'
  | number a, b, c, h, h' => by
    obtain ⟨b', rfl, hab⟩ := number_beq.1 h
    obtain ⟨c', rfl, hbc⟩ := number_beq.1 h'
    exact number_beq.2 ⟨c', rfl, PartialEquivBEq.trans hab hbc⟩
  | string a, b, c, h, h' => by rwa [← string_beq.1 h] at h'
  | array as, b, c, h, h' => by
    obtain ⟨bs, rfl, hab⟩ := array_beq.1 h
    obtain ⟨cs, rfl, hbc⟩ := array_beq.1 h'
    exact array_beq.2 ⟨cs, rfl, beqItems_trans as bs cs hab hbc⟩
  | object as, b, c, h, h' => by
    obtain ⟨bs, rfl, hab⟩ := object_beq.1 h
    obtain ⟨cs, rfl, hbc⟩ := object_beq.1 h'
    exact object_beq.2 ⟨cs, rfl, beqMembers_trans as bs cs hab hbc⟩

theorem beqItems_trans : ∀ as bs cs : List Value,
    beqItems as bs = true → beqItems bs cs = true → beqItems as cs = true
  | [], bs, cs, h, h' => by rwa [← nil_beqItems.1 h] at h'
  | a :: as, bs, cs, h, h' => by
    obtain ⟨b, bs', rfl, hab, habs⟩ := cons_beqItems.1 h
    obtain ⟨c, cs', rfl, hbc, hbcs⟩ := cons_beqItems.1 h'
    exact cons_beqItems.2
      ⟨c, cs', rfl, beq_trans a b c hab hbc, beqItems_trans as bs' cs' habs hbcs⟩

theorem beqMembers_trans : ∀ as bs cs : List (String × Value),
    beqMembers as bs = true → beqMembers bs cs = true → beqMembers as cs = true
  | [], bs, cs, h, h' => by rwa [← nil_beqMembers.1 h] at h'
  | (k, a) :: as, bs, cs, h, h' => by
    obtain ⟨b, bs', rfl, hab, habs⟩ := cons_beqMembers.1 h
    obtain ⟨c, cs', rfl, hbc, hbcs⟩ := cons_beqMembers.1 h'
    exact cons_beqMembers.2
      ⟨c, cs', rfl, beq_trans a b c hab hbc, beqMembers_trans as bs' cs' habs hbcs⟩

end

instance : PartialEquivBEq Value where
  symm h := beq_symm _ _ h
  trans h h' := beq_trans _ _ _ h h'

/-! ## Reading a value -/

/-- The member `key` of an object; nothing of another value. -/
def get (v : Value) (key : String) : Option Value :=
  match v with
  | object members => (members.find? fun m => m.1 == key).map Prod.snd
  | _ => none

/-- The member `key`, or `null`. -/
def member (v : Value) (key : String) : Value := (v.get key).getD null

def asStr : Value → Option String
  | string s => some s
  | _ => none

/-- A non-negative integer; a float is none, whatever its value. -/
def asU64 : Value → Option UInt64
  | number (.posInt n) => some n
  | _ => none

/-- Any number, rounded to a float. -/
def asF64 : Value → Option Float
  | number (.posInt n) => some n.toFloat
  | number (.negInt n) => some n.toFloat
  | number (.float x) => some x
  | _ => none

def asBool : Value → Option Bool
  | bool b => some b
  | _ => none

def asArray : Value → Option (List Value)
  | array items => some items
  | _ => none

def isObject : Value → Bool
  | object _ => true
  | _ => false

def isString : Value → Bool
  | string _ => true
  | _ => false

def isNull : Value → Bool
  | null => true
  | _ => false

end Value

end Json
