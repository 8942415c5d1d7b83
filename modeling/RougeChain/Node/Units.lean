import RougeChain.Node.Accounts

/-!
# Balance deltas

A contract moves XRGE by a list of deltas, signed quanta for addresses. `applyBalanceDeltas` adds
them up, per address and all together, in checked arithmetic of 128 bits, checks that nothing is
made or destroyed and that every balance stays in its range, and only then writes.

The deltas of one address are gathered in a hash map, whose order is not fixed (`HashOrder`).

* `I128.foldlM_checkedAdd`: a checked sum is defined if no sum on the way leaves the range;
* `aggregateFrom_spec`: so are the sums per address;
* `applyDelta_run`: what writing the sums does to the balances;
* `applyBalanceDeltas_exact_iff`: deltas that cancel out and keep the balances in range are applied,
  exactly, and no others, if and only if no sum on the way overflows.
-/

open Fallible

namespace RougeChain.Node

open Std (ExtTreeMap)

/-! ## Signed numbers of 128 bits -/

/-- The range of the source's `i128`. -/
def InI128 (x : ℤ) : Prop := -2 ^ 127 ≤ x ∧ x < 2 ^ 127

instance InI128.decidable (x : ℤ) : Decidable (InI128 x) := inferInstanceAs (Decidable (_ ∧ _))

structure I128 where
  val : ℤ
  inRange : InI128 val
  deriving DecidableEq

namespace I128

def zero : I128 := ⟨0, by decide⟩

def ofInt? (x : ℤ) : Option I128 := if h : InI128 x then some ⟨x, h⟩ else none

def checkedAdd (a b : I128) : Option I128 := ofInt? (a.val + b.val)

/-- The source's `unsigned_abs`. -/
def unsignedAbs (x : I128) : U128 := .ofNat 128 x.val.natAbs

/-- The source's `x as u128`. -/
def asU128 (x : I128) : U128 := .ofInt 128 x.val

end I128

/-- The order in which a hash map hands out its entries. -/
structure HashOrder (K V : Type) [Ord K] [Std.TransOrd K] where
  list : ExtTreeMap K V → List (K × V)
  perm : ∀ m, (list m).Perm m.toList

/-! ## Applying deltas -/

/-- The deltas of each address, added up on top of those in the map. -/
def aggregateFrom (m : ExtTreeMap String I128) (deltas : List (String × I128)) :
    Option (ExtTreeMap String I128) :=
  deltas.foldlM (fun m d => do
    let slot ← I128.checkedAdd (m[d.1]?.getD .zero) d.2
    return m.insert d.1 slot) m

/-- Whether the balance of the address takes the change. -/
def checkDelta (balances : Balances) (addr : String) (netDelta : I128) : Except String Unit :=
  let current := balance balances addr
  if netDelta.val < 0 then
    let debit := netDelta.unsignedAbs
    if current < debit then
      .error s!"overdraft: {addr} holds {current.toNat} quanta, delta needs {debit.toNat}"
    else .ok ()
  else if (checkedAdd128 current netDelta.asU128).isNone then
    .error s!"balance overflow crediting {addr}"
  else .ok ()

def checkAll (balances : Balances) : List (String × I128) → Except String Unit
  | [] => .ok ()
  | d :: deltas => do
    checkDelta balances d.1 d.2
    checkAll balances deltas

def applyDelta (balances : Balances) (d : String × I128) : Balances :=
  if d.2.val = 0 then balances
  else if d.2.val < 0 then debit balances d.1 d.2.unsignedAbs
  else credit balances d.1 d.2.asU128

/-- The checks; the changes to make are the entries of the map that is returned. -/
def checkDeltas (order : HashOrder String I128) (balances : Balances)
    (deltas : List (String × I128)) : Except String (ExtTreeMap String I128) := do
  let net ← ofOption "balance deltas overflow i128 while summing"
    ((deltas.map Prod.snd).foldlM I128.checkedAdd .zero)
  require (net.val = 0) s!"balance deltas do not conserve (net = {net.val} quanta)"
  let aggregated ← ofOption "per-address balance delta overflows i128"
    (aggregateFrom ∅ deltas)
  checkAll balances (order.list aggregated)
  return aggregated

/-- What is returned, and the balances afterwards. -/
def applyBalanceDeltas (order : HashOrder String I128) (balances : Balances)
    (deltas : List (String × I128)) : Except String Unit × Balances :=
  if deltas = [] then (.ok (), balances)
  else
    match checkDeltas order balances deltas with
    | .error e => (.error e, balances)
    -- everything is known to be safe now
    | .ok aggregated => (.ok (), (order.list aggregated).foldl applyDelta balances)

/-! ## Sums on the way -/

/-- The sum of any number of them, from the first on, is in range. -/
def PrefixesFit (start : ℤ) (xs : List ℤ) : Prop := ∀ n, InI128 (start + (xs.take n).sum)

theorem prefixesFit_nil {start : ℤ} : PrefixesFit start [] ↔ InI128 start := by
  simp [PrefixesFit]

theorem prefixesFit_cons {start x : ℤ} {xs : List ℤ} :
    PrefixesFit start (x :: xs) ↔ InI128 start ∧ PrefixesFit (start + x) xs := by
  constructor
  · intro h
    refine ⟨by simpa using h 0, fun n => ?_⟩
    have := h (n + 1)
    rwa [List.take_succ_cons, List.sum_cons, ← add_assoc] at this
  · rintro ⟨hstart, h⟩ n
    cases n with
    | zero => simpa using hstart
    | succ n =>
      rw [List.take_succ_cons, List.sum_cons, ← add_assoc]
      exact h n

theorem PrefixesFit.start {start : ℤ} {xs : List ℤ} (h : PrefixesFit start xs) : InI128 start := by
  simpa using h 0

/-- The amounts for one address, in order. -/
def amountsOf (a : String) (deltas : List (String × I128)) : List ℤ :=
  (deltas.filter fun d => d.1 = a).map fun d => d.2.val

theorem amountsOf_cons (a : String) (d : String × I128) (deltas : List (String × I128)) :
    amountsOf a (d :: deltas) =
      if d.1 = a then d.2.val :: amountsOf a deltas else amountsOf a deltas := by
  rw [amountsOf, List.filter_cons]
  split
  next h => rw [if_pos (of_decide_eq_true h), List.map_cons, amountsOf]
  next h => rw [if_neg fun heq => h (decide_eq_true heq), amountsOf]

theorem I128.ofInt?_eq_some {x : ℤ} {r : I128} : ofInt? x = some r ↔ r.val = x := by
  rw [ofInt?]
  constructor
  · intro h
    split at h
    · exact Option.some.inj h ▸ rfl
    · cases h
  · rintro rfl
    rw [dif_pos r.inRange]

theorem I128.ofInt?_eq_none {x : ℤ} : ofInt? x = none ↔ ¬InI128 x := by
  rw [ofInt?]
  split
  next h => exact ⟨(fun hn => nomatch hn), fun hn => absurd h hn⟩
  next h => exact ⟨fun _ => h, fun _ => rfl⟩

/-- A checked sum is defined if and only if no sum on the way leaves the range. -/
theorem I128.foldlM_checkedAdd {xs : List I128} {start : I128} :
    (∀ r, xs.foldlM checkedAdd start = some r → r.val = start.val + (xs.map val).sum) ∧
      ((xs.foldlM checkedAdd start).isSome ↔ PrefixesFit start.val (xs.map val)) := by
  induction xs generalizing start with
  | nil =>
    refine ⟨fun r hr => ?_, ?_⟩
    · rw [← Option.some.inj hr, List.map_nil, List.sum_nil, add_zero]
    · rw [List.map_nil, prefixesFit_nil]
      exact ⟨fun _ => start.inRange, fun _ => rfl⟩
  | cons x xs ih =>
    rw [List.foldlM_cons, List.map_cons, List.sum_cons, prefixesFit_cons, checkedAdd]
    cases hadd : ofInt? (start.val + x.val) with
    | none =>
      refine ⟨(fun r hr => nomatch hr), (fun h => nomatch h), fun h => ?_⟩
      exact absurd h.2.start (ofInt?_eq_none.1 hadd)
    | some next =>
      have hval := ofInt?_eq_some.1 hadd
      obtain ⟨hsum, hfit⟩ := @ih next
      rw [Option.bind_eq_bind, Option.bind_some]
      refine ⟨fun r hr => ?_, ?_⟩
      · rw [hsum r hr, hval, add_assoc]
      · rw [hfit, hval]
        exact ⟨fun h => ⟨start.inRange, h⟩, fun h => h.2⟩

/-- What the map holds for an address. -/
def netOf (m : ExtTreeMap String I128) (a : String) : ℤ := (m[a]?.getD .zero).val

theorem netOf_insert (m : ExtTreeMap String I128) (b a : String) (v : I128) :
    netOf (m.insert b v) a = if b = a then v.val else netOf m a := by
  rw [netOf, getElem?_insert_eq]
  split <;> rfl

/-- The sums per address are defined if and only if none leaves the range on the way. -/
theorem aggregateFrom_spec {m : ExtTreeMap String I128} {deltas : List (String × I128)} :
    (∀ m', aggregateFrom m deltas = some m' →
        ∀ a, netOf m' a = netOf m a + (amountsOf a deltas).sum) ∧
      ((aggregateFrom m deltas).isSome ↔
        ∀ a, PrefixesFit (netOf m a) (amountsOf a deltas)) := by
  induction deltas generalizing m with
  | nil =>
    refine ⟨fun m' hm' a => ?_, fun _ a => ?_, fun _ => rfl⟩
    · obtain rfl := Option.some.inj hm'
      exact (add_zero _).symm
    · exact prefixesFit_nil.2 (m[a]?.getD .zero).inRange
  | cons d deltas ih =>
    have hstep : aggregateFrom m (d :: deltas) =
        (I128.ofInt? (netOf m d.1 + d.2.val)).bind fun slot =>
          aggregateFrom (m.insert d.1 slot) deltas := by
      rw [aggregateFrom, List.foldlM_cons]
      simp only [I128.checkedAdd, Option.bind_eq_bind, Option.bind_assoc]
      rfl
    rw [hstep]
    cases hadd : I128.ofInt? (netOf m d.1 + d.2.val) with
    | none =>
      refine ⟨(fun r hr => nomatch hr), (fun h => nomatch h), fun h => ?_⟩
      have hfit := h d.1
      rw [amountsOf_cons, if_pos rfl, prefixesFit_cons] at hfit
      exact absurd hfit.2.start (I128.ofInt?_eq_none.1 hadd)
    | some slot =>
      have hval := I128.ofInt?_eq_some.1 hadd
      rw [Option.bind_some]
      obtain ⟨hsum, hfit⟩ := @ih (m.insert d.1 slot)
      refine ⟨fun m' hm' a => ?_, hfit.trans (forall_congr' fun a => ?_)⟩
      · rw [hsum m' hm' a, netOf_insert, amountsOf_cons]
        split
        next ha => rw [List.sum_cons, hval, ha, add_assoc]
        · rfl
      · -- only the address of the delta sees it
        rw [netOf_insert, amountsOf_cons]
        split
        next ha =>
          rw [prefixesFit_cons, hval, ha]
          exact ⟨fun h => ⟨(m[a]?.getD .zero).inRange, h⟩, fun h => h.2⟩
        · rfl

/-! ## Checking and writing -/

/-- The balance of `a` as a number. -/
def held (b : Balances) (a : String) : ℤ := (balance b a).toNat

theorem held_lt (b : Balances) (a : String) : held b a < 2 ^ 128 := by
  have := (balance b a).isLt
  rw [held]
  exact_mod_cast this

theorem held_nonneg (b : Balances) (a : String) : 0 ≤ held b a := Int.natCast_nonneg _

/-- A balance can have this value. -/
def InU128 (x : ℤ) : Prop := 0 ≤ x ∧ x < 2 ^ 128

theorem toNat_unsignedAbs {x : I128} (h : x.val < 0) : (x.unsignedAbs.toNat : ℤ) = -x.val := by
  obtain ⟨hlo, -⟩ := x.inRange
  have hlt : x.val.natAbs < 2 ^ 128 := by omega
  rw [I128.unsignedAbs, BitVec.toNat_ofNat, Nat.mod_eq_of_lt hlt]
  omega

theorem toNat_asU128 {x : I128} (h : ¬x.val < 0) : (x.asU128.toNat : ℤ) = x.val := by
  obtain ⟨-, hhi⟩ := x.inRange
  rw [I128.asU128, BitVec.toNat_ofInt]
  omega

theorem checkDelta_eq_ok {b : Balances} {a : String} {x : I128} {u : Unit} :
    checkDelta b a x = .ok u ↔ InU128 (held b a + x.val) := by
  have hlt := held_lt b a
  have hnonneg := held_nonneg b a
  obtain ⟨hlo, hhi⟩ := x.inRange
  by_cases hneg : x.val < 0
  · have habs := toNat_unsignedAbs hneg
    have hiff : balance b a < x.unsignedAbs ↔ held b a + x.val < 0 := by
      rw [BitVec.lt_def, held]
      omega
    rw [checkDelta, if_pos hneg]
    by_cases hshort : balance b a < x.unsignedAbs
    · rw [if_pos hshort]
      exact iff_of_false (by simp) fun hrange => absurd (hiff.1 hshort) (not_lt.2 hrange.1)
    · rw [if_neg hshort]
      refine ⟨fun _ => ⟨not_lt.1 fun h => hshort (hiff.2 h), ?_⟩, fun _ => rfl⟩
      omega
  · have habs := toNat_asU128 hneg
    have hiff : (checkedAdd128 (balance b a) x.asU128).isNone ↔ 2 ^ 128 ≤ held b a + x.val := by
      rw [checkedAdd128, held]
      split
      next hfit =>
        refine iff_of_false (by simp) ?_
        omega
      next hfit =>
        refine ⟨fun _ => ?_, fun _ => rfl⟩
        omega
    rw [checkDelta, if_neg hneg]
    by_cases hover : (checkedAdd128 (balance b a) x.asU128).isNone
    · rw [if_pos hover]
      exact iff_of_false (by simp) fun hrange => absurd (hiff.1 hover) (not_le.2 hrange.2)
    · rw [if_neg hover]
      refine ⟨fun _ => ⟨?_, not_le.1 fun h => hover (hiff.2 h)⟩, fun _ => rfl⟩
      omega

theorem checkAll_eq_ok {b : Balances} {l : List (String × I128)} {u : Unit} :
    checkAll b l = .ok u ↔ ∀ d ∈ l, InU128 (held b d.1 + d.2.val) := by
  induction l with
  | nil => exact ⟨(fun _ _ h => nomatch h), fun _ => rfl⟩
  | cons d l ih =>
    rw [checkAll, bind_eq_ok, List.forall_mem_cons, ← ih]
    constructor
    · rintro ⟨_, hd, hl⟩
      exact ⟨checkDelta_eq_ok.1 hd, hl⟩
    · rintro ⟨hd, hl⟩
      exact ⟨(), checkDelta_eq_ok.2 hd, hl⟩

theorem held_applyDelta {b : Balances} {d : String × I128} (h : InU128 (held b d.1 + d.2.val))
    (a : String) : held (applyDelta b d) a = held b a + if d.1 = a then d.2.val else 0 := by
  obtain ⟨hlo, hhi⟩ := h
  rw [applyDelta]
  split
  next hzero =>
    rw [hzero, ite_self, add_zero]
  next hzero =>
    split
    next hneg =>
      have habs := toNat_unsignedAbs hneg
      rw [held, Accounts.balance_debit]
      split
      next ha =>
        have hle : d.2.unsignedAbs ≤ balance b d.1 := by
          rw [BitVec.le_def]
          rw [held] at hlo
          omega
        rw [BitVec.toNat_sub_of_le hle, ← ha, held]
        have := BitVec.le_def.1 hle
        omega
      · rw [add_zero, held]
    next hneg =>
      have habs := toNat_asU128 hneg
      rw [held, Accounts.balance_credit]
      split
      next ha =>
        have hlt : (balance b d.1).toNat + d.2.asU128.toNat < 2 ^ 128 := by
          rw [held] at hhi
          omega
        rw [BitVec.toNat_add, Nat.mod_eq_of_lt hlt, ← ha, held]
        omega
      · rw [add_zero, held]

/-- Writing changes for different addresses, each of which its balance takes. -/
theorem applyDelta_run {b : Balances} {l : List (String × I128)}
    (hdistinct : l.Pairwise fun d e => d.1 ≠ e.1)
    (h : ∀ d ∈ l, InU128 (held b d.1 + d.2.val)) (a : String) :
    held (l.foldl applyDelta b) a = held b a + (amountsOf a l).sum := by
  induction l generalizing b with
  | nil => exact (add_zero _).symm
  | cons d l ih =>
    obtain ⟨hhead, htail⟩ := List.pairwise_cons.1 hdistinct
    obtain ⟨hd, hl⟩ := List.forall_mem_cons.1 h
    have hstep := held_applyDelta hd
    rw [List.foldl_cons, ih htail, hstep, amountsOf_cons]
    · split
      · rw [List.sum_cons, add_assoc]
      · rw [add_zero]
    · intro e he
      rw [hstep, if_neg (hhead e he), add_zero]
      exact hl e he

/-! ## The entries of the map -/

section Entries

variable {m : ExtTreeMap String I128} {order : HashOrder String I128}

theorem distinct_list (order : HashOrder String I128) (m : ExtTreeMap String I128) :
    (order.list m).Pairwise fun d e => d.1 ≠ e.1 := by
  have hlist : m.toList.Pairwise fun d e => d.1 ≠ e.1 :=
    m.distinct_keys_toList.imp fun h heq => h (compare_eq_iff_eq.2 heq)
  exact hlist.perm (order.perm m).symm fun h => h.symm

theorem mem_list {d : String × I128} : d ∈ order.list m ↔ m[d.1]? = some d.2 := by
  rw [(order.perm m).mem_iff]
  exact ExtTreeMap.mem_toList_iff_getElem?_eq_some

/-- In a list with one entry for an address, its amounts are that entry. -/
theorem sum_amountsOf {l : List (String × I128)} (hdistinct : l.Pairwise fun d e => d.1 ≠ e.1)
    {d : String × I128} (hd : d ∈ l) : (amountsOf d.1 l).sum = d.2.val := by
  have hnone {a : String} {l : List (String × I128)} (h : ∀ e ∈ l, a ≠ e.1) :
      (amountsOf a l).sum = 0 := by
    have hnil : l.filter (fun e => e.1 = a) = [] :=
      List.filter_eq_nil_iff.2 fun e he heq => h e he (of_decide_eq_true heq).symm
    rw [amountsOf, hnil, List.map_nil, List.sum_nil]
  induction l with
  | nil => cases hd
  | cons e l ih =>
    obtain ⟨hhead, htail⟩ := List.pairwise_cons.1 hdistinct
    rw [amountsOf_cons]
    rcases List.mem_cons.1 hd with rfl | hmem
    · rw [if_pos rfl, List.sum_cons, hnone hhead, add_zero]
    · rw [if_neg (hhead d hmem), ih htail hmem]

theorem sum_amountsOf_list (order : HashOrder String I128) (m : ExtTreeMap String I128)
    (a : String) : (amountsOf a (order.list m)).sum = netOf m a := by
  cases ha : m[a]? with
  | none =>
    have hnil : (order.list m).filter (fun e => e.1 = a) = [] := by
      refine List.filter_eq_nil_iff.2 fun e he heq => ?_
      have hentry := mem_list.1 he
      rw [of_decide_eq_true heq, ha] at hentry
      cases hentry
    rw [amountsOf, hnil, netOf, ha]
    rfl
  | some v =>
    have hmem : (a, v) ∈ order.list m := mem_list.2 ha
    rw [sum_amountsOf (distinct_list order m) hmem, netOf, ha]
    rfl

end Entries

/-! ## What is applied -/

/-- The deltas cancel out, and every balance stays in its range. -/
def Settles (b : Balances) (deltas : List (String × I128)) : Prop :=
  (deltas.map fun d => d.2.val).sum = 0 ∧ ∀ a, InU128 (held b a + (amountsOf a deltas).sum)

/-- No sum on the way overflows, neither of all the deltas nor of those for an address. -/
def SumsFit (deltas : List (String × I128)) : Prop :=
  PrefixesFit 0 (deltas.map fun d => d.2.val) ∧ ∀ a, PrefixesFit 0 (amountsOf a deltas)

section Exact

variable {order : HashOrder String I128} {b : Balances} {deltas : List (String × I128)}

theorem netOf_empty (a : String) : netOf ∅ a = 0 := by
  rw [netOf, ExtTreeMap.getElem?_empty]
  rfl

theorem checkDeltas_eq_ok {m : ExtTreeMap String I128} (h : checkDeltas order b deltas = .ok m) :
    Settles b deltas ∧ SumsFit deltas ∧ (∀ a, netOf m a = (amountsOf a deltas).sum) ∧
      ∀ d ∈ order.list m, InU128 (held b d.1 + d.2.val) := by
  obtain ⟨net, hnet, h⟩ := bind_eq_ok.1 h
  obtain ⟨_, hzero, h⟩ := bind_eq_ok.1 h
  obtain ⟨m', hagg, h⟩ := bind_eq_ok.1 h
  obtain ⟨_, hcheck, h⟩ := bind_eq_ok.1 h
  obtain rfl := Except.ok.inj h
  rw [ofOption_eq_ok] at hnet hagg
  rw [require_eq_ok] at hzero
  have hall := checkAll_eq_ok.1 hcheck
  obtain ⟨hsum, hfit⟩ := @I128.foldlM_checkedAdd (deltas.map Prod.snd) .zero
  obtain ⟨hsums, hfits⟩ := @aggregateFrom_spec ∅ deltas
  have hnetOf (a : String) : netOf m' a = (amountsOf a deltas).sum := by
    rw [hsums m' hagg a, netOf_empty, zero_add]
  have hval := hsum net hnet
  have hprefixes := hfit.1 (by rw [hnet]; rfl)
  rw [List.map_map] at hval hprefixes
  refine ⟨⟨?_, fun a => ?_⟩, ⟨hprefixes, fun a => ?_⟩, hnetOf, hall⟩
  · rw [hzero] at hval
    exact (hval.trans (zero_add _)).symm
  · rw [← hnetOf]
    cases ha : m'[a]? with
    | none =>
      -- an address without deltas keeps its balance
      rw [netOf, ha]
      exact ⟨by simpa [I128.zero] using held_nonneg b a, by simpa [I128.zero] using held_lt b a⟩
    | some v =>
      rw [netOf, ha]
      exact hall (a, v) (mem_list.2 ha)
  · have := hfits.1 (by rw [hagg]; rfl) a
    rwa [netOf_empty] at this

theorem checkDeltas_of_settles (order : HashOrder String I128) (hsettles : Settles b deltas) (hfit : SumsFit deltas) :
    ∃ m, checkDeltas order b deltas = .ok m := by
  obtain ⟨hsum, hfits⟩ := @I128.foldlM_checkedAdd (deltas.map Prod.snd) .zero
  obtain ⟨hsums, haggs⟩ := @aggregateFrom_spec ∅ deltas
  rw [List.map_map] at hfits
  obtain ⟨net, hnet⟩ := Option.isSome_iff_exists.1 (hfits.2 hfit.1)
  obtain ⟨m, hm⟩ := Option.isSome_iff_exists.1 (haggs.2 fun a => netOf_empty a ▸ hfit.2 a)
  have hzero : net.val = 0 := by
    rw [hsum net hnet, List.map_map]
    exact (zero_add _).trans hsettles.1
  have hall : checkAll b (order.list m) = .ok () := by
    refine checkAll_eq_ok.2 fun d hd => ?_
    have hnetOf := hsums m hm d.1
    rw [netOf_empty, zero_add, netOf, mem_list.1 hd, Option.getD_some] at hnetOf
    rw [hnetOf]
    exact hsettles.2 d.1
  refine ⟨m, ?_⟩
  rw [checkDeltas, hnet, ofOption_some, ok_bind, require, if_pos hzero,
    ok_bind, hm, ofOption_some, ok_bind, hall]
  rfl

/-- The deltas are applied if and only if they settle and no sum on the way overflows. -/
theorem applyBalanceDeltas_ok_iff :
    (applyBalanceDeltas order b deltas).1 = .ok () ↔ Settles b deltas ∧ SumsFit deltas := by
  rw [applyBalanceDeltas]
  split
  next hnil =>
    subst hnil
    refine ⟨fun _ => ⟨⟨rfl, fun a => ?_⟩, prefixesFit_nil.2 (by decide), fun a =>
      prefixesFit_nil.2 (by decide)⟩, fun _ => rfl⟩
    exact ⟨by simpa [amountsOf] using held_nonneg b a, by simpa [amountsOf] using held_lt b a⟩
  · cases hcheck : checkDeltas order b deltas with
    | error e =>
      refine ⟨(fun h => nomatch h), fun h => ?_⟩
      obtain ⟨m, hm⟩ := checkDeltas_of_settles order h.1 h.2
      rw [hm] at hcheck
      cases hcheck
    | ok m => exact ⟨fun _ => ⟨(checkDeltas_eq_ok hcheck).1, (checkDeltas_eq_ok hcheck).2.1⟩,
        fun _ => rfl⟩

/-- What is applied changes every balance by the sum of its deltas. -/
theorem held_applyBalanceDeltas (h : (applyBalanceDeltas order b deltas).1 = .ok ()) (a : String) :
    held (applyBalanceDeltas order b deltas).2 a = held b a + (amountsOf a deltas).sum := by
  rw [applyBalanceDeltas] at h ⊢
  split at h
  next hnil =>
    rw [if_pos hnil, hnil]
    exact (add_zero _).symm
  next hne =>
    rw [if_neg hne]
    cases hcheck : checkDeltas order b deltas with
    | error e =>
      rw [hcheck] at h
      cases h
    | ok m =>
      obtain ⟨-, -, hnet, hall⟩ := checkDeltas_eq_ok hcheck
      exact (applyDelta_run (distinct_list order m) hall a).trans
        (by rw [sum_amountsOf_list, hnet])

/-- What is refused changes nothing. -/
theorem applyBalanceDeltas_error (h : (applyBalanceDeltas order b deltas).1 ≠ .ok ()) :
    (applyBalanceDeltas order b deltas).2 = b := by
  rw [applyBalanceDeltas] at h ⊢
  split at h
  · exact absurd rfl h
  next hne =>
    rw [if_neg hne]
    cases hcheck : checkDeltas order b deltas with
    | error e => rfl
    | ok m =>
      rw [hcheck] at h
      exact absurd rfl h

theorem Settles.perm {deltas' : List (String × I128)} (hperm : deltas.Perm deltas')
    (h : Settles b deltas) : Settles b deltas' := by
  have hsum : (deltas.map fun d => d.2.val).sum = (deltas'.map fun d => d.2.val).sum :=
    (hperm.map _).sum_eq
  refine ⟨hsum ▸ h.1, fun a => ?_⟩
  have hamounts : (amountsOf a deltas).sum = (amountsOf a deltas').sum :=
    ((hperm.filter _).map _).sum_eq
  rw [← hamounts]
  exact h.2 a

end Exact

/-- The deltas are applied if and only if they settle; then every balance changes by the sum of its
    deltas, and otherwise no balance changes. -/
def ExactlyApplied (order : HashOrder String I128) (b : Balances)
    (deltas : List (String × I128)) : Prop :=
  ((applyBalanceDeltas order b deltas).1 = .ok () ↔ Settles b deltas) ∧
    ((applyBalanceDeltas order b deltas).1 = .ok () →
      ∀ a, held (applyBalanceDeltas order b deltas).2 a = held b a + (amountsOf a deltas).sum) ∧
    ((applyBalanceDeltas order b deltas).1 ≠ .ok () → (applyBalanceDeltas order b deltas).2 = b)

/-- For every map of balances, every list of deltas and every order of the hash map, the deltas are
    applied exactly if and only if they do not settle or no sum on the way overflows; and where this
    holds, another order of the list makes no difference. -/
theorem applyBalanceDeltas_exact_iff (order : HashOrder String I128) (b : Balances)
    (deltas : List (String × I128)) :
    (ExactlyApplied order b deltas ↔ (Settles b deltas → SumsFit deltas)) ∧
      ∀ (order' : HashOrder String I128) (deltas' : List (String × I128)), deltas.Perm deltas' →
        ExactlyApplied order b deltas → ExactlyApplied order' b deltas' →
        ((applyBalanceDeltas order b deltas).1 = .ok () ↔
            (applyBalanceDeltas order' b deltas').1 = .ok ()) ∧
          ∀ a, held (applyBalanceDeltas order b deltas).2 a =
            held (applyBalanceDeltas order' b deltas').2 a := by
  refine ⟨⟨fun h hsettles => ?_, fun h => ⟨?_, ?_, ?_⟩⟩, ?_⟩
  · exact (applyBalanceDeltas_ok_iff.1 (h.1.2 hsettles)).2
  · rw [applyBalanceDeltas_ok_iff]
    exact ⟨fun hok => hok.1, fun hsettles => ⟨hsettles, h hsettles⟩⟩
  · exact held_applyBalanceDeltas
  · exact applyBalanceDeltas_error
  · rintro order' deltas' hperm ⟨hok, hheld, herror⟩ ⟨hok', hheld', herror'⟩
    have hiff : (applyBalanceDeltas order b deltas).1 = .ok () ↔
        (applyBalanceDeltas order' b deltas').1 = .ok () := by
      rw [hok, hok']
      exact ⟨Settles.perm hperm, Settles.perm hperm.symm⟩
    refine ⟨hiff, fun a => ?_⟩
    by_cases happlied : (applyBalanceDeltas order b deltas).1 = .ok ()
    · have hamounts : (amountsOf a deltas).sum = (amountsOf a deltas').sum :=
        ((hperm.filter _).map _).sum_eq
      rw [hheld happlied, hheld' (hiff.1 happlied), hamounts]
    · rw [herror happlied, herror' (mt hiff.2 happlied)]

/-! ## An order that overflows -/

def maxI128 : I128 := ⟨170141183460469231731687303715884105727, by decide⟩

def minusMaxI128 : I128 := ⟨-170141183460469231731687303715884105727, by decide⟩

/-- Two payments, the credits first. -/
def creditsFirst : List (String × I128) :=
  [("carol", maxI128), ("dave", ⟨1, by decide⟩), ("alice", minusMaxI128), ("bob", ⟨-1, by decide⟩)]

/-- The same payments, one after the other. -/
def oneByOne : List (String × I128) :=
  [("carol", maxI128), ("alice", minusMaxI128), ("dave", ⟨1, by decide⟩), ("bob", ⟨-1, by decide⟩)]

def richBalances : Balances :=
  ((∅ : Balances).insert "alice" 170141183460469231731687303715884105727).insert "bob" 1

/-- Entries in the order of their keys. -/
def keyOrder : HashOrder String I128 := ⟨ExtTreeMap.toList, fun _ => .refl _⟩

/-- The deltas settle and are applied in one order of the list, and are refused in another. -/
theorem creditsFirst_overflows :
    creditsFirst.Perm oneByOne ∧ Settles richBalances creditsFirst ∧
      (applyBalanceDeltas keyOrder richBalances oneByOne).1 = .ok () ∧
      (applyBalanceDeltas keyOrder richBalances creditsFirst).1 =
        .error "balance deltas overflow i128 while summing" := by
  have hperm : creditsFirst.Perm oneByOne := .cons _ (.swap _ _ _)
  have hok : (applyBalanceDeltas keyOrder richBalances oneByOne).1 = .ok () := by decide +kernel
  exact ⟨hperm, (applyBalanceDeltas_ok_iff.1 hok).1.perm hperm.symm, hok, by decide +kernel⟩

end RougeChain.Node
