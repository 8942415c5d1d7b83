import RougeChain.Consensus.Schedule

/-!
# Changes of the set under the rotation

`reweight` carries the priorities over to a changed set: survivors keep theirs,
newcomers enter at `-(W + W/8)`, a spread beyond `2W` is scaled down, and the
priorities are centred on the floor of their mean.

* `reweight_ok`: what a call that succeeds leaves, without any bound on the set;
* `Reached.calm`: along steps and reweights over sets of at most `2^16` members
  the priorities stay far inside the range of an `i128` (`Calm.bounds`). A reweight
  sets them between `-2W` and `2W`, and turns from there keep the averages of
  `Rotation.Level`;
* `schedule_never_fails`: so no call overflows, and a reweight leaves priorities of
  sum in `[0, n)` and spread at most `2W`;
* `newcomer_waits_iff`: the next step picks a key of the old set exactly if a
  survivor outbids every newcomer. `newcomer_proposes_on_entry`: that may fail.
-/

namespace RougeChain.Consensus.Schedule

open Finset
open Fallible (ok_bind bind_eq_ok ofOption_eq_ok mapM_ok mapM_eq_ok)

/-! ## What a reweight computes -/

/-- The members that the schedule was built for. -/
def members (s : Schedule) : List (KeyId × ℕ) := s.entries.map fun e => (e.key, e.weight)

/-- The keys in the schedule. -/
def keys (s : Schedule) : List KeyId := s.entries.map Entry.key

variable (s : Schedule) (set : ValidatorSet)

/-- The priority that a key starts with in the new set. -/
def carried (key : KeyId) : ℤ :=
  match s.entries.find? (·.key == key) with
  | some e => e.priority
  | none => -((set.total : ℤ) + set.total / 8)

/-- The priorities that the new set starts with. -/
def carriedAll : List ℤ := set.members.map fun m => s.carried set m.1

/-- The distance between the greatest and the least of them. -/
def spread : ℤ := (s.carriedAll set).max?.getD 0 - (s.carriedAll set).min?.getD 0

/-- The priority once the spread is scaled down. -/
def scaled (key : KeyId) : ℤ :=
  if 2 * (set.total : ℤ) < s.spread set then
    s.carried set key * (2 * set.total : ℕ) / s.spread set
  else s.carried set key

/-- The floor of the mean. -/
def mean : ℤ := (set.members.map fun m => s.scaled set m.1).sum / set.members.length

/-- The schedule after a change. -/
def reweighted : Schedule where
  entries := set.members.map fun m => ⟨m.1, m.2, s.scaled set m.1 - s.mean set⟩
  total := set.total

variable {s set}

theorem orOverflow_eq_ok {x y : ℤ} (h : orOverflow (toI128 x) = .ok y) : y = x :=
  (eq_of_toI128 (ofOption_eq_ok.1 h)).1

/-- The test of `reweight` compares keys and weights. -/
theorem unchanged_iff : s.entries.length = set.len ∧
    (s.entries.zip set.members).all (fun (e, m) => e.key == m.1 && e.weight == m.2) = true ↔
      s.members = set.members := by
  rw [members, ValidatorSet.len]
  generalize s.entries = es
  generalize set.members = ms
  induction es generalizing ms with
  | nil => cases ms <;> simp
  | cons e es ih =>
    cases ms with
    | nil => simp
    | cons m ms => simp [← ih, Prod.ext_iff, and_assoc, and_left_comm]

/-- The running sum of the priorities. -/
theorem sum_of_foldlM {es : List Entry} {a r : ℤ}
    (h : es.foldlM (fun sum e => orOverflow (toI128 (sum + e.priority))) a = .ok r) :
    r = a + (es.map Entry.priority).sum := by
  induction es generalizing a with
  | nil => rw [← Except.ok.inj h]; simp
  | cons e es ih =>
    rw [List.foldlM_cons] at h
    obtain ⟨b, hb, h⟩ := bind_eq_ok.1 h
    rw [ih h, orOverflow_eq_ok hb, List.map_cons, List.sum_cons, add_assoc]

/-- Scaling down one entry. -/
theorem scale_ok {e e' : Entry} (hfit : s.spread set < 2 ^ 127)
    (hlt : 2 * (set.total : ℤ) < s.spread set)
    (h : (do
      let priority ← orOverflow (signedMulDivFloor e.priority (2 * (set.total : ℤ)).natAbs
        (s.spread set).natAbs)
      Except.ok { e with priority }) = .ok e') :
    e' = { e with priority := e.priority * (2 * set.total : ℕ) / s.spread set } := by
  obtain ⟨p, hp, h⟩ := bind_eq_ok.1 h
  rw [← Except.ok.inj h, signedMulDivFloor_eq (by omega) (ofOption_eq_ok.1 hp)]
  have hspread : ((s.spread set).natAbs : ℤ) = s.spread set := by omega
  have htwo : (2 * (set.total : ℤ)).natAbs = 2 * set.total := by omega
  rw [hspread, htwo]

/-- Centring the scaled entries. -/
theorem centre_ok {s' : Schedule} {es : List Entry} (hne : set.members ≠ [])
    (hes : es = set.members.map fun m => ⟨m.1, m.2, s.scaled set m.1⟩)
    (h : (do
      let sum ← es.foldlM (fun sum (e : Entry) => orOverflow (toI128 (sum + e.priority))) 0
      let avg ← orOverflow (floorDiv sum es.length)
      let centred ← es.mapM fun (e : Entry) => do
        let priority ← orOverflow (toI128 (e.priority - avg))
        Except.ok { e with priority }
      Except.ok (⟨centred, set.total⟩ : Schedule)) = .ok s') : s' = s.reweighted set := by
  obtain ⟨sum, hsum, h⟩ := bind_eq_ok.1 h
  obtain ⟨avg, havg, h⟩ := bind_eq_ok.1 h
  obtain ⟨centred, hcentred, h⟩ := bind_eq_ok.1 h
  have hsum := sum_of_foldlM hsum
  have hpos : (0 : ℤ) < set.members.length := by exact_mod_cast List.length_pos_of_ne_nil hne
  have havg : avg = s.mean set := by
    rw [hes, List.length_map] at havg
    rw [floorDiv_eq hpos (ofOption_eq_ok.1 havg), hsum, hes, List.map_map, zero_add]
    rfl
  have hcentred := mapM_eq_ok (g := fun e : Entry => { e with priority := e.priority - avg })
    (fun e e' he => by
      obtain ⟨p, hp, he⟩ := bind_eq_ok.1 he
      rw [← Except.ok.inj he, orOverflow_eq_ok hp]) hcentred
  rw [← Except.ok.inj h, hcentred, hes, List.map_map, reweighted, havg]
  rfl

/-- A call that succeeds leaves the schedule alone, or reweighted. -/
theorem reweight_ok {s' : Schedule} (h : s.reweight set = .ok s') :
    s.members = set.members ∧ s' = s ∨ s.members ≠ set.members ∧ s' = s.reweighted set := by
  simp only [reweight] at h
  split at h
  · next heq => exact .inl ⟨unchanged_iff.1 heq, (Except.ok.inj h).symm⟩
  next hne =>
  refine .inr ⟨fun heq => hne (unchanged_iff.2 heq), ?_⟩
  split at h
  · cases h
  obtain ⟨w, hw, h⟩ := bind_eq_ok.1 h
  obtain rfl := orOverflow_eq_ok hw
  obtain ⟨entry, hentry, h⟩ := bind_eq_ok.1 h
  obtain ⟨x, hx, hentry⟩ := Option.bind_eq_some_iff.1 (ofOption_eq_ok.1 hentry)
  obtain rfl := (eq_of_toI128 hx).1
  generalize hnext : List.map _ set.members = next at h
  have hnext : next = set.members.map fun m => ⟨m.1, m.2, s.carried set m.1⟩ := by
    rw [← hnext]
    refine List.map_congr_left fun m _ => ?_
    rw [carried, (eq_of_toI128 hentry).1]
    cases s.entries.find? fun e => e.key == m.1 <;> rfl
  subst hnext
  split at h
  · next hnil =>
    rw [← Except.ok.inj h, reweighted, List.map_eq_nil_iff.1 hnil]
    rfl
  next hnil =>
  have hmembers : set.members ≠ [] := fun h => hnil (by rw [h]; rfl)
  have hall : (set.members.map fun m => (⟨m.1, m.2, s.carried set m.1⟩ : Entry)).map
      Entry.priority = s.carriedAll set := by
    rw [List.map_map]
    rfl
  rw [hall] at h
  obtain ⟨spread, hspread, h⟩ := bind_eq_ok.1 h
  obtain ⟨rfl, hfit⟩ := eq_of_toI128 (ofOption_eq_ok.1 hspread)
  obtain ⟨twoW, htwo, h⟩ := bind_eq_ok.1 h
  obtain rfl := orOverflow_eq_ok htwo
  split at h
  · next hlt =>
    obtain ⟨es, hes, h⟩ := bind_eq_ok.1 h
    refine centre_ok hmembers ?_ h
    rw [mapM_eq_ok (fun e e' => scale_ok hfit hlt) hes, List.map_map]
    refine List.map_congr_left fun m _ => ?_
    rw [scaled, if_pos (show 2 * (set.total : ℤ) < s.spread set from hlt)]
    rfl
  · next hle =>
    rw [ok_bind] at h
    refine centre_ok hmembers ?_ h
    refine List.map_congr_left fun m _ => ?_
    rw [scaled, if_neg (show ¬2 * (set.total : ℤ) < s.spread set from hle)]

/-! ## Spread and sum -/

theorem sub_le_of_mem {l : List ℤ} {x y : ℤ} (hx : x ∈ l) (hy : y ∈ l) :
    x - y ≤ l.max?.getD 0 - l.min?.getD 0 := by
  have hne : l ≠ [] := List.ne_nil_of_mem hx
  obtain ⟨M, hM⟩ := Option.isSome_iff_exists.1 (List.isSome_max?_iff.2 hne)
  obtain ⟨m, hm⟩ := Option.isSome_iff_exists.1 (List.isSome_min?_iff.2 hne)
  rw [hM, hm, Option.getD_some, Option.getD_some]
  have hle := (List.max?_eq_some_iff.1 hM).2 x hx
  have hge := (List.min?_eq_some_iff.1 hm).2 y hy
  omega

/-- The carried priorities are no further apart than their spread. -/
theorem carried_sub_le {m m' : KeyId × ℕ} (hm : m ∈ set.members) (hm' : m' ∈ set.members) :
    s.carried set m.1 - s.carried set m'.1 ≤ s.spread set :=
  sub_le_of_mem (List.mem_map_of_mem hm) (List.mem_map_of_mem hm')

/-- Floors of values at most `w` apart are at most `w` apart. -/
theorem ediv_sub_le {a b d w : ℤ} (hd : 0 < d) (hw : 0 ≤ w) (h : a - b ≤ d) :
    a * w / d - b * w / d ≤ w := by
  have hle : a * w ≤ b * w + w * d := by nlinarith
  calc a * w / d - b * w / d ≤ (b * w + w * d) / d - b * w / d := by
        gcongr
        exact Int.ediv_le_ediv hd hle
    _ = w := by rw [Int.add_mul_ediv_right _ _ hd.ne']; ring

theorem scaled_sub_le {m m' : KeyId × ℕ} (hm : m ∈ set.members) (hm' : m' ∈ set.members) :
    s.scaled set m.1 - s.scaled set m'.1 ≤ 2 * set.total := by
  have hle := carried_sub_le (s := s) hm hm'
  rw [scaled, scaled]
  split
  · next hlt =>
    have := ediv_sub_le (w := (2 * set.total : ℕ)) (by omega) (by omega) hle
    push_cast at this ⊢
    exact this
  · omega

theorem reweighted_eq : s.reweighted set =
    ofPriorities set fun i => s.scaled set (set.members.get i).1 - s.mean set := by
  simp only [reweighted, ofPriorities, Schedule.mk.injEq, and_true]
  conv_lhs => rw [← List.ofFn_get set.members, List.map_ofFn]
  rfl

theorem sum_map_members (f : KeyId × ℕ → ℤ) :
    (set.members.map f).sum = ∑ i, f (set.members.get i) := by
  rw [← List.sum_ofFn]
  conv_lhs => rw [← List.ofFn_get set.members, List.map_ofFn]
  rfl

/-- Centring on the floor of the mean leaves a sum in `[0, n)`. -/
theorem sum_centred (hne : set.members ≠ []) :
    0 ≤ ∑ i, (s.scaled set (set.members.get i).1 - s.mean set) ∧
      ∑ i, (s.scaled set (set.members.get i).1 - s.mean set) < set.members.length := by
  have hpos : (0 : ℤ) < set.members.length := by exact_mod_cast List.length_pos_of_ne_nil hne
  have hsum : ∑ i, (s.scaled set (set.members.get i).1 - s.mean set) =
      (∑ i, s.scaled set (set.members.get i).1) % set.members.length := by
    rw [sum_sub_distrib, sum_const, card_univ, Fintype.card_fin, nsmul_eq_mul, mean,
      sum_map_members, Int.emod_def]
  rw [hsum]
  exact ⟨Int.emod_nonneg _ hpos.ne', Int.emod_lt_of_pos _ hpos⟩

/-- Values with a sum in `[0, n)` that are at most `d` apart lie between `-d` and `d`. -/
theorem le_of_sum_of_spread {n : ℕ} {p : Fin n → ℤ} {d : ℤ} (h0 : 0 ≤ ∑ i, p i)
    (hn : ∑ i, p i < n) (hd : ∀ i j, p i - p j ≤ d) (i : Fin n) : -d ≤ p i ∧ p i ≤ d := by
  obtain ⟨j, -, hj⟩ : ∃ j ∈ univ, 0 ≤ p j := by
    by_contra hneg
    push Not at hneg
    exact absurd (sum_neg' (fun j hj => (hneg j hj).le) ⟨i, mem_univ i, hneg i (mem_univ i)⟩)
      (not_lt.2 h0)
  obtain ⟨k, -, hk⟩ : ∃ k ∈ univ, p k ≤ 0 := by
    by_contra hpos
    push Not at hpos
    have := card_nsmul_le_sum univ p 1 fun k hk => hpos k hk
    simp only [card_univ, Fintype.card_fin, nsmul_eq_mul, mul_one] at this
    exact absurd hn (not_lt.2 this)
  have := hd i k
  have := hd j i
  constructor <;> omega

/-! ## No overflow -/

/-- The sets that the bounds are for. -/
def maxMembers : ℕ := 2 ^ 16

/-- Where the priorities of a calm schedule lie. -/
def Small (x : ℤ) : Prop := |x| ≤ 2 ^ 107

theorem exists_sum {es : List Entry} (hes : ∀ e ∈ es, Small e.priority) {a : ℤ}
    (ha : |a| + es.length * 2 ^ 107 < 2 ^ 126) :
    ∃ r, es.foldlM (fun sum e => orOverflow (toI128 (sum + e.priority))) a = .ok r ∧
      |r| ≤ |a| + es.length * 2 ^ 107 := by
  induction es generalizing a with
  | nil => exact ⟨a, rfl, by simp⟩
  | cons e es ih =>
    obtain ⟨he, hes⟩ := List.forall_mem_cons.1 hes
    have hadd : |a + e.priority| ≤ |a| + 2 ^ 107 := (abs_add_le _ _).trans (by gcongr; exact he)
    rw [List.length_cons] at ha ⊢
    push_cast at ha ⊢
    obtain ⟨r, hr, hle⟩ := ih hes (a := a + e.priority) (by omega)
    obtain ⟨hlo, hhi⟩ := abs_le.1 hadd
    refine ⟨r, ?_, by omega⟩
    rw [List.foldlM_cons, orOverflow_toI128 (by omega) (by omega), ok_bind, hr]

theorem exists_centre {es : List Entry} (hne : es ≠ []) (hlen : es.length ≤ maxMembers)
    (hes : ∀ e ∈ es, Small e.priority) :
    ∃ s' : Schedule, (do
      let sum ← es.foldlM (fun sum (e : Entry) => orOverflow (toI128 (sum + e.priority))) 0
      let avg ← orOverflow (floorDiv sum es.length)
      let centred ← es.mapM fun (e : Entry) => do
        let priority ← orOverflow (toI128 (e.priority - avg))
        Except.ok { e with priority }
      Except.ok (⟨centred, set.total⟩ : Schedule)) = .ok s' := by
  have hpos : (0 : ℤ) < es.length := by exact_mod_cast List.length_pos_of_ne_nil hne
  have hle : (es.length : ℤ) ≤ 2 ^ 16 := by exact_mod_cast hlen
  obtain ⟨sum, hsum, hbound⟩ := exists_sum hes (a := 0) (by rw [abs_zero]; omega)
  rw [abs_zero, zero_add] at hbound
  obtain ⟨avg, havg⟩ := exists_floorDiv hpos (show |sum| < 2 ^ 126 by omega)
  have habs : |avg| ≤ 2 ^ 123 := by
    rw [floorDiv_eq hpos havg]
    exact (Int.abs_ediv_le_abs _ _).trans (by omega)
  obtain ⟨hlo, hhi⟩ := abs_le.1 habs
  have hcentre : ∀ e ∈ es, (do
      let priority ← orOverflow (toI128 (e.priority - avg))
      Except.ok { e with priority }) = .ok ({ e with priority := e.priority - avg } : Entry) := by
    intro e he
    obtain ⟨hlo', hhi'⟩ := abs_le.1 (hes e he)
    rw [orOverflow_toI128 (by omega) (by omega), ok_bind]
  have havg : orOverflow (floorDiv sum es.length) = .ok avg := ofOption_eq_ok.2 havg
  rw [hsum, ok_bind, havg, ok_bind, mapM_ok hcentre, ok_bind]
  exact ⟨_, rfl⟩

theorem small_carried (hs : ∀ e ∈ s.entries, Small e.priority) (key : KeyId) :
    Small (s.carried set key) := by
  have htotal : (set.total : ℤ) < 2 ^ 100 := by exact_mod_cast set.total_lt
  rw [carried]
  split
  · next e he => exact hs e (List.mem_of_find?_eq_some he)
  · rw [Small, abs_le]
    constructor <;> omega

/-- A factor of at most one keeps a priority small. -/
theorem small_ediv {a d b : ℤ} (ha : Small a) (hd : 0 < d) (hb : 0 ≤ b) (hbd : b ≤ d) :
    Small (a * b / d) := by
  obtain ⟨hlo, hhi⟩ := abs_le.1 ha
  rw [Small, abs_le]
  constructor
  · refine (Int.le_ediv_iff_mul_le hd).2 ?_
    nlinarith
  · refine Int.ediv_le_of_le_mul hd ?_
    nlinarith

/-- Small priorities are carried over to at most `2^16` members without an overflow. -/
theorem exists_reweight (hs : ∀ e ∈ s.entries, Small e.priority) (hlen : set.len ≤ maxMembers) :
    ∃ s', s.reweight set = .ok s' := by
  have htotal : (set.total : ℤ) < 2 ^ 100 := by exact_mod_cast set.total_lt
  have hcarried (key : KeyId) : Small (s.carried set key) := small_carried hs key
  simp only [reweight]
  split
  · exact ⟨s, rfl⟩
  rw [if_neg (not_le.2 set.total_lt), orOverflow_toI128 (by omega) (by omega), ok_bind,
    toI128_eq (x := (set.total : ℤ) + set.total / 8) (by omega) (by omega), Option.bind_some,
    orOverflow_toI128 (by omega) (by omega), ok_bind]
  generalize hnext : List.map _ set.members = next
  have hnext : next = set.members.map fun m => ⟨m.1, m.2, s.carried set m.1⟩ := by
    rw [← hnext]
    refine List.map_congr_left fun m _ => ?_
    rw [carried]
    cases s.entries.find? fun e => e.key == m.1 <;> rfl
  have hall : next.map Entry.priority = s.carriedAll set := by
    rw [hnext, List.map_map]
    rfl
  have hlen' : next.length ≤ maxMembers := by rwa [hnext, List.length_map]
  have hsmall : ∀ e ∈ next, Small e.priority := by
    intro e he
    rw [hnext] at he
    obtain ⟨m, -, rfl⟩ := List.mem_map.1 he
    exact hcarried m.1
  split
  · exact ⟨_, rfl⟩
  next hne =>
  have hspread : |s.spread set| ≤ 2 ^ 108 := by
    have hne' : next.map Entry.priority ≠ [] := mt List.map_eq_nil_iff.1 hne
    obtain ⟨M, hM⟩ := Option.isSome_iff_exists.1 (List.isSome_max?_iff.2 hne')
    obtain ⟨m, hm⟩ := Option.isSome_iff_exists.1 (List.isSome_min?_iff.2 hne')
    obtain ⟨e, he, rfl⟩ := List.mem_map.1 (List.max?_eq_some_iff.1 hM).1
    obtain ⟨e', he', rfl⟩ := List.mem_map.1 (List.min?_eq_some_iff.1 hm).1
    rw [hall] at hM hm
    obtain ⟨h₁, h₂⟩ := abs_le.1 (hsmall e he)
    obtain ⟨h₃, h₄⟩ := abs_le.1 (hsmall e' he')
    rw [spread, hM, hm, Option.getD_some, Option.getD_some, abs_le]
    constructor <;> omega
  obtain ⟨hlo, hhi⟩ := abs_le.1 hspread
  have hfit : orOverflow (toI128 ((s.carriedAll set).max?.getD 0 -
      (s.carriedAll set).min?.getD 0)) = .ok (s.spread set) :=
    orOverflow_toI128 (show -2 ^ 127 ≤ s.spread set by omega) (show s.spread set < 2 ^ 127 by omega)
  rw [hall, hfit, ok_bind, orOverflow_toI128 (by omega) (by omega), ok_bind]
  split
  · next hlt =>
    have hscale : ∀ e ∈ next, (do
        let priority ← orOverflow (signedMulDivFloor e.priority (2 * (set.total : ℤ)).natAbs
          (s.spread set).natAbs)
        Except.ok { e with priority }) =
          .ok ({ e with priority := e.priority * (2 * set.total : ℕ) / s.spread set } : Entry) := by
      intro e he
      obtain ⟨h₁, h₂⟩ := abs_le.1 (hsmall e he)
      obtain ⟨c, hc⟩ := exists_signedMulDivFloor (a := e.priority)
        (b := (2 * (set.total : ℤ)).natAbs) (d := (s.spread set).natAbs) (by omega) (by omega)
        (by omega) (by omega)
      have hok : orOverflow (signedMulDivFloor e.priority (2 * (set.total : ℤ)).natAbs
          (s.spread set).natAbs) = .ok c := ofOption_eq_ok.2 hc
      have he' := @scale_ok s set e { e with priority := c } (by omega) hlt (by rw [hok, ok_bind])
      rw [hok, ok_bind, he']
    rw [mapM_ok hscale, ok_bind]
    refine exists_centre (by simpa using hne) (by rwa [List.length_map]) ?_
    intro e he
    obtain ⟨e', he', rfl⟩ := List.mem_map.1 he
    exact small_ediv (hsmall e' he') (by omega) (by omega) (by push_cast; omega)
  · rw [ok_bind]
    exact exists_centre hne hlen' hsmall

/-! ## Any calls in a row -/

/-- The schedules that steps and reweights lead to, over sets with `ok`. A call
    that fails leaves the schedule as it was. -/
inductive Reached (ok : ValidatorSet → Prop) : Schedule → Prop
  | new {set : ValidatorSet} : ok set → Reached ok (.new set)
  | step {s s' : Schedule} {key : KeyId} : Reached ok s → s.step = .ok (key, s') → Reached ok s'
  | reweight {s s' : Schedule} {set : ValidatorSet} :
      Reached ok s → ok set → s.reweight set = .ok s' → Reached ok s'

/-- Priorities on a level of `2W`, for a set of at most `2^16` members. -/
def Calm (s : Schedule) : Prop :=
  ∃ (set : ValidatorSet) (p : Fin set.members.length → ℤ), s = ofPriorities set p ∧
    set.len ≤ maxMembers ∧ (∀ i, -(2 * set.total : ℤ) ≤ p i) ∧ 0 ≤ ∑ i, p i ∧
    ∑ i, p i ≤ set.members.length * (2 * set.total) ∧
    Rotation.Level (weightAt set) p (2 * set.total)

/-- Priorities between `-2W` and `2W` of no negative sum are calm. -/
theorem calm_of_le {p : Fin set.members.length → ℤ} (hlen : set.len ≤ maxMembers)
    (hlo : ∀ i, -(2 * set.total : ℤ) ≤ p i) (hhi : ∀ i, p i ≤ 2 * set.total)
    (hsum : 0 ≤ ∑ i, p i) : Calm (ofPriorities set p) := by
  refine ⟨set, p, rfl, hlen, hlo, hsum, ?_,
    Rotation.level_of_le (fun i => (weightAt_pos set i).le) hhi⟩
  simpa using sum_le_card_nsmul univ p _ fun i _ => hhi i

theorem Calm.small (hs : s.Calm) : ∀ e ∈ s.entries, Small e.priority := by
  obtain ⟨set, p, rfl, -, hlo, -, -, hlevel⟩ := hs
  intro e he
  obtain ⟨i, rfl⟩ := (List.mem_ofFn' _ _).1 he
  have htotal : (set.total : ℤ) < 2 ^ 100 := by exact_mod_cast set.total_lt
  have hlo := hlo i
  have hhi := level_le hlevel i
  refine abs_le.2 ⟨?_, ?_⟩ <;> dsimp only <;> omega

/-- A step of a calm schedule with members succeeds and is calm. -/
theorem Calm.step (hs : s.Calm) (hne : s.entries ≠ []) :
    ∃ key s', s.step = .ok (key, s') ∧ s'.Calm := by
  have hsmall := hs.small
  obtain ⟨set, p, rfl, hlen, hlo, hsum, hsum', hlevel⟩ := hs
  have hmembers : set.members ≠ [] := by
    intro h
    exact hne (List.length_eq_zero_iff.1 (by simp [ofPriorities, h]))
  have hbound : ∀ i, -2 ^ 107 ≤ p i ∧ p i ≤ 2 ^ 107 := fun i =>
    abs_le.1 (hsmall _ (List.mem_ofFn.2 ⟨i, rfl⟩))
  obtain ⟨b, hpick, hstep⟩ := step_ofPriorities (p := p) hmembers
    (fun i => by have := hbound i; omega) (fun i => by have := hbound i; omega)
  refine ⟨_, _, hstep, set, _, rfl, hlen, fun i => ?_, ?_, ?_, ?_⟩
  · by_cases hi : i = b
    · have := hpick.neg_lt_next (weightAt_pos set) hsum
      rw [sum_weightAt] at this
      rw [hi]
      omega
    · exact (hlo i).trans (Rotation.le_next_of_ne (weightAt_pos set) hi)
  · rwa [Rotation.sum_next_univ]
  · rwa [Rotation.sum_next_univ]
  · refine hlevel.next (fun i => (weightAt_pos set i).le) ?_ hpick
    rwa [Fintype.card_fin]

theorem calm_new (hlen : set.len ≤ maxMembers) : (new set).Calm := by
  rw [new_eq_ofPriorities]
  exact calm_of_le hlen (by simp) (by simp) (by simp)

/-- A reweight leaves priorities of sum in `[0, n)` and spread at most `2W`. -/
theorem reweighted_centred (hne : set.members ≠ []) :
    (0 ≤ ((s.reweighted set).entries.map Entry.priority).sum ∧
      ((s.reweighted set).entries.map Entry.priority).sum < set.len) ∧
    ∀ e ∈ (s.reweighted set).entries, ∀ e' ∈ (s.reweighted set).entries,
      e.priority - e'.priority ≤ 2 * set.total := by
  have hsum : ((s.reweighted set).entries.map Entry.priority).sum =
      ∑ i, (s.scaled set (set.members.get i).1 - s.mean set) := by
    rw [reweighted, List.map_map, ← sum_map_members fun m => s.scaled set m.1 - s.mean set]
    rfl
  refine ⟨hsum ▸ sum_centred hne, fun e he e' he' => ?_⟩
  obtain ⟨m, hm, rfl⟩ := List.mem_map.1 he
  obtain ⟨m', hm', rfl⟩ := List.mem_map.1 he'
  have := scaled_sub_le (s := s) hm hm'
  simp only
  omega

theorem calm_reweighted (hlen : set.len ≤ maxMembers) : (s.reweighted set).Calm := by
  rw [reweighted_eq]
  by_cases hne : set.members = []
  · have hempty : ∀ i : Fin set.members.length, False := fun i => by
      have := i.isLt
      simp [hne] at this
    exact calm_of_le hlen (fun i => (hempty i).elim) (fun i => (hempty i).elim)
      (sum_nonneg fun i => (hempty i).elim)
  · obtain ⟨h0, hn⟩ := sum_centred (s := s) hne
    have hbound := le_of_sum_of_spread (d := 2 * set.total) h0 hn fun i j => by
      have := scaled_sub_le (s := s) (List.get_mem set.members i) (List.get_mem set.members j)
      omega
    exact calm_of_le hlen (fun i => (hbound i).1) (fun i => (hbound i).2) h0

theorem Reached.calm (hs : Reached (fun set => set.len ≤ maxMembers) s) : s.Calm := by
  induction hs with
  | new hlen => exact calm_new hlen
  | @step s s' key _ hstep ih =>
    by_cases hne : s.entries = []
    · rw [Schedule.step, hne] at hstep
      cases hstep
    · obtain ⟨key', s'', hstep', hcalm⟩ := ih.step hne
      obtain ⟨-, rfl⟩ := Prod.mk.inj (Except.ok.inj (hstep.symm.trans hstep'))
      exact hcalm
  | @reweight s s' set _ hlen hreweight ih =>
    rcases reweight_ok hreweight with ⟨-, rfl⟩ | ⟨-, rfl⟩
    · exact ih
    · exact calm_reweighted hlen

/-- Over sets of at most `2^16` members no call overflows. After a reweight that
    changed the set to `n > 0` members of total `W`, the sum of the priorities is
    in `[0, n)` and their spread at most `2W`. -/
theorem schedule_never_fails (hs : Reached (fun set => set.len ≤ maxMembers) s) :
    s.step ≠ .error .overflow ∧ ∀ set : ValidatorSet, set.len ≤ maxMembers →
      s.reweight set ≠ .error .overflow ∧ ∀ s', s.reweight set = .ok s' →
        s.members ≠ set.members → set.members ≠ [] →
        (0 ≤ (s'.entries.map Entry.priority).sum ∧
          (s'.entries.map Entry.priority).sum < set.len) ∧
        ∀ e ∈ s'.entries, ∀ e' ∈ s'.entries, e.priority - e'.priority ≤ 2 * set.total := by
  have hcalm := hs.calm
  refine ⟨fun h => ?_, fun set hlen => ⟨fun h => ?_, fun s' h hchanged hne => ?_⟩⟩
  · by_cases hne : s.entries = []
    · rw [step, hne] at h
      cases h
    · obtain ⟨key, s', hstep, -⟩ := hcalm.step hne
      exact absurd (h.symm.trans hstep) (by simp)
  · obtain ⟨s', hs'⟩ := exists_reweight hcalm.small hlen
    exact absurd (h.symm.trans hs') (by simp)
  · obtain ⟨-, rfl⟩ := (reweight_ok h).resolve_left fun h => hchanged h.1
    exact reweighted_centred hne

/-- A light validator and a heavy one. -/
def unevenPair : ValidatorSet where
  members := [(0, 1), (1, 9)]
  total := 10
  sorted := by decide
  weight_pos := by decide
  total_eq := rfl
  total_lt := by decide

/-- The light validator, and a newcomer in the place of the heavy one. -/
def joinedPair : ValidatorSet where
  members := [(0, 1), (2, 4)]
  total := 5
  sorted := by decide
  weight_pos := by decide
  total_eq := rfl
  total_lt := by decide

theorem schedule_never_fails_unevenPair : ∃ s', (new unevenPair).reweight joinedPair = .ok s' ∧
    0 ≤ (s'.entries.map Entry.priority).sum ∧ (s'.entries.map Entry.priority).sum < 2 ∧
    ∀ e ∈ s'.entries, ∀ e' ∈ s'.entries, e.priority - e'.priority ≤ 10 := by
  have hs : Reached (fun set => set.len ≤ maxMembers) (new unevenPair) := .new (by decide)
  obtain ⟨s', hs'⟩ : ∃ s', (new unevenPair).reweight joinedPair = .ok s' :=
    exists_reweight hs.calm.small (by decide)
  obtain ⟨⟨h0, hn⟩, hspread⟩ := ((schedule_never_fails hs).2 joinedPair (by decide)).2 s' hs'
    (by decide) (by decide)
  exact ⟨s', hs', h0, hn, hspread⟩

/-! ## Newcomers -/

theorem raise_ok {e e' : Entry} (h : raise e = .ok e') : e' = raised e := by
  obtain ⟨w, hw, h⟩ := bind_eq_ok.1 h
  obtain ⟨p, hp, h⟩ := bind_eq_ok.1 h
  rw [← Except.ok.inj h, orOverflow_eq_ok hp, orOverflow_eq_ok hw]
  rfl

theorem raise_of_stepLoop {es : List Entry} {i best : ℕ} {bestPriority : ℤ} {r : List Entry × ℕ}
    (h : stepLoop i best bestPriority es = .ok r) : ∀ e ∈ es, raise e = .ok (raised e) := by
  induction es generalizing i best bestPriority r with
  | nil => simp
  | cons e es ih =>
    rw [stepLoop] at h
    obtain ⟨e', he, h⟩ := bind_eq_ok.1 h
    obtain ⟨r', hr, h⟩ := bind_eq_ok.1 h
    exact List.forall_mem_cons.2 ⟨raise_ok he ▸ he, ih hr⟩

/-- A step that succeeds picks the first of the greatest raised priorities. -/
theorem step_ok {s' : Schedule} {key : KeyId} (h : s.step = .ok (key, s')) :
    ∃ (b : ℕ) (hb : b < s.entries.length), key = s.entries[b].key ∧
      (∀ e ∈ s.entries, (raised e).priority ≤ (raised s.entries[b]).priority) ∧
      ∀ e ∈ s.entries.take b, (raised e).priority < (raised s.entries[b]).priority := by
  obtain ⟨entries, total⟩ := s
  cases entries with
  | nil => cases h
  | cons e es =>
    simp only [step] at h
    split at h
    · cases h
    obtain ⟨e', he, h⟩ := bind_eq_ok.1 h
    obtain rfl := raise_ok he
    obtain ⟨r, hr, h⟩ := bind_eq_ok.1 h
    obtain ⟨b, hb, hloop, hmax, hfirst⟩ := stepLoop_winner (e := e) (raise_of_stepLoop hr)
    obtain rfl := Except.ok.inj (hr.symm.trans hloop)
    obtain ⟨w, -, h⟩ := bind_eq_ok.1 h
    obtain ⟨p, -, h⟩ := bind_eq_ok.1 h
    refine ⟨b, hb, ?_, hmax, hfirst⟩
    rw [← (Prod.mk.inj (Except.ok.inj h)).1, ← List.map_cons, List.getD_eq_getElem?_getD,
      List.getElem?_eq_getElem (by simpa using hb), Option.getD_some, List.getElem_map]
    rfl

variable (s set)

/-- What a member bids for the step after the change: its priority, scaled, and
    its weight. Centring shifts all bids alike. -/
def bid (m : KeyId × ℕ) : ℤ := s.scaled set m.1 + m.2

/-- The bid of `m` is higher than that of `c`, or the same, of a lower key. -/
def Outbids (m c : KeyId × ℕ) : Prop :=
  s.bid set c < s.bid set m ∨ s.bid set c = s.bid set m ∧ m.1 < c.1

/-- Some survivor outbids every newcomer. -/
def SurvivorLeads : Prop :=
  ∃ m ∈ set.members, m.1 ∈ s.keys ∧ ∀ c ∈ set.members, c.1 ∉ s.keys → s.Outbids set m c

variable {s set}

/-- Where a member stands to the one at index `b`. -/
theorem mem_take_or (set : ValidatorSet) {b : ℕ} (hb : b < set.members.length)
    {m : KeyId × ℕ} (hm : m ∈ set.members) :
    m ∈ set.members.take b ∧ m.1 < set.members[b].1 ∨ m = set.members[b] ∨
      set.members[b].1 < m.1 := by
  have hsplit : set.members = set.members.take b ++ set.members[b] :: set.members.drop (b + 1) := by
    rw [List.getElem_cons_drop, List.take_append_drop]
  have hsorted := set.sorted
  rw [hsplit] at hm hsorted
  obtain ⟨-, hrest, hbefore⟩ := List.pairwise_append.1 hsorted
  rcases List.mem_append.1 hm with hm | hm
  · exact .inl ⟨hm, hbefore m hm _ List.mem_cons_self⟩
  · rcases List.mem_cons.1 hm with rfl | hm
    · exact .inr (.inl rfl)
    · exact .inr (.inr ((List.pairwise_cons.1 hrest).1 m hm))

/-- After a reweight, the next step picks a key of the old set exactly if some
    survivor outbids every newcomer. -/
theorem newcomer_waits_iff {s' s'' : Schedule} {key : KeyId} (h : s.reweight set = .ok s')
    (hstep : s'.step = .ok (key, s'')) : key ∈ s.keys ↔ s.SurvivorLeads set := by
  obtain ⟨b, hb, rfl, hmax, hfirst⟩ := step_ok hstep
  rcases reweight_ok h with ⟨heq, rfl⟩ | ⟨-, rfl⟩
  · -- Nothing changed: there are no newcomers.
    have hold : ∀ m ∈ set.members, m.1 ∈ s'.keys := by
      intro m hm
      rw [← heq] at hm
      obtain ⟨e, he, rfl⟩ := List.mem_map.1 hm
      exact List.mem_map_of_mem he
    have hwinner : (s'.entries[b].key, s'.entries[b].weight) ∈ set.members := by
      rw [← heq]
      exact List.mem_map_of_mem (List.getElem_mem hb)
    exact ⟨fun _ => ⟨_, hwinner, hold _ hwinner, fun c hc hnew => absurd (hold c hc) hnew⟩,
      fun _ => hold _ hwinner⟩
  · have hb' : b < set.members.length := by simpa [reweighted] using hb
    have hwinner : (s.reweighted set).entries[b] =
        ⟨set.members[b].1, set.members[b].2,
          s.scaled set set.members[b].1 - s.mean set⟩ := by simp [reweighted]
    rw [hwinner] at hmax hfirst ⊢
    have hmax : ∀ m ∈ set.members, s.bid set m ≤ s.bid set set.members[b] := by
      intro m hm
      have := hmax _ (List.mem_map_of_mem hm)
      simp only [raised, bid] at this ⊢
      omega
    have hfirst : ∀ m ∈ set.members.take b, s.bid set m < s.bid set set.members[b] := by
      intro m hm
      have := hfirst _ (by rw [reweighted, ← List.map_take]; exact List.mem_map_of_mem hm)
      simp only [raised, bid] at this ⊢
      omega
    constructor
    · intro hold
      refine ⟨_, List.getElem_mem hb', hold, fun c hc hnew => ?_⟩
      rcases (hmax c hc).lt_or_eq with hlt | heq
      · exact .inl hlt
      · rcases mem_take_or set hb' hc with ⟨hbefore, -⟩ | rfl | hafter
        · exact absurd heq (hfirst c hbefore).ne
        · exact absurd hold hnew
        · exact .inr ⟨heq, hafter⟩
    · rintro ⟨m, hm, hold, hleads⟩
      by_contra hnew
      rcases hleads _ (List.getElem_mem hb') hnew with hlt | ⟨heq, hkey⟩
      · exact absurd (hmax m hm) (not_le.2 hlt)
      · rcases mem_take_or set hb' hm with ⟨hbefore, -⟩ | rfl | hafter
        · exact absurd heq (hfirst m hbefore).ne'
        · exact hnew hold
        · exact absurd hkey hafter.le.not_gt

theorem Reached.steps {ok : ValidatorSet → Prop} (hs : Reached ok s) {n : ℕ} {keys : List KeyId}
    {s' : Schedule} (h : s.steps n = .ok (keys, s')) : Reached ok s' := by
  induction n generalizing keys s' with
  | zero =>
    rw [← (Prod.mk.inj (Except.ok.inj h)).2]
    exact hs
  | succ n ih =>
    obtain ⟨⟨keys₁, s₁⟩, h₁, h⟩ := bind_eq_ok.1 h
    obtain ⟨⟨key, s₂⟩, h₂, h⟩ := bind_eq_ok.1 h
    rw [← (Prod.mk.inj (Except.ok.inj h)).2]
    exact (ih h₁).step h₂

/-- The light validator has just been picked. -/
def pickedPair : Schedule := ⟨[⟨0, 1, -5⟩, ⟨1, 9, 5⟩], 10⟩

theorem reached_pickedPair : Reached (fun _ => True) pickedPair :=
  Reached.steps (.new trivial)
    (show (new unevenPair).steps 5 = .ok ([1, 1, 1, 1, 0], pickedPair) by decide +kernel)

theorem newcomer_waits_iff_pickedPair :
    pickedPair.reweight joinedPair = .ok ⟨[⟨0, 1, 0⟩, ⟨2, 4, 0⟩], 5⟩ ∧
      (2 ∈ pickedPair.keys ↔ pickedPair.SurvivorLeads joinedPair) :=
  have h : pickedPair.reweight joinedPair = .ok ⟨[⟨0, 1, 0⟩, ⟨2, 4, 0⟩], 5⟩ := by decide +kernel
  ⟨h, newcomer_waits_iff h
    (show Schedule.step _ = .ok (2, ⟨[⟨0, 1, 1⟩, ⟨2, 4, -1⟩], 5⟩) by decide +kernel)⟩

/-- The heavy validator leaves right after a turn of the light one, which stays. The
    newcomer in its place is picked at once. -/
theorem newcomer_proposes_on_entry : ∃ s s' s'', Reached (fun _ => True) s ∧
    (∃ key ∈ s.keys, key ∈ joinedPair.members.map Prod.fst) ∧
    s.reweight joinedPair = .ok s' ∧ s'.step = .ok (2, s'') ∧ 2 ∉ s.keys :=
  ⟨pickedPair, ⟨[⟨0, 1, 0⟩, ⟨2, 4, 0⟩], 5⟩, ⟨[⟨0, 1, 1⟩, ⟨2, 4, -1⟩], 5⟩, reached_pickedPair,
    ⟨0, by decide, by decide⟩, by decide +kernel, by decide +kernel, by decide⟩

end RougeChain.Consensus.Schedule
