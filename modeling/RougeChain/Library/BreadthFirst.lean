import Mathlib

/-!
# Breadth-first search of a tree

A queue hands out nodes and takes in their children (`visits`). Nothing is remembered of the nodes
seen, so what is searched is a tree, and fuel stands for its size.

* `mem_visits`: with fuel for a weight that pays for every node and its children, the nodes that
  are handed out are those below the queue;
* `visits_sorted`: they come in the order of their depth;
* `firstBest_eq_some`: of what they are worth, the first of the best is kept.
-/

namespace BreadthFirst

variable {α β γ : Type*}

section Visits

variable (children : α → List α)

/-- The nodes in the order in which the queue hands them out. -/
def visits : ℕ → List α → List α
  | 0, _ => []
  | _ + 1, [] => []
  | fuel + 1, a :: queue => a :: visits fuel (queue ++ children a)

/-- The second node is the first or below it. -/
def Descends : α → α → Prop := Relation.ReflTransGen fun a b => b ∈ children a

variable {children}

theorem descends_iff {a b : α} :
    Descends children a b ↔ b = a ∨ ∃ c ∈ children a, Descends children c b := by
  rw [Descends, Relation.ReflTransGen.cases_head_iff]
  exact or_congr eq_comm Iff.rfl

/-- What holds of a node and passes to children holds of all nodes below. -/
theorem Descends.invariant {I : α → Prop} (hI : ∀ a, I a → ∀ b ∈ children a, I b) {a b : α}
    (h : Descends children a b) (ha : I a) : I b := by
  induction h with
  | refl => exact ha
  | tail _ hstep ih => exact hI _ ih _ hstep

/-- The weight of a node pays for it and for its children. -/
def Pays (children : α → List α) (weight : α → ℕ) (a : α) : Prop :=
  ((children a).map weight).sum < weight a

/-- With fuel for their weight, the queue hands out all nodes below it and no others. -/
theorem mem_visits {I : α → Prop} (hI : ∀ a, I a → ∀ b ∈ children a, I b) {weight : α → ℕ}
    (hpays : ∀ a, I a → Pays children weight a) {fuel : ℕ} {queue : List α}
    (hqueue : ∀ a ∈ queue, I a) (hfuel : (queue.map weight).sum ≤ fuel) {b : α} :
    b ∈ visits children fuel queue ↔ ∃ a ∈ queue, Descends children a b := by
  induction fuel generalizing queue with
  | zero =>
    -- a node would weigh something
    cases queue with
    | nil => simp [visits]
    | cons a queue =>
      have ha := hpays a (hqueue a List.mem_cons_self)
      rw [List.map_cons, List.sum_cons] at hfuel
      unfold Pays at ha
      omega
  | succ fuel ih =>
    cases queue with
    | nil => simp [visits]
    | cons a queue =>
      have ha := hqueue a List.mem_cons_self
      have hweight := hpays a ha
      have hnext : ∀ c ∈ queue ++ children a, I c := by
        intro c hc
        rcases List.mem_append.1 hc with hc | hc
        · exact hqueue c (List.mem_cons_of_mem _ hc)
        · exact hI a ha c hc
      have hrest : ((queue ++ children a).map weight).sum ≤ fuel := by
        rw [List.map_cons, List.sum_cons] at hfuel
        rw [List.map_append, List.sum_append]
        unfold Pays at hweight
        omega
      rw [visits, List.mem_cons, ih hnext hrest]
      simp only [List.mem_append, List.mem_cons, or_and_right, exists_or, exists_eq_left]
      rw [descends_iff (a := a), or_assoc, or_comm (a := ∃ c ∈ queue, _)]

/-- Every node that is handed out is below the queue, whatever the fuel. -/
theorem descends_of_mem_visits {fuel : ℕ} {queue : List α} {b : α}
    (hb : b ∈ visits children fuel queue) : ∃ a ∈ queue, Descends children a b := by
  induction fuel generalizing queue with
  | zero => cases hb
  | succ fuel ih =>
    cases queue with
    | nil => cases hb
    | cons a queue =>
      rcases List.mem_cons.1 hb with rfl | hb
      · exact ⟨b, List.mem_cons_self, .refl⟩
      obtain ⟨c, hc, hcb⟩ := ih hb
      rcases List.mem_append.1 hc with hc | hc
      · exact ⟨c, List.mem_cons_of_mem _ hc, hcb⟩
      · exact ⟨a, List.mem_cons_self, descends_iff.2 (.inr ⟨c, hc, hcb⟩)⟩

variable {depth : α → ℕ} (hdepth : ∀ a, ∀ b ∈ children a, depth b = depth a + 1)
include hdepth

theorem Descends.depth_le {a b : α} (h : Descends children a b) : depth a ≤ depth b := by
  induction h with
  | refl => exact le_rfl
  | tail _ hstep ih => exact ih.trans (by rw [hdepth _ _ hstep]; exact Nat.le_succ _)

/-- A queue of one level and the beginning of the next hands out nodes level by level. -/
theorem visits_sorted {fuel : ℕ} {queue : List α}
    (hsorted : queue.Pairwise fun a b => depth a ≤ depth b)
    (hlevels : ∀ a ∈ queue, ∀ b ∈ queue, depth b ≤ depth a + 1) :
    (visits children fuel queue).Pairwise fun a b => depth a ≤ depth b := by
  induction fuel generalizing queue with
  | zero => exact List.Pairwise.nil
  | succ fuel ih =>
    cases queue with
    | nil => exact List.Pairwise.nil
    | cons a queue =>
      rw [List.pairwise_cons] at hsorted
      have hchildren : ∀ b ∈ children a, depth b = depth a + 1 := hdepth a
      have hlevel : ∀ b ∈ queue, depth b ≤ depth a + 1 := fun b hb =>
        hlevels a List.mem_cons_self b (List.mem_cons_of_mem _ hb)
      have hbelow : ∀ b ∈ queue ++ children a, depth a ≤ depth b ∧ depth b ≤ depth a + 1 := by
        intro b hb
        rcases List.mem_append.1 hb with hb | hb
        · exact ⟨hsorted.1 b hb, hlevel b hb⟩
        · rw [hchildren b hb]
          exact ⟨Nat.le_succ _, le_rfl⟩
      refine List.pairwise_cons.2 ⟨fun b hb => ?_, ih ?_ ?_⟩
      · obtain ⟨c, hc, hcb⟩ := descends_of_mem_visits hb
        exact (hbelow c hc).1.trans (hcb.depth_le hdepth)
      · refine List.pairwise_append.2 ⟨hsorted.2, ?_, fun b hb c hc => ?_⟩
        · exact List.pairwise_of_forall_mem_list fun b hb c hc => by
            rw [hchildren b hb, hchildren c hc]
        · rw [hchildren c hc]
          exact hlevel b hb
      · exact fun b hb c hc => (hbelow c hc).2.trans (Nat.succ_le_succ (hbelow b hb).1)

end Visits

/-! ## The first of the best -/

section Best

variable [LinearOrder γ] (score : β → γ)

/-- Replaces `best` by something better only. -/
def better (best : Option β) : Option β → Option β
  | none => best
  | some r =>
    match best with
    | none => some r
    | some b => if score b < score r then some r else some b

/-- The first of the best of what the nodes are worth. -/
def firstBest (worth : α → Option β) (nodes : List α) : Option β :=
  nodes.foldl (fun best a => better score best (worth a)) none

variable {score} {worth : α → Option β} {nodes : List α}

theorem firstBest_concat (a : α) :
    firstBest score worth (nodes ++ [a]) = better score (firstBest score worth nodes) (worth a) := by
  rw [firstBest, List.foldl_concat, firstBest]

theorem better_eq_none {best x : Option β} :
    better score best x = none ↔ best = none ∧ x = none := by
  cases x with
  | none => simp [better]
  | some r =>
    cases best with
    | none => simp [better]
    | some b =>
      rw [better]
      split <;> simp

theorem firstBest_eq_none : firstBest score worth nodes = none ↔ ∀ a ∈ nodes, worth a = none := by
  induction nodes using List.reverseRecOn with
  | nil => simp [firstBest]
  | append_singleton nodes a ih =>
    rw [firstBest_concat, better_eq_none, ih]
    simp [or_imp, forall_and]

/-- What is kept is worth more than all before it, and no less than all after. -/
theorem firstBest_eq_some {r : β} (h : firstBest score worth nodes = some r) :
    ∃ before a after, nodes = before ++ a :: after ∧ worth a = some r ∧
      (∀ b ∈ before, ∀ s, worth b = some s → score s < score r) ∧
      ∀ b ∈ after, ∀ s, worth b = some s → score s ≤ score r := by
  induction nodes using List.reverseRecOn generalizing r with
  | nil => cases h
  | append_singleton nodes a ih =>
    rw [firstBest_concat] at h
    cases hworth : worth a with
    | none =>
      -- the last node is worth nothing
      rw [hworth, better] at h
      obtain ⟨before, c, after, hnodes, hc, hbefore, hafter⟩ := ih h
      refine ⟨before, c, after ++ [a], by rw [hnodes, List.append_assoc, List.cons_append], hc,
        hbefore, fun b hb s hs => ?_⟩
      rcases List.mem_append.1 hb with hb | hb
      · exact hafter b hb s hs
      · rw [List.mem_singleton.1 hb, hworth] at hs
        cases hs
    | some x =>
      rw [hworth] at h
      cases hbest : firstBest score worth nodes with
      | none =>
        -- it is the first that is worth something
        rw [hbest, better] at h
        refine ⟨nodes, a, [], rfl, by rw [hworth, h], fun b hb s hs => ?_, fun _ hb => nomatch hb⟩
        rw [firstBest_eq_none.1 hbest b hb] at hs
        cases hs
      | some b =>
        obtain ⟨before, c, after, hnodes, hc, hbefore, hafter⟩ := ih hbest
        rw [hbest, better] at h
        split at h
        next hlt =>
          refine ⟨nodes, a, [], rfl, by rw [hworth, h], fun d hd s hs => ?_,
            fun _ hb => nomatch hb⟩
          rw [← Option.some.inj h]
          rw [hnodes, List.mem_append, List.mem_cons] at hd
          rcases hd with hd | rfl | hd
          · exact (hbefore d hd s hs).trans hlt
          · rw [hc] at hs
            rwa [← Option.some.inj hs]
          · exact (hafter d hd s hs).trans_lt hlt
        next hle =>
          rw [← Option.some.inj h]
          refine ⟨before, c, after ++ [a], by rw [hnodes, List.append_assoc, List.cons_append], hc,
            hbefore, fun d hd s hs => ?_⟩
          rcases List.mem_append.1 hd with hd | hd
          · exact hafter d hd s hs
          · rw [List.mem_singleton.1 hd, hworth] at hs
            rw [← Option.some.inj hs]
            exact not_lt.1 hle

end Best

end BreadthFirst
