import Mathlib
import Misc.Lib.ShortestPath

namespace Misc.Alg
open Misc.Lib
set_option autoImplicit true

/-- A matrix with an entry for each two vertices; zero is no edge. -/
abbrev Graph (n : Nat) := Fin n → Fin n → Int

/-- The distances from the start, where -1 is none, and the vertices that have been visited. -/
structure Search (n : Nat) where
  d : Fin n → Int
  f : Fin n → Bool
  current : Fin n

def relaxEdge (g : Graph n) (current : Fin n) (d : Fin n → Int) (i : Fin n) : Fin n → Int :=
  if g current i = 0 then d
  else if d i = -1 ∨ d current + g current i < d i then
    Function.update d i (d current + g current i)
  else d

def relax (g : Graph n) (current : Fin n) (d : Fin n → Int) : Fin n → Int :=
  (List.finRange n).foldl (relaxEdge g current) d

/-- One turn of the loop that looks for the next vertex; the distance it has so far, and the
vertex. -/
def nearer (d : Fin n → Int) (f : Fin n → Bool) (p : Int × Fin n) (i : Fin n) : Int × Fin n :=
  if f i then p else if d i ≠ -1 ∧ (p.1 = -1 ∨ d i < p.1) then (d i, i) else p

def nearest (d : Fin n → Int) (f : Fin n → Bool) (current : Fin n) : Int × Fin n :=
  (List.finRange n).foldl (nearer d f) (-1, current)

def Search.loop (g : Graph n) (e : Fin n) : Nat → Search n → Option Int
  | 0, _ => none
  | fuel + 1, x =>
    if x.current = e then some (x.d e)
    else
      let f := Function.update x.f x.current true
      let d := relax g x.current x.d
      let (next, current) := nearest d f x.current
      if next = -1 then some (d e) else loop g e fuel ⟨d, f, current⟩

/-- `none` when the loop has not ended after so many turns. -/
def dijkstra (fuel : Nat) (g : Graph n) (s e : Fin n) : Option Int :=
  Search.loop g e fuel ⟨Function.update (fun _ => -1) s 0, fun _ => false, s⟩

/-- The weight of a path from `s`, edge by edge. -/
inductive Path (g : Graph n) (s : Fin n) : Fin n → Int → Prop
  | nil : Path g s s 0
  | snoc : Path g s v c → g v u ≠ 0 → Path g s u (c + g v u)

def weight (g : Graph n) (v u : Fin n) : WithTop Int := if g v u = 0 then ⊤ else (g v u : Int)

/-- What a distance says. -/
def cost (x : Int) : WithTop Int := if x = -1 then ⊤ else (x : Int)

variable {n : Nat} {g : Graph n} {s e v u c i j : Fin n} {d : Fin n → Int}
  {f : Fin n → Bool} {k : Int}
  {x : Search n}

theorem Path.walk (h : Path g s v k) : ShortestPath.Walk (weight g) s v k := by
  induction h with
  | nil => exact .nil
  | @snoc v k u _ hvu ih =>
    have hw : weight g v u = (g v u : Int) := if_neg hvu
    rw [WithTop.coe_add, ← hw]
    exact ih.snoc

theorem exists_path {t : WithTop Int} (h : ShortestPath.Walk (weight g) s v t) (ht : t ≠ ⊤) :
    ∃ k, t = (k : Int) ∧ Path g s v k := by
  induction h with
  | nil => exact ⟨0, rfl, .nil⟩
  | @snoc v t u _ ih =>
    obtain ⟨ht, hw⟩ := WithTop.add_ne_top.1 ht
    obtain ⟨k, rfl, hk⟩ := ih ht
    rw [weight] at hw ⊢
    split_ifs at hw ⊢ with hvu
    · exact absurd rfl hw
    · exact ⟨k + g v u, (WithTop.coe_add ..).symm, hk.snoc hvu⟩

theorem weight_nonneg (hg : ∀ v u, 0 ≤ g v u) (v u : Fin n) : 0 ≤ weight g v u := by
  rw [weight]
  split_ifs
  · exact le_top
  · exact WithTop.coe_nonneg.2 (hg v u)

theorem cost_eq_top : cost k = ⊤ ↔ k = -1 := by
  rw [cost]
  split_ifs with hk
  · exact iff_of_true rfl hk
  · exact iff_of_false WithTop.coe_ne_top hk

theorem cost_of_ne (hk : k ≠ -1) : cost k = (k : Int) := if_neg hk

/-! ## The two inner loops -/

theorem relaxEdge_of_ne (hj : j ≠ i) : relaxEdge g c d i j = d j := by
  rw [relaxEdge]
  split_ifs
  · rfl
  · exact Function.update_of_ne hj ..
  · rfl

theorem relaxEdge_self : relaxEdge g c d i i =
    if g c i ≠ 0 ∧ (d i = -1 ∨ d c + g c i < d i) then d c + g c i else d i := by
  rw [relaxEdge]
  split_ifs <;> simp_all

theorem relaxEdge_current (hg : ∀ v u, 0 ≤ g v u) (hc : d c ≠ -1) :
    relaxEdge g c d i c = d c := by
  by_cases hi : c = i
  · subst hi
    rw [relaxEdge_self, if_neg]
    rintro ⟨-, hneg | hless⟩
    · exact hc hneg
    · have hpos := hg c c
      omega
  · exact relaxEdge_of_ne hi

theorem foldl_relaxEdge (hg : ∀ v u, 0 ≤ g v u) (hc : d c ≠ -1) {l : List (Fin n)} (hl : l.Nodup)
    (j : Fin n) : l.foldl (relaxEdge g c) d j = if j ∈ l then relaxEdge g c d j j else d j := by
  induction l generalizing d with
  | nil => rfl
  | cons i l ih =>
    obtain ⟨hi, hl⟩ := List.nodup_cons.1 hl
    have hkeep := relaxEdge_current (i := i) hg hc
    rw [List.foldl_cons, ih (by rwa [hkeep]) hl]
    by_cases hji : j = i
    · subst hji
      rw [if_neg hi, if_pos List.mem_cons_self]
    · rw [relaxEdge_self, hkeep, relaxEdge_of_ne hji, ← relaxEdge_self]
      simp only [List.mem_cons, hji, false_or]

theorem cost_relax (hg : ∀ v u, 0 ≤ g v u) (hd : ∀ i, -1 ≤ d i) (hc : d c ≠ -1) (i : Fin n) :
    cost (relax g c d i) = min (cost (d i)) (cost (d c) + weight g c i) := by
  have hci := hg c i
  have hdc := hd c
  rw [relax, foldl_relaxEdge hg hc (List.nodup_finRange n),
    if_pos (List.mem_finRange i), relaxEdge_self, cost_of_ne hc, weight]
  by_cases hedge : g c i = 0
  · rw [if_neg fun h => h.1 hedge, if_pos hedge, WithTop.add_top, min_eq_left le_top]
  · rw [if_neg hedge, ← WithTop.coe_add]
    by_cases hi : d i = -1
    · rw [if_pos ⟨hedge, .inl hi⟩, cost_eq_top.2 hi, min_eq_right le_top, cost_of_ne (by omega)]
    · rw [cost_of_ne hi, ← WithTop.coe_min]
      split_ifs with hless
      · rw [cost_of_ne (by omega), min_eq_right]
        exact le_of_lt (hless.2.resolve_left hi)
      · rw [cost_of_ne hi, min_eq_left]
        by_contra hlt
        exact hless ⟨hedge, .inr (lt_of_not_ge hlt)⟩

theorem neg_one_le_relax (hg : ∀ v u, 0 ≤ g v u) (hd : ∀ i, -1 ≤ d i)
    (hc : d c ≠ -1) (i : Fin n) : -1 ≤ relax g c d i := by
  have hci := hg c i
  have hdc := hd c
  have hdi := hd i
  rw [relax, foldl_relaxEdge hg hc (List.nodup_finRange n),
    if_pos (List.mem_finRange i), relaxEdge_self]
  split_ifs <;> omega

theorem nearest_spec (d : Fin n → Int) (f : Fin n → Bool) (c : Fin n) :
    ((nearest d f c).1 = -1 ∧ ∀ i, f i = false → d i = -1) ∨
      ((nearest d f c).1 = d (nearest d f c).2 ∧ d (nearest d f c).2 ≠ -1 ∧
        f (nearest d f c).2 = false ∧ ∀ i, f i = false → d i ≠ -1 →
          d (nearest d f c).2 ≤ d i) := by
  have hfold (l : List (Fin n)) : ∀ p, p = l.foldl (nearer d f) (-1, c) →
      (p.1 = -1 ∧ ∀ i ∈ l, f i = false → d i = -1) ∨
        (p.1 = d p.2 ∧ d p.2 ≠ -1 ∧ f p.2 = false ∧ ∀ i ∈ l, f i = false →
          d i ≠ -1 → d p.2 ≤ d i) := by
    induction l using List.reverseRecOn with
    | nil =>
      rintro p rfl
      exact .inl ⟨rfl, nofun⟩
    | append_singleton l i ih =>
      rintro p rfl
      rw [List.foldl_append, List.foldl_cons, List.foldl_nil]
      generalize l.foldl (nearer d f) (-1, c) = q at ih ⊢
      specialize ih q rfl
      simp only [List.forall_mem_append, List.forall_mem_singleton]
      rw [nearer]
      split_ifs with hi hnear
      · rcases ih with ⟨hq, hl⟩ | ⟨hq, hne, hfq, hl⟩
        · exact .inl ⟨hq, hl, fun hfi => absurd hi (by simp [hfi])⟩
        · exact .inr ⟨hq, hne, hfq, hl, fun hfi => absurd hi (by simp [hfi])⟩
      · refine .inr ⟨rfl, hnear.1, Bool.eq_false_iff.2 hi, fun j hj hfj hdj =>
          ?_, fun _ _ => le_rfl⟩
        rcases ih with ⟨hq, hl⟩ | ⟨hq, hne, -, hl⟩
        · exact absurd (hl j hj hfj) hdj
        · have hless := hnear.2.resolve_left fun h => hne (hq.symm.trans h)
          have hle := hl j hj hfj hdj
          dsimp only
          omega
      · rcases ih with ⟨hq, hl⟩ | ⟨hq, hne, hfq, hl⟩
        · refine .inl ⟨hq, hl, fun _ => ?_⟩
          by_contra hdi
          exact hnear ⟨hdi, .inl hq⟩
        · refine .inr ⟨hq, hne, hfq, hl, fun _ hdi => ?_⟩
          by_contra hlt
          exact hnear ⟨hdi, .inr (by omega)⟩
  obtain h | h := hfold (List.finRange n) _ rfl
  · exact .inl ⟨h.1, fun i => h.2 i (List.mem_finRange i)⟩
  · exact .inr ⟨h.1, h.2.1, h.2.2.1, fun i => h.2.2.2 i (List.mem_finRange i)⟩

/-! ## The outer loop -/

/-- What holds whenever the condition of the outer loop is checked: the vertices that have been
visited are finished, the current one is the nearest of the others, and `e` is one of these. -/
structure Search.Inv (g : Graph n) (s e : Fin n) (x : Search n) : Prop where
  frontier : ShortestPath.Frontier (weight g) s {v | x.f v = true} fun v => cost (x.d v)
  bound : ∀ v, -1 ≤ x.d v
  found : x.d x.current ≠ -1
  unvisited : x.f x.current = false
  nearest : ∀ v, x.f v = false → cost (x.d x.current) ≤ cost (x.d v)
  goal : x.f e = false

theorem cost_le_cost {j k : Int} (hjk : k ≠ -1 → j ≤ k) (hj : j ≠ -1) : cost j ≤ cost k := by
  by_cases hk : k = -1
  · rw [cost_eq_top.2 hk]
    exact le_top
  · rw [cost_of_ne hj, cost_of_ne hk]
    exact WithTop.coe_le_coe.2 (hjk hk)

theorem Search.Inv.start (g : Graph n) (s e : Fin n) :
    Inv g s e ⟨Function.update (fun _ => -1) s 0, fun _ => false, s⟩ where
  frontier := by
    have hcost : (fun v => cost (Function.update (fun _ => (-1 : Int)) s 0 v)) =
        Function.update (fun _ => ⊤) s 0 := by
      funext v
      by_cases hv : v = s
      · subst hv
        rw [Function.update_self, Function.update_self]
        rfl
      · rw [Function.update_of_ne hv, Function.update_of_ne hv]
        rfl
    have hempty : {v : Fin n | false = true} = ∅ := by simp
    rw [hcost, hempty]
    exact .start (weight g) s
  bound v := by
    dsimp only
    by_cases hv : v = s
    · subst hv
      rw [Function.update_self]
      decide
    · rw [Function.update_of_ne hv]
  found := by
    dsimp only
    rw [Function.update_self]
    decide
  unvisited := rfl
  nearest v _ := by
    dsimp only
    rw [Function.update_self]
    by_cases hv : v = s
    · rw [hv, Function.update_self]
    · rw [Function.update_of_ne hv, cost_eq_top.2 rfl]
      exact le_top
  goal := rfl

theorem Search.Inv.relaxed (hi : x.Inv g s e) (hg : ∀ v u, 0 ≤ g v u) :
    ShortestPath.Frontier (weight g) s {v | Function.update x.f x.current true v = true}
      fun v => cost (relax g x.current x.d v) := by
  have hset : {v | Function.update x.f x.current true v = true} =
      insert x.current {v | x.f v = true} := by
    ext v
    rw [Set.mem_insert_iff, Set.mem_ofPred_eq, Set.mem_ofPred_eq, Function.update_apply]
    split_ifs with hv
    · exact iff_of_true rfl (.inl hv)
    · exact (or_iff_right hv).symm
  have hcost : (fun v => cost (relax g x.current x.d v)) = fun v =>
      min (cost (x.d v)) (cost (x.d x.current) + weight g x.current v) :=
    funext (cost_relax hg hi.bound hi.found)
  rw [hset, hcost]
  refine hi.frontier.step (weight_nonneg hg) ?_ fun v hv => hi.nearest v (Bool.eq_false_iff.2 hv)
  exact Bool.eq_false_iff.1 hi.unvisited

/-- Each turn of the outer loop visits a vertex, until `e` is the nearest or none is left. -/
theorem Search.Inv.loop {fuel : Nat} (hi : x.Inv g s e) (hg : ∀ v u, 0 ≤ g v u)
    (hfuel : (Finset.univ.filter fun v => x.f v = false).card ≤ fuel) :
    ∃ k, x.loop g e fuel = some k ∧
      ((k = -1 ∧ ∀ c, ¬ Path g s e c) ∨ IsLeast {c | Path g s e c} k) := by
  induction fuel generalizing x with
  | zero =>
    have hmem : x.current ∈ Finset.univ.filter fun v => x.f v = false :=
      Finset.mem_filter.2 ⟨Finset.mem_univ _, hi.unvisited⟩
    rw [Finset.card_eq_zero.1 (Nat.le_zero.1 hfuel)] at hmem
    exact absurd hmem (Finset.notMem_empty _)
  | succ fuel ih =>
    rw [Search.loop]
    split_ifs with he
    · refine ⟨_, rfl, .inr ⟨?_, fun c hc => ?_⟩⟩
      · have hwalk := hi.frontier.sound e (by rw [ne_eq, cost_eq_top, ← he]; exact hi.found)
        rw [cost_of_ne (he ▸ hi.found)] at hwalk
        obtain ⟨k, hk, hpath⟩ := exists_path hwalk WithTop.coe_ne_top
        rw [WithTop.coe_eq_coe] at hk
        exact hk ▸ hpath
      · have hle := hi.frontier.le_of_walk (weight_nonneg hg) (Bool.eq_false_iff.1 hi.goal)
          (fun v hv => he ▸ hi.nearest v (Bool.eq_false_iff.2 hv)) hc.walk
        rw [cost_of_ne (he ▸ hi.found)] at hle
        exact WithTop.coe_le_coe.1 hle
    · have hnew := hi.relaxed hg
      have hgoal : Function.update x.f x.current true e = false := by
        rw [Function.update_of_ne (Ne.symm he)]
        exact hi.goal
      obtain ⟨hnext, hnone⟩ | ⟨hnext, hfound, hunvisited, hnearest⟩ :=
        nearest_spec (relax g x.current x.d) (Function.update x.f x.current true) x.current
      · dsimp only
        rw [if_pos hnext, hnone e hgoal]
        refine ⟨-1, rfl, .inl ⟨rfl, fun c hc => ?_⟩⟩
        rcases hnew.lower (weight_nonneg hg) hc.walk with ⟨v, hv, hle⟩ | ⟨hv, -⟩
        · rw [cost_eq_top.2 (hnone v (Bool.eq_false_iff.2 hv))] at hle
          exact WithTop.coe_ne_top (top_le_iff.1 hle)
        · exact Bool.eq_false_iff.1 hgoal hv
      · dsimp only
        rw [if_neg (hnext ▸ hfound)]
        apply ih
        · exact ⟨hnew, neg_one_le_relax hg hi.bound hi.found, hfound, hunvisited,
            fun v hv => cost_le_cost (hnearest v hv) hfound, hgoal⟩
        · have hless :
              (Finset.univ.filter fun v => Function.update x.f x.current true v = false) ⊂
              Finset.univ.filter fun v => x.f v = false := by
            refine Finset.ssubset_iff_of_subset (fun v hv => ?_) |>.2 ⟨x.current, ?_, ?_⟩
            · obtain ⟨-, hv⟩ := Finset.mem_filter.1 hv
              rw [Function.update_apply] at hv
              split_ifs at hv with hvc
              exact Finset.mem_filter.2 ⟨Finset.mem_univ v, hv⟩
            · exact Finset.mem_filter.2 ⟨Finset.mem_univ _, hi.unvisited⟩
            · rw [Finset.mem_filter, Function.update_self]
              intro h
              exact nomatch h.2
          have hcard := Finset.card_lt_card hless
          dsimp only
          omega

theorem Path.nonneg (hg : ∀ v u, 0 ≤ g v u) (h : Path g s v k) : 0 ≤ k := by
  induction h with
  | nil => exact le_rfl
  | snoc _ _ ih => exact Int.add_nonneg ih (hg _ _)

/-- `dijkstra` returns the least weight of a path, zero from a vertex to itself, and -1 exactly
if there is no path. -/
theorem dijkstra_shortest {fuel : Nat} (hg : ∀ v u, 0 ≤ g v u) (s e : Fin n) (hfuel : n ≤ fuel) :
    ∃ k, dijkstra fuel g s e = some k ∧ (k = -1 ↔ ¬ ∃ c, Path g s e c) ∧
      (k ≠ -1 → IsLeast {c | Path g s e c} k) ∧ (s = e → k = 0) := by
  have hcard : (Finset.univ.filter fun v : Fin n => false = false).card ≤ fuel := by
    rwa [Finset.filter_true_of_mem fun _ _ => rfl, Finset.card_univ, Fintype.card_fin]
  obtain ⟨k, hk, ⟨rfl, hnone⟩ | hleast⟩ := (Search.Inv.start g s e).loop hg hcard
  · refine ⟨-1, hk, iff_of_true rfl fun ⟨c, hc⟩ => hnone c hc, fun h => absurd rfl h, ?_⟩
    rintro rfl
    exact absurd .nil (hnone 0)
  · have hpos := hleast.1.nonneg hg
    refine ⟨k, hk, iff_of_false (by omega) fun h => h ⟨k, hleast.1⟩, fun _ => hleast, ?_⟩
    rintro rfl
    exact le_antisymm (hleast.2 .nil) hpos

/-- The way from the first of three vertices to the last is shorter by the second. -/
theorem dijkstra_shortest_three :
    ∃ k, dijkstra 3 (fun v u => if v.val + 1 = u.val then 2
        else if v.val + 2 = u.val then 5 else 0)
        (0 : Fin 3) 2 = some k ∧ k = 4 ∧ ∀ c, Path (fun v u : Fin 3 =>
          if v.val + 1 = u.val then 2 else if v.val + 2 = u.val then 5 else 0) 0 2 c →
            k ≤ c := by
  obtain ⟨k, hk, -, hleast, -⟩ := dijkstra_shortest (n := 3) (g := fun v u =>
    if v.val + 1 = u.val then 2 else if v.val + 2 = u.val then 5 else 0)
    (fun v u => by split_ifs <;> decide) 0 2 (Nat.le_refl 3)
  have h4 : k = 4 := (Option.some.inj (hk.symm.trans rfl))
  exact ⟨k, hk, h4, fun c hc => (hleast (by omega)).2 hc⟩

end Misc.Alg
