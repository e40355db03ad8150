import Misc.Lib.Graph
import Mathlib.Logic.Function.Basic
import Mathlib.Data.List.Dedup
import Mathlib.Order.Lattice

namespace Misc.Lib.Graph
set_option autoImplicit true

variable {V : Type} [DecidableEq V]

/-- The numbers that the search gives to vertices, its stack and the components found so far. A
vertex without a number has `dfn v = 0`. -/
structure Search (V : Type) where
  dfn : V → Nat
  low : V → Nat
  instk : V → Bool
  cnt : Nat
  stack : List V
  res : List (List V)

/-- The position of the last `v` in the stack, found from its top. -/
def stackIndex (v : V) (stack : List V) : Nat :=
  stack.length - 1 - (stack.reverse.takeWhile (· ≠ v)).length

theorem stackIndex_eq {v : V} {pre s : List V} (hv : v ∉ s) :
    stackIndex v (pre ++ v :: s) = pre.length := by
  have hs : ∀ u ∈ s.reverse, decide (u ≠ v) = true := by
    intro u hu
    rw [decide_eq_true_eq]
    intro heq
    exact hv (heq ▸ List.mem_reverse.1 hu)
  have htake : (pre ++ v :: s).reverse.takeWhile (· ≠ v) = s.reverse := by
    rw [List.reverse_append, List.reverse_cons, List.append_assoc,
      List.takeWhile_append_of_pos hs]
    simp
  rw [stackIndex, htake, List.length_append, List.length_cons, List.length_reverse]
  omega

namespace Search

def empty : Search V := ⟨fun _ => 0, fun _ => 0, fun _ => false, 0, [], []⟩

def push (S : Search V) (v : V) : Search V where
  dfn := Function.update S.dfn v (S.cnt + 1)
  low := Function.update S.low v (S.cnt + 1)
  instk := Function.update S.instk v true
  cnt := S.cnt + 1
  stack := S.stack ++ [v]
  res := S.res

def lower (S : Search V) (v : V) (k : Nat) : Search V :=
  { S with low := Function.update S.low v (min (S.low v) k) }

/-- Takes the component of `v` from the stack if `v` is the first of its vertices. -/
def close (S : Search V) (v : V) : Search V :=
  if S.dfn v = S.low v then
    let n := stackIndex v S.stack
    { S with
      instk := fun u => if u ∈ S.stack.drop n then false else S.instk u
      stack := S.stack.take n
      res := S.res ++ [S.stack.drop n] }
  else S

def relax (rec : V → Search V → Option (Search V)) (v : V) (S : Search V) (d : V) :
    Option (Search V) :=
  if S.dfn d = 0 then (rec d S).map fun S' => S'.lower v (S'.low d)
  else if S.instk d then some (S.lower v (S.dfn d))
  else some S

/-- Tarjan's search from `v`; the depth of the recursion is bounded by the first argument. -/
def visit (succ : V → List V) : Nat → V → Search V → Option (Search V)
  | 0, _, _ => none
  | fuel + 1, v, S => ((succ v).foldlM (relax (visit succ fuel) v) (S.push v)).map (·.close v)

end Search

open Search

variable {succ : V → List V} {S S₀ S' : Search V} {root u v w d : V} {gray ds : List V}

/-- What holds between the operations of the search while the calls for `gray` are in
progress. -/
structure Search.Inv (succ : V → List V) (root : V) (S : Search V) (gray : List V) : Prop where
  dfn_le : ∀ u, S.dfn u ≤ S.cnt
  sorted : S.stack.Pairwise fun a b => S.dfn a < S.dfn b
  gray_mem : ∀ w ∈ gray, w ∈ S.stack
  visited : ∀ u, S.dfn u ≠ 0 ↔ u ∈ S.stack ∨ u ∈ S.res.flatten
  disjoint : ∀ u ∈ S.stack, u ∉ S.res.flatten
  instk : ∀ u, S.instk u = true ↔ u ∈ S.stack
  done : ∀ u, S.dfn u ≠ 0 → u ∉ gray → ∀ w ∈ succ u, S.dfn w ≠ 0
  comps : DepsFirst succ S.res
  old : ∀ u ∈ S.stack, ∃ w ∈ gray, S.dfn w ≤ S.dfn u ∧ Reach succ u w
  young : ∀ w ∈ gray, ∀ u ∈ S.stack, S.dfn w ≤ S.dfn u → Reach succ w u
  reach : ∀ u, S.dfn u ≠ 0 → Reach succ root u

/-- What a call for `v` does to the search. -/
structure Search.Visited (succ : V → List V) (root : V) (S S' : Search V) (v : V)
    (gray : List V) : Prop where
  inv : S'.Inv succ root gray
  keep : ∀ u, S.dfn u ≠ 0 → S'.dfn u = S.dfn u ∧ S'.low u = S.low u
  new : S.cnt < S'.dfn v
  stack : ∃ s, S'.stack = S.stack ++ s ∧
    ∀ u ∈ s, ∀ w ∈ succ u, w ∈ S.stack → S'.low v ≤ S'.dfn w
  low : S'.low v = S'.dfn v ∨ ∃ w ∈ S.stack, S'.dfn w = S'.low v ∧ Reach succ v w

/-- The call for `v` that began in `S₀` has scanned the successors `ds`. -/
structure Search.Scanning (succ : V → List V) (root : V) (S₀ S : Search V) (v : V)
    (gray ds : List V) : Prop where
  inv : S.Inv succ root (v :: gray)
  keep : ∀ u, S₀.dfn u ≠ 0 → S.dfn u = S₀.dfn u ∧ S.low u = S₀.low u
  white : S₀.dfn v = 0
  num : S.dfn v = S₀.cnt + 1
  stack : ∃ s, S.stack = S₀.stack ++ v :: s ∧
    ∀ u ∈ s, ∀ w ∈ succ u, w ∈ S₀.stack → S.low v ≤ S.dfn w
  scanned : ∀ d ∈ ds, S.dfn d ≠ 0 ∧ (d ∈ S₀.stack → S.low v ≤ S.dfn d)
  low_le : S.low v ≤ S.dfn v
  low : ∃ w ∈ S.stack, S.dfn w = S.low v ∧ Reach succ v w

namespace Search

@[simp] theorem push_dfn (S : Search V) (v : V) :
    (S.push v).dfn = Function.update S.dfn v (S.cnt + 1) := rfl

@[simp] theorem push_low (S : Search V) (v : V) :
    (S.push v).low = Function.update S.low v (S.cnt + 1) := rfl

@[simp] theorem push_stack (S : Search V) (v : V) : (S.push v).stack = S.stack ++ [v] := rfl

@[simp] theorem lower_low_self (S : Search V) (v : V) (k : Nat) :
    (S.lower v k).low v = min (S.low v) k := Function.update_self ..

theorem lower_low_of_ne (S : Search V) (k : Nat) (h : u ≠ v) : (S.lower v k).low u = S.low u :=
  Function.update_of_ne h ..

theorem Inv.lower (h : S.Inv succ root gray) (v : V) (k : Nat) :
    (S.lower v k).Inv succ root gray := ⟨h.1, h.2, h.3, h.4, h.5, h.6, h.7, h.8, h.9, h.10, h.11⟩

omit [DecidableEq V] in
theorem Inv.not_mem_stack (h : S.Inv succ root gray) (hv : S.dfn v = 0) : v ∉ S.stack :=
  fun hm => (h.visited v).2 (.inl hm) hv

theorem Inv.push (h : S.Inv succ root gray) (hv : S.dfn v = 0) (hr : Reach succ root v)
    (hg : ∀ w ∈ gray, Reach succ w v) : Scanning succ root S (S.push v) v gray [] := by
  have hne {u : V} (hu : u ∈ S.stack) : u ≠ v := by
    intro he
    exact h.not_mem_stack hv (he ▸ hu)
  have hold {u : V} (hu : u ≠ v) : (S.push v).dfn u = S.dfn u := Function.update_of_ne hu ..
  have hself : (S.push v).dfn v = S.cnt + 1 := Function.update_self ..
  have hstack {u : V} (hu : u ∈ (S.push v).stack) : u ∈ S.stack ∨ u = v := by
    simpa using hu
  constructor
  · constructor
    · intro u
      by_cases hu : u = v
      · rw [hu, hself]
        exact Nat.le_refl _
      · rw [hold hu]
        exact Nat.le_succ_of_le (h.dfn_le u)
    · rw [push_stack, List.pairwise_append]
      refine ⟨h.sorted.imp_of_mem ?_, List.pairwise_singleton .., ?_⟩
      · intro a b ha hb hab
        rwa [hold (hne ha), hold (hne hb)]
      · intro a ha b hb
        rw [List.mem_singleton.1 hb, hself, hold (hne ha)]
        exact Nat.lt_succ_of_le (h.dfn_le a)
    · intro w hw
      rw [push_stack, List.mem_append]
      rcases List.mem_cons.1 hw with rfl | hw
      · exact .inr (List.mem_singleton_self _)
      · exact .inl (h.gray_mem w hw)
    · intro u
      by_cases hu : u = v
      · simp [hu]
      · rw [hold hu, h.visited u, push_stack]
        simp [hu, Search.push]
    · intro u hu hres
      rcases hstack hu with hu | rfl
      · exact h.disjoint u hu hres
      · exact (h.visited u).2 (.inr hres) hv
    · intro u
      by_cases huv : u = v
      · simp [huv, Search.push]
      · simp [huv, Search.push, h.instk u]
    · intro u hu hgray w hw
      have huv : u ≠ v := fun he => hgray (he ▸ List.mem_cons_self ..)
      rw [hold huv] at hu
      have hw' := h.done u hu (fun hm => hgray (List.mem_cons_of_mem _ hm)) w hw
      by_cases hwv : w = v
      · exact absurd (hwv ▸ hv) hw'
      · rwa [hold hwv]
    · exact h.comps
    · intro u hu
      rcases hstack hu with hu | rfl
      · obtain ⟨w, hw, hle, hr⟩ := h.old u hu
        refine ⟨w, List.mem_cons_of_mem _ hw, ?_, hr⟩
        rwa [hold (hne (h.gray_mem w hw)), hold (hne hu)]
      · exact ⟨u, List.mem_cons_self .., Nat.le_refl _, .refl⟩
    · intro w hw u hu hle
      rcases List.mem_cons.1 hw with rfl | hw'
      · rcases hstack hu with hu | rfl
        · rw [hself, hold (hne hu)] at hle
          exact absurd (h.dfn_le u) (by omega)
        · exact .refl
      · rcases hstack hu with hu | rfl
        · rw [hold (hne (h.gray_mem w hw')), hold (hne hu)] at hle
          exact h.young w hw' u hu hle
        · exact hg w hw'
    · intro u hu
      by_cases huv : u = v
      · exact huv ▸ hr
      · rw [hold huv] at hu
        exact h.reach u hu
  · intro u hu
    have huv : u ≠ v := fun he => hu (he ▸ hv)
    exact ⟨hold huv, Function.update_of_ne huv ..⟩
  · exact hv
  · exact hself
  · exact ⟨[], rfl, fun u hu => absurd hu List.not_mem_nil⟩
  · intro d hd
    cases hd
  · simp
  · exact ⟨v, by simp, by simp, .refl⟩

omit [DecidableEq V] in
theorem Scanning.skip (h : Scanning succ root S₀ S v gray ds) (hd : S.dfn d ≠ 0)
    (hs : d ∉ S.stack) : Scanning succ root S₀ S v gray (ds ++ [d]) := by
  refine { h with scanned := ?_ }
  intro u hu
  rcases List.mem_append.1 hu with hu | hu
  · exact h.scanned u hu
  · rw [List.mem_singleton.1 hu]
    refine ⟨hd, ?_⟩
    intro hm
    obtain ⟨s, hs', -⟩ := h.stack
    exact absurd (hs' ▸ List.mem_append_left _ hm) hs

theorem Scanning.lower (h : Scanning succ root S₀ S v gray ds) (hd : d ∈ S.stack)
    (he : d ∈ succ v) : Scanning succ root S₀ (S.lower v (S.dfn d)) v gray (ds ++ [d]) := by
  have hle : (S.lower v (S.dfn d)).low v ≤ S.low v := by
    rw [lower_low_self]
    exact Nat.min_le_left ..
  refine ⟨h.inv.lower v _, ?_, h.white, h.num, ?_, ?_, hle.trans h.low_le, ?_⟩
  · intro u hu
    have huv : u ≠ v := fun heq => hu (heq ▸ h.white)
    rw [lower_low_of_ne _ _ huv]
    exact h.keep u hu
  · obtain ⟨s, hs, hlow⟩ := h.stack
    exact ⟨s, hs, fun u hu w hw hm => hle.trans (hlow u hu w hw hm)⟩
  · intro u hu
    rcases List.mem_append.1 hu with hu | hu
    · exact ⟨(h.scanned u hu).1, fun hm => hle.trans ((h.scanned u hu).2 hm)⟩
    · rw [List.mem_singleton.1 hu, lower_low_self]
      exact ⟨(h.inv.visited d).2 (.inl hd), fun _ => Nat.min_le_right ..⟩
  · rw [lower_low_self]
    rcases Nat.le_total (S.low v) (S.dfn d) with hmin | hmin
    · rw [Nat.min_eq_left hmin]
      exact h.low
    · rw [Nat.min_eq_right hmin]
      exact ⟨d, hd, rfl, .edge he⟩

theorem Scanning.call (h : Scanning succ root S₀ S v gray ds) (hd : S.dfn d = 0)
    (he : d ∈ succ v) (hv : Visited succ root S S' d (v :: gray)) :
    Scanning succ root S₀ (S'.lower v (S'.low d)) v gray (ds ++ [d]) := by
  obtain ⟨s, hs, hlow⟩ := h.stack
  obtain ⟨s₂, hs₂, hlow₂⟩ := hv.stack
  have hvnum : S.dfn v ≠ 0 := by
    rw [h.num]
    omega
  have hvkeep := hv.keep v hvnum
  have hold {u : V} (hu : u ∈ S.stack) : S'.dfn u = S.dfn u :=
    (hv.keep u ((h.inv.visited u).2 (.inl hu))).1
  have hsub {u : V} (hu : u ∈ S₀.stack) : u ∈ S.stack := hs ▸ List.mem_append_left _ hu
  have hle : (S'.lower v (S'.low d)).low v ≤ S.low v := by
    rw [lower_low_self, hvkeep.2]
    exact Nat.min_le_left ..
  have hle₂ : (S'.lower v (S'.low d)).low v ≤ S'.low d := by
    rw [lower_low_self]
    exact Nat.min_le_right ..
  refine ⟨hv.inv.lower v _, ?_, h.white, ?_, ⟨s ++ s₂, ?_, ?_⟩, ?_, ?_, ?_⟩
  · intro u hu
    have huv : u ≠ v := fun heq => hu (heq ▸ h.white)
    have hk := h.keep u hu
    have hk' := hv.keep u (hk.1 ▸ hu)
    rw [lower_low_of_ne _ _ huv]
    exact ⟨hk'.1.trans hk.1, hk'.2.trans hk.2⟩
  · exact hvkeep.1.trans h.num
  · change S'.stack = _
    rw [hs₂, hs, List.append_assoc, List.cons_append]
  · intro u hu w hw hm
    change _ ≤ S'.dfn w
    rcases List.mem_append.1 hu with hu | hu
    · rw [hold (hsub hm)]
      exact hle.trans (hlow u hu w hw hm)
    · exact hle₂.trans (hlow₂ u hu w hw (hsub hm))
  · intro u hu
    change S'.dfn u ≠ 0 ∧ (_ → _ ≤ S'.dfn u)
    rcases List.mem_append.1 hu with hu | hu
    · obtain ⟨hnum, hscan⟩ := h.scanned u hu
      rw [(hv.keep u hnum).1]
      exact ⟨hnum, fun hm => hle.trans (hscan hm)⟩
    · rw [List.mem_singleton.1 hu]
      refine ⟨Nat.ne_of_gt (Nat.zero_lt_of_lt hv.new), ?_⟩
      intro hm
      exact absurd (hsub hm) (h.inv.not_mem_stack hd)
  · change _ ≤ S'.dfn v
    rw [hvkeep.1]
    exact hle.trans h.low_le
  · obtain ⟨x, hx, hxlow, hxr⟩ := h.low
    rw [lower_low_self, hvkeep.2]
    rcases Nat.le_total (S.low v) (S'.low d) with hmin | hmin
    · rw [Nat.min_eq_left hmin]
      refine ⟨x, ?_, (hold hx).trans hxlow, hxr⟩
      change x ∈ S'.stack
      rw [hs₂]
      exact List.mem_append_left _ hx
    · rw [Nat.min_eq_right hmin]
      rcases hv.low with hroot | ⟨y, hy, hylow, hyr⟩
      · -- The component of `d` is complete, and its number is larger than that of `v`.
        have hnew := hv.new
        have hxle := h.inv.dfn_le x
        omega
      · refine ⟨y, ?_, hylow, (Reach.edge he).trans hyr⟩
        change y ∈ S'.stack
        rw [hs₂]
        exact List.mem_append_left _ hy

section close

variable {s : List V} (h : Scanning succ root S₀ S v gray (succ v))
  (hs : S.stack = S₀.stack ++ v :: s)
  (hlow : ∀ u ∈ s, ∀ w ∈ succ u, w ∈ S₀.stack → S.low v ≤ S.dfn w)

include h hs

omit [DecidableEq V]

theorem Scanning.old_lt (hu : u ∈ S₀.stack) : S.dfn u < S.dfn v := by
  have hsorted := h.inv.sorted
  rw [hs, List.pairwise_append] at hsorted
  exact hsorted.2.2 u hu v (List.mem_cons_self ..)

theorem Scanning.le_new (hu : u ∈ v :: s) : S.dfn v ≤ S.dfn u := by
  have hsorted := h.inv.sorted
  rw [hs, List.pairwise_append, List.pairwise_cons] at hsorted
  rcases List.mem_cons.1 hu with rfl | hu
  · exact Nat.le_refl _
  · exact Nat.le_of_lt (hsorted.2.1.1 u hu)

theorem Scanning.new_ne (hu : u ∈ s) : u ≠ v := by
  have hsorted := h.inv.sorted
  rw [hs, List.pairwise_append, List.pairwise_cons] at hsorted
  intro heq
  exact absurd (hsorted.2.1.1 u hu) (heq ▸ Nat.lt_irrefl _)

omit h in
theorem mem_stack_of_new (hu : u ∈ v :: s) : u ∈ S.stack := hs ▸ List.mem_append_right _ hu

theorem Scanning.new_not_old (hu : u ∈ v :: s) : u ∉ S₀.stack := fun hm =>
  absurd (h.le_new hs hu) (Nat.not_le_of_lt (h.old_lt hs hm))

theorem Scanning.new_done (h₀ : S₀.Inv succ root gray) (hu : u ∈ v :: s) (hw : w ∈ succ u) :
    S.dfn w ≠ 0 := by
  rcases List.mem_cons.1 hu with rfl | hu'
  · exact (h.scanned w hw).1
  · refine h.inv.done u ((h.inv.visited u).2 (.inl (mem_stack_of_new hs hu))) ?_ w hw
    intro hm
    rcases List.mem_cons.1 hm with heq | hm
    · exact h.new_ne hs hu' heq
    · exact h.new_not_old hs hu (h₀.gray_mem u hm)

include hlow in
theorem Scanning.low_old (hu : u ∈ v :: s) (hw : w ∈ succ u) (hm : w ∈ S₀.stack) :
    S.low v ≤ S.dfn w := by
  rcases List.mem_cons.1 hu with rfl | hu
  · exact (h.scanned w hw).2 hm
  · exact hlow u hu w hw hm

include hlow in
theorem Scanning.new_closed (h₀ : S₀.Inv succ root gray) (hv : S.dfn v = S.low v)
    (hu : u ∈ v :: s) (hw : w ∈ succ u) : w ∈ v :: s ∨ w ∈ S.res.flatten := by
  rcases (h.inv.visited w).1 (h.new_done hs h₀ hu hw) with hm | hm
  · rw [hs, List.mem_append] at hm
    rcases hm with hm | hm
    · have hle := h.low_old hs hlow hu hw hm
      have hlt := h.old_lt hs hm
      omega
    · exact .inl hm
  · exact .inr hm

include hlow in
theorem Scanning.isScc (h₀ : S₀.Inv succ root gray) (hv : S.dfn v = S.low v) :
    IsScc succ (v :: s) := by
  have hclosed : Closed succ fun u => u ∈ v :: s ∨ u ∈ S.res.flatten := by
    rintro a b (ha | ha) hb
    · exact h.new_closed hs hlow h₀ hv ha hb
    · exact .inr (h.inv.comps.closed a b ha hb)
  have hvs : v ∈ S.stack := mem_stack_of_new hs (List.mem_cons_self ..)
  refine ⟨v, fun u => ⟨fun hu => ⟨?_, ?_⟩, fun hu => ?_⟩⟩
  · exact h.inv.young v (List.mem_cons_self ..) u (mem_stack_of_new hs hu) (h.le_new hs hu)
  · obtain ⟨w, hw, -, hr⟩ := h.inv.old u (mem_stack_of_new hs hu)
    rcases List.mem_cons.1 hw with rfl | hw'
    · exact hr
    · have hold := h₀.gray_mem w hw'
      rcases hclosed.reach (.inl hu) hr with hnew | hres
      · exact absurd hold (h.new_not_old hs hnew)
      · exact absurd hres (h.inv.disjoint w (h.inv.gray_mem w hw))
  · rcases hclosed.reach (.inl (List.mem_cons_self ..)) hu.1 with hnew | hres
    · exact hnew
    · exact absurd (h.inv.comps.closed.reach hres hu.2) (h.inv.disjoint v hvs)

end close

theorem Scanning.close (h : Scanning succ root S₀ S v gray (succ v))
    (h₀ : S₀.Inv succ root gray) : Visited succ root S₀ (S.close v) v gray := by
  obtain ⟨s, hs, hlow⟩ := h.stack
  have hsub {u : V} (hu : u ∈ S₀.stack) : u ∈ S.stack := hs ▸ List.mem_append_left _ hu
  have hdone : ∀ u, S.dfn u ≠ 0 → u ∉ gray → ∀ w ∈ succ u, S.dfn w ≠ 0 := by
    intro u hu hg w hw
    by_cases huv : u = v
    · exact h.new_done hs h₀ (huv ▸ List.mem_cons_self ..) hw
    · exact h.inv.done u hu (fun hm => (List.mem_cons.1 hm).elim huv hg) w hw
  have hnew : S₀.cnt < S.dfn v := by
    rw [h.num]
    exact Nat.lt_succ_self _
  by_cases hv : S.dfn v = S.low v
  · have hn : stackIndex v S.stack = S₀.stack.length := by
      rw [hs]
      apply stackIndex_eq
      intro hm
      exact h.new_ne hs hm rfl
    have htake : S.stack.take S₀.stack.length = S₀.stack := by rw [hs, List.take_left]
    have hdrop : S.stack.drop S₀.stack.length = v :: s := by rw [hs, List.drop_left]
    have hclose : S.close v = { S with
        instk := fun u => if u ∈ v :: s then false else S.instk u
        stack := S₀.stack
        res := S.res ++ [v :: s] } := by
      simp only [Search.close, if_pos hv, hn, htake, hdrop]
    have hflat : (S.res ++ [v :: s]).flatten = S.res.flatten ++ (v :: s) := by simp
    rw [hclose]
    refine ⟨?_, h.keep, hnew, ⟨[], (List.append_nil _).symm, ?_⟩, .inl hv.symm⟩
    · constructor
      · exact h.inv.dfn_le
      · have hsorted := h.inv.sorted
        rw [hs] at hsorted
        exact (List.pairwise_append.1 hsorted).1
      · exact h₀.gray_mem
      · intro u
        rw [h.inv.visited u, hs, hflat, List.mem_append, List.mem_append, or_assoc,
          or_comm (a := u ∈ v :: s)]
      · intro u hu hm
        rw [hflat, List.mem_append] at hm
        rcases hm with hm | hm
        · exact h.inv.disjoint u (hsub hu) hm
        · exact h.new_not_old hs hm hu
      · intro u
        dsimp only
        split
        · next hm =>
          have hno := h.new_not_old hs hm
          simp [hno]
        · next hm =>
          rw [h.inv.instk u, hs, List.mem_append]
          exact or_iff_left hm
      · exact hdone
      · refine h.inv.comps.snoc (h.isScc hs hlow h₀ hv) ?_ ?_ ?_
        · have hsorted := h.inv.sorted
          rw [hs, List.pairwise_append] at hsorted
          apply hsorted.2.1.imp
          intro a b hab heq
          exact absurd hab (heq ▸ Nat.lt_irrefl _)
        · intro u hu
          exact h.inv.disjoint u (mem_stack_of_new hs hu)
        · intro u hu w hw
          exact (h.new_closed hs hlow h₀ hv hu hw).symm
      · intro u hu
        obtain ⟨w, hw, hle, hr⟩ := h.inv.old u (hsub hu)
        rcases List.mem_cons.1 hw with rfl | hw
        · exact absurd (h.old_lt hs hu) (Nat.not_lt_of_le hle)
        · exact ⟨w, hw, hle, hr⟩
      · intro w hw u hu hle
        exact h.inv.young w (List.mem_cons_of_mem _ hw) u (hsub hu) hle
      · exact h.inv.reach
    · intro u hu
      cases hu
  · have hlt : S.low v < S.dfn v := Nat.lt_of_le_of_ne h.low_le (Ne.symm hv)
    obtain ⟨x, hx, hxlow, hxr⟩ := h.low
    have hxold : x ∈ S₀.stack := by
      rw [hs, List.mem_append] at hx
      rcases hx with hx | hx
      · exact hx
      · have hle := h.le_new hs hx
        omega
    rw [Search.close, if_neg hv]
    refine ⟨?_, h.keep, hnew, ⟨v :: s, hs, fun u hu w hw hm => h.low_old hs hlow hu hw hm⟩,
      .inr ⟨x, hxold, hxlow, hxr⟩⟩
    refine { h.inv with gray_mem := ?_, done := hdone, old := ?_, young := ?_ }
    · intro w hw
      exact hsub (h₀.gray_mem w hw)
    · intro u hu
      obtain ⟨w, hw, hle, hr⟩ := h.inv.old u hu
      rcases List.mem_cons.1 hw with rfl | hw
      · -- The vertex `v` stays in the stack and reaches an older one.
        obtain ⟨y, hy, hyle, hyr⟩ := h.inv.old x (hsub hxold)
        rcases List.mem_cons.1 hy with rfl | hy
        · exact absurd (h.old_lt hs hxold) (Nat.not_lt_of_le hyle)
        · exact ⟨y, hy, by omega, (hr.trans hxr).trans hyr⟩
      · exact ⟨w, hw, hle, hr⟩
    · intro w hw u hu hle
      exact h.inv.young w (List.mem_cons_of_mem _ hw) u hu hle

/-- Of two components neither of which is reached from the other, the earlier has the smaller
numbers. -/
def Ordered (succ : V → List V) (S : Search V) : Prop :=
  S.res.Pairwise fun A B => ∀ a ∈ A, ∀ b ∈ B, ¬ Reach succ b a → S.dfn a < S.dfn b

/-- Since the call for `v` began in `S₀`, only vertices that `v` reaches have got a number. -/
def Since (succ : V → List V) (S₀ S : Search V) (v : V) : Prop :=
  ∀ u, S.dfn u ≠ 0 → S₀.dfn u ≠ 0 ∨ Reach succ v u

theorem close_dfn (S : Search V) (v : V) : (S.close v).dfn = S.dfn := by
  rw [Search.close]
  split <;> rfl

theorem Since.push (S : Search V) (v : V) : Since succ S (S.push v) v := by
  intro u hu
  by_cases he : u = v
  · exact .inr (he ▸ .refl)
  · rw [push_dfn, Function.update_of_ne he] at hu
    exact .inl hu

omit [DecidableEq V] in
theorem Since.trans (h : Since succ S₀ S v) (hd : d ∈ succ v) (h' : Since succ S S' d) :
    Since succ S₀ S' v := by
  intro u hu
  rcases h' u hu with hu | hr
  · exact h u hu
  · exact .inr (.head hd hr)

theorem Ordered.push (h : S.Ordered succ) (hinv : S.Inv succ root gray) (hv : S.dfn v = 0) :
    (S.push v).Ordered succ := by
  have hne {C : List V} (hC : C ∈ S.res) {u : V} (hu : u ∈ C) : u ≠ v := by
    rintro rfl
    exact (hinv.visited u).2 (.inr (List.mem_flatten.2 ⟨C, hC, hu⟩)) hv
  refine List.Pairwise.imp_of_mem ?_ h
  intro A B hA hB hAB a ha b hb hr
  rw [push_dfn, Function.update_of_ne (hne hA ha), Function.update_of_ne (hne hB hb)]
  exact hAB a ha b hb hr

theorem Scanning.close_ordered (h : Scanning succ root S₀ S v gray (succ v))
    (h₀ : S₀.Inv succ root gray) (hord : S.Ordered succ) (hsince : Since succ S₀ S v) :
    (S.close v).Ordered succ := by
  obtain ⟨s, hs, hlow⟩ := h.stack
  rw [Search.close]
  split
  · next hv =>
    have hn : stackIndex v S.stack = S₀.stack.length := by
      rw [hs]
      apply stackIndex_eq
      intro hm
      exact h.new_ne hs hm rfl
    have hdrop : S.stack.drop (stackIndex v S.stack) = v :: s := by rw [hn, hs, List.drop_left]
    rw [Ordered]
    dsimp only
    rw [hdrop, List.pairwise_append]
    refine ⟨hord, List.pairwise_singleton .., ?_⟩
    intro A hA C hC a ha c hc hr
    rw [List.mem_singleton.1 hC] at hc
    have hcv := ((h.isScc hs hlow h₀ hv).sameScc hc).1 (List.mem_cons_self ..)
    have hvisited := (h.inv.visited a).2 (.inr (List.mem_flatten.2 ⟨A, hA, ha⟩))
    rcases hsince a hvisited with hold | hva
    · rw [(h.keep a hold).1]
      have hle := h₀.dfn_le a
      have hnum := h.num
      have hge := h.le_new hs hc
      omega
    · exact absurd (hcv.1.trans hva) hr
  · exact hord

def white (univ : List V) (S : Search V) : Nat := (univ.filter fun u => S.dfn u = 0).length

omit [DecidableEq V] in
theorem white_lt {univ : List V} (hv : v ∈ univ) (hw : S₀.dfn v = 0) (hn : S.dfn v ≠ 0)
    (hkeep : ∀ u, S₀.dfn u ≠ 0 → S.dfn u ≠ 0) : white univ S < white univ S₀ := by
  refine length_filter_lt ?_ hv (decide_eq_true hw) (decide_eq_false hn)
  intro u hu
  rw [decide_eq_true_eq] at hu ⊢
  by_contra hne
  exact hkeep u hne hu

section visit

variable {univ : List V} (hcl : Closed succ (· ∈ univ))

include hcl

/-- With enough fuel a call visits its vertex and everything that is reached from it, and nothing
else; components that are found without being reached from later ones have smaller numbers. -/
theorem visit_ordered (fuel : Nat) : ∀ (S : Search V) (v : V) (gray : List V),
    S.Inv succ root gray → S.Ordered succ → S.dfn v = 0 → Reach succ root v →
    (∀ w ∈ gray, Reach succ w v) → v ∈ univ → white univ S ≤ fuel →
    ∃ S', visit succ fuel v S = some S' ∧ Visited succ root S S' v gray ∧ S'.Ordered succ ∧
      Since succ S S' v := by
  induction fuel with
  | zero =>
    intro S v gray _ _ hv _ _ hm hle
    have hpos : v ∈ univ.filter fun u => S.dfn u = 0 := by simp [hm, hv]
    exact absurd (List.length_pos_of_mem hpos) (Nat.not_lt_of_le hle)
  | succ fuel ih =>
    intro S₀ v gray h₀ hord₀ hv hroot hgray hm hle
    have hloop : ∀ (ds done : List V) (S : Search V), Scanning succ root S₀ S v gray done →
        S.Ordered succ → Since succ S₀ S v → done ++ ds = succ v →
        ∃ S', ds.foldlM (relax (visit succ fuel) v) S = some S' ∧
          Scanning succ root S₀ S' v gray (succ v) ∧ S'.Ordered succ ∧ Since succ S₀ S' v := by
      intro ds
      induction ds with
      | nil =>
        intro done S h hord hsince heq
        rw [List.append_nil] at heq
        exact ⟨S, rfl, heq ▸ h, hord, hsince⟩
      | cons d ds ihds =>
        intro done S h hord hsince heq
        have he : d ∈ succ v := heq ▸ List.mem_append_right _ (List.mem_cons_self ..)
        have heq' : (done ++ [d]) ++ ds = succ v := by rw [← heq]; simp
        have hnum : S.dfn v ≠ 0 := by rw [h.num]; omega
        rw [List.foldlM_cons]
        by_cases hd : S.dfn d = 0
        · have hwhite : white univ S < white univ S₀ :=
            white_lt hm hv hnum fun u hu => (h.keep u hu).1 ▸ hu
          obtain ⟨S', hcall, hvis, hord', hsince'⟩ := ih S d (v :: gray) h.inv hord hd
            (hroot.trans (.single he)) (by
              intro w hw
              rcases List.mem_cons.1 hw with rfl | hw
              · exact .single he
              · exact (hgray w hw).trans (.single he))
            (hcl v d hm he) (by omega)
          obtain ⟨S'', hrest, hscan⟩ := ihds _ (S'.lower v (S'.low d)) (h.call hd he hvis) hord'
            (hsince.trans he hsince') heq'
          exact ⟨S'', by simpa [relax, hd, hcall] using hrest, hscan⟩
        · by_cases hst : S.instk d = true
          · have hm := (h.inv.instk d).1 hst
            obtain ⟨S'', hrest, hscan⟩ :=
              ihds _ (S.lower v (S.dfn d)) (h.lower hm he) hord hsince heq'
            exact ⟨S'', by simpa [relax, hd, hst] using hrest, hscan⟩
          · have hm := mt (h.inv.instk d).2 hst
            obtain ⟨S'', hrest, hscan⟩ := ihds _ _ (h.skip hd hm) hord hsince heq'
            exact ⟨S'', by simpa [relax, hd, hst] using hrest, hscan⟩
    obtain ⟨S', hfold, hscan, hord, hsince⟩ :=
      hloop (succ v) [] (S₀.push v) (h₀.push hv hroot hgray) (hord₀.push h₀ hv) (.push S₀ v) rfl
    refine ⟨S'.close v, by rw [visit, hfold]; rfl, hscan.close h₀,
      hscan.close_ordered h₀ hord hsince, ?_⟩
    intro u hu
    rw [close_dfn] at hu
    exact hsince u hu

omit [DecidableEq V] hcl in
theorem Inv.empty (succ : V → List V) (root : V) : (empty : Search V).Inv succ root [] := by
  constructor <;> simp [Search.empty, DepsFirst.nil]

/-- Tarjan's search terminates, finds exactly the vertices reached from `root`, and lists their
components each after those that it depends on. -/
theorem tarjan_spec {fuel : Nat} (hr : root ∈ univ) (hfuel : univ.length ≤ fuel) :
    ∃ S, visit succ fuel root empty = some S ∧ S.stack = [] ∧ (∀ u, S.instk u = false) ∧
      DepsFirst succ S.res ∧ ∀ u, u ∈ S.res.flatten ↔ Reach succ root u := by
  obtain ⟨S, hS, hvis, -⟩ :=
    visit_ordered hcl fuel empty root [] (.empty succ root) .nil rfl .refl
    (by simp) hr ((List.length_filter_le ..).trans hfuel)
  have hstack : S.stack = [] := by
    apply List.eq_nil_iff_forall_not_mem.2
    intro u hu
    obtain ⟨w, hw, -⟩ := hvis.inv.old u hu
    cases hw
  have hinstk (u) : S.instk u = false := by
    rw [Bool.eq_false_iff]
    intro hu
    rw [hvis.inv.instk, hstack] at hu
    cases hu
  refine ⟨S, hS, hstack, hinstk, hvis.inv.comps, fun u => ⟨fun hu => ?_, fun hu => ?_⟩⟩
  · exact hvis.inv.reach u ((hvis.inv.visited u).2 (.inr hu))
  · refine hvis.inv.comps.closed.reach ?_ hu
    rcases (hvis.inv.visited root).1 (Nat.ne_of_gt (Nat.zero_lt_of_lt hvis.new)) with h | h
    · rw [hstack] at h
      cases h
    · exact h

theorem tarjan_ordered {fuel : Nat} (hr : root ∈ univ) (hfuel : univ.length ≤ fuel)
    (hS : visit succ fuel root empty = some S) : S.Ordered succ := by
  obtain ⟨S', hS', -, hord, -⟩ :=
    visit_ordered hcl fuel empty root [] (.empty succ root) .nil rfl
    .refl (by simp) hr ((List.length_filter_le ..).trans hfuel)
  cases hS.symm.trans hS'
  exact hord

end visit

end Search

end Misc.Lib.Graph
