import Misc.Lib.Tarjan

namespace Misc.Lib.Graph
set_option autoImplicit true

variable {V : Type} [DecidableEq V] {succ : V → List V} {S S' : Search V} {seen : List V}
  {a b v d root : V} {fuel : Nat}

/-- The vertices in the order in which a depth-first search meets them, after those that it has
seen before it comes to `v`; the depth of the recursion is bounded by the first argument. -/
def preorder (succ : V → List V) : Nat → List V → V → List V
  | 0, seen, _ => seen
  | fuel + 1, seen, v =>
    if v ∈ seen then seen else (succ v).foldl (preorder succ fuel) (seen ++ [v])

/-- A search from `root` meets `a` before `b`. -/
def MetBefore (succ : V → List V) (root a b : V) : Prop :=
  ∃ n, ∀ fuel, n ≤ fuel → [a, b].Sublist (preorder succ fuel [] root)

theorem preorder_of_mem (hv : v ∈ seen) : preorder succ fuel seen v = seen := by
  cases fuel with
  | zero => rfl
  | succ fuel => rw [preorder, if_pos hv]

theorem preorder_nodup (fuel : Nat) (hseen : seen.Nodup) (v : V) :
    (preorder succ fuel seen v).Nodup := by
  induction fuel generalizing seen v with
  | zero => exact hseen
  | succ fuel ih =>
    rw [preorder]
    split
    · exact hseen
    · next hv =>
      have hfold : ∀ (ds : List V) (seen : List V), seen.Nodup →
          (ds.foldl (preorder succ fuel) seen).Nodup := by
        intro ds
        induction ds with
        | nil =>
          intro seen h
          exact h
        | cons d ds ihds =>
          intro seen h
          exact ihds _ (ih h d)
      refine hfold _ _ (List.nodup_append.2 ⟨hseen, List.nodup_singleton v, ?_⟩)
      rintro u hu w hw rfl
      exact hv (List.mem_singleton.1 hw ▸ hu)

namespace Search

/-- The numbers are given in the order of the list. -/
structure Numbered (S : Search V) (seen : List V) : Prop where
  mem : ∀ u, S.dfn u ≠ 0 ↔ u ∈ seen
  le : ∀ u, S.dfn u ≤ S.cnt
  sorted : seen.Pairwise fun a b => S.dfn a < S.dfn b

theorem Numbered.push (h : S.Numbered seen) (hv : S.dfn v = 0) :
    (S.push v).Numbered (seen ++ [v]) := by
  have hne {u : V} (hu : u ∈ seen) : u ≠ v := by
    rintro rfl
    exact (h.mem u).2 hu hv
  constructor
  · intro u
    by_cases he : u = v
    · subst he
      simp
    · rw [push_dfn, Function.update_of_ne he, h.mem, List.mem_append, List.mem_singleton]
      exact (or_iff_left he).symm
  · intro u
    rw [push_dfn]
    by_cases he : u = v
    · subst he
      exact (Function.update_self ..).le
    · rw [Function.update_of_ne he]
      exact (h.le u).trans (Nat.le_succ _)
  · rw [List.pairwise_append]
    refine ⟨List.Pairwise.imp_of_mem ?_ h.sorted, List.pairwise_singleton .., ?_⟩
    · intro a b ha hb hab
      rwa [push_dfn, Function.update_of_ne (hne ha), Function.update_of_ne (hne hb)]
    · intro a ha b hb
      rw [List.mem_singleton.1 hb, push_dfn, Function.update_self,
        Function.update_of_ne (hne ha)]
      exact Nat.lt_succ_of_le (h.le a)

omit [DecidableEq V] in
theorem Numbered.congr (h : S.Numbered seen) (hdfn : S'.dfn = S.dfn) (hcnt : S'.cnt = S.cnt) :
    S'.Numbered seen := by
  constructor
  · rw [hdfn]
    exact h.mem
  · rw [hdfn, hcnt]
    exact h.le
  · rw [hdfn]
    exact h.sorted

theorem close_cnt (S : Search V) (v : V) : (S.close v).cnt = S.cnt := by
  rw [Search.close]
  split <;> rfl

/-- Tarjan's search numbers the vertices in the order in which it meets them. -/
theorem visit_preorder (fuel : Nat) :
    ∀ (S S' : Search V) (seen : List V) (v : V), S.Numbered seen →
    S.dfn v = 0 → visit succ fuel v S = some S' → S'.Numbered (preorder succ fuel seen v) := by
  induction fuel with
  | zero =>
    intro S S' seen v _ _ hvisit
    cases hvisit
  | succ fuel ih =>
    intro S S' seen v h hv hvisit
    have hloop : ∀ (ds : List V) (S S' : Search V) (seen : List V), S.Numbered seen →
        ds.foldlM (relax (visit succ fuel) v) S = some S' →
        S'.Numbered (ds.foldl (preorder succ fuel) seen) := by
      intro ds
      induction ds with
      | nil =>
        intro S S' seen h hfold
        cases hfold
        exact h
      | cons d ds ihds =>
        intro S S' seen h hfold
        rw [List.foldlM_cons] at hfold
        obtain ⟨S₁, hrelax, hfold⟩ := Option.bind_eq_some_iff.1 hfold
        apply ihds S₁ S' _ _ hfold
        rw [relax] at hrelax
        split at hrelax
        · next hd =>
          obtain ⟨S₂, hvis, rfl⟩ := Option.map_eq_some_iff.1 hrelax
          exact (ih S S₂ seen d h hd hvis).congr rfl rfl
        · next hd =>
          rw [preorder_of_mem ((h.mem d).1 hd)]
          split at hrelax
          · cases hrelax
            exact h.congr rfl rfl
          · cases hrelax
            exact h
    rw [visit] at hvisit
    obtain ⟨S₁, hfold, rfl⟩ := Option.map_eq_some_iff.1 hvisit
    rw [preorder, if_neg fun hm => (h.mem v).2 hm hv]
    exact (hloop _ _ _ _ (h.push hv) hfold).congr (close_dfn ..) (close_cnt ..)

theorem Numbered.sublist (h : S.Numbered seen) (ha : S.dfn a ≠ 0) (hab : S.dfn a < S.dfn b) :
    [a, b].Sublist seen := by
  have hmb := (h.mem b).1 (by omega)
  have hne : a ≠ b := by
    rintro rfl
    exact Nat.lt_irrefl _ hab
  rcases sublist_or_swap ((h.mem a).1 ha) hmb hne with hs | hs
  · exact hs
  · have hlt := List.pairwise_pair.1 (h.sorted.sublist hs)
    omega

/-- The components that the search finds, by the order in which it meets their vertices. -/
theorem tarjan_preorder {univ : List V} (hcl : Closed succ (· ∈ univ)) (hr : root ∈ univ)
    (hfuel : univ.length ≤ fuel) (hS : visit succ fuel root empty = some S) :
    S.res.Pairwise fun A B => ∀ a ∈ A, ∀ b ∈ B, ¬ Reach succ b a →
      [a, b].Sublist (preorder succ fuel [] root) := by
  have hnum : S.Numbered (preorder succ fuel [] root) :=
    visit_preorder fuel empty S [] root ⟨fun u => by simp [empty], fun _ => le_rfl, .nil⟩ rfl hS
  obtain ⟨S', hS', hvis, -⟩ :=
    visit_ordered hcl fuel empty root [] (.empty succ root) .nil rfl .refl
    (by simp) hr ((List.length_filter_le ..).trans hfuel)
  cases hS.symm.trans hS'
  refine List.Pairwise.imp_of_mem ?_ (tarjan_ordered hcl hr hfuel hS)
  intro A B hA _ hAB a ha b hb hr
  exact hnum.sublist ((hvis.inv.visited a).2 (.inr (List.mem_flatten.2 ⟨A, hA, ha⟩)))
    (hAB a ha b hb hr)

end Search

end Misc.Lib.Graph
