import Mathlib.Computability.EpsilonNFA

namespace Misc.Lib.Paths
set_option autoImplicit true

variable {α σ : Type} {M N : εNFA α σ} {S : Set σ} {s t e : σ} {x : List (Option α)}

def Closed (M : εNFA α σ) (S : Set σ) : Prop := ∀ s ∈ S, ∀ o, M.step s o ⊆ S

theorem isPath_cons {o : Option α} :
    M.IsPath s t (o :: x) ↔ ∃ u ∈ M.step s o, M.IsPath u t x := by
  constructor
  · intro h
    cases h with
    | cons u _ _ _ _ hu h => exact ⟨u, hu, h⟩
  · rintro ⟨u, hu, h⟩
    exact .cons _ _ _ _ _ hu h

theorem isPath_sink (hs : ∀ o, M.step s o = ∅) : M.IsPath s t x ↔ s = t ∧ x = [] := by
  cases x with
  | nil => rw [εNFA.isPath_nil, and_iff_left rfl]
  | cons o x =>
    rw [isPath_cons, hs o]
    exact ⟨fun ⟨_, hu, _⟩ => absurd hu (Set.notMem_empty _), nofun⟩

theorem Closed.isPath (hM : Closed M S) (hs : s ∈ S) (h : M.IsPath s t x) : t ∈ S := by
  induction h with
  | nil => exact hs
  | cons u s t o x hu _ ih => exact ih (hM s hs o hu)

/-- Only the empty path comes back to a state that no transition of a closed set enters. -/
theorem Closed.isPath_source (hM : Closed M S) (he : ∀ s ∈ S, ∀ o, e ∉ M.step s o) (hs : s ∈ S)
    (h : M.IsPath s e x) : s = e ∧ x = [] := by
  induction h with
  | nil => exact ⟨rfl, rfl⟩
  | cons u s t o x hu _ ih =>
    obtain ⟨rfl, -⟩ := ih he (hM s hs o hu)
    exact absurd hu (he s hs o)

theorem Closed.lift (hM : Closed M S) (hsub : ∀ s ∈ S, ∀ o, M.step s o ⊆ N.step s o) (hs : s ∈ S)
    (h : M.IsPath s t x) : N.IsPath s t x := by
  induction h with
  | nil => exact .nil _
  | cons u s t o x hu _ ih => exact .cons _ _ _ _ _ (hsub s hs o hu) (ih (hM s hs o hu))

theorem Closed.congr (hM : Closed M S)
    (heq : ∀ s ∈ S, ∀ o, N.step s o = M.step s o) (hs : s ∈ S) :
    N.IsPath s t x ↔ M.IsPath s t x := by
  have hN : Closed N S := by
    intro s hs o
    rw [heq s hs o]
    exact hM s hs o
  exact ⟨hN.lift (fun s hs o => (heq s hs o).subset) hs,
    hM.lift (fun s hs o => (heq s hs o).superset) hs⟩

/-- A path that leaves a set whose only way out is the state `e` is a path of the set to `e`,
and one from there. -/
theorem Closed.leaves (hM : Closed M S) (hsink : ∀ o, M.step e o = ∅)
    (heq : ∀ s ∈ S, s ≠ e → ∀ o, N.step s o = M.step s o) (hs : s ∈ S) (ht : t ∉ S) :
    N.IsPath s t x ↔ ∃ y z, x = y ++ z ∧ M.IsPath s e y ∧ N.IsPath e t z := by
  constructor
  · intro h
    induction h with
    | nil => exact absurd hs ht
    | cons u s t o x hu h ih =>
      by_cases he : s = e
      · subst he
        exact ⟨[], o :: x, rfl, .nil _, .cons _ _ _ _ _ hu h⟩
      · rw [heq s hs he o] at hu
        obtain ⟨y, z, rfl, hy, hz⟩ := ih (hM s hs o hu) ht
        exact ⟨o :: y, z, rfl, .cons _ _ _ _ _ hu hy, hz⟩
  · rintro ⟨y, z, rfl, hy, hz⟩
    rw [εNFA.isPath_append]
    refine ⟨e, hM.lift ?_ hs hy, hz⟩
    intro s hs o
    by_cases he : s = e
    · rw [he, hsink o]
      exact Set.empty_subset _
    · exact (heq s hs he o).superset

/-! ## Words -/

def Reads (M : εNFA α σ) (s t : σ) (w : List α) : Prop :=
  ∃ x, x.reduceOption = w ∧ M.IsPath s t x

variable {u : σ} {w v : List α} {a : α}

theorem reads_iff : Reads M s t w ↔ t ∈ M.evalFrom {s} w := M.mem_evalFrom_iff_exists_path.symm

theorem evalFrom_append_nonempty (h : (M.evalFrom S (w ++ v)).Nonempty) :
    (M.evalFrom S w).Nonempty := by
  by_contra hne
  rw [Set.not_nonempty_iff_eq_empty] at hne
  have happend : M.evalFrom S (w ++ v) = v.foldl M.stepSet (M.evalFrom S w) :=
    List.foldl_append ..
  rw [happend, hne, ← M.εClosure_empty] at h
  have hempty : v.foldl M.stepSet (M.εClosure ∅) = ∅ := M.evalFrom_empty v
  rw [hempty] at h
  exact Set.not_nonempty_empty h

theorem Reads.refl (M : εNFA α σ) (s : σ) : Reads M s s [] := ⟨[], rfl, .nil s⟩

theorem Reads.head (hu : u ∈ M.step s none) (h : Reads M u t w) : Reads M s t w := by
  obtain ⟨x, rfl, hx⟩ := h
  exact ⟨none :: x, rfl, .cons _ _ _ _ _ hu hx⟩

theorem Reads.head_some (hu : u ∈ M.step s (some a)) (h : Reads M u t w) :
    Reads M s t (a :: w) := by
  obtain ⟨x, rfl, hx⟩ := h
  exact ⟨some a :: x, rfl, .cons _ _ _ _ _ hu hx⟩

theorem Reads.trans (h : Reads M s t w) (h' : Reads M t u v) : Reads M s u (w ++ v) := by
  obtain ⟨x, rfl, hx⟩ := h
  obtain ⟨y, rfl, hy⟩ := h'
  exact ⟨x ++ y, List.reduceOption_append x y, M.isPath_append.2 ⟨t, hx, hy⟩⟩

theorem reads_sink (hs : ∀ o, M.step s o = ∅) : Reads M s t w ↔ s = t ∧ w = [] := by
  constructor
  · rintro ⟨x, rfl, hx⟩
    obtain ⟨rfl, rfl⟩ := (isPath_sink hs).1 hx
    exact ⟨rfl, rfl⟩
  · rintro ⟨rfl, rfl⟩
    exact .refl M s

theorem reads_head (hs : ∀ a, M.step s (some a) = ∅) (hne : s ≠ t) :
    Reads M s t w ↔ ∃ u ∈ M.step s none, Reads M u t w := by
  constructor
  · rintro ⟨x, rfl, hx⟩
    cases hx with
    | nil => exact absurd rfl hne
    | cons u _ _ o x hu hx =>
      cases o with
      | none => exact ⟨u, hu, x, rfl, hx⟩
      | some a =>
        rw [hs a] at hu
        exact absurd hu (Set.notMem_empty _)
  · rintro ⟨u, hu, h⟩
    exact .head hu h

theorem Closed.reads (hM : Closed M S) (hs : s ∈ S) (h : Reads M s t w) : t ∈ S := by
  obtain ⟨x, -, hx⟩ := h
  exact hM.isPath hs hx

theorem Closed.reads_congr (hM : Closed M S)
    (heq : ∀ s ∈ S, ∀ o, N.step s o = M.step s o) (hs : s ∈ S) :
    Reads N s t w ↔ Reads M s t w := by
  apply exists_congr
  intro x
  rw [hM.congr heq hs]

theorem Closed.reads_leaves (hM : Closed M S) (hsink : ∀ o, M.step e o = ∅)
    (heq : ∀ s ∈ S, s ≠ e → ∀ o, N.step s o = M.step s o) (hs : s ∈ S) (ht : t ∉ S) :
    Reads N s t w ↔ ∃ u v, w = u ++ v ∧ Reads M s e u ∧ Reads N e t v := by
  constructor
  · rintro ⟨x, rfl, hx⟩
    obtain ⟨y, z, rfl, hy, hz⟩ := (hM.leaves hsink heq hs ht).1 hx
    exact ⟨_, _, List.reduceOption_append y z, ⟨y, rfl, hy⟩, z, rfl, hz⟩
  · rintro ⟨_, _, rfl, ⟨y, rfl, hy⟩, z, rfl, hz⟩
    exact ⟨y ++ z, List.reduceOption_append y z,
      (hM.leaves hsink heq hs ht).2 ⟨y, z, rfl, hy, hz⟩⟩

theorem Closed.reads_lift (hM : Closed M S)
    (hsub : ∀ s ∈ S, ∀ o, M.step s o ⊆ N.step s o) (hs : s ∈ S)
    (h : Reads M s t w) : Reads N s t w := by
  obtain ⟨x, hx, hpath⟩ := h
  exact ⟨x, hx, hM.lift hsub hs hpath⟩

/-! ## Loops -/

variable {L : Language α}

theorem mem_kstar_iff :
    w ∈ KStar.kstar L ↔ w = [] ∨ ∃ u ∈ L, ∃ v ∈ KStar.kstar L, u ++ v = w := by
  conv_lhs => rw [← Language.one_add_self_mul_kstar_eq_kstar]
  rw [Language.mem_add, Language.mem_one, Language.mem_mul]

/-- A path that leaves a set from the state `e`, which also leads back to `a`, reads what leads
to `e` and then words that lead from `a` to `e`. -/
theorem Closed.loops (hM : Closed M S) (heq : ∀ s ∈ S, s ≠ e → ∀ o, N.step s o = M.step s o)
    (ha : u ∈ S) (heps : ∀ v ∈ N.step e none, v = t ∨ v = u) (hread : ∀ a, N.step e (some a) = ∅)
    (ht : t ∉ S) (hfin : ∀ o, N.step t o = ∅) (hL : ∀ w, Reads M u e w ↔ w ∈ L)
    (hx : N.IsPath s t x) (hs : s ∈ S) :
    ∃ w v, x.reduceOption = w ++ v ∧ Reads M s e w ∧ v ∈ KStar.kstar L := by
  induction hx with
  | nil => exact absurd hs ht
  | cons r s t o x hr hx ih =>
    by_cases hse : s = e
    · subst hse
      refine ⟨[], _, (List.nil_append _).symm, .refl _ _, ?_⟩
      cases o with
      | some a =>
        rw [hread a] at hr
        exact absurd hr (Set.notMem_empty _)
      | none =>
        rcases heps r hr with rfl | rfl
        · obtain ⟨-, rfl⟩ := (isPath_sink hfin).1 hx
          exact Language.nil_mem_kstar L
        · obtain ⟨w, v, hwv, hw, hv⟩ := ih heps ht hfin ha
          change x.reduceOption ∈ _
          rw [hwv]
          exact mem_kstar_iff.2 (.inr ⟨w, (hL w).1 hw, v, hv, rfl⟩)
    · rw [heq s hs hse] at hr
      obtain ⟨w, v, hwv, hw, hv⟩ := ih heps ht hfin (hM s hs o hr)
      cases o with
      | none => exact ⟨w, v, hwv, hw.head hr, hv⟩
      | some a => exact ⟨a :: w, v, congrArg (a :: ·) hwv, hw.head_some hr, hv⟩

theorem Closed.reads_loop (hM : Closed M S) (hsink : ∀ o, M.step e o = ∅)
    (heq : ∀ s ∈ S, s ≠ e → ∀ o, N.step s o = M.step s o) (ha : u ∈ S)
    (heps : N.step e none = {t, u}) (hread : ∀ a, N.step e (some a) = ∅) (ht : t ∉ S)
    (hfin : ∀ o, N.step t o = ∅) (hL : ∀ w, Reads M u e w ↔ w ∈ L) (hs : s ∈ S) :
    Reads N s t w ↔ ∃ v v', w = v ++ v' ∧ Reads M s e v ∧ v' ∈ KStar.kstar L := by
  have hwords (ws : List (List α)) (hws : ∀ w ∈ ws, w ∈ L) : Reads N e t ws.flatten := by
    induction ws with
    | nil => exact (Reads.refl N t).head (heps ▸ Set.mem_insert t {u})
    | cons v ws ih =>
      rw [List.forall_mem_cons] at hws
      have hback : u ∈ N.step e none := heps ▸ Set.mem_insert_of_mem t rfl
      exact .head hback
        ((hM.reads_leaves hsink heq ha ht).2 ⟨v, _, rfl, (hL v).2 hws.1, ih hws.2⟩)
  constructor
  · rintro ⟨x, rfl, hx⟩
    exact hM.loops heq ha (fun v hv => by rwa [heps] at hv) hread ht hfin hL hx hs
  · rintro ⟨v, v', rfl, hv, hv'⟩
    obtain ⟨ws, rfl, hws⟩ := Language.mem_kstar.1 hv'
    exact (hM.reads_leaves hsink heq hs ht).2 ⟨v, _, rfl, hv, hwords ws hws⟩

/-- A copy of a state reads what the state reads, if nothing changes behind it. -/
theorem reads_copy (hstep : ∀ o, N.step e o = M.step s o) (he : e ≠ t) (hs : s ≠ t)
    (hrest : ∀ o, ∀ u ∈ M.step s o, ∀ w, Reads N u t w ↔ Reads M u t w) :
    Reads N e t w ↔ Reads M s t w := by
  constructor
  · rintro ⟨x, rfl, hx⟩
    cases hx with
    | nil => exact absurd rfl he
    | cons u _ _ o x hu hx =>
      rw [hstep] at hu
      have hread := (hrest o u hu _).1 ⟨x, rfl, hx⟩
      cases o with
      | none => exact hread.head hu
      | some a => exact hread.head_some hu
  · rintro ⟨x, rfl, hx⟩
    cases hx with
    | nil => exact absurd rfl hs
    | cons u _ _ o x hu hx =>
      have hread := (hrest o u hu _).2 ⟨x, rfl, hx⟩
      rw [← hstep] at hu
      cases o with
      | none => exact hread.head hu
      | some a => exact hread.head_some hu

end Misc.Lib.Paths
