import Mathlib.Algebra.Order.Monoid.WithTop
import Mathlib.Order.Bounds.Basic

namespace Misc.Lib.ShortestPath
set_option autoImplicit true

/-- The weight of a walk from `s`. Where there is no edge, the weight is `⊤`. -/
inductive Walk {V W : Type} [AddCommMonoid W] (w : V → V → WithTop W) (s : V) :
    V → WithTop W → Prop
  | nil : Walk w s s 0
  | snoc : Walk w s v c → Walk w s u (c + w v u)

variable {V W : Type} [AddCommMonoid W] [LinearOrder W] [IsOrderedAddMonoid W]
  {w : V → V → WithTop W}
  {s v u m : V} {F : Set V} {d : V → WithTop W} {c : WithTop W}

/-- Between the finished vertices and the others: distances are weights of walks, no edge from a
finished vertex shortens one, and no finished vertex is farther away than another vertex. -/
structure Frontier (w : V → V → WithTop W) (s : V) (F : Set V) (d : V → WithTop W) : Prop where
  source : d s ≤ 0
  sound : ∀ v, d v ≠ ⊤ → Walk w s v (d v)
  relaxed : ∀ v ∈ F, ∀ u, d u ≤ d v + w v u
  order : ∀ v ∈ F, ∀ u ∉ F, d v ≤ d u

omit [IsOrderedAddMonoid W] in
theorem Frontier.start [DecidableEq V] (w : V → V → WithTop W) (s : V) :
    Frontier w s ∅ (Function.update (fun _ => ⊤) s 0) where
  source := by rw [Function.update_self]
  sound v hv := by
    by_cases hvs : v = s
    · subst hvs
      rw [Function.update_self]
      exact .nil
    · rw [Function.update_of_ne hvs] at hv
      exact absurd rfl hv
  relaxed _ hv := absurd hv (Set.notMem_empty _)
  order _ hv := absurd hv (Set.notMem_empty _)

/-- A walk passes an unfinished vertex that is no farther away than it weighs, or its end is
finished. -/
theorem Frontier.lower (hf : Frontier w s F d) (hw : ∀ v u, 0 ≤ w v u) (h : Walk w s v c) :
    (∃ x ∉ F, d x ≤ c) ∨ v ∈ F ∧ d v ≤ c := by
  have here (u : V) (c : WithTop W) (hu : d u ≤ c) : (∃ x ∉ F, d x ≤ c) ∨ u ∈ F ∧ d u ≤ c := by
    by_cases huF : u ∈ F
    · exact .inr ⟨huF, hu⟩
    · exact .inl ⟨u, huF, hu⟩
  induction h with
  | nil => exact here s 0 hf.source
  | @snoc v c u _ ih =>
    rcases ih with ⟨x, hx, hxc⟩ | ⟨hv, hvc⟩
    · exact .inl ⟨x, hx, hxc.trans (le_add_of_nonneg_right (hw v u))⟩
    · exact here u _ ((hf.relaxed v hv u).trans (add_le_add_left hvc _))

theorem Frontier.le_of_walk (hf : Frontier w s F d) (hw : ∀ v u, 0 ≤ w v u) (hm : m ∉ F)
    (hmin : ∀ x ∉ F, d m ≤ d x) (h : Walk w s m c) : d m ≤ c := by
  rcases hf.lower hw h with ⟨x, hx, hxc⟩ | ⟨hmF, -⟩
  · exact (hmin x hx).trans hxc
  · exact absurd hmF hm

/-- The nearest unfinished vertex is finished, and its edges are tried. -/
theorem Frontier.step (hf : Frontier w s F d) (hw : ∀ v u, 0 ≤ w v u) (hm : m ∉ F)
    (hmin : ∀ x ∉ F, d m ≤ d x) : Frontier w s (insert m F) fun u =>
      min (d u) (d m + w m u) := by
  have hless (u : V) : d m ≤ d m + w m u := le_add_of_nonneg_right (hw m u)
  have hdone (v : V) (hv : v ∈ insert m F) : min (d v) (d m + w m v) = d v := by
    rcases Set.mem_insert_iff.1 hv with rfl | hv
    · exact min_eq_left (hless v)
    · exact min_eq_left ((hf.order v hv m hm).trans (hless v))
  constructor
  · exact (min_le_left _ _).trans hf.source
  · intro v hv
    rcases min_choice (d v) (d m + w m v) with he | he
    · rw [he] at hv ⊢
      exact hf.sound v hv
    · rw [he] at hv ⊢
      exact .snoc (hf.sound m (WithTop.add_ne_top.1 hv).1)
  · intro v hv u
    rw [hdone v hv]
    rcases Set.mem_insert_iff.1 hv with rfl | hv
    · exact min_le_right _ _
    · exact (min_le_left _ _).trans (hf.relaxed v hv u)
  · intro v hv u hu
    rw [hdone v hv]
    rw [Set.mem_insert_iff, not_or] at hu
    rcases Set.mem_insert_iff.1 hv with rfl | hv
    · exact le_min (hmin u hu.2) (hless u)
    · exact le_min (hf.order v hv u hu.2) ((hf.order v hv m hm).trans (hless u))

end Misc.Lib.ShortestPath
