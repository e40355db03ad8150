import Misc.Lib.Graph
import Misc.Lib.Machine
import Mathlib

namespace Misc.Lib.Graph
set_option autoImplicit true

variable {V : Type} [DecidableEq V]

/-- A search that takes in each round, in any order, all that the round before has found. -/
structure Rounds (V : Type) where
  todo : Finset V
  done : Finset V
  order : List V

def Rounds.pending (s : Rounds V) : Finset V := s.todo \ s.done

/-- A round that takes what is pending in the order `l`. -/
def Rounds.step (succ : V → List V) (s : Rounds V) (l : List V) : Option (Rounds V) :=
  if s.todo ≠ ∅ ∧ l.Nodup ∧ l.toFinset = s.pending then
    some ⟨(l.flatMap succ).toFinset, s.done ∪ l.toFinset, s.order ++ l⟩
  else none

def rounds (succ : V → List V) (roots : Finset V) : Machine (Rounds V) (List V) where
  init s := s = ⟨roots, ∅, []⟩
  step := Rounds.step succ

namespace Rounds

variable {succ : V → List V} {roots A : Finset V} {s t : Rounds V} {l : List V}
  {ls : List (List V)} {v w : V}

theorem step_eq (h : s.step succ l = some t) :
    s.todo ≠ ∅ ∧ l.Nodup ∧ (∀ v, v ∈ l ↔ v ∈ s.todo ∧ v ∉ s.done) ∧
    t = ⟨(l.flatMap succ).toFinset, s.done ∪ l.toFinset, s.order ++ l⟩ := by
  rw [step] at h
  split_ifs at h with hg
  cases h
  refine ⟨hg.1, hg.2.1, fun v => ?_, rfl⟩
  rw [← List.mem_toFinset, hg.2.2, pending, Finset.mem_sdiff]

/-- What holds of a search from `roots` between two rounds. -/
structure Searched (succ : V → List V) (roots : Finset V) (s : Rounds V) : Prop where
  nodup : s.order.Nodup
  taken : ∀ v, v ∈ s.order ↔ v ∈ s.done
  root : ∀ v ∈ roots, v ∈ s.todo ∨ v ∈ s.done
  closed : ∀ v ∈ s.done, ∀ w ∈ succ v, w ∈ s.todo ∨ w ∈ s.done
  reach : ∀ v, v ∈ s.todo ∨ v ∈ s.done → ∃ r ∈ roots, Reach succ r v

omit [DecidableEq V] in
theorem Searched.start (succ : V → List V) (roots : Finset V) :
    Searched succ roots ⟨roots, ∅, []⟩ where
  nodup := List.nodup_nil
  taken v := by simp
  root v hv := .inl hv
  closed v hv := absurd hv (Finset.notMem_empty v)
  reach v hv := ⟨v, hv.resolve_right (Finset.notMem_empty v), .refl⟩

theorem Searched.step (h : Searched succ roots s) (hs : s.step succ l = some t) :
    Searched succ roots t := by
  obtain ⟨-, hl, hmem, rfl⟩ := step_eq hs
  have hdone (v : V) (hv : v ∈ s.todo ∨ v ∈ s.done) : v ∈ s.done ∪ l.toFinset := by
    by_cases hd : v ∈ s.done
    · exact Finset.mem_union_left _ hd
    · exact Finset.mem_union_right _ (List.mem_toFinset.2 ((hmem v).2 ⟨hv.resolve_right hd, hd⟩))
  have hold (v : V) (hv : v ∈ s.done ∪ l.toFinset) : v ∈ s.todo ∨ v ∈ s.done :=
    (Finset.mem_union.1 hv).elim .inr fun hv => .inl ((hmem v).1 (List.mem_toFinset.1 hv)).1
  constructor
  · refine List.nodup_append.2 ⟨h.nodup, hl, ?_⟩
    rintro v hv _ hv' rfl
    exact ((hmem v).1 hv').2 ((h.taken v).1 hv)
  · intro v
    rw [List.mem_append, Finset.mem_union, List.mem_toFinset, h.taken]
  · intro v hv
    exact .inr (hdone v (h.root v hv))
  · intro v hv w hw
    obtain hv | hv := Finset.mem_union.1 hv
    · exact .inr (hdone w (h.closed v hv w hw))
    · exact .inl (List.mem_toFinset.2 (List.mem_flatMap.2 ⟨v, List.mem_toFinset.1 hv, hw⟩))
  · rintro w (hw | hw)
    · obtain ⟨v, hv, hvw⟩ := List.mem_flatMap.1 (List.mem_toFinset.1 hw)
      obtain ⟨r, hr, hrv⟩ := h.reach v (.inl ((hmem v).1 hv).1)
      exact ⟨r, hr, hrv.tail hvw⟩
    · exact h.reach w (hold w hw)

theorem Searched.of_run (h : (rounds succ roots).Run s ls t) (hs : Searched succ roots s) :
    Searched succ roots t :=
  h.invariant hs fun _ _ _ hi _ hst => hi.step hst

omit [DecidableEq V] in
/-- A search that has ended has taken what is reached, each vertex once. -/
theorem Searched.mem_iff (h : Searched succ roots s) (hend : s.todo = ∅) :
    v ∈ s.order ↔ ∃ r ∈ roots, Reach succ r v := by
  have hnot (v : V) : v ∉ s.todo := hend ▸ Finset.notMem_empty v
  rw [h.taken]
  constructor
  · intro hv
    exact h.reach v (.inr hv)
  · rintro ⟨r, hr, hrv⟩
    have hclosed : Closed succ (· ∈ s.done) :=
      fun a b ha hb => (h.closed a ha b hb).resolve_left (hnot b)
    exact hclosed.reach ((h.root r hr).resolve_left (hnot r)) hrv

theorem ended (h : (rounds succ roots).Run s ls t) (hs : s.todo = ∅) : ls = [] := by
  cases h with
  | nil => rfl
  | cons _ hst _ => exact absurd hs (step_eq hst).1

omit [DecidableEq V] in
theorem Searched.card_le (h : Searched succ roots s)
    (hA : ∀ v, (∃ r ∈ roots, Reach succ r v) → v ∈ A) : s.done.card ≤ A.card :=
  Finset.card_le_card fun v hv => hA v (h.reach v (.inr hv))

/-- Each round but the last takes a vertex that no round before it took. -/
theorem length_le (h : (rounds succ roots).Run s ls t) (hs : Searched succ roots s)
    (hA : ∀ v, (∃ r ∈ roots, Reach succ r v) → v ∈ A) :
    ls.length + s.done.card ≤ A.card + 1 := by
  induction h with
  | nil s =>
    have hle := hs.card_le hA
    rw [List.length_nil]
    omega
  | @cons s l t ls u _ hst hrun ih =>
    have ih := ih (hs.step hst)
    obtain ⟨hne, hl, hmem, rfl⟩ := step_eq hst
    have hdisj : Disjoint s.done l.toFinset := Finset.disjoint_left.2 fun v hd hv =>
      ((hmem v).1 (List.mem_toFinset.1 hv)).2 hd
    rw [Finset.card_union_of_disjoint hdisj, List.toFinset_card_of_nodup hl] at ih
    rw [List.length_cons]
    cases l with
    | cons v l =>
      rw [List.length_cons] at ih
      omega
    | nil =>
      -- Nothing was pending, so that nothing is left to do and this was the last round.
      have hls := ended hrun rfl
      have hle := hs.card_le hA
      rw [hls, List.length_nil]
      omega

end Rounds

end Misc.Lib.Graph
