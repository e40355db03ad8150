import Misc.Re0.Closure
import Mathlib.Order.Interval.Finset.Nat

namespace Misc.Re0
open Misc.Lib
set_option autoImplicit true

variable {h : Heap}

/-- In a finite automaton, cycles or not, `eClosure` ends and returns the states that are
reached by edges that read nothing, each once. `nfaAllocId` ends, and if the states reached have
no ids yet, it gives them the ids from 1 to their number, each to one of them. -/
theorem closures_and_ids (hw : h.Within) :
    (∀ (o : Order) (k : Nat) (t : List Addr), (∀ s ∈ t, s < h.size) →
      ∃ ec, (∀ fuel, t.length + h.size ≤ fuel → eClosure o k fuel h t = .ok ec) ∧ ec.Nodup ∧
        ∀ s, s ∈ ec ↔ ∃ r ∈ t, Graph.Reach h.silent r s) ∧
    ∀ n < h.size, ∃ id num,
      (∀ fuel, h.size < fuel → nfaAllocId fuel n 1 h = .ok (id, h.number num)) ∧
      ((∀ s, Graph.Reach h.succs n s → (h.state s).id = 0) →
        Set.BijOn num {s | Graph.Reach h.succs n s}
          (Set.Icc 1 {s | Graph.Reach h.succs n s}.ncard)) := by
  refine ⟨fun o k t ht => ?_, fun n hn => ?_⟩
  · obtain ⟨set, hset, hnd, hmem⟩ := eClosure_reach hw o k ht
    refine ⟨o.keys k set, hset, (o.perm k set).nodup_iff.2 hnd, fun s => ?_⟩
    rw [(o.perm k set).mem_iff]
    exact hmem s
  · obtain ⟨k, num, halloc, hids⟩ := nfaAllocId_ids hw hn
    refine ⟨k, num, halloc, fun hid => ?_⟩
    have hbij := hids hid
    obtain ⟨hle, hlt⟩ := hbij.mapsTo (show n ∈ {s | Graph.Reach h.succs n s} from .refl)
    have hcard : {s | Graph.Reach h.succs n s}.ncard = k - 1 := by
      rw [hbij.ncard_eq, Set.ncard_eq_toFinset_card', Set.toFinset_Ico, Nat.card_Ico]
    have hrange : Set.Ico 1 k = Set.Icc 1 (k - 1) := by
      ext i
      rw [Set.mem_Ico, Set.mem_Icc]
      omega
    rw [hcard, ← hrange]
    exact hbij

/-- Two states, each with an edge to the other one that reads nothing. -/
def spin : Heap := (Heap.empty.fresh.2.addE 0 1).addE 1 0

theorem closures_and_ids_spin :
    (∃ ec,
      (∀ fuel, 3 ≤ fuel → eClosure ⟨fun _ l => l, fun _ l => .refl l⟩ 0 fuel spin [0] = .ok ec) ∧
      ec.Nodup ∧ 0 ∈ ec ∧ 1 ∈ ec) ∧
    ∃ id num, (∀ fuel, 2 < fuel → nfaAllocId fuel 0 1 spin = .ok (id, spin.number num)) ∧
      Set.BijOn num {s | Graph.Reach spin.succs 0 s}
        (Set.Icc 1 {s | Graph.Reach spin.succs 0 s}.ncard) := by
  have hw : spin.Within := by
    unfold Heap.Within
    decide
  obtain ⟨hclosure, hids⟩ := closures_and_ids hw
  have hedge : 1 ∈ spin.silent 0 := by decide
  obtain ⟨ec, hec, hnd, hmem⟩ := hclosure ⟨fun _ l => l, fun _ l => .refl l⟩ 0 [0] (by decide)
  obtain ⟨id, num, halloc, hbij⟩ := hids 0 (by decide)
  refine ⟨⟨ec, hec, hnd, (hmem 0).2 ⟨0, .head _, .refl⟩, (hmem 1).2 ⟨0, .head _, .edge hedge⟩⟩,
    id, num, halloc, hbij fun s _ => ?_⟩
  simp only [spin, Heap.addE, Heap.state_set, Heap.state_fresh]
  split_ifs <;> rfl

end Misc.Re0
