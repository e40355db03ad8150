import Misc.Lib.Marking
import Misc.Re0.Dstate
import Misc.Re0.Fragment

namespace Misc.Re0
open Misc.Lib
set_option autoImplicit true

def Heap.Within (h : Heap) : Prop := ∀ s < h.size, ∀ e ∈ (h.state s).edges, e.next < h.size

def Heap.silent (h : Heap) (s : Addr) : List Addr :=
  ((h.state s).edges.filter NfaEdge.epsilion).map NfaEdge.next

variable {h : Heap} {o : Order} {s t : Addr} {l stack set states : List Addr}
  {c : UInt8} {k fuel : Nat}

theorem NfaEdge.label_eq_none {e : NfaEdge} : e.label = none ↔ e.epsilion = true := by
  rw [label]
  split_ifs with he <;> simp [he]

theorem NfaEdge.label_eq_some {e : NfaEdge} : e.label = some c ↔
      e.epsilion = false ∧ e.ch = c := by
  rw [label]
  split_ifs with he <;> simp [he]

theorem Heap.mem_silent : t ∈ h.silent s ↔ t ∈ h.graph.step s none := by
  rw [silent, List.mem_map, mem_step]
  apply exists_congr
  intro e
  rw [List.mem_filter, NfaEdge.label_eq_none, and_assoc, and_comm (a := e.epsilion = true)]

theorem Heap.reach_silent : (∃ r ∈ l, Graph.Reach h.silent r t) ↔
      t ∈ h.graph.εClosure {s | s ∈ l} := by
  constructor
  · rintro ⟨r, hr, hrt⟩
    induction hrt with
    | refl => exact εNFA.εClosure.base _ hr
    | tail _ hbc ih => exact εNFA.εClosure.step _ _ (mem_silent.1 hbc) ih
  · intro ht
    induction ht with
    | base s hs => exact ⟨s, hs, .refl⟩
    | step s t hst _ ih =>
      obtain ⟨r, hr, hrs⟩ := ih
      exact ⟨r, hr, hrs.tail (mem_silent.2 hst)⟩

theorem foldl_closeEdges (es : List NfaEdge) (p : List Addr × List Addr) :
    es.foldl closeEdges p = ((es.filter NfaEdge.epsilion).map NfaEdge.next).foldl
      Graph.push p := by
  induction es generalizing p with
  | nil => rfl
  | cons e es ih =>
    rw [List.foldl_cons, ih, List.filter_cons, closeEdges]
    cases e.epsilion <;> rfl

theorem closeStack_mark (h : Heap) (fuel : Nat) (stack set : List Addr)
    (hl : Graph.mark h.silent fuel stack set = some l) :
    closeStack h fuel stack set = .ok l := by
  induction fuel generalizing stack set with
  | zero =>
    cases stack with
    | nil => cases hl; rfl
    | cons => cases hl
  | succ fuel ih =>
    cases stack with
    | nil => cases hl; rfl
    | cons t stack =>
      rw [closeStack, foldl_closeEdges]
      exact ih _ _ hl

theorem Heap.Within.silent (hw : h.Within) :
    ∀ v ∈ Finset.range h.size, ∀ w ∈ h.silent v, w ∈ Finset.range h.size := by
  intro v hv w hvw
  obtain ⟨e, he, rfl⟩ := List.mem_map.1 hvw
  exact Finset.mem_range.2 (hw v (Finset.mem_range.1 hv) e (List.mem_filter.1 he).1)

/-- `eClosure` ends, and returns the states that are reached by edges that read nothing, without
repetition, in the order of the map. -/
theorem eClosure_reach (hw : h.Within) (o : Order) (k : Nat) (ht : ∀ s ∈ l, s < h.size) :
    ∃ set, (∀ fuel, l.length + h.size ≤ fuel → eClosure o k fuel h l = .ok (o.keys k set)) ∧
      set.Nodup ∧ ∀ s, s ∈ set ↔ ∃ r ∈ l, Graph.Reach h.silent r s := by
  have hcard : l.length + (Finset.range h.size).card ≤ l.length + h.size := by
    rw [Finset.card_range]
  obtain ⟨set, hset, hnd, hmem⟩ :=
    Graph.mark_roots hw.silent (fun r hr => Finset.mem_range.2 (ht r hr)) hcard
  refine ⟨set, fun fuel hf => ?_, hnd, hmem⟩
  rw [eClosure, closeStack_mark h fuel _ _ (Graph.mark_mono hset hf)]
  rfl

theorem eClosure_spec (hw : h.Within) (o : Order) (k : Nat) (ht : ∀ s ∈ l, s < h.size)
    (hf : l.length + h.size ≤ fuel) :
    ∃ set, eClosure o k fuel h l = .ok (o.keys k set) ∧ set.Nodup ∧
    ∀ s, s ∈ set ↔ s ∈ h.graph.εClosure {s | s ∈ l} := by
  obtain ⟨set, hset, hnd, hmem⟩ := eClosure_reach hw o k ht
  exact ⟨set, hset fuel hf, hnd, fun s => (hmem s).trans Heap.reach_silent⟩

theorem mem_moveSet : t ∈ moveSet h states c ↔ ∃ s ∈ states, t ∈ h.graph.step s (some c) := by
  rw [moveSet, List.mem_dedup, List.mem_flatMap]
  refine exists_congr fun s => and_congr_right fun _ => ?_
  rw [List.mem_map, Heap.mem_step]
  apply exists_congr
  intro e
  rw [List.mem_filter, NfaEdge.label_eq_some, and_assoc, and_comm (b := e.next = t)]
  simp

theorem mem_nfaMove : t ∈ nfaMove o k h states c ↔ ∃ s ∈ states, t ∈ h.graph.step s (some c) :=
  (o.perm k _).mem_iff.trans mem_moveSet

theorem nfaMove_nodup (o : Order) (k : Nat) (h : Heap) (states : List Addr) (c : UInt8) :
    (nfaMove o k h states c).Nodup := (o.perm k _).nodup_iff.2 (List.nodup_dedup _)

theorem closure_nfaMove : h.graph.εClosure {s | s ∈ nfaMove o k h states c} =
    h.graph.stepSet {s | s ∈ states} c := by
  ext t
  rw [εNFA.mem_εClosure_iff_exists, εNFA.mem_stepSet_iff]
  constructor
  · rintro ⟨u, hu, htu⟩
    obtain ⟨s, hs, hsu⟩ := mem_nfaMove.1 hu
    exact ⟨s, hs, h.graph.mem_εClosure_iff_exists.2 ⟨u, hsu, htu⟩⟩
  · rintro ⟨s, hs, hst⟩
    obtain ⟨u, hu, htu⟩ := h.graph.mem_εClosure_iff_exists.1 hst
    exact ⟨u, mem_nfaMove.2 ⟨s, hs, hu⟩, htu⟩

/-! ## Ids -/

/-- The states with these ids. -/
def Heap.number (h : Heap) (num : Addr → Nat) : Heap :=
  { h with state := fun s => { h.state s with id := num s } }

def Heap.succs (h : Heap) (s : Addr) : List Addr := (h.state s).edges.map NfaEdge.next

theorem Heap.set_number (h : Heap) (num : Addr → Nat) (s : Addr) (id : Nat) :
    (h.number num).set s { (h.number num).state s with id } =
      h.number (Function.update num s id) := by
  have hstate (u : Addr) : ((h.number num).set s { (h.number num).state s with id }).state u =
      (h.number (Function.update num s id)).state u := by
    rw [state_set]
    split_ifs with hu
    · simp [number, hu]
    · simp [number, Function.update_of_ne hu]
  rw [Heap.mk.injEq]
  exact ⟨funext hstate, rfl⟩

theorem nfaAllocId_number (h : Heap) (fuel : Nat) (s : Addr) (p q : Nat × (Addr → Nat))
    (hq : Graph.number h.succs fuel s p = some q) :
    nfaAllocId fuel s p.1 (h.number p.2) = .ok (q.1, h.number q.2) := by
  induction fuel generalizing s p q with
  | zero => cases hq
  | succ fuel ih =>
    have hfold (es : List NfaEdge) (p q : Nat × (Addr → Nat))
        (hq : (es.map NfaEdge.next).foldlM (fun p w => Graph.number h.succs fuel w p) p =
          some q) :
        es.foldlM (fun p e => nfaAllocId fuel e.next p.1 p.2) (p.1, h.number p.2) =
          .ok (q.1, h.number q.2) := by
      induction es generalizing p with
      | nil =>
        cases hq
        rfl
      | cons e es ihes =>
        rw [List.map_cons, List.foldlM_cons] at hq
        obtain ⟨r, hr, hq⟩ := Option.bind_eq_some_iff.1 hq
        rw [List.foldlM_cons, ih _ _ _ hr]
        exact ihes r hq
    rw [Graph.number] at hq
    rw [nfaAllocId]
    split_ifs at hq with hid
    · cases hq
      exact if_pos hid
    · apply (if_neg hid).trans
      rw [Heap.set_number]
      exact hfold _ _ _ hq

theorem Heap.Within.succs (hw : h.Within) :
    ∀ v ∈ Finset.range h.size, ∀ w ∈ h.succs v, w ∈ Finset.range h.size := by
  intro v hv w hvw
  obtain ⟨e, he, rfl⟩ := List.mem_map.1 hvw
  exact Finset.mem_range.2 (hw v (Finset.mem_range.1 hv) e he)

/-- `nfaAllocId` ends and changes nothing but ids. If no state that is reached has an id before,
they get the numbers from 1 to the next one, each of them once. -/
theorem nfaAllocId_ids (hw : h.Within) (hs : s < h.size) :
    ∃ k num, (∀ fuel, h.size < fuel → nfaAllocId fuel s 1 h = .ok (k, h.number num)) ∧
      ((∀ t, Graph.Reach h.succs s t → (h.state t).id = 0) →
        Set.BijOn num {t | Graph.Reach h.succs s t} (Set.Ico 1 k)) := by
  have hcard : Graph.unnumbered (Finset.range h.size) (fun s => (h.state s).id) <
      h.size + 1 := by
    refine Nat.lt_succ_of_le (Nat.le_trans (Finset.card_le_card (Finset.filter_subset _ _)) ?_)
    rw [Finset.card_range]
  obtain ⟨⟨k, num⟩, hq, hnum⟩ := Graph.number_spec (p := (1, fun s => (h.state s).id)) hw.succs
    (Finset.mem_range.2 hs) Nat.one_pos hcard
  refine ⟨k, num, fun fuel hf => ?_, fun hid => hnum.bijOn hid Nat.one_pos⟩
  exact nfaAllocId_number h fuel s _ _ (Graph.number_mono hq hf)

theorem nfaAllocId_spec (hw : h.Within) (hs : s < h.size)
    (hid : ∀ t, Graph.Reach h.succs s t → (h.state t).id = 0) (hf : h.size < fuel) :
    ∃ k num, nfaAllocId fuel s 1 h = .ok (k, h.number num) ∧
      (∀ t, Graph.Reach h.succs s t → 1 ≤ num t ∧ num t < k) ∧
      ∀ t u, Graph.Reach h.succs s t → Graph.Reach h.succs s u → num t = num u → t = u := by
  obtain ⟨k, num, halloc, hids⟩ := nfaAllocId_ids hw hs
  obtain ⟨hmaps, hinj, -⟩ := hids hid
  exact ⟨k, num, halloc fuel hf, fun t ht => hmaps ht, fun t u ht hu => hinj ht hu⟩

end Misc.Re0
