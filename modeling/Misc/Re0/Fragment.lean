import Mathlib
import Misc.Lib.Paths
import Misc.Re0.Nfa

namespace Misc.Re0
open Misc.Lib.Paths
set_option autoImplicit true

variable {h h' : Heap} {a b n : NFA} {s t u : Addr} {c : UInt8} {S T : Set Addr}
  {L K : Language UInt8}

namespace Heap

theorem state_set (h : Heap) (s : Addr) (st : NFAState) (u : Addr) :
    (h.set s st).state u = if u = s then st else h.state u := Function.update_apply ..

theorem edges_addE (h : Heap) (s next u : Addr) : ((h.addE s next).state u).edges =
    if u = s then (h.state s).edges ++ [⟨next, true, 0⟩] else (h.state u).edges := by
  rw [addE, state_set, apply_ite NFAState.edges]

theorem edges_addChar (h : Heap) (s : Addr) (c : UInt8) (next u : Addr) :
    ((h.addChar s c next).state u).edges =
      if u = s then (h.state s).edges ++ [⟨next, false, c⟩] else (h.state u).edges := by
  rw [addChar, state_set, apply_ite NFAState.edges]

theorem state_fresh (h : Heap) (u : Addr) :
    h.fresh.2.state u = if u = h.size ∨ u = h.size + 1 then .zero else h.state u := by
  simp only [fresh, Function.update_apply]
  split_ifs <;> simp_all

/-- The state has no number yet and does not accept. -/
def Blank (h : Heap) (s : Addr) : Prop := (h.state s).id = 0 ∧ (h.state s).accept = false

theorem blank_addE (next : Addr) : (h.addE s next).Blank u ↔ h.Blank u := by
  rw [Blank, Blank, addE, state_set]
  split_ifs with hu
  · rw [hu]
  · rfl

theorem blank_fresh : h.fresh.2.Blank u ↔ u = h.size ∨ u = h.size + 1 ∨ h.Blank u := by
  rw [Blank, state_fresh]
  split_ifs with hu
  · exact iff_of_true ⟨rfl, rfl⟩ (or_assoc.1 (.inl hu))
  · rw [← or_assoc, or_iff_right hu, Blank]

theorem mem_step {o : Option UInt8} :
    t ∈ h.graph.step s o ↔ ∃ e ∈ (h.state s).edges, e.next = t ∧ e.label = o := Iff.rfl

theorem step_congr (heq : (h'.state s).edges = (h.state s).edges) (o : Option UInt8) :
    h'.graph.step s o = h.graph.step s o := by
  ext t
  rw [mem_step, mem_step, heq]

theorem step_nil (hs : (h.state s).edges = []) (o : Option UInt8) : h.graph.step s o = ∅ := by
  ext t
  rw [mem_step, hs]
  exact iff_of_false nofun (Set.notMem_empty t)

theorem step_epsilon {l : List Addr} (hs : (h.state s).edges = l.map fun t => ⟨t, true, 0⟩) :
    h.graph.step s none = {t | t ∈ l} ∧ ∀ c, h.graph.step s (some c) = ∅ := by
  constructor
  · ext t
    rw [mem_step, hs, Set.mem_ofPred_eq]
    constructor
    · rintro ⟨e, he, rfl, -⟩
      obtain ⟨t, ht, rfl⟩ := List.mem_map.1 he
      exact ht
    · intro ht
      exact ⟨_, List.mem_map.2 ⟨t, ht, rfl⟩, rfl, rfl⟩
  · intro c
    ext t
    rw [mem_step, hs]
    refine iff_of_false ?_ (Set.notMem_empty t)
    rintro ⟨e, he, -, hl⟩
    obtain ⟨t, -, rfl⟩ := List.mem_map.1 he
    cases hl

end Heap

/-- The states `S` are an automaton from `a.Start` to `a.End` for the language `L`. -/
structure Frag (h : Heap) (a : NFA) (S : Set Addr) (L : Language UInt8) : Prop where
  start : a.Start ∈ S
  fin : a.End ∈ S
  apart : a.Start ≠ a.End
  alloc : ∀ s ∈ S, s < h.size
  blank : ∀ s ∈ S, h.Blank s
  closed : ∀ s ∈ S, ∀ e ∈ (h.state s).edges, e.next ∈ S
  source : ∀ s ∈ S, ∀ e ∈ (h.state s).edges, e.next ≠ a.Start
  sink : (h.state a.End).edges = []
  lang : ∀ w, Reads h.graph a.Start a.End w ↔ w ∈ L
  live : ∀ s ∈ S, ∃ w, Reads h.graph s a.End w
  seen : ∀ s ∈ S, ∃ w, Reads h.graph a.Start s w

namespace Frag

theorem closedSet (h₁ : Frag h a S L) : Closed h.graph S := by
  rintro s hs o t ⟨e, he, rfl, -⟩
  exact h₁.closed s hs e he

/-- What happens to other states does not matter. -/
theorem frame (h₁ : Frag h a S L) (hsize : h.size ≤ h'.size)
    (heq : ∀ s ∈ S, h'.state s = h.state s) : Frag h' a S L := by
  have hstep (s : Addr) (hs : s ∈ S) (o : Option UInt8) : h'.graph.step s o = h.graph.step s o :=
    Heap.step_congr (by rw [heq s hs]) o
  have hreads {s t : Addr} {w : List UInt8} (hs : s ∈ S) :
      Reads h'.graph s t w ↔ Reads h.graph s t w := h₁.closedSet.reads_congr hstep hs
  constructor
  · exact h₁.start
  · exact h₁.fin
  · exact h₁.apart
  · intro s hs
    exact Nat.lt_of_lt_of_le (h₁.alloc s hs) hsize
  · intro s hs
    rw [Heap.Blank, heq s hs]
    exact h₁.blank s hs
  · intro s hs
    rw [heq s hs]
    exact h₁.closed s hs
  · intro s hs
    rw [heq s hs]
    exact h₁.source s hs
  · rw [heq _ h₁.fin]
    exact h₁.sink
  · intro w
    rw [hreads h₁.start]
    exact h₁.lang w
  · intro s hs
    obtain ⟨w, hw⟩ := h₁.live s hs
    exact ⟨w, (hreads hs).2 hw⟩
  · intro s hs
    obtain ⟨w, hw⟩ := h₁.seen s hs
    exact ⟨w, (hreads h₁.start).2 hw⟩

/-- Only the edges of the end have changed. -/
def Grown (h h' : Heap) (a : NFA) (S : Set Addr) : Prop :=
  ∀ s ∈ S, s ≠ a.End → (h'.state s).edges = (h.state s).edges

theorem leave (h₁ : Frag h a S L) (hg : Grown h h' a S) {w : List UInt8}
    (hs : s ∈ S) (ht : t ∉ S) : Reads h'.graph s t w ↔
      ∃ u v, w = u ++ v ∧ Reads h.graph s a.End u ∧ Reads h'.graph a.End t v :=
  h₁.closedSet.reads_leaves (Heap.step_nil h₁.sink) (fun s hs he o =>
    Heap.step_congr (hg s hs he) o) hs ht

theorem lift (h₁ : Frag h a S L) (hg : Grown h h' a S) {w : List UInt8} (hs : s ∈ S)
    (hr : Reads h.graph s t w) : Reads h'.graph s t w := by
  refine h₁.closedSet.reads_lift (fun s hs o => ?_) hs hr
  by_cases he : s = a.End
  · rw [he, Heap.step_nil h₁.sink]
    exact Set.empty_subset _
  · exact (Heap.step_congr (hg s hs he) o).superset

theorem exits (h₁ : Frag h a S L) (hg : Grown h h' a S) {w : List UInt8}
    (hend : (h'.state a.End).edges = [t].map fun t => ⟨t, true, 0⟩)
    (hfin : (h'.state t).edges = [])
    (hs : s ∈ S) (ht : t ∉ S) : Reads h'.graph s t w ↔ Reads h.graph s a.End w := by
  have hlast {v : List UInt8} : Reads h'.graph a.End t v ↔ v = [] := by
    have hne : a.End ≠ t := fun he => ht (he ▸ h₁.fin)
    rw [reads_head (Heap.step_epsilon hend).2 hne, (Heap.step_epsilon hend).1]
    constructor
    · rintro ⟨u, hu, hr⟩
      cases List.mem_singleton.1 hu
      exact ((reads_sink (Heap.step_nil hfin)).1 hr).2
    · rintro rfl
      exact ⟨t, List.mem_singleton_self t, .refl _ t⟩
  rw [h₁.leave hg hs ht]
  constructor
  · rintro ⟨u, v, rfl, hu, hv⟩
    rw [hlast.1 hv, List.append_nil]
    exact hu
  · intro hr
    exact ⟨w, [], (List.append_nil w).symm, hr, hlast.2 rfl⟩

theorem single {e : NfaEdge} (hne : n.Start ≠ n.End) (hstart : (h.state n.Start).edges = [e])
    (hnext : e.next = n.End) (hfin : (h.state n.End).edges = []) (hs : n.Start < h.size)
    (ht : n.End < h.size) (hbs : h.Blank n.Start) (hbt : h.Blank n.End)
    (hL : ∀ w, w ∈ L ↔ w = e.label.toList) : Frag h n {n.Start, n.End} L := by
  have hstep : n.End ∈ h.graph.step n.Start e.label :=
    ⟨e, hstart ▸ List.mem_singleton_self e, hnext, rfl⟩
  have hread : Reads h.graph n.Start n.End e.label.toList := by
    cases hl : e.label with
    | none => exact (Reads.refl _ _).head (hl ▸ hstep)
    | some c => exact (Reads.refl _ _).head_some (hl ▸ hstep)
  constructor
  · exact .inl rfl
  · exact .inr rfl
  · exact hne
  · rintro s (rfl | rfl)
    · exact hs
    · exact ht
  · rintro s (rfl | rfl)
    · exact hbs
    · exact hbt
  · rintro s (rfl | rfl) e' he
    · rw [hstart, List.mem_singleton] at he
      rw [he, hnext]
      exact .inr rfl
    · rw [hfin] at he
      cases he
  · rintro s (rfl | rfl) e' he
    · rw [hstart, List.mem_singleton] at he
      rw [he, hnext]
      exact hne.symm
    · rw [hfin] at he
      cases he
  · exact hfin
  · intro w
    rw [hL w]
    constructor
    · rintro ⟨x, rfl, hx⟩
      cases x with
      | nil => exact absurd ((εNFA.isPath_nil _).1 hx) hne
      | cons o x =>
        obtain ⟨u, ⟨e', he, rfl, rfl⟩, hrest⟩ := isPath_cons.1 hx
        rw [hstart, List.mem_singleton] at he
        subst he
        rw [hnext, isPath_sink (Heap.step_nil hfin)] at hrest
        rw [hrest.2]
        cases hl : e'.label with
        | none => rfl
        | some c => rfl
    · rintro rfl
      exact hread
  · rintro s (rfl | rfl)
    · exact ⟨_, hread⟩
    · exact ⟨_, .refl _ _⟩
  · rintro s (rfl | rfl)
    · exact ⟨_, .refl _ _⟩
    · exact ⟨_, hread⟩

theorem cat (ha : Frag h a S L) (hb : Frag h b T K) (hd : Disjoint S T) :
    Frag (nfaCat a b h).2 (nfaCat a b h).1 (S ∪ T \ {b.Start}) (L * K) := by
  obtain ⟨h', hh'⟩ : ∃ h', h' = h.set a.End (h.state b.Start) := ⟨_, rfl⟩
  have hself : h'.state a.End = h.state b.Start := by
    rw [hh', Heap.state_set, if_pos rfl]
  have hother (s : Addr) (hs : s ≠ a.End) : h'.state s = h.state s := by
    rw [hh', Heap.state_set, if_neg hs]
  have hleft {s : Addr} (hs : s ∈ S) : s ∉ T := Set.disjoint_left.1 hd hs
  have hT {s : Addr} (hs : s ∈ T) : s ≠ a.End := fun he => hleft ha.fin (he ▸ hs)
  have hclosed : Closed h.graph (T \ {b.Start}) := by
    rintro s hs o t ⟨e, he, rfl, -⟩
    exact ⟨hb.closed s hs.1 e he, hb.source s hs.1 e he⟩
  have hright {s t : Addr} {w : List UInt8} (hs : s ∈ T \ {b.Start}) :
      Reads h'.graph s t w ↔ Reads h.graph s t w :=
    hclosed.reads_congr (fun s hs o => Heap.step_congr (by rw [hother s (hT hs.1)]) o) hs
  have hcopy {t : Addr} {w : List UInt8} (ht : t ∈ T \ {b.Start}) :
      Reads h'.graph a.End t w ↔ Reads h.graph b.Start t w := by
    refine reads_copy (fun o => ?_) (hT ht.1).symm (fun he => ht.2 he.symm) ?_
    · ext u
      rw [Heap.mem_step, Heap.mem_step, hself]
    · rintro o u ⟨e, he, rfl, -⟩ w
      exact hright ⟨hb.closed _ hb.start e he, hb.source _ hb.start e he⟩
  have hg : Grown h h' a S := fun s _ hs => by rw [hother s hs]
  have hend : b.End ∈ T \ {b.Start} := ⟨hb.fin, fun he => hb.apart he.symm⟩
  have houter : b.End ∉ S := fun hs => hleft hs hb.fin
  obtain ⟨v, hv⟩ := hb.live _ hb.start
  have hv := (hcopy hend).2 hv
  rw [nfaCat, ← hh']
  constructor
  · exact .inl ha.start
  · exact .inr hend
  · intro he
    exact hleft ha.start (he ▸ hb.fin)
  · rw [hh']
    rintro s (hs | hs)
    · exact ha.alloc s hs
    · exact hb.alloc s hs.1
  · rintro s (hs | hs)
    · by_cases he : s = a.End
      · rw [Heap.Blank, he, hself]
        exact hb.blank _ hb.start
      · rw [Heap.Blank, hother s he]
        exact ha.blank s hs
    · rw [Heap.Blank, hother s (hT hs.1)]
      exact hb.blank s hs.1
  · rintro s (hs | hs) e he
    · by_cases hse : s = a.End
      · rw [hse, hself] at he
        exact .inr ⟨hb.closed _ hb.start e he, hb.source _ hb.start e he⟩
      · rw [hother s hse] at he
        exact .inl (ha.closed s hs e he)
    · rw [hother s (hT hs.1)] at he
      exact .inr ⟨hb.closed s hs.1 e he, hb.source s hs.1 e he⟩
  · rintro s (hs | hs) e he
    · by_cases hse : s = a.End
      · rw [hse, hself] at he
        intro hn
        exact hleft ha.start (hn ▸ hb.closed _ hb.start e he)
      · rw [hother s hse] at he
        exact ha.source s hs e he
    · rw [hother s (hT hs.1)] at he
      intro hn
      exact hleft ha.start (hn ▸ hb.closed s hs.1 e he)
  · rw [hother _ (hT hb.fin)]
    exact hb.sink
  · intro w
    rw [ha.leave hg ha.start houter, Language.mem_mul]
    constructor
    · rintro ⟨u, v, rfl, hu, hv⟩
      exact ⟨u, (ha.lang u).1 hu, v, (hb.lang v).1 ((hcopy hend).1 hv), rfl⟩
    · rintro ⟨u, hu, v, hv, rfl⟩
      exact ⟨u, v, rfl, (ha.lang u).2 hu, (hcopy hend).2 ((hb.lang v).2 hv)⟩
  · rintro s (hs | hs)
    · obtain ⟨u, hu⟩ := ha.live s hs
      exact ⟨u ++ v, (ha.leave hg hs houter).2 ⟨u, v, rfl, hu, hv⟩⟩
    · obtain ⟨w, hw⟩ := hb.live s hs.1
      exact ⟨w, (hright hs).2 hw⟩
  · rintro s (hs | hs)
    · obtain ⟨w, hw⟩ := ha.seen s hs
      exact ⟨w, ha.lift hg ha.start hw⟩
    · obtain ⟨u, hu⟩ := ha.seen _ ha.fin
      obtain ⟨w, hw⟩ := hb.seen s hs.1
      exact ⟨u ++ w, (ha.lift hg ha.start hu).trans ((hcopy hs).2 hw)⟩

theorem edge (h : Heap) {e : NfaEdge} (hnext : e.next = h.size + 1)
    (hL : ∀ w, w ∈ L ↔ w = e.label.toList) :
    Frag (h.fresh.2.set h.size ⟨[e], 0, false⟩) ⟨h.size, h.size + 1⟩ {h.size, h.size + 1} L := by
  have hne : h.size ≠ h.size + 1 := (Nat.succ_ne_self h.size).symm
  have hstart : (h.fresh.2.set h.size ⟨[e], 0, false⟩).state h.size = ⟨[e], 0, false⟩ := by
    rw [Heap.state_set, if_pos rfl]
  have hend : (h.fresh.2.set h.size ⟨[e], 0, false⟩).state (h.size + 1) = .zero := by
    rw [Heap.state_set, if_neg hne.symm, Heap.state_fresh, if_pos (.inr rfl)]
  refine single hne (by rw [hstart]) hnext (by rw [hend]; rfl) ?_ ?_ ?_ ?_ hL
  · exact Nat.lt_add_of_pos_right (Nat.zero_lt_succ 1)
  · exact Nat.lt_succ_self (h.size + 1)
  · rw [Heap.Blank, hstart]
    exact ⟨rfl, rfl⟩
  · rw [Heap.Blank, hend]
    exact ⟨rfl, rfl⟩

theorem fresh_state (h : Heap) : h.fresh.2.state h.size = .zero := by
  rw [Heap.state_fresh, if_pos (.inl rfl)]

theorem e (h : Heap) : Frag (nfaE h).2 (nfaE h).1 {h.size, h.size + 1} 1 := by
  have hnew : (nfaE h).2 = h.fresh.2.set h.size ⟨[⟨h.size + 1, true, 0⟩], 0, false⟩ := by
    change h.fresh.2.addE h.size (h.size + 1) = _
    rw [Heap.addE, fresh_state]
    rfl
  rw [hnew]
  exact edge h rfl Language.mem_one

theorem char (c : UInt8) (h : Heap) : Frag (nfaChar c h).2 (nfaChar c h).1
    {h.size, h.size + 1} {[c]} := by
  have hnew : (nfaChar c h).2 = h.fresh.2.set h.size ⟨[⟨h.size + 1, false, c⟩], 0, false⟩ := by
    change h.fresh.2.addChar h.size c (h.size + 1) = _
    rw [Heap.addChar, fresh_state]
    rfl
  rw [hnew]
  exact edge h rfl fun w => Iff.rfl

theorem or_edges (ha : Frag h a S L) (hb : Frag h b T K) (hd : Disjoint S T) (s : Addr) :
    ((nfaOr a b h).2.state s).edges =
      if s = h.size then [a.Start, b.Start].map fun t => ⟨t, true, 0⟩
      else if s = h.size + 1 then []
      else if s = a.End ∨ s = b.End then [h.size + 1].map fun t => ⟨t, true, 0⟩
      else (h.state s).edges := by
  have hne : a.End ≠ b.End := fun he => Set.disjoint_left.1 hd ha.fin (he ▸ hb.fin)
  have ha₀ : a.End ≠ h.size := Nat.ne_of_lt (ha.alloc _ ha.fin)
  have ha₁ : a.End ≠ h.size + 1 := Nat.ne_of_lt (Nat.lt_succ_of_lt (ha.alloc _ ha.fin))
  have hb₀ : b.End ≠ h.size := Nat.ne_of_lt (hb.alloc _ hb.fin)
  have hb₁ : b.End ≠ h.size + 1 := Nat.ne_of_lt (Nat.lt_succ_of_lt (hb.alloc _ hb.fin))
  change (((((h.fresh.2.addE h.size a.Start).addE a.End (h.size + 1)).addE h.size b.Start).addE
    b.End (h.size + 1)).state s).edges = _
  by_cases hs₀ : s = h.size
  · subst hs₀
    simp only [Heap.edges_addE, Heap.state_fresh, hb₀.symm, ha₀.symm, if_true, if_false, true_or]
    rfl
  · by_cases hs₁ : s = h.size + 1
    · subst hs₁
      simp only [Heap.edges_addE, Heap.state_fresh, hb₁.symm, ha₁.symm, hs₀,
        if_true, if_false, or_true]
      rfl
    · by_cases hsa : s = a.End
      · subst hsa
        simp only [Heap.edges_addE, Heap.state_fresh, hne, ha₀, ha₁, if_true,
          if_false, or_self, true_or, ha.sink]
        rfl
      · by_cases hsb : s = b.End
        · subst hsb
          simp only [Heap.edges_addE, Heap.state_fresh, hne.symm, hb₀, hb₁,
            if_true, if_false, or_self, or_true, hb.sink]
          rfl
        · simp only [Heap.edges_addE, Heap.state_fresh, hs₀, hs₁, hsa, hsb, if_false, or_self]

theorem star_edges (ha : Frag h a S L) (s : Addr) : ((nfaStar a h).2.state s).edges =
    if s = h.size then [a.Start, h.size + 1].map fun t => ⟨t, true, 0⟩
    else if s = h.size + 1 then []
    else if s = a.End then [h.size + 1, a.Start].map fun t => ⟨t, true, 0⟩
    else (h.state s).edges := by
  have ha₀ : a.End ≠ h.size := Nat.ne_of_lt (ha.alloc _ ha.fin)
  have ha₁ : a.End ≠ h.size + 1 := Nat.ne_of_lt (Nat.lt_succ_of_lt (ha.alloc _ ha.fin))
  change (((((h.fresh.2.addE h.size a.Start).addE h.size (h.size + 1)).addE
    a.End (h.size + 1)).addE a.End a.Start).state s).edges = _
  by_cases hs₀ : s = h.size
  · subst hs₀
    simp only [Heap.edges_addE, Heap.state_fresh, ha₀.symm, if_true, if_false, true_or]
    rfl
  · by_cases hs₁ : s = h.size + 1
    · subst hs₁
      simp only [Heap.edges_addE, Heap.state_fresh, ha₁.symm, hs₀, if_true, if_false, or_true]
      rfl
    · by_cases hsa : s = a.End
      · subst hsa
        simp only [Heap.edges_addE, Heap.state_fresh, ha₀, ha₁, if_true,
          if_false, or_self, ha.sink]
        rfl
      · simp only [Heap.edges_addE, Heap.state_fresh, hs₀, hs₁, hsa, if_false, or_self]

theorem wrap (hsize : h'.size = h.size + 2) (hS : ∀ s ∈ S, s < h.size)
    (hblank : ∀ s, s = h.size ∨ s = h.size + 1 ∨ s ∈ S → h'.Blank s)
    (hfin : (h'.state (h.size + 1)).edges = [])
    (hedge : ∀ s ∈ {h.size, h.size + 1} ∪ S, ∀ e ∈ (h'.state s).edges,
      e.next = h.size + 1 ∨ e.next ∈ S)
    (hlang : ∀ w, Reads h'.graph h.size (h.size + 1) w ↔ w ∈ L) (hword : ∃ w, w ∈ L)
    (hlive : ∀ s ∈ S, ∃ w, Reads h'.graph s (h.size + 1) w)
    (hseen : ∀ s ∈ S, ∃ w, Reads h'.graph h.size s w) :
    Frag h' ⟨h.size, h.size + 1⟩ ({h.size, h.size + 1} ∪ S) L := by
  have hne : h.size + 1 ≠ h.size := Nat.succ_ne_self h.size
  obtain ⟨w, hw⟩ := hword
  constructor
  · exact .inl (.inl rfl)
  · exact .inl (.inr rfl)
  · exact hne.symm
  · rw [hsize]
    rintro s ((rfl | rfl) | hs)
    · exact Nat.lt_add_of_pos_right (Nat.zero_lt_succ 1)
    · exact Nat.lt_succ_self (h.size + 1)
    · exact Nat.lt_add_right 2 (hS s hs)
  · rintro s ((rfl | rfl) | hs)
    · exact hblank _ (.inl rfl)
    · exact hblank _ (.inr (.inl rfl))
    · exact hblank s (.inr (.inr hs))
  · intro s hs e he
    rcases hedge s hs e he with hn | hn
    · exact .inl (.inr hn)
    · exact .inr hn
  · intro s hs e he
    rcases hedge s hs e he with hn | hn
    · rw [hn]
      exact hne
    · exact Nat.ne_of_lt (hS _ hn)
  · exact hfin
  · exact hlang
  · rintro s ((rfl | rfl) | hs)
    · exact ⟨w, (hlang w).2 hw⟩
    · exact ⟨[], .refl _ _⟩
    · exact hlive s hs
  · rintro s ((rfl | rfl) | hs)
    · exact ⟨[], .refl _ _⟩
    · exact ⟨w, (hlang w).2 hw⟩
    · exact hseen s hs

theorem or (ha : Frag h a S L) (hb : Frag h b T K) (hd : Disjoint S T) :
    Frag (nfaOr a b h).2 (nfaOr a b h).1 ({h.size, h.size + 1} ∪ (S ∪ T)) (L + K) := by
  have hedges := or_edges ha hb hd
  have hn : (nfaOr a b h).1 = ⟨h.size, h.size + 1⟩ := rfl
  have hsize : (nfaOr a b h).2.size = h.size + 2 := rfl
  have hblank {s : Addr} (hs : s = h.size ∨ s = h.size + 1 ∨ h.Blank s) :
      (nfaOr a b h).2.Blank s :=
    (Heap.blank_addE _).2 ((Heap.blank_addE _).2 ((Heap.blank_addE _).2 ((Heap.blank_addE _).2
      (Heap.blank_fresh.2 hs))))
  generalize nfaOr a b h = o at hedges hn hsize hblank ⊢
  obtain ⟨n, h'⟩ := o
  dsimp only at hedges hn hsize hblank ⊢
  subst hn
  have hne₁ : h.size + 1 ≠ h.size := Nat.succ_ne_self h.size
  have hnew {s : Addr} (hs : s < h.size) : s ≠ h.size ∧ s ≠ h.size + 1 :=
    ⟨Nat.ne_of_lt hs, Nat.ne_of_lt (Nat.lt_succ_of_lt hs)⟩
  have hsub {s : Addr} (hs : s ∈ S ∪ T) : s < h.size := hs.elim (ha.alloc s) (hb.alloc s)
  have hstart : (h'.state h.size).edges = [a.Start, b.Start].map fun t => ⟨t, true, 0⟩ := by
    rw [hedges, if_pos rfl]
  have hfin : (h'.state (h.size + 1)).edges = [] := by
    rw [hedges, if_neg hne₁, if_pos rfl]
  have hend {s : Addr} (hs : s ∈ S ∪ T) (he : s = a.End ∨ s = b.End) :
      (h'.state s).edges = [h.size + 1].map fun t => ⟨t, true, 0⟩ := by
    rw [hedges, if_neg (hnew (hsub hs)).1, if_neg (hnew (hsub hs)).2, if_pos he]
  have hold {s : Addr} (hs : s ∈ S ∪ T) (hsa : s ≠ a.End) (hsb : s ≠ b.End) :
      (h'.state s).edges = (h.state s).edges := by
    rw [hedges, if_neg (hnew (hsub hs)).1, if_neg (hnew (hsub hs)).2,
      if_neg (not_or_intro hsa hsb)]
  have hleft {s : Addr} (hs : s ∈ S) : s ∉ T := Set.disjoint_left.1 hd hs
  have hga : Grown h h' a S := fun s hs he => hold (.inl hs) he fun hb' =>
    hleft hs (hb' ▸ hb.fin)
  have hgb : Grown h h' b T := fun s hs he =>
    hold (.inr hs) (fun ha' => hleft ha.fin (ha' ▸ hs)) he
  have hexa {s : Addr} {w : List UInt8} (hs : s ∈ S) :
      Reads h'.graph s (h.size + 1) w ↔ Reads h.graph s a.End w :=
    ha.exits hga (hend (.inl ha.fin) (.inl rfl)) hfin hs fun hn => (hnew (ha.alloc _ hn)).2 rfl
  have hexb {s : Addr} {w : List UInt8} (hs : s ∈ T) :
      Reads h'.graph s (h.size + 1) w ↔ Reads h.graph s b.End w :=
    hb.exits hgb (hend (.inr hb.fin) (.inr rfl)) hfin hs fun hn => (hnew (hb.alloc _ hn)).2 rfl
  have hhead {t : Addr} {w : List UInt8} (ht : h.size ≠ t) : Reads h'.graph h.size t w ↔
      Reads h'.graph a.Start t w ∨ Reads h'.graph b.Start t w := by
    rw [reads_head (Heap.step_epsilon hstart).2 ht, (Heap.step_epsilon hstart).1]
    simp
  refine wrap hsize (fun s hs => hsub hs) (fun s hs => hblank ?_) hfin ?_ ?_ ?_ ?_ ?_
  · exact hs.imp_right (Or.imp_right fun hs => hs.elim (ha.blank s) (hb.blank s))
  · rintro s ((rfl | rfl) | hs) e he
    · rw [hstart] at he
      obtain ⟨t, ht, rfl⟩ := List.mem_map.1 he
      rcases List.mem_pair.1 ht with rfl | rfl
      · exact .inr (.inl ha.start)
      · exact .inr (.inr hb.start)
    · rw [hfin] at he
      cases he
    · by_cases hse : s = a.End ∨ s = b.End
      · rw [hend hs hse] at he
        cases List.mem_singleton.1 he
        exact .inl rfl
      · rw [not_or] at hse
        rw [hold hs hse.1 hse.2] at he
        exact .inr (hs.imp (fun hs => ha.closed s hs e he) fun hs => hb.closed s hs e he)
  · intro w
    rw [hhead hne₁.symm, hexa ha.start, hexb hb.start, ha.lang, hb.lang, Language.mem_add]
  · obtain ⟨w, hw⟩ := ha.live _ ha.start
    exact ⟨w, .inl ((ha.lang w).1 hw)⟩
  · rintro s (hs | hs)
    · obtain ⟨w, hw⟩ := ha.live s hs
      exact ⟨w, (hexa hs).2 hw⟩
    · obtain ⟨w, hw⟩ := hb.live s hs
      exact ⟨w, (hexb hs).2 hw⟩
  · rintro s (hs | hs)
    · obtain ⟨w, hw⟩ := ha.seen s hs
      exact ⟨w, (hhead (hnew (ha.alloc s hs)).1.symm).2 (.inl (ha.lift hga ha.start hw))⟩
    · obtain ⟨w, hw⟩ := hb.seen s hs
      exact ⟨w, (hhead (hnew (hb.alloc s hs)).1.symm).2 (.inr (hb.lift hgb hb.start hw))⟩

theorem star (ha : Frag h a S L) :
    Frag (nfaStar a h).2 (nfaStar a h).1 ({h.size, h.size + 1} ∪ S) (KStar.kstar L) := by
  have hedges := star_edges ha
  have hn : (nfaStar a h).1 = ⟨h.size, h.size + 1⟩ := rfl
  have hsize : (nfaStar a h).2.size = h.size + 2 := rfl
  have hblank {s : Addr} (hs : s = h.size ∨ s = h.size + 1 ∨ h.Blank s) :
      (nfaStar a h).2.Blank s :=
    (Heap.blank_addE _).2 ((Heap.blank_addE _).2 ((Heap.blank_addE _).2 ((Heap.blank_addE _).2
      (Heap.blank_fresh.2 hs))))
  generalize nfaStar a h = o at hedges hn hsize hblank ⊢
  obtain ⟨n, h'⟩ := o
  dsimp only at hedges hn hsize hblank ⊢
  subst hn
  have hne₁ : h.size + 1 ≠ h.size := Nat.succ_ne_self h.size
  have hnew {s : Addr} (hs : s < h.size) : s ≠ h.size ∧ s ≠ h.size + 1 :=
    ⟨Nat.ne_of_lt hs, Nat.ne_of_lt (Nat.lt_succ_of_lt hs)⟩
  have hstart : (h'.state h.size).edges = [a.Start, h.size + 1].map fun t => ⟨t, true, 0⟩ := by
    rw [hedges, if_pos rfl]
  have hfin : (h'.state (h.size + 1)).edges = [] := by
    rw [hedges, if_neg hne₁, if_pos rfl]
  have hend : (h'.state a.End).edges = [h.size + 1, a.Start].map fun t => ⟨t, true, 0⟩ := by
    rw [hedges, if_neg (hnew (ha.alloc _ ha.fin)).1,
      if_neg (hnew (ha.alloc _ ha.fin)).2, if_pos rfl]
  have hga : Grown h h' a S := by
    intro s hs hse
    rw [hedges, if_neg (hnew (ha.alloc s hs)).1, if_neg (hnew (ha.alloc s hs)).2, if_neg hse]
  have houter : h.size + 1 ∉ S := fun hs => (hnew (ha.alloc _ hs)).2 rfl
  have hhead {t : Addr} {w : List UInt8} (ht : h.size ≠ t) : Reads h'.graph h.size t w ↔
      Reads h'.graph a.Start t w ∨ Reads h'.graph (h.size + 1) t w := by
    rw [reads_head (Heap.step_epsilon hstart).2 ht, (Heap.step_epsilon hstart).1]
    simp
  have hback : h'.graph.step a.End none = {h.size + 1, a.Start} := by
    rw [(Heap.step_epsilon hend).1]
    ext t
    exact List.mem_pair
  have hloop {s : Addr} {w : List UInt8} (hs : s ∈ S) : Reads h'.graph s (h.size + 1) w ↔
      ∃ u v, w = u ++ v ∧ Reads h.graph s a.End u ∧ v ∈ KStar.kstar L :=
    ha.closedSet.reads_loop (Heap.step_nil ha.sink) (fun s hs he o =>
      Heap.step_congr (hga s hs he) o)
      ha.start hback (Heap.step_epsilon hend).2 houter (Heap.step_nil hfin) ha.lang hs
  refine wrap hsize ha.alloc (fun s hs => hblank ?_) hfin ?_ ?_ ?_ ?_ ?_
  · exact hs.imp_right (Or.imp_right (ha.blank s))
  · rintro s ((rfl | rfl) | hs) e he
    · rw [hstart] at he
      obtain ⟨t, ht, rfl⟩ := List.mem_map.1 he
      rcases List.mem_pair.1 ht with rfl | rfl
      · exact .inr ha.start
      · exact .inl rfl
    · rw [hfin] at he
      cases he
    · by_cases hse : s = a.End
      · rw [hse, hend] at he
        obtain ⟨t, ht, rfl⟩ := List.mem_map.1 he
        rcases List.mem_pair.1 ht with rfl | rfl
        · exact .inl rfl
        · exact .inr ha.start
      · rw [hga s hs hse] at he
        exact .inr (ha.closed s hs e he)
  · intro w
    rw [hhead hne₁.symm, hloop ha.start, reads_sink (Heap.step_nil hfin),
      and_iff_right rfl, or_comm, mem_kstar_iff]
    apply or_congr_right
    constructor
    · rintro ⟨u, v, rfl, hu, hv⟩
      exact ⟨u, (ha.lang u).1 hu, v, hv, rfl⟩
    · rintro ⟨u, hu, v, hv, rfl⟩
      exact ⟨u, v, rfl, (ha.lang u).2 hu, hv⟩
  · exact ⟨[], Language.nil_mem_kstar L⟩
  · intro s hs
    obtain ⟨w, hw⟩ := ha.live s hs
    exact ⟨w ++ [], (hloop hs).2 ⟨w, [], rfl, hw, Language.nil_mem_kstar L⟩⟩
  · intro s hs
    obtain ⟨w, hw⟩ := ha.seen s hs
    exact ⟨w, (hhead (hnew (ha.alloc s hs)).1.symm).2 (.inl (ha.lift hga ha.start hw))⟩

end Frag

end Misc.Re0
