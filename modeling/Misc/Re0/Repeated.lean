import Mathlib.Data.Finset.Powerset
import Misc.Re0.Agreement

namespace Misc.Re0
open Misc.Lib
set_option autoImplicit true

variable {h : Heap} {n : NFA} {o : Order} {s : Subsets} {u v : DfaState}
  {todo : List (Nat × Nat)}
  {A : Finset Addr}

def NFA.reached (n : NFA) (h : Heap) : Set Addr := {s | Graph.Reach h.succs n.Start s}

/-- Every closure of the automaton comes arranged. -/
def Order.Arranges (o : Order) (h : Heap) (n : NFA) : Prop :=
  ∀ k w l, l.Nodup → (∀ s, s ∈ l ↔ s ∈ h.graph.evalFrom {n.Start} w) → Arranged h (o.keys k l)

theorem DfaState.Made.ascending (hu : u.Made o h n) (hd : Distinct h (n.reached h))
    (ho : o.Arranges h n) : Ascending h u.states := by
  obtain ⟨k, w, l, hl, hmem, hstates, -⟩ := hu
  have hpair := hd.pairwise ((o.perm k l).nodup_iff.2 hl) fun x hx =>
    reach_of_evalFrom ((hmem x).1 ((o.perm k l).mem_iff.1 hx))
  rw [hstates, nfaDstate_ascending_iff hpair]
  exact ho k w l hl hmem

theorem DfaState.Made.reach (hu : u.Made o h n) {x : Addr} (hx : x ∈ u.states) :
    x ∈ n.reached h := by
  obtain ⟨w, hw⟩ := hu.mem
  exact reach_of_evalFrom ((hw x).1 hx)

/-- No two DFA states have the same states, if all have them in the order of their ids. -/
theorem Subsets.Inv.pairwise (hi : s.Inv o h n todo)
    (ho : ∀ u ∈ s.dstates, Ascending h u.states) :
    s.dstates.Pairwise fun u v => u.states.toFinset ≠ v.states.toFinset := by
  refine List.Pairwise.imp_of_mem (fun hu hv hne heq => hne ?_) (List.pairwise_map.1 hi.distinct)
  apply (ho _ hu).eq_of_perm (ho _ hv)
  apply (List.perm_ext_iff_of_nodup (hi.made _ hu).nodup (hi.made _ hv).nodup).2
  intro x
  rw [← List.mem_toFinset, heq, List.mem_toFinset]

theorem Subsets.Inv.card_le (hi : s.Inv o h n todo) (ho : ∀ u ∈ s.dstates, Ascending h u.states)
    (hA : n.reached h ⊆ A) : s.dstates.length ≤ 2 ^ A.card := by
  have hnodup : (s.dstates.map fun u => u.states.toFinset).Nodup :=
    List.pairwise_map.2 (hi.pairwise ho)
  rw [← Finset.card_powerset, ← List.length_map fun u => u.states.toFinset,
    ← List.toFinset_card_of_nodup hnodup]
  apply Finset.card_le_card
  intro S hS
  obtain ⟨u, hu, rfl⟩ := List.mem_map.1 (List.mem_toFinset.1 hS)
  apply Finset.mem_powerset.2
  intro x hx
  exact hA ((hi.made u hu).reach (List.mem_toFinset.1 hx))

/-- `nfaDstate` puts states in the order of their ids exactly if they come arranged. In a run
all of whose closures come so, the DFA states have distinct sets of states, and so there are at
most `2 ^ k` of them. -/
theorem nfaDstate_distinct (hw : h.Within) (hn : n.Start < h.size)
    (hd : Distinct h (n.reached h)) :
    (∀ ec : List Addr, ec.Nodup → (∀ s ∈ ec, s ∈ n.reached h) →
      (Ascending h (nfaDstate h ec).states ↔ Arranged h ec)) ∧
    ∃ N, ∀ o fuel, N ≤ fuel → o.Arranges h n →
      (∃ s, subsets o fuel h n = .ok s ∧ (∀ u ∈ s.dstates, Ascending h u.states) ∧
        (s.dstates.Pairwise fun u v => u.states.toFinset ≠ v.states.toFinset) ∧
        ∀ A : Finset Addr, n.reached h ⊆ A → s.dstates.length ≤ 2 ^ A.card) ∨
      subsets o fuel h n = .error .panic ∧
        ∃ s ∈ n.reached h, ∃ e ∈ (h.state s).edges, e.epsilion = false ∧ 128 ≤ e.ch.toNat := by
  constructor
  · intro ec hec hmem
    exact nfaDstate_ascending_iff (hd.pairwise hec hmem)
  · obtain ⟨N, hN⟩ := subsets_spec h.size
    refine ⟨N, fun o fuel hf ho => ?_⟩
    rcases hN h n o fuel rfl hw hn hf with ⟨s, hs, hi, -⟩ | ⟨hpanic, u, hu, hwide⟩
    · have hasc (u : DfaState) (hu : u ∈ s.dstates) := (hi.made u hu).ascending hd ho
      exact .inl ⟨s, hs, hasc, hi.pairwise hasc, fun A hA => hi.card_le hasc hA⟩
    · refine .inr ⟨hpanic, ?_⟩
      rw [DfaState.Narrow] at hwide
      push Not at hwide
      obtain ⟨s, hs, e, he, heps, hch⟩ := hwide
      exact ⟨s, hu.reach hs, e, he, heps, hch⟩

/-- Three states, which come with the greatest ids behind the least one. -/
theorem nfaDstate_distinct_three :
    let h : Heap := ⟨fun | 0 => ⟨[⟨0, false, ch 'a'⟩, ⟨1, true, 0⟩, ⟨2, true, 0⟩], 1, false⟩
                         | 1 => ⟨[], 2, false⟩ | 2 => ⟨[], 3, false⟩ | _ => .zero, 3⟩
    Ascending h (nfaDstate h [0, 2, 1]).states ∧ ∃ N, ∀ o fuel, N ≤ fuel → o.Arranges h ⟨0, 0⟩ →
      (∃ s, subsets o fuel h ⟨0, 0⟩ = .ok s ∧ s.dstates.length ≤ 2 ^ 3) ∨
        subsets o fuel h ⟨0, 0⟩ = .error .panic := by
  intro h
  have hw : h.Within := by
    intro s hs e he
    match s, hs with
    | 0, _ =>
      simp only [h, List.mem_cons, List.not_mem_nil, or_false] at he
      obtain rfl | rfl | rfl := he <;> decide
    | 1, _ => cases he
    | 2, _ => cases he
  have hreach : (⟨0, 0⟩ : NFA).reached h ⊆ Finset.range 3 := by
    intro s hs
    induction hs with
    | refl => decide
    | tail _ hst ih =>
      obtain ⟨e, he, rfl⟩ := List.mem_map.1 hst
      exact Finset.mem_coe.2 (Finset.mem_range.2 (hw _ (Finset.mem_range.1 ih) e he))
  have hd : Distinct h ((⟨0, 0⟩ : NFA).reached h) := by
    intro s hs t ht
    match s, t, Finset.mem_range.1 (hreach hs), Finset.mem_range.1 (hreach ht) with
    | 0, 0, _, _ | 1, 1, _, _ | 2, 2, _, _ => exact fun _ => rfl
    | 0, 1, _, _ | 0, 2, _, _ | 1, 0, _, _ | 1, 2, _, _ | 2, 0, _, _ | 2, 1, _, _ => exact nofun
  obtain ⟨hasc, N, hN⟩ := nfaDstate_distinct (n := ⟨0, 0⟩) hw (Nat.succ_pos 2) hd
  constructor
  · refine (hasc [0, 2, 1] (by decide) ?_).2 ⟨List.pairwise_singleton .., by decide⟩
    have hone (s : Addr) (hs : s ∈ h.succs 0) : s ∈ (⟨0, 0⟩ : NFA).reached h := .single hs
    exact List.forall_mem_cons.2 ⟨.refl, List.forall_mem_cons.2 ⟨hone 2 (by decide),
      List.forall_mem_singleton.2 (hone 1 (by decide))⟩⟩
  · refine ⟨N, fun o fuel hf ho => (hN o fuel hf ho).imp ?_ And.left⟩
    rintro ⟨s, hs, -, -, hlen⟩
    exact ⟨s, hs, hlen (Finset.range 3) hreach⟩

/-- An automaton that has only one set of states gets two DFA states, when its second closure
comes with falling ids. -/
theorem not_nfaDstate_distinct :
    let h : Heap := ⟨fun | 0 => ⟨[⟨0, false, ch 'a'⟩, ⟨1, true, 0⟩, ⟨2, true, 0⟩], 1, false⟩
                         | 1 => ⟨[], 2, false⟩ | 2 => ⟨[], 3, false⟩ | _ => .zero, 3⟩
    let o : Order := ⟨fun k l => if k = 0 then l else l.reverse, fun k l => by
      split_ifs
      · exact .refl l
      · exact l.reverse_perm⟩
    (nfaDstate h [2, 1, 0]).states = [0, 2, 1] ∧
      (subsets o 9 h ⟨0, 0⟩).map (fun s => s.dstates.map DfaState.states) =
        .ok [[0, 1, 2], [0, 2, 1]] :=
  ⟨rfl, rfl⟩

end Misc.Re0
