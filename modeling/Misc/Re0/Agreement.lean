import Misc.Re0.Ordering

namespace Misc.Re0
open Misc.Lib
set_option autoImplicit true

variable {h : Heap} {n : NFA} {o : Order} {s : Subsets} {u v : DfaState} {i j fuel : Nat}
  {t w w' : List UInt8} {x : Addr}

theorem reach_of_evalFrom (hx : x ∈ h.graph.evalFrom {n.Start} w) :
    Graph.Reach h.succs n.Start x := by
  have hclosed : Paths.Closed h.graph {x | Graph.Reach h.succs n.Start x} := by
    rintro y hy l _ ⟨e, he, rfl, -⟩
    exact hy.tail (List.mem_map_of_mem he)
  exact hclosed.reads .refl (Paths.reads_iff.2 hx)

theorem NFA.remaining_eq (hne : (h.graph.evalFrom {n.Start} t).Nonempty) :
    n.remaining h t = t := by
  induction t using List.reverseRecOn with
  | nil => rfl
  | append_singleton t c ih =>
    have hleft := Paths.evalFrom_append_nonempty hne
    rw [remaining, List.foldl_append, ← remaining, ih hleft]
    exact if_pos hne

theorem NFA.remaining_accepts (ht : t ∈ n.accepts h) : n.remaining h t = t := by
  obtain ⟨x, -, hx⟩ := ht
  exact remaining_eq ⟨x, hx⟩

theorem Subsets.At.evalFrom_eq (hu : s.At o h n w i u) (hv : s.At o h n w' i v) :
    h.graph.evalFrom {n.Start} w = h.graph.evalFrom {n.Start} w' := by
  cases hu.get.symm.trans hv.get
  ext x
  rw [← hu.mem, hv.mem]

/-- Three states or more are found at another place, if the later closures come with falling
ids. -/
theorem Subsets.Inv.falling (hi : s.Inv (.falling h) h n []) (hu : s.At (.falling h) h n w i u)
    (hw : w ≠ []) (hd : Distinct h (h.graph.evalFrom {n.Start} []))
    (hcard : 2 < (h.graph.evalFrom {n.Start} []).ncard) : i ≠ 0 := by
  rintro rfl
  obtain ⟨v, hv⟩ := hi.at_nil
  have heq := hu.evalFrom_eq hv
  cases hu.get.symm.trans hv.get
  have hasc : Ascending h u.states := by
    obtain ⟨k, l, hk, hl, hmem, hstates⟩ := hv.formed
    have hpair := hd.pairwise hl fun x hx => (hmem x).1 hx
    rw [hk.2 rfl, Order.falling_zero] at hstates
    rw [hstates,
      nfaDstate_ascending_iff (hpair.perm (arrange_perm h l).symm fun hst => hst.symm)]
    exact arranged_arrange hpair
  obtain ⟨k, l, hk, hl, hmem, hstates⟩ := hu.formed
  rw [heq] at hmem
  have hpair := hd.pairwise hl fun x hx => (hmem x).1 hx
  have hlen : 3 ≤ (byId h l).length := by
    rwa [ncard_eq_length hl hmem, ← (byId_perm h l).length_eq] at hcard
  match k, hk with
  | 0, hk => exact hw (hk.1 rfl)
  | k + 1, _ =>
    have hperm : (byId h l).reverse.Perm l := (List.reverse_perm _).trans (byId_perm h l)
    rw [hstates, Order.falling_succ,
      nfaDstate_ascending_iff (hpair.perm hperm.symm fun hst => hst.symm)] at hasc
    exact not_arranged_reverse (byId_ascending hpair) hlen hasc

theorem Subsets.Inv.few (hi : s.Inv o h n []) (hu : s.At o h n w i u)
    (heq : h.graph.evalFrom {n.Start} w = h.graph.evalFrom {n.Start} [])
    (hd : Distinct h (h.graph.evalFrom {n.Start} []))
    (ho : ∀ k l, l.Nodup → (∀ x, x ∈ l ↔ x ∈ h.graph.evalFrom {n.Start} []) →
      Arranged h (o.keys k l)) :
    i = 0 := by
  obtain ⟨v, hv⟩ := hi.at_nil
  exact hi.same_place hu hv heq (hu.ascending (heq ▸ hd) (heq ▸ ho)) (hv.ascending hd ho)

/-- With fuel enough, the ids are distinct and the table is made, whatever the order of the
maps. -/
theorem exists_subsets (hw : h.Within) (hn : n.Start < h.size)
    (hid : ∀ s, Graph.Reach h.succs n.Start s → (h.state s).id = 0)
    (hb : ∀ s, Graph.Reach h.succs n.Start s → ∀ e ∈ (h.state s).edges, e.epsilion = false →
      e.ch.toNat < 128) :
    ∃ N, ∀ fuel, N ≤ fuel → ∃ k num, nfaAllocId fuel n.Start 1 h = .ok (k, h.number num) ∧
      (∀ w, Distinct (h.number num) (h.graph.evalFrom {n.Start} w)) ∧
      ∀ o, ∃ s : Subsets, nfaToDfa o fuel (h.number num) n = .ok s.dfa ∧
        s.Inv o (h.number num) n [] ∧ s.stack = [] := by
  obtain ⟨N, hN⟩ := subsets_spec h.size
  refine ⟨max N (h.size + 1), fun fuel hf => ?_⟩
  obtain ⟨hf, hsize⟩ := max_le_iff.1 hf
  obtain ⟨k, num, halloc, -, hinj⟩ := nfaAllocId_spec hw hn hid hsize
  refine ⟨k, num, halloc, ?_, fun o => ?_⟩
  · intro w s hs t ht heq
    exact hinj s t (reach_of_evalFrom hs) (reach_of_evalFrom ht) heq
  · rcases hN (h.number num) n o fuel rfl hw hn hf with ⟨s, hs, hi⟩ | ⟨-, u, hu, hwide⟩
    · refine ⟨s, ?_, hi⟩
      rw [nfaToDfa, hs]
      rfl
    · obtain ⟨w, hmem⟩ := hu.mem
      exact absurd (fun s hs => hb s (reach_of_evalFrom (h := h) ((hmem s).1 hs))) hwide

/-- The table answers for a text as the automaton does, whatever the order of the maps, exactly
if an accepted text leads to other states than the empty one, and the part of a text behind its
last dead end is accepted only together with the text, or leads back to the first states: as the
empty text, or because there are no more than two. -/
theorem nfaToDfa_match_iff (hw : h.Within) (hn : n.Start < h.size)
    (hid : ∀ s, Graph.Reach h.succs n.Start s → (h.state s).id = 0)
    (hb : ∀ s, Graph.Reach h.succs n.Start s → ∀ e ∈ (h.state s).edges, e.epsilion = false →
      e.ch.toNat < 128)
    (ht : ∀ c ∈ t, c.toNat < 128) :
    (∃ N, ∀ fuel, N ≤ fuel → ∃ k h', nfaAllocId fuel n.Start 1 h = .ok (k, h') ∧ ∀ o, ∃ d b,
      nfaToDfa o fuel h' n = .ok d ∧ d.match t = .ok b ∧ (b = true ↔ t ∈ n.accepts h)) ↔
    (t ∈ n.accepts h → h.graph.evalFrom {n.Start} t ≠ h.graph.evalFrom {n.Start} []) ∧
    (t ∉ n.accepts h → n.remaining h t ∈ n.accepts h →
      h.graph.evalFrom {n.Start} (n.remaining h t) = h.graph.evalFrom {n.Start} [] ∧
        (n.remaining h t = [] ∨ (h.graph.evalFrom {n.Start} []).ncard ≤ 2)) := by
  obtain ⟨M, hM⟩ := exists_subsets hw hn hid hb
  constructor
  · rintro ⟨N, hN⟩
    obtain ⟨k, h', halloc, hall⟩ := hN (max N M) (le_max_left ..)
    obtain ⟨k', num, halloc', hd, hsub⟩ := hM (max N M) (le_max_right ..)
    cases halloc.symm.trans halloc'
    have hplace (o : Order) : ∃ (s : Subsets) (i : Nat) (u : DfaState),
        s.Inv o (h.number num) n [] ∧ s.At o (h.number num) n (n.remaining h t) i u ∧
        (t ∈ n.accepts h ↔ i ≠ 0 ∧ n.remaining h t ∈ n.accepts h) := by
      obtain ⟨d, b, hd, hb, hiff⟩ := hall o
      obtain ⟨s, hs, hi, hst⟩ := hsub o
      obtain ⟨i, u, b', hu, hb', hiff'⟩ := hi.match hst ht
      cases hd.symm.trans hs
      cases hb.symm.trans hb'
      exact ⟨s, i, u, hi, hu, hiff.symm.trans hiff'⟩
    constructor
    · intro hacc heq
      obtain ⟨s, i, u, hi, hu, hiff⟩ := hplace (.arranged (h.number num))
      have hrem := NFA.remaining_accepts hacc
      refine (hiff.1 hacc).1 (hi.few hu (hrem.symm ▸ heq) (hd []) fun k l hl hmem => ?_)
      exact arranged_arrange ((hd []).pairwise hl fun x hx => (hmem x).1 hx)
    · intro hacc hrem
      have hzero (o : Order) : ∃ (s : Subsets) (u : DfaState), s.Inv o (h.number num) n [] ∧
          s.At o (h.number num) n (n.remaining h t) 0 u := by
        obtain ⟨s, i, u, hi, hu, hiff⟩ := hplace o
        have hi0 : i = 0 := by
          by_contra hne
          exact hacc (hiff.2 ⟨hne, hrem⟩)
        exact ⟨s, u, hi, hi0 ▸ hu⟩
      constructor
      · obtain ⟨s, u, hi, hu⟩ := hzero (.arranged h)
        obtain ⟨v, hv⟩ := hi.at_nil
        exact hu.evalFrom_eq hv
      · rw [or_iff_not_imp_left, ← not_lt]
        intro hne hcard
        obtain ⟨s, u, hi, hu⟩ := hzero (.falling (h.number num))
        exact hi.falling hu hne (hd []) hcard rfl
  · rintro ⟨hacc, hrem⟩
    refine ⟨M, fun fuel hf => ?_⟩
    obtain ⟨k, num, halloc, hd, hsub⟩ := hM fuel hf
    refine ⟨k, _, halloc, fun o => ?_⟩
    obtain ⟨s, hs, hi, hst⟩ := hsub o
    obtain ⟨i, u, b, hu, hmatch, hiff⟩ := hi.match hst ht
    refine ⟨_, b, hs, hmatch, hiff.trans ⟨?_, fun hin => ?_⟩⟩
    · rintro ⟨hne, hin⟩
      by_contra hnot
      obtain ⟨heq, hfew⟩ := hrem hnot hin
      refine hne (hfew.elim hu.zero fun hcard => hi.few hu heq (hd []) fun k l hl hmem => ?_)
      apply Arranged.of_length_le
      rw [(o.perm k l).length_eq, ← ncard_eq_length hl hmem]
      exact hcard
    · have hrem := NFA.remaining_accepts hin
      refine ⟨?_, hrem.symm ▸ hin⟩
      rintro rfl
      obtain ⟨v, hv⟩ := hi.at_nil
      have heq : h.graph.evalFrom {n.Start} (n.remaining h t) = h.graph.evalFrom {n.Start} [] :=
        hu.evalFrom_eq hv
      rw [hrem] at heq
      exact hacc hin heq

/-- The automaton for `a` accepts that text in another state than it begins in. -/
theorem nfaToDfa_match_a :
    let h := (nfaChar (ch 'a') .empty).2.set 1 ⟨[], 0, true⟩
    ∃ N, ∀ fuel, N ≤ fuel → ∃ k h', nfaAllocId fuel 0 1 h = .ok (k, h') ∧ ∀ o, ∃ d b,
      nfaToDfa o fuel h' ⟨0, 1⟩ = .ok d ∧ d.match [ch 'a'] = .ok b ∧
        (b = true ↔ [ch 'a'] ∈ (⟨0, 1⟩ : NFA).accepts h) := by
  intro h
  have hstate (s : Addr) : (s = 0 ∧ h.state s = ⟨[⟨1, false, ch 'a'⟩], 0, false⟩) ∨
      (s = 1 ∧ h.state s = ⟨[], 0, true⟩) ∨ h.state s = .zero := by
    match s with
    | 0 => exact .inl ⟨rfl, rfl⟩
    | 1 => exact .inr (.inl ⟨rfl, rfl⟩)
    | s + 2 => exact .inr (.inr rfl)
  have hedge (s : Addr) (e : NfaEdge) (he : e ∈ (h.state s).edges) : e = ⟨1, false, ch 'a'⟩ := by
    obtain ⟨-, hs⟩ | ⟨-, hs⟩ | hs := hstate s
    · rw [hs] at he
      exact List.mem_singleton.1 he
    · rw [hs] at he
      cases he
    · rw [hs] at he
      cases he
  refine (nfaToDfa_match_iff (h := h) (n := ⟨0, 1⟩) ?_ Nat.two_pos ?_ ?_ ?_).2 ⟨?_, ?_⟩
  · intro s _ e he
    rw [hedge s e he]
    exact Nat.one_lt_two
  · intro s _
    obtain ⟨-, hs⟩ | ⟨-, hs⟩ | hs := hstate s
    · rw [hs]
    · rw [hs]
    · rw [hs]
      rfl
  · intro s _ e he _
    rw [hedge s e he]
    exact Nat.lt_of_sub_eq_succ rfl
  · rintro c hc
    rw [List.mem_singleton.1 hc]
    exact Nat.lt_of_sub_eq_succ rfl
  · rintro ⟨x, hacc, hx⟩ heq
    rw [heq] at hx
    obtain ⟨p, hp, hpath⟩ := h.graph.mem_evalFrom_iff_exists_path.1 hx
    cases hpath with
    | nil => cases hacc
    | cons u _ _ o p hu hpath =>
      obtain ⟨e, he, -, rfl⟩ := hu
      rw [hedge 0 e he] at hp
      cases hp
  · intro hnot
    refine absurd ⟨1, rfl, Paths.reads_iff.1 ⟨[some (ch 'a')], rfl, ?_⟩⟩ hnot
    exact .cons 1 _ _ _ _ ⟨_, .head _, rfl, rfl⟩ (.nil 1)

/-- The automaton for the empty text accepts it, but its table does not. -/
theorem not_nfaToDfa_match :
    let h := (nfaE .empty).2.set 1 ⟨[], 0, true⟩
    [] ∈ (⟨0, 1⟩ : NFA).accepts h ∧
      (do
        let (_, h) ← nfaAllocId 3 0 1 h
        let d ← nfaToDfa ⟨fun _ l => l, fun _ l => .refl l⟩ 3 h ⟨0, 1⟩
        d.match []) = .ok false := by
  refine ⟨⟨1, rfl, ?_⟩, rfl⟩
  exact Paths.reads_iff.1 ⟨[none], rfl,
    .cons 1 _ _ _ _ ⟨⟨1, true, 0⟩, .head _, rfl, rfl⟩ (.nil 1)⟩

end Misc.Re0
