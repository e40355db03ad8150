import Misc.Re0.Subset

namespace Misc.Re0
open Misc.Lib
set_option autoImplicit true

/-- What one more byte makes of the part of a text that counts: it is forgotten when no state is
left. -/
noncomputable def NFA.restart (n : NFA) (h : Heap) (w : List UInt8) (c : UInt8) : List UInt8 :=
  open Classical in if (h.graph.evalFrom {n.Start} (w ++ [c])).Nonempty then w ++ [c] else []

/-- The part of a text behind the last byte that left no state. -/
noncomputable def NFA.remaining (n : NFA) (h : Heap) (t : List UInt8) : List UInt8 :=
  t.foldl (n.restart h) []

/-- The DFA state at `i` stands for what a word leads to; behind the empty word it is the one at
zero. -/
structure Subsets.At (o : Order) (h : Heap) (n : NFA) (s : Subsets) (w : List UInt8) (i : Nat)
    (u : DfaState) : Prop where
  get : s.dstates[i]? = some u
  zero : w = [] → i = 0
  formed : ∃ k l, (k = 0 ↔ w = []) ∧ l.Nodup ∧ (∀ x, x ∈ l ↔ x ∈ h.graph.evalFrom {n.Start} w) ∧
    u.states = (nfaDstate h (o.keys k l)).states

def Subsets.dfa (s : Subsets) : DFA := ⟨s.dtran, s.daccept⟩

variable {o : Order} {h : Heap} {n : NFA} {s : Subsets} {u v : DfaState} {i j : Nat} {c : UInt8}
  {t w : List UInt8}

theorem Subsets.At.mem (ha : s.At o h n w i u) (x : Addr) :
    x ∈ u.states ↔ x ∈ h.graph.evalFrom {n.Start} w := by
  obtain ⟨k, l, -, -, hl, hu⟩ := ha.formed
  rw [hu, (nfaDstate_spec h _).1.mem_iff, (o.perm k l).mem_iff]
  exact hl x

theorem Subsets.At.next (ha : s.At o h n w i u) (c : UInt8) :
    u.next h c.toNat = h.graph.evalFrom {n.Start} (w ++ [c]) := by
  rw [εNFA.evalFrom_append_singleton, DfaState.next, UInt8.ofNat_toNat]
  congr 1
  exact Set.ext ha.mem

theorem Subsets.Inv.at_nil (hi : s.Inv o h n []) : ∃ u, s.At o h n [] 0 u := by
  obtain ⟨u, l, hu, hl, hmem, hstates⟩ := hi.first
  exact ⟨u, hu, fun _ => rfl, 0, l, iff_of_true rfl rfl, hl, hmem, hstates⟩

theorem Subsets.Inv.step (hi : s.Inv o h n []) (hst : s.stack = []) (ha : s.At o h n w i u)
    (hc : c.toNat < 128) : ∃ j v, s.dfa.step i c = .ok j ∧ s.At o h n (n.restart h w c) j v := by
  have hlt : i < s.dtran.length := by
    rw [hi.tran]
    exact (List.getElem?_eq_some_iff.1 ha.get).1
  have hrow := List.getElem?_eq_getElem hlt
  have hleads := hi.rows i u _ ha.get hrow (hst ▸ List.not_mem_nil) c.toNat hc List.not_mem_nil
  have hstep : s.dfa.step i c = .ok (s.dtran[i] c.toNat) := by
    rw [DFA.step, Subsets.dfa, hrow]
    exact if_pos hc
  rw [Leads, ha.next] at hleads
  rcases hleads with ⟨hnone, hzero⟩ | ⟨hne, v, k, l, hv, hk, hl, hmem, hstates⟩
  · obtain ⟨v, hv⟩ := hi.at_nil
    refine ⟨_, v, hstep, ?_⟩
    rw [NFA.restart, if_neg (Set.not_nonempty_iff_eq_empty.2 hnone), hzero]
    exact hv
  · refine ⟨_, v, hstep, ?_⟩
    rw [NFA.restart, if_pos hne]
    have hcons : w ++ [c] ≠ [] := List.append_ne_nil_of_right_ne_nil w (List.cons_ne_nil c [])
    exact ⟨hv, fun he => absurd he hcons, k, l, iff_of_false (Nat.ne_of_gt hk) hcons,
      hl, hmem, hstates⟩

theorem Subsets.Inv.run (hi : s.Inv o h n []) (hst : s.stack = []) (ha : s.At o h n w i u)
    (ht : ∀ c ∈ t, c.toNat < 128) :
    ∃ j v, t.foldlM s.dfa.step i = .ok j ∧ s.At o h n (t.foldl (n.restart h) w) j v := by
  induction t generalizing w i u with
  | nil => exact ⟨i, u, rfl, ha⟩
  | cons c t ih =>
    obtain ⟨hc, ht⟩ := List.forall_mem_cons.1 ht
    obtain ⟨j, v, hj, hv⟩ := hi.step hst ha hc
    obtain ⟨k, x, hk, hx⟩ := ih hv ht
    refine ⟨k, x, ?_, hx⟩
    rw [List.foldlM_cons, hj]
    exact hk

theorem Subsets.Inv.accepting (hi : s.Inv o h n []) (ha : s.At o h n w i u) :
    u.accept = true ↔ w ∈ n.accepts h := by
  obtain ⟨k, w', l, -, -, hstates, -, haccept⟩ := hi.made u (List.mem_of_getElem? ha.get)
  obtain ⟨hperm, -, hany⟩ := nfaDstate_spec h (o.keys k l)
  rw [haccept, hany]
  apply exists_congr
  intro x
  rw [and_comm, ← hperm.mem_iff, ← hstates, ha.mem]

/-- What the table answers: the first state never accepts. -/
theorem Subsets.Inv.match (hi : s.Inv o h n []) (hst : s.stack = [])
    (ht : ∀ c ∈ t, c.toNat < 128) :
    ∃ i u b, s.At o h n (n.remaining h t) i u ∧ s.dfa.match t = .ok b ∧
      (b = true ↔ i ≠ 0 ∧ n.remaining h t ∈ n.accepts h) := by
  obtain ⟨u₀, hu₀⟩ := hi.at_nil
  obtain ⟨i, u, hrun, hu⟩ := hi.run hst hu₀ ht
  refine ⟨i, u, decide (i ≠ 0) && u.accept, hu, ?_, ?_⟩
  · have hget : s.daccept[i]? = some (decide (i ≠ 0) && u.accept) := by
      rw [hi.accept, hu.get]
      rfl
    rw [DFA.match, hrun]
    dsimp only [Bind.bind, Except.bind]
    rw [Subsets.dfa, hget]
  · rw [Bool.and_eq_true, decide_eq_true_eq]
    exact and_congr_right fun _ => hi.accepting hu

end Misc.Re0
