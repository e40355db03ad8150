import Mathlib.Data.Set.Finite.List
import Misc.Re0.Closure

namespace Misc.Re0
open Misc.Lib
set_option autoImplicit true

def DfaState.next (h : Heap) (u : DfaState) (a : Nat) : Set Addr :=
  h.graph.stepSet {s | s ∈ u.states} (UInt8.ofNat a)

/-- The states that a word leads to, in some order, as `nfaDstate` puts them. -/
def DfaState.Made (o : Order) (h : Heap) (n : NFA) (u : DfaState) : Prop :=
  ∃ k w l, l.Nodup ∧ (∀ s, s ∈ l ↔ s ∈ h.graph.evalFrom {n.Start} w) ∧
    u.states = (nfaDstate h (o.keys k l)).states ∧ u.hash = (nfaDstate h (o.keys k l)).hash ∧
    u.accept = (nfaDstate h (o.keys k l)).accept

def DfaState.Narrow (h : Heap) (u : DfaState) : Prop :=
  ∀ s ∈ u.states, ∀ e ∈ (h.state s).edges, e.epsilion = false → e.ch.toNat < 128

/-- The entry of a row for a byte: zero if no state is left, and else a state that a later loop
has formed. -/
def Leads (o : Order) (h : Heap) (dstates : List DfaState) (u : DfaState) (a j : Nat) : Prop :=
  (u.next h a = ∅ ∧ j = 0) ∨ ((u.next h a).Nonempty ∧ ∃ v k l, dstates[j]? = some v ∧ 0 < k ∧
    l.Nodup ∧ (∀ s, s ∈ l ↔ s ∈ u.next h a) ∧ v.states = (nfaDstate h (o.keys k l)).states)

/-- What holds of the variables of `nfaToDfa`; `todo` are the entries of `dtran` that the loop
over a `charset` still has to fill. -/
structure Subsets.Inv (o : Order) (h : Heap) (n : NFA) (todo : List (Nat × Nat))
    (s : Subsets) : Prop where
  loops : 0 < s.loops
  index : ∀ i (u : DfaState), s.dstates[i]? = some u → u.i = i
  first : ∃ u l, s.dstates[0]? = some u ∧ l.Nodup ∧
    (∀ t, t ∈ l ↔ t ∈ h.graph.evalFrom {n.Start} []) ∧
    u.states = (nfaDstate h (o.keys 0 l)).states
  made : ∀ u ∈ s.dstates, u.Made o h n
  distinct : (s.dstates.map DfaState.states).Nodup
  accept : ∀ i, s.daccept[i]? = (s.dstates[i]?).map fun u => decide (i ≠ 0) && u.accept
  tran : s.dtran.length = s.dstates.length
  stack : ∀ i ∈ s.stack, i < s.dstates.length
  nodup : s.stack.Nodup
  zero : ∀ i ∈ s.stack, ∀ row, s.dtran[i]? = some row → ∀ a, row a = 0
  rows : ∀ i u row, s.dstates[i]? = some u → s.dtran[i]? = some row → i ∉ s.stack →
    ∀ a < 128, (i, a) ∉ todo → Leads o h s.dstates u a (row a)
  narrow : ∀ i (u : DfaState), s.dstates[i]? = some u → i ∉ s.stack → u.Narrow h

variable {o : Order} {h : Heap} {n : NFA} {s s' : Subsets} {t u v : DfaState}
  {todo : List (Nat × Nat)}
  {top a k fuel : Nat} {row : Row} {dstates : List DfaState}

theorem DfaState.Made.hash (hu : u.Made o h n) :
    u.hash = (u.states.map fun s => (h.state s).id).sum := by
  obtain ⟨k, w, l, -, -, hstates, hhash, -⟩ := hu
  obtain ⟨hperm, hsum, -⟩ := nfaDstate_spec h (o.keys k l)
  rw [hhash, hsum, hstates]
  exact (hperm.map _).sum_eq.symm

theorem DfaState.Made.mem (hu : u.Made o h n) :
    ∃ w, ∀ s, s ∈ u.states ↔ s ∈ h.graph.evalFrom {n.Start} w := by
  obtain ⟨k, w, l, -, hmem, hstates, -⟩ := hu
  refine ⟨w, fun s => ?_⟩
  rw [hstates, (nfaDstate_spec h _).1.mem_iff, (o.perm k l).mem_iff, hmem]

theorem inStates_made (hs : ∀ v ∈ dstates, v.Made o h n) (hu : u.Made o h n) :
    (∀ j, inStates dstates u = some j → ∃ v, dstates[j]? = some v ∧ v.states = u.states) ∧
      (inStates dstates u = none → ∀ v ∈ dstates, v.states ≠ u.states) := by
  have heq (v : DfaState) (hv : v ∈ dstates) :
      (u.hash == v.hash && u.states.length == v.states.length && u.states == v.states) = true ↔
        u.states = v.states := by
    rw [Bool.and_eq_true, Bool.and_eq_true, beq_iff_eq, beq_iff_eq, beq_iff_eq]
    refine ⟨And.right, fun he => ⟨⟨?_, by rw [he]⟩, he⟩⟩
    rw [hu.hash, (hs v hv).hash, he]
  constructor
  · intro j hj
    obtain ⟨hlt, hp, -⟩ := List.findIdx?_eq_some_iff_getElem.1 hj
    exact ⟨_, List.getElem?_eq_getElem hlt, ((heq _ (List.getElem_mem hlt)).1 hp).symm⟩
  · intro hnone v hv he
    have hp := List.findIdx?_eq_none_iff.1 hnone v hv
    rw [(heq v hv).2 he.symm] at hp
    cases hp

theorem Leads.mono {j : Nat} (hl : Leads o h dstates u a j) (more : List DfaState) :
    Leads o h (dstates ++ more) u a j := by
  refine hl.imp id fun ⟨hne, v, k, l, hv, hrest⟩ => ⟨hne, v, k, l, ?_, hrest⟩
  rw [List.getElem?_append_left (List.getElem?_eq_some_iff.1 hv).1, hv]

theorem getElem?_concat_eq_some {α : Type} {l : List α} {x y : α} {i : Nat} :
    (l ++ [x])[i]? = some y ↔ l[i]? = some y ∨ i = l.length ∧ x = y := by
  rcases Nat.lt_trichotomy i l.length with hi | rfl | hi
  · rw [List.getElem?_append_left hi]
    exact ⟨.inl, fun hor => hor.elim id fun he => absurd he.1 (Nat.ne_of_lt hi)⟩
  · rw [List.getElem?_concat_length, List.getElem?_eq_none (Nat.le_refl _), Option.some.injEq]
    simp
  · rw [List.getElem?_eq_none (by rw [List.length_append]; exact hi),
      List.getElem?_eq_none (Nat.le_of_lt hi)]
    simp only [reduceCtorEq, false_or, false_iff, not_and]
    intro he
    exact absurd he (Nat.ne_of_gt hi)

theorem getElem?_modify_eq_some {tr : List Row} {f : Row → Row} {i : Nat} {row' : Row}
    (hrow : (tr.modify top f)[i]? = some row') :
    ∃ row, tr[i]? = some row ∧ row' = if top = i then f row else row := by
  rw [List.getElem?_modify] at hrow
  obtain ⟨row, hr, rfl⟩ := Option.map_eq_some_iff.1 hrow
  exact ⟨row, hr, rfl⟩

theorem Subsets.Inv.accept_length (hi : s.Inv o h n todo) :
    s.daccept.length = s.dstates.length := by
  have hnone (i : Nat) : s.daccept.length ≤ i ↔ s.dstates.length ≤ i := by
    rw [← List.getElem?_eq_none_iff, hi.accept, Option.map_eq_none_iff,
      List.getElem?_eq_none_iff]
  exact Nat.le_antisymm ((hnone _).2 (Nat.le_refl _)) ((hnone _).1 (Nat.le_refl _))

theorem Subsets.Inv.pos (hi : s.Inv o h n todo) : 0 < s.dstates.length := by
  obtain ⟨u, l, hu, -⟩ := hi.first
  exact (List.getElem?_eq_some_iff.1 hu).1

theorem Subsets.Inv.entry (hi : s.Inv o h n ((top, a) :: todo)) (ht : s.dstates[top]? = some t)
    {more : List DfaState} {i j b : Nat} (hlead : Leads o h (s.dstates ++ more) t a j)
    (hv : s.dstates[i]? = some v) (hr : s.dtran[i]? = some row)
    (him : i ∉ s.stack) (hb : b < 128)
    (hnot : (i, b) ∉ todo) :
    Leads o h (s.dstates ++ more) v b
      ((if top = i then Function.update row a j else row) b) := by
  by_cases heq : (i, b) = (top, a)
  · cases heq
    cases ht.symm.trans hv
    rw [if_pos rfl, Function.update_self]
    exact hlead
  · have hold :=
      (hi.rows i v row hv hr him b hb fun hm => (List.mem_cons.1 hm).elim heq hnot).mono more
    split_ifs with hti
    · rw [Function.update_of_ne fun hba => heq (by rw [hti, hba])]
      exact hold
    · exact hold

theorem Subsets.Inv.add (hi : s.Inv o h n ((top, a) :: todo)) (ht : s.dstates[top]? = some t)
    (htop : top ∉ s.stack) (hu : u.Made o h n) (hnew : ∀ v ∈ s.dstates, v.states ≠ u.states)
    (hlead : Leads o h (s.dstates ++ [{ u with i := s.dstates.length }]) t a s.dstates.length) :
    Inv o h n todo
      { dstates := s.dstates ++ [{ u with i := s.dstates.length }]
        dtran := (s.dtran ++ [fun _ => 0]).modify top (Function.update · a s.dstates.length)
        daccept := s.daccept ++ [u.accept]
        stack := s.dstates.length :: s.stack
        loops := s.loops + 2 } := by
  have hlt : top < s.dstates.length := (List.getElem?_eq_some_iff.1 ht).1
  have hold {i : Nat} {v : DfaState}
      (hv : (s.dstates ++ [{ u with i := s.dstates.length }])[i]? = some v)
      (hne : i ≠ s.dstates.length) : s.dstates[i]? = some v :=
    (getElem?_concat_eq_some.1 hv).resolve_right fun he => hne he.1
  have hrow {i : Nat} {row : Row} (hr : (s.dtran ++ [fun _ => 0])[i]? = some row)
      (hne : i ≠ s.dstates.length) : s.dtran[i]? = some row :=
    (getElem?_concat_eq_some.1 hr).resolve_right fun he => hne (he.1.trans hi.tran)
  constructor
  · exact Nat.lt_add_right 2 hi.loops
  · intro i v hv
    rcases getElem?_concat_eq_some.1 hv with hv | ⟨rfl, rfl⟩
    · exact hi.index i v hv
    · rfl
  · obtain ⟨v, l, hv, hrest⟩ := hi.first
    exact ⟨v, l, getElem?_concat_eq_some.2 (.inl hv), hrest⟩
  · exact List.forall_mem_append.2 ⟨hi.made, List.forall_mem_singleton.2 hu⟩
  · rw [List.map_append, List.map_singleton, List.nodup_append]
    refine ⟨hi.distinct, List.nodup_singleton _, ?_⟩
    intro l hl l' hl' he
    obtain ⟨v, hv, rfl⟩ := List.mem_map.1 hl
    rw [List.mem_singleton] at hl'
    exact hnew v hv (he.trans hl')
  · intro i
    rcases Nat.lt_trichotomy i s.dstates.length with hlt | rfl | hgt
    · rw [List.getElem?_append_left hlt, List.getElem?_append_left (hi.accept_length ▸ hlt)]
      exact hi.accept i
    · have hne := Nat.ne_of_gt hi.pos
      have hlast := List.getElem?_concat_length (l := s.daccept) (a := u.accept)
      rw [hi.accept_length] at hlast
      dsimp only
      rw [hlast, List.getElem?_concat_length, Option.map_some]
      simp [hne]
    · rw [List.getElem?_eq_none (by rw [List.length_append, hi.accept_length]; exact hgt),
        List.getElem?_eq_none (by rw [List.length_append]; exact hgt)]
      rfl
  · rw [List.length_modify, List.length_append, List.length_append, hi.tran]
    rfl
  · intro i him
    rw [List.length_append, List.length_singleton]
    rcases List.mem_cons.1 him with rfl | him
    · exact Nat.lt_succ_self _
    · exact Nat.lt_succ_of_lt (hi.stack i him)
  · exact List.nodup_cons.2 ⟨fun hm => Nat.lt_irrefl _ (hi.stack _ hm), hi.nodup⟩
  · intro i him row' hr' b
    obtain ⟨row, hr, rfl⟩ := getElem?_modify_eq_some hr'
    rcases List.mem_cons.1 him with rfl | him
    · rw [if_neg (Nat.ne_of_lt hlt)]
      rcases getElem?_concat_eq_some.1 hr with hr | ⟨-, rfl⟩
      · exact absurd (List.getElem?_eq_some_iff.1 hr).1 (by rw [hi.tran]; exact Nat.lt_irrefl _)
      · rfl
    · have hne : top ≠ i := fun he => htop (he ▸ him)
      rw [if_neg hne]
      exact hi.zero i him row (hrow hr (Nat.ne_of_lt (hi.stack i him))) b
  · intro i v row' hv hr' him b hb hnot
    rw [List.mem_cons, not_or] at him
    obtain ⟨row, hr, rfl⟩ := getElem?_modify_eq_some hr'
    exact hi.entry ht hlead (hold hv him.1) (hrow hr him.1) him.2 hb hnot
  · intro i v hv him
    rw [List.mem_cons, not_or] at him
    exact hi.narrow i v (hold hv him.1) him.2

theorem Subsets.Inv.again (hi : s.Inv o h n ((top, a) :: todo)) (ht : s.dstates[top]? = some t)
    (htop : top ∉ s.stack) {j : Nat} (hlead : Leads o h s.dstates t a j) :
    Inv o h n todo { s with
      dtran := s.dtran.modify top (Function.update · a j), loops := s.loops + 2 } := by
  constructor
  · exact Nat.lt_add_right 2 hi.loops
  · exact hi.index
  · exact hi.first
  · exact hi.made
  · exact hi.distinct
  · exact hi.accept
  · rw [List.length_modify]
    exact hi.tran
  · exact hi.stack
  · exact hi.nodup
  · intro i him row' hr' b
    obtain ⟨row, hr, rfl⟩ := getElem?_modify_eq_some hr'
    have hne : top ≠ i := fun he => htop (he ▸ him)
    rw [if_neg hne]
    exact hi.zero i him row hr b
  · intro i v row' hv hr' him b hb hnot
    obtain ⟨row, hr, rfl⟩ := getElem?_modify_eq_some hr'
    rw [← List.append_nil s.dstates] at hlead ⊢
    exact hi.entry ht hlead hv hr him hb hnot
  · exact hi.narrow

theorem DfaState.Made.next (ht : t.Made o h n) (a : Nat) :
    ∃ w, t.next h a = h.graph.evalFrom {n.Start} (w ++ [UInt8.ofNat a]) := by
  obtain ⟨w, hw⟩ := ht.mem
  refine ⟨w, ?_⟩
  rw [εNFA.evalFrom_append_singleton, DfaState.next]
  congr 1
  exact Set.ext hw

theorem Heap.Within.evalFrom (hw : h.Within) (hn : n.Start < h.size) {w : List UInt8} {x : Addr}
    (hx : x ∈ h.graph.evalFrom {n.Start} w) : x < h.size := by
  have hclosed : Paths.Closed h.graph {x | x < h.size} := by
    rintro y hy l _ ⟨e, he, rfl, -⟩
    exact hw y hy e he
  exact hclosed.reads hn (Paths.reads_iff.2 hx)

theorem length_le_of_nodup {l : List Addr} {m : Nat} (hl : l.Nodup) (hlt : ∀ x ∈ l, x < m) :
    l.length ≤ m := by
  rw [← List.toFinset_card_of_nodup hl, ← Finset.card_range m]
  exact Finset.card_le_card fun x hx => Finset.mem_range.2 (hlt x (List.mem_toFinset.1 hx))

theorem Subsets.Inv.byte (hi : s.Inv o h n ((top, a) :: todo)) (hw : h.Within)
    (hn : n.Start < h.size)
    (ht : s.dstates[top]? = some t) (htop : top ∉ s.stack) (hne : (t.next h a).Nonempty)
    (hf : 2 * h.size ≤ fuel) : ∃ s' more, s.byte o fuel h t a = .ok s' ∧ s'.Inv o h n todo ∧
      s'.dstates = s.dstates ++ more ∧ top ∉ s'.stack ∧
      s'.dstates.length + s.stack.length = s.dstates.length + s'.stack.length := by
  have htm := hi.made t (List.mem_of_getElem? ht)
  obtain ⟨w₀, hw₀⟩ := htm.mem
  obtain ⟨w, hnext⟩ := htm.next a
  have hmove (x : Addr) (hx : x ∈ nfaMove o s.loops h t.states (UInt8.ofNat a)) :
      x < h.size := by
    obtain ⟨y, hy, e, he, rfl, -⟩ := mem_nfaMove.1 hx
    exact hw y (hw.evalFrom hn ((hw₀ y).1 hy)) e he
  have hlen := length_le_of_nodup (nfaMove_nodup o s.loops h t.states (UInt8.ofNat a)) hmove
  obtain ⟨l, hl, hnd, hmem⟩ := eClosure_spec hw o (s.loops + 1) hmove (by omega : _ ≤ fuel)
  rw [closure_nfaMove] at hmem
  have hu : (nfaDstate h (o.keys (s.loops + 1) l)).Made o h n := by
    refine ⟨s.loops + 1, w ++ [UInt8.ofNat a], l, hnd, fun x => ?_, rfl, rfl, rfl⟩
    rw [← hnext]
    exact hmem x
  have hleads {D : List DfaState} {v : DfaState} {j : Nat} (hv : D[j]? = some v)
      (hstates : v.states = (nfaDstate h (o.keys (s.loops + 1) l)).states) : Leads o h D t a j :=
    .inr ⟨hne, v, s.loops + 1, l, hv, Nat.succ_pos _, hnd, hmem, hstates⟩
  have htop' : t.i = top := hi.index top t ht
  rw [Subsets.byte, hl, htop']
  obtain ⟨hsome, hnone⟩ := inStates_made hi.made hu
  cases hin : inStates s.dstates (nfaDstate h (o.keys (s.loops + 1) l)) with
  | none =>
    refine ⟨_, _, ?_, hi.add ht htop hu (hnone hin) (hleads List.getElem?_concat_length rfl),
      rfl, ?_, ?_⟩
    · dsimp only [Except.map]
      rw [hin]
    · have hlt : top < s.dstates.length := (List.getElem?_eq_some_iff.1 ht).1
      intro hm
      exact (List.mem_cons.1 hm).elim (Nat.ne_of_lt hlt) htop
    · rw [List.length_append]
      dsimp only [List.length_cons, List.length_nil]
      omega
  | some j =>
    obtain ⟨v, hv, hstates⟩ := hsome j hin
    have hget : (s.dstates.map DfaState.i).getD j 0 = j := by
      rw [List.getD_eq_getElem?_getD, List.getElem?_map, hv]
      exact hi.index j v hv
    refine ⟨_, [], ?_, hi.again ht htop (hleads hv hstates), (List.append_nil _).symm, htop, rfl⟩
    dsimp only [Except.map]
    rw [hin]
    dsimp only
    rw [hget]

theorem Subsets.Inv.bytes {cs : List Nat} (hi : s.Inv o h n (cs.map fun a => (top, a)))
    (hw : h.Within) (hn : n.Start < h.size) (ht : s.dstates[top]? = some t)
    (htop : top ∉ s.stack)
    (hne : ∀ a ∈ cs, (t.next h a).Nonempty) (hf : 2 * h.size ≤ fuel) :
    ∃ s', cs.foldlM (Subsets.byte o fuel h t) s = .ok s' ∧ s'.Inv o h n [] ∧
      s'.dstates.length + s.stack.length = s.dstates.length + s'.stack.length := by
  induction cs generalizing s with
  | nil => exact ⟨s, rfl, hi, rfl⟩
  | cons a cs ih =>
    obtain ⟨hna, hne⟩ := List.forall_mem_cons.1 hne
    obtain ⟨s₁, more, hs₁, hi₁, hmore, htop₁, hlen₁⟩ := hi.byte hw hn ht htop hna hf
    have ht₁ : s₁.dstates[top]? = some t := by
      rw [hmore, List.getElem?_append_left (List.getElem?_eq_some_iff.1 ht).1, ht]
    obtain ⟨s', hs', hi', hlen'⟩ := ih hi₁ ht₁ htop₁ hne
    refine ⟨s', ?_, hi', by omega⟩
    rw [List.foldlM_cons, hs₁]
    exact hs'

theorem next_nonempty : (u.next h a).Nonempty ↔ ∃ s ∈ u.states, ∃ e ∈ (h.state s).edges,
    e.epsilion = false ∧ e.ch = UInt8.ofNat a := by
  constructor
  · rintro ⟨x, hx⟩
    obtain ⟨s, hs, hx⟩ := (h.graph.mem_stepSet_iff ..).1 hx
    obtain ⟨y, ⟨e, he, -, hl⟩, -⟩ := h.graph.mem_εClosure_iff_exists.1 hx
    exact ⟨s, hs, e, he, NfaEdge.label_eq_some.1 hl⟩
  · rintro ⟨s, hs, e, he, hl⟩
    refine ⟨e.next, (h.graph.mem_stepSet_iff ..).2 ⟨s, hs, h.graph.subset_εClosure _ ?_⟩⟩
    exact ⟨e, he, rfl, NfaEdge.label_eq_some.2 hl⟩

theorem charset_spec (h : Heap) (u : DfaState) :
    (u.Narrow h → ∃ cs, charset h u.states = .ok cs ∧
      ∀ a, a ∈ cs ↔ a < 128 ∧ (u.next h a).Nonempty) ∧
    (¬ u.Narrow h → charset h u.states = .error .panic) := by
  have hwide : ((u.states.flatMap fun st => (h.state st).edges.filter fun e => !e.epsilion).any
      fun e => 128 ≤ e.ch.toNat) = true ↔ ¬ u.Narrow h := by
    simp [DfaState.Narrow]
  constructor
  · intro hu
    refine ⟨_, if_neg fun hany => hwide.1 hany hu, fun a => ?_⟩
    rw [List.mem_filter, List.mem_range, List.any_eq_true, next_nonempty]
    apply and_congr_right
    intro ha
    have hbyte (c : UInt8) : c.toNat = a ↔ c = UInt8.ofNat a := by
      constructor
      · rintro rfl
        exact UInt8.ofNat_toNat.symm
      · rintro rfl
        exact UInt8.toNat_ofNat_of_lt (Nat.lt_trans ha (by decide))
    simp only [List.mem_flatMap, List.mem_filter, beq_iff_eq, hbyte, Bool.not_eq_true']
    constructor
    · rintro ⟨e, ⟨s, hs, he, hl⟩, hc⟩
      exact ⟨s, hs, e, he, hl, hc⟩
    · rintro ⟨s, hs, e, he, hl, hc⟩
      exact ⟨e, ⟨s, hs, he, hl⟩, hc⟩
  · intro hu
    exact if_pos (hwide.2 hu)

theorem Subsets.loop_nil (hst : s.stack = []) (closeFuel : Nat) :
    s.loop o closeFuel h fuel = .ok s := by
  rw [loop]
  exact hst

theorem Subsets.Inv.pop {stack cs : List Nat} (hi : s.Inv o h n [])
    (hst : s.stack = top :: stack)
    (ht : s.dstates[top]? = some t) (hnar : t.Narrow h)
    (hcs : ∀ a < 128, (t.next h a).Nonempty → a ∈ cs) :
    Inv o h n (cs.map fun a => (top, a)) { s with stack } := by
  have hnd := hi.nodup
  rw [hst, List.nodup_cons] at hnd
  have hmem {i : Nat} (him : i ∈ stack) : i ∈ s.stack := hst ▸ List.mem_cons_of_mem top him
  have hnot {i : Nat} (him : i ∉ stack) (hne : i ≠ top) : i ∉ s.stack := by
    rw [hst, List.mem_cons, not_or]
    exact ⟨hne, him⟩
  refine ⟨hi.loops, hi.index, hi.first, hi.made, hi.distinct, hi.accept, hi.tran,
    fun i him => hi.stack i (hmem him), hnd.2, fun i him => hi.zero i (hmem him), ?_, ?_⟩
  · intro i v row hv hr him a ha htodo
    by_cases hne : i = top
    · subst hne
      cases ht.symm.trans hv
      refine .inl ⟨?_, hi.zero i (hst ▸ List.mem_cons_self) row hr a⟩
      rw [← Set.not_nonempty_iff_eq_empty]
      intro hna
      exact htodo (List.mem_map.2 ⟨a, hcs a ha hna, rfl⟩)
    · exact hi.rows i v row hv hr (hnot him hne) a ha List.not_mem_nil
  · intro i v hv him
    by_cases hne : i = top
    · subst hne
      cases ht.symm.trans hv
      exact hnar
    · exact hi.narrow i v hv (hnot him hne)

theorem Subsets.Inv.loop {B closeFuel : Nat} (hi : s.Inv o h n []) (hw : h.Within)
    (hn : n.Start < h.size)
    (hcf : 2 * h.size ≤ closeFuel) (hB : ∀ s' : Subsets, s'.Inv o h n [] → s'.dstates.length ≤ B)
    (hf : B + s.stack.length ≤ fuel + s.dstates.length) :
    (∃ s', s.loop o closeFuel h fuel = .ok s' ∧ s'.Inv o h n [] ∧ s'.stack = []) ∨
      s.loop o closeFuel h fuel = .error .panic ∧
        ∃ u : DfaState, u.Made o h n ∧ ¬ u.Narrow h := by
  induction fuel generalizing s with
  | zero =>
    have hle := hB s hi
    cases hst : s.stack with
    | nil => exact .inl ⟨s, loop_nil hst closeFuel, hi, hst⟩
    | cons top stack =>
      rw [hst, List.length_cons] at hf
      omega
  | succ fuel ih =>
    cases hst : s.stack with
    | nil => exact .inl ⟨s, loop_nil hst closeFuel, hi, hst⟩
    | cons top stack =>
      have htop : top < s.dstates.length := hi.stack top (hst ▸ List.mem_cons_self)
      have ht := List.getElem?_eq_getElem htop
      have hnd := hi.nodup
      rw [hst, List.nodup_cons] at hnd
      rw [hst, List.length_cons] at hf
      obtain ⟨hnar, hwide⟩ := charset_spec h s.dstates[top]
      rw [Subsets.loop.eq_def]
      dsimp only
      rw [hst]
      dsimp only
      rw [ht]
      dsimp only
      by_cases hu : (s.dstates[top]).Narrow h
      · obtain ⟨cs, hcs, hmem⟩ := hnar hu
        have hpop := hi.pop hst ht hu fun a ha hna => (hmem a).2 ⟨ha, hna⟩
        obtain ⟨s', hs', hi', hlen⟩ :=
          hpop.bytes hw hn ht hnd.1 (fun a ha => ((hmem a).1 ha).2) hcf
        dsimp only at hlen
        rw [hcs]
        dsimp only [Bind.bind, Except.bind]
        rw [hs']
        exact ih hi' (by omega)
      · refine .inr ⟨?_, _, hi.made _ (List.getElem_mem htop), hu⟩
        rw [hwide hu]
        rfl

/-- There are only so many lists of states without repetition. -/
theorem exists_bound (m : Nat) : ∃ B, ∀ L : List (List Addr), L.Nodup →
    (∀ l ∈ L, l.Nodup ∧ ∀ s ∈ l, s < m) → L.length ≤ B := by
  have hfin : {l : List Addr | l.Nodup ∧ ∀ s ∈ l, s < m}.Finite := by
    apply ((List.finite_length_le (Fin m) m).image (List.map Fin.val)).subset
    rintro l ⟨hl, hlt⟩
    refine ⟨l.pmap Fin.mk hlt, ?_, ?_⟩
    · rw [Set.mem_ofPred_eq, List.length_pmap]
      exact length_le_of_nodup hl hlt
    · rw [List.map_pmap, List.pmap_eq_map, List.map_id']
  refine ⟨hfin.toFinset.card, fun L hL hall => ?_⟩
  rw [← List.toFinset_card_of_nodup hL]
  exact Finset.card_le_card fun l hl => hfin.mem_toFinset.2 (hall l (List.mem_toFinset.1 hl))

theorem Subsets.Inv.start (o : Order) {l : List Addr} (hl : l.Nodup)
    (hmem : ∀ t, t ∈ l ↔ t ∈ h.graph.evalFrom {n.Start} []) :
    Inv o h n [] ⟨[nfaDstate h (o.keys 0 l)], [fun _ => 0], [false], [0], 1⟩ := by
  have hsingle {i : Nat} {u : DfaState} (hu : [nfaDstate h (o.keys 0 l)][i]? = some u) :
      i = 0 ∧ u = nfaDstate h (o.keys 0 l) := by
    cases i with
    | zero => exact ⟨rfl, (Option.some.inj hu).symm⟩
    | succ => cases hu
  constructor
  · exact Nat.one_pos
  · intro i u hu
    obtain ⟨rfl, rfl⟩ := hsingle hu
    by_cases hne : o.keys 0 l = []
    · rw [hne]
      rfl
    · obtain ⟨q, y, hp⟩ := exists_passes h hne
      rw [hp.nfaDstate]
  · exact ⟨_, l, rfl, hl, hmem, rfl⟩
  · exact List.forall_mem_singleton.2 ⟨0, [], l, hl, hmem, rfl, rfl, rfl⟩
  · exact List.nodup_singleton _
  · intro i
    cases i <;> rfl
  · rfl
  · exact List.forall_mem_singleton.2 Nat.one_pos
  · exact List.nodup_singleton 0
  · intro i hi row hr a
    rw [List.mem_singleton.1 hi] at hr
    cases hr
    rfl
  · intro i u row hu _ hi
    exact absurd (List.mem_singleton.2 (hsingle hu).1) hi
  · intro i u hu hi
    exact absurd (List.mem_singleton.2 (hsingle hu).1) hi

theorem DfaState.Made.nodup (hu : u.Made o h n) : u.states.Nodup := by
  obtain ⟨k, w, l, hl, -, hstates, -⟩ := hu
  rw [hstates]
  exact (nfaDstate_spec h _).1.nodup_iff.2 ((o.perm k l).nodup_iff.2 hl)

/-- With fuel enough, `subsets` returns or comes to a byte out of range. How much that is
depends only on how many states there are. -/
theorem subsets_spec (m : Nat) :
    ∃ N, ∀ h n o fuel, h.size = m → h.Within → n.Start < m → N ≤ fuel →
    (∃ s : Subsets, subsets o fuel h n = .ok s ∧ s.Inv o h n [] ∧ s.stack = []) ∨
      subsets o fuel h n = .error .panic ∧ ∃ u : DfaState, u.Made o h n ∧ ¬ u.Narrow h := by
  obtain ⟨B, hB⟩ := exists_bound m
  refine ⟨B + 2 * m + 1, fun h n o fuel hm hw hn hf => ?_⟩
  subst hm
  have hsize : [n.Start].length + h.size ≤ fuel := by
    rw [List.length_singleton]
    omega
  obtain ⟨l, hl, hnd, hmem⟩ := eClosure_spec hw o 0 (List.forall_mem_singleton.2 hn) hsize
  have hstart : ∀ t, t ∈ l ↔ t ∈ h.graph.evalFrom {n.Start} [] := by
    intro t
    rw [hmem, εNFA.evalFrom_nil]
    simp only [List.mem_singleton, Set.ofPred_eq_eq_singleton]
  have hi := Subsets.Inv.start o hnd hstart
  have hbound (s : Subsets) (hs : s.Inv o h n []) : s.dstates.length ≤ B := by
    have hlen := hB (s.dstates.map DfaState.states) hs.distinct fun l hl => ?_
    · rwa [List.length_map] at hlen
    · obtain ⟨u, hu, rfl⟩ := List.mem_map.1 hl
      obtain ⟨w, hw'⟩ := (hs.made u hu).mem
      exact ⟨(hs.made u hu).nodup, fun x hx => hw.evalFrom hn ((hw' x).1 hx)⟩
  have hcf : 2 * h.size ≤ fuel := by omega
  rw [subsets, hl]
  apply hi.loop hw hn hcf hbound
  dsimp only [List.length_cons, List.length_nil]
  omega

end Misc.Re0
