import Misc.Sys.Polldesp

namespace Misc.Sys
open Misc.Lib
set_option autoImplicit true

namespace Pdslot

structure Counted (s : Pdslot) : Prop where
  size : s.marks.length = slotSize
  count : s.cnt + s.marks.count 0 = slotSize

theorem counted_fresh : fresh.Counted where
  size := by rw [fresh, List.length_set, List.length_replicate]
  count := by
    rw [fresh, List.count_set (by simp [slotSize]), List.count_replicate_self,
      List.getElem_replicate]
    rfl

section
variable {s : Pdslot} {i : Nat}

theorem Counted.cnt_eq (h : s.Counted) : s.cnt = s.marks.countP (· ≠ 0) := by
  have hall := List.length_eq_countP_add_countP (l := s.marks) (· == 0)
  have hne : s.marks.countP (fun m => ¬ (m == 0)) = s.marks.countP (· ≠ 0) :=
    List.countP_congr fun m _ => by simp
  have hcount := h.count
  rw [hne, h.size, ← List.count] at hall
  omega

theorem Counted.take (h : s.Counted) (hi : s.marks[i]? = some 0) : (s.take i).Counted where
  size := List.length_set.trans h.size
  count := by
    obtain ⟨hlt, hi⟩ := List.getElem?_eq_some_iff.1 hi
    have hcount := h.count
    have hmem : 0 < s.marks.count 0 := List.count_pos_iff.2 (hi ▸ List.getElem_mem hlt)
    rw [Pdslot.take, List.count_set hlt, hi]
    simp
    omega

theorem Counted.release (h : s.Counted) (hi : s.marks[i]? = some 1) :
    (s.release i).Counted ∧ 0 < s.cnt := by
  obtain ⟨hlt, hi⟩ := List.getElem?_eq_some_iff.1 hi
  have hcount := h.count
  have hmem : s.marks.count 0 < s.marks.length := by
    apply Nat.lt_of_le_of_ne List.count_le_length
    intro hall
    have hzero := List.count_eq_length.1 hall _ (List.getElem_mem hlt)
    rw [hi] at hzero
    cases hzero
  have hsize := h.size
  refine ⟨⟨List.length_set.trans h.size, ?_⟩, by omega⟩
  rw [Pdslot.release, List.count_set hlt, hi]
  simp
  omega

/-- The counter shows whether the slot was full before a descriptor is freed. -/
theorem Counted.release_full (h : s.Counted) (hi : s.marks[i]? = some 1) :
    (s.release i).cnt = slotSize - 1 ↔ s.cnt = slotSize := by
  have hpos := (h.release hi).2
  rw [Pdslot.release, slotSize]
  dsimp only
  omega

theorem takeMark_free {n : Nat} {marks : List UInt8} (h : takeMark n marks = some i) :
    marks[i]? = some 0 := by
  induction n with
  | zero => cases h
  | succ n ih =>
    rw [takeMark, Option.or_eq_some_iff] at h
    rcases h with h | ⟨-, h⟩
    · obtain ⟨hlt, hzero, -⟩ := List.idxOf?_eq_some_iff.1 h
      exact List.getElem?_eq_some_iff.2 ⟨hlt, hzero⟩
    · exact ih h

theorem takeMark_isSome {n : Nat} {marks : List UInt8} (h : 0 < marks.count 0) :
    ∃ i, takeMark (n + 1) marks = some i := by
  have hsome : (marks.idxOf? 0).isSome := List.isSome_idxOf?.2 (List.count_pos_iff.1 h)
  obtain ⟨i, hi⟩ := Option.isSome_iff_exists.1 hsome
  exact ⟨i, by rw [takeMark, hi, Option.some_or]⟩

end

end Pdslot

namespace Pdpool

/-- The marks of the slots are the descriptors that are allocated, and the counters agree with
them. -/
structure Owned (p : Pdpool) (live : List Polldesp) : Prop where
  counted : ∀ s ∈ p.slots, s.Counted
  marked : ∀ pd ∈ live, ∃ s, p.slots[pd.slot]? = some s ∧ s.marks[pd.idx]? = some 1
  nodup : live.Nodup

section
variable {p p' : Pdpool} {live : List Polldesp} {pd : Polldesp} {s s' : Pdslot} {a n : Nat}

theorem putPartial_slot (p : Pdpool) (a b : Nat) : (p.putPartial a).slots[b]? =
    if a = b then p.slots[b]?.map fun s => { s with pnext := p.partialSlot }
      else p.slots[b]? := by
  rw [putPartial, List.getElem?_modify]
  split_ifs <;> simp

theorem Owned.putPartial (h : p.Owned live) (a : Nat) : (p.putPartial a).Owned live where
  counted := by
    intro s hmem
    obtain ⟨b, hb⟩ := List.getElem?_of_mem hmem
    rw [putPartial_slot] at hb
    split_ifs at hb
    · obtain ⟨s₀, hs₀, rfl⟩ := Option.map_eq_some_iff.1 hb
      have hc := h.counted s₀ (List.mem_of_getElem? hs₀)
      exact ⟨hc.size, hc.count⟩
    · exact h.counted s (List.mem_of_getElem? hb)
  marked := by
    intro pd hpd
    obtain ⟨s, hs, hmark⟩ := h.marked pd hpd
    rw [putPartial_slot, hs]
    split_ifs
    · exact ⟨_, rfl, hmark⟩
    · exact ⟨s, rfl, hmark⟩
  nodup := h.nodup

theorem Owned.set (h : p.Owned live) (hs : p.slots[a]? = some s) (hc : s'.Counted)
    {live' : List Polldesp} (hnodup : live'.Nodup) (hsub : ∀ pd ∈ live', pd ∈ live ∨ pd.slot = a)
    (hmark : ∀ pd ∈ live', pd.slot = a → s'.marks[pd.idx]? = some 1) :
    ({ p with slots := p.slots.set a s' } : Pdpool).Owned live' where
  counted := by
    intro t ht
    rcases List.mem_or_eq_of_mem_set ht with ht | rfl
    · exact h.counted t ht
    · exact hc
  marked := by
    intro pd hpd
    have hlt := (List.getElem?_eq_some_iff.1 hs).1
    dsimp only
    rw [List.getElem?_set]
    by_cases heq : a = pd.slot
    · rw [if_pos heq, if_pos hlt]
      exact ⟨s', rfl, hmark pd hpd heq.symm⟩
    · rw [if_neg heq]
      exact h.marked pd ((hsub pd hpd).resolve_right (Ne.symm heq))
  nodup := hnodup

theorem Owned.append (h : p.Owned live) :
    ({ p with slots := p.slots ++ [.fresh] } : Pdpool).Owned (⟨p.slots.length, 0⟩ :: live) where
  counted := by
    intro s hs
    rcases List.mem_append.1 hs with hs | hs
    · exact h.counted s hs
    · rw [List.mem_singleton.1 hs]
      exact Pdslot.counted_fresh
  marked := by
    intro pd hpd
    rcases List.mem_cons.1 hpd with rfl | hpd
    · exact ⟨_, List.getElem?_concat_length, rfl⟩
    · obtain ⟨s, hs, hmark⟩ := h.marked pd hpd
      refine ⟨s, ?_, hmark⟩
      rw [List.getElem?_append_left (List.getElem?_eq_some_iff.1 hs).1, hs]
  nodup := by
    refine List.nodup_cons.2 ⟨fun hmem => ?_, h.nodup⟩
    obtain ⟨s, hs, -⟩ := h.marked _ hmem
    exact absurd (List.getElem?_eq_some_iff.1 hs).1 (Nat.lt_irrefl _)

theorem Owned.slot (h : p.Owned live) (hpd : pd ∈ live) : ∃ s, p.slots[pd.slot]? = some s ∧
    s.marks[pd.idx]? = some 1 ∧ s.Counted := by
  obtain ⟨s, hs, hmark⟩ := h.marked pd hpd
  exact ⟨s, hs, hmark, h.counted s (List.mem_of_getElem? hs)⟩

theorem Owned.not_mem {i : Nat} (h : p.Owned live) (hs : p.slots[a]? = some s)
    (hi : s.marks[i]? = some 0) : ⟨a, i⟩ ∉ live := by
  intro hmem
  obtain ⟨t, ht, hmark⟩ := h.marked _ hmem
  cases hs.symm.trans ht
  cases hi.symm.trans hmark

theorem Owned.take {i : Nat} (h : p.Owned live) (hs : p.slots[a]? = some s)
    (hi : s.marks[i]? = some 0) :
    ({ p with slots := p.slots.set a (s.take i) } : Pdpool).Owned (⟨a, i⟩ :: live) := by
  have hc := (h.counted s (List.mem_of_getElem? hs)).take hi
  refine h.set hs hc (List.nodup_cons.2 ⟨h.not_mem hs hi, h.nodup⟩) ?_ ?_
  · intro pd hpd
    rcases List.mem_cons.1 hpd with rfl | hpd
    · exact Or.inr rfl
    · exact Or.inl hpd
  · intro pd hpd hslot
    have hlt := (List.getElem?_eq_some_iff.1 hi).1
    rw [Pdslot.take, List.getElem?_set]
    split_ifs with heq
    · rfl
    · rcases List.mem_cons.1 hpd with rfl | hpd
      · exact absurd rfl heq
      · obtain ⟨t, ht, hmark⟩ := h.marked pd hpd
        rw [hslot] at ht
        cases hs.symm.trans ht
        exact hmark

theorem Owned.release (h : p.Owned live) (hpd : pd ∈ live) (hs : p.slots[pd.slot]? = some s) :
    ({ p with slots := p.slots.set pd.slot (s.release pd.idx) } : Pdpool).Owned
      (live.erase pd) := by
  obtain ⟨s', hs', hmark, hc⟩ := h.slot hpd
  cases hs.symm.trans hs'
  refine h.set hs (hc.release hmark).1 (h.nodup.erase pd) (fun pd' hpd' => ?_) ?_
  · exact Or.inl (List.mem_of_mem_erase hpd')
  · intro pd' hpd' hslot
    obtain ⟨hne, hmem⟩ := h.nodup.mem_erase_iff.1 hpd'
    obtain ⟨t, ht, hmark'⟩ := h.marked pd' hmem
    rw [hslot] at ht
    cases hs.symm.trans ht
    rw [Pdslot.release, List.getElem?_set_ne, hmark']
    intro hidx
    cases pd
    cases pd'
    dsimp only at hidx hslot
    exact hne (by rw [hidx, hslot])

theorem Owned.alloc (h : p.Owned live) (ha : p.alloc n = some (pd, p')) :
    pd ∉ live ∧ p'.Owned (pd :: live) := by
  induction n generalizing p with
  | zero => cases ha
  | succ n ih =>
    cases hp : p.partialSlot with
    | none =>
      simp only [Pdpool.alloc, hp] at ha
      cases ha
      have hput := h.append.putPartial p.slots.length
      simp only [hp] at hput
      exact ⟨(List.nodup_cons.1 hput.nodup).1, hput⟩
    | some a =>
      simp only [Pdpool.alloc, hp] at ha
      obtain ⟨s, hs, ha⟩ := Option.bind_eq_some_iff.1 ha
      split_ifs at ha with hfull
      · exact ih (p := { p with partialSlot := s.pnext }) ⟨h.counted, h.marked, h.nodup⟩ ha
      · obtain ⟨i, hi, heq⟩ := Option.map_eq_some_iff.1 ha
        cases heq
        have hfree := Pdslot.takeMark_free hi
        rw [← hp]
        exact ⟨h.not_mem hs hfree, h.take hs hfree⟩

theorem Owned.free (h : p.Owned live) (hpd : pd ∈ live) (hf : p.free pd = some p') :
    p'.Owned (live.erase pd) := by
  obtain ⟨s, hs, heq⟩ := Option.map_eq_some_iff.1 hf
  have hrel := h.release hpd hs
  dsimp only at heq
  split_ifs at heq with hcnt
  · cases heq
    exact hrel.putPartial pd.slot
  · cases heq
    exact hrel

end

end Pdpool

namespace State

theorem owned_step {s t : State} {a : Act} (h : s.pool.Owned s.live) (hs : s.step a = some t) :
    t.pool.Owned t.live := by
  cases a with
  | alloc n =>
    obtain ⟨⟨pd, pool⟩, halloc, heq⟩ := Option.map_eq_some_iff.1 hs
    cases heq
    exact (h.alloc halloc).2
  | free pd =>
    obtain ⟨hpd, hs⟩ := Option.ite_none_right_eq_some.1 hs
    obtain ⟨pool, hfree, heq⟩ := Option.map_eq_some_iff.1 hs
    cases heq
    exact h.free hpd hfree

theorem owned_reach {s : State} (h : machine.Reach s) : s.pool.Owned s.live := by
  refine h.invariant (fun s hs => ?_) fun s a t hinv _ => owned_step hinv
  cases hs
  exact ⟨nofun, nofun, List.nodup_nil⟩

/-- No descriptor is given out twice, and each counter is the number of the marks of its slot. -/
theorem alloc_unshared {s : State} (h : machine.Reach s) :
    (∀ n pd pool, s.pool.alloc n = some (pd, pool) → pd ∉ s.live) ∧
    ∀ slot ∈ s.pool.slots, slot.cnt = slot.marks.countP (· ≠ 0) ∧ slot.cnt ≤ slotSize := by
  have hinv := owned_reach h
  refine ⟨fun n pd pool ha => (hinv.alloc ha).1, fun slot hslot => ?_⟩
  have hc := hinv.counted slot hslot
  exact ⟨hc.cnt_eq, hc.count ▸ Nat.le_add_right _ _⟩

/-- Three descriptors are allocated, of which one is freed. -/
theorem alloc_unshared_few : ∃ s : State, machine.Reach s ∧ s.live = [⟨0, 2⟩, ⟨0, 1⟩] ∧
    (∀ n pd pool, s.pool.alloc n = some (pd, pool) → pd ∉ s.live) ∧
    ∀ slot ∈ s.pool.slots, slot.cnt = slot.marks.countP (· ≠ 0) ∧ slot.cnt ≤ slotSize := by
  have hexec : machine.exec ⟨.new, []⟩ [.alloc 1, .alloc 2, .alloc 2, .free ⟨0, 0⟩] =
      some ⟨_, [⟨0, 2⟩, ⟨0, 1⟩]⟩ := rfl
  have hreach := Machine.Reach.of_exec (M := machine) rfl hexec
  exact ⟨_, hreach, rfl, alloc_unshared hreach⟩

end State

end Misc.Sys
