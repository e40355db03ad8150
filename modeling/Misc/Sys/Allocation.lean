import Misc.Sys.Distinct

namespace Misc.Sys
open Misc.Lib
set_option autoImplicit true

namespace Pdpool

def Ends (p : Pdpool) : Prop := ∃ l, Linked p.next p.partialSlot l

/-- The pool between two calls. -/
structure Inv (p : Pdpool) (live : List Polldesp) : Prop where
  ends : p.Ends
  counted : ∀ s ∈ p.slots, s.Counted
  marked : ∀ pd ∈ live, ∃ s, p.slots[pd.slot]? = some s ∧ s.marks[pd.idx]? = some 1
  nodup : live.Nodup

section
variable {p p' : Pdpool} {live : List Polldesp} {pd : Polldesp} {s s' : Pdslot} {a b n : Nat}

theorem next_set (hs : p.slots[a]? = some s) (hnext : s'.pnext = s.pnext) :
    ({ p with slots := p.slots.set a s' } : Pdpool).next = p.next := by
  funext b
  rw [next, next, List.getElem?_set]
  split_ifs with hab hlt
  · rw [← hab, hs, Option.map_some, Option.map_some, hnext]
  · exact absurd (List.getElem?_eq_some_iff.1 hs).1 hlt
  · rfl

theorem next_release {i : Nat} (hs : p.slots[a]? = some s) :
    ({ p with slots := p.slots.set a (s.release i) } : Pdpool).next = p.next :=
  next_set hs rfl

theorem next_append (hb : b ≠ p.slots.length) :
    ({ p with slots := p.slots ++ [s] } : Pdpool).next b = p.next b := by
  rw [next, next]
  rcases Nat.lt_or_gt_of_ne hb with hlt | hgt
  · rw [List.getElem?_append_left hlt]
  · rw [List.getElem?_eq_none (Nat.le_of_lt hgt), List.getElem?_eq_none]
    rw [List.length_append]
    exact hgt

theorem next_putPartial_self (hs : p.slots[a]? = some s) :
    (p.putPartial a).next a = some p.partialSlot := by
  rw [next, putPartial_slot, if_pos rfl, hs]
  rfl

theorem next_putPartial_ne (hb : b ≠ a) : (p.putPartial a).next b = p.next b := by
  rw [next, putPartial_slot, if_neg hb.symm, next]

/-- A slot is pushed on the list with impunity if and only if it is not on it. -/
theorem Ends.putPartial_iff (h : p.Ends) (hs : p.slots[a]? = some s) :
    (p.putPartial a).Ends ↔ ¬ Reaches p.next p.partialSlot a := by
  obtain ⟨l, h⟩ := h
  exact h.push_front_iff (fun b => next_putPartial_ne) (next_putPartial_self hs)

theorem Inv.owned (h : p.Inv live) : p.Owned live := ⟨h.counted, h.marked, h.nodup⟩

theorem Owned.inv (h : p.Owned live) (hends : p.Ends) : p.Inv live :=
  ⟨hends, h.counted, h.marked, h.nodup⟩

theorem Inv.putPartial (h : p.Inv live) (hs : p.slots[a]? = some s)
    (ha : ¬ Reaches p.next p.partialSlot a) : (p.putPartial a).Inv live :=
  (h.owned.putPartial a).inv ((h.ends.putPartial_iff hs).2 ha)

theorem Ends.set (h : p.Ends) (hs : p.slots[a]? = some s) (hnext : s'.pnext = s.pnext) :
    ({ p with slots := p.slots.set a s' } : Pdpool).Ends := by
  rw [Ends, next_set hs hnext]
  exact h

theorem Ends.append (h : p.Ends) : ({ p with slots := p.slots ++ [s] } : Pdpool).Ends := by
  obtain ⟨l, h⟩ := h
  refine ⟨l, h.congr fun b hb => next_append ?_⟩
  obtain ⟨s, t, rfl⟩ := List.append_of_mem hb
  obtain ⟨c, -, -, hc, -⟩ := h.suffix.front_some
  obtain ⟨slot, hslot, -⟩ := Option.map_eq_some_iff.1 hc
  exact Nat.ne_of_lt (List.getElem?_eq_some_iff.1 hslot).1

theorem Inv.skip (h : p.Inv live) (hp : p.partialSlot = some a) (hs : p.slots[a]? = some s) :
    ({ p with partialSlot := s.pnext } : Pdpool).Inv live where
  ends := by
    obtain ⟨l, hl⟩ := h.ends
    rw [hp] at hl
    obtain ⟨b, l', -, hb, hl'⟩ := hl.front_some
    rw [next, hs, Option.map_some, Option.some_inj] at hb
    exact ⟨l', hb ▸ hl'⟩
  counted := h.counted
  marked := h.marked
  nodup := h.nodup

theorem Inv.alloc (h : p.Inv live) (ha : p.alloc n = some (pd, p')) : p'.Inv (pd :: live) := by
  apply (h.owned.alloc ha).2.inv
  induction n generalizing p with
  | zero => cases ha
  | succ n ih =>
    cases hp : p.partialSlot with
    | none =>
      simp only [Pdpool.alloc, hp] at ha
      cases ha
      have hput := (h.ends.append (s := .fresh)).putPartial_iff List.getElem?_concat_length |>.2
        (by rw [hp]; rintro ⟨⟩)
      simp only [hp] at hput
      exact hput
    | some a =>
      simp only [Pdpool.alloc, hp] at ha
      obtain ⟨s, hs, ha⟩ := Option.bind_eq_some_iff.1 ha
      split_ifs at ha with hfull
      · exact ih (h.skip hp hs) ha
      · obtain ⟨i, hi, heq⟩ := Option.map_eq_some_iff.1 ha
        cases heq
        rw [← hp]
        exact h.ends.set hs rfl

/-- With a list that ends the loops of `alloc` end. -/
theorem Inv.terminates (h : p.Inv live) : ∃ n, (p.alloc n).isSome := by
  obtain ⟨l, hl⟩ := h.ends
  refine ⟨l.length + 2, ?_⟩
  induction l generalizing p with
  | nil =>
    cases hp : p.partialSlot with
    | none => simp [Pdpool.alloc, hp]
    | some a =>
      rw [hp] at hl
      cases hl
  | cons a l ih =>
    cases hp : p.partialSlot with
    | none =>
      rw [hp] at hl
      cases hl
    | some b =>
      rw [hp] at hl
      cases hl with
      | cons hnext hl =>
        obtain ⟨s, hs, rfl⟩ := Option.map_eq_some_iff.1 hnext
        rw [Pdpool.alloc, hp]
        dsimp only
        rw [hs, Option.bind_some]
        split_ifs with hfull
        · exact ih (h.skip hp hs) hl
        · have hcount := (h.counted s (List.mem_of_getElem? hs)).count
          obtain ⟨i, hi⟩ := @Pdslot.takeMark_isSome (a :: l).length s.marks (by omega)
          rw [hi]
          rfl

theorem Inv.release (h : p.Inv live) (hpd : pd ∈ live) (hs : p.slots[pd.slot]? = some s) :
    ({ p with slots := p.slots.set pd.slot (s.release pd.idx) } : Pdpool).Inv (live.erase pd) :=
  (h.owned.release hpd hs).inv (h.ends.set hs rfl)

end

end Pdpool

namespace State

/-- A slot that is full is not on the list when one of its descriptors is freed. -/
def Detached (s : State) : Act → Prop
  | .alloc _ => True
  | .free pd => ∀ slot, s.pool.slots[pd.slot]? = some slot → slot.cnt = slotSize →
      ¬ Reaches s.pool.next s.pool.partialSlot pd.slot

section
variable {s t : State} {a : Act}

theorem inv_step (h : s.pool.Inv s.live) (ha : s.Detached a) (hs : s.step a = some t) :
    t.pool.Inv t.live := by
  cases a with
  | alloc n =>
    obtain ⟨⟨pd, pool⟩, halloc, heq⟩ := Option.map_eq_some_iff.1 hs
    cases heq
    exact h.alloc halloc
  | free pd =>
    obtain ⟨hpd, hs⟩ := Option.ite_none_right_eq_some.1 hs
    obtain ⟨pool, hfree, heq⟩ := Option.map_eq_some_iff.1 hs
    cases heq
    obtain ⟨slot, hslot, heq⟩ := Option.map_eq_some_iff.1 hfree
    obtain ⟨slot', hslot', hmark, hc⟩ := h.owned.slot hpd
    cases hslot.symm.trans hslot'
    have hrel := h.release hpd hslot
    dsimp only at heq
    split_ifs at heq with hcnt
    · cases heq
      have hlt := (List.getElem?_eq_some_iff.1 hslot).1
      refine hrel.putPartial (List.getElem?_set_self hlt) ?_
      rw [Pdpool.next_release hslot]
      exact ha slot hslot ((hc.release_full hmark).1 hcnt)
    · cases heq
      exact hrel

/-- A descriptor is freed with impunity only so. -/
theorem ends_iff {pd : Polldesp} (h : s.pool.Inv s.live) (hs : s.step (.free pd) = some t) :
    t.pool.Ends ↔ s.Detached (.free pd) := by
  refine ⟨fun hends slot hslot hfull => ?_, fun ha => (inv_step h ha hs).ends⟩
  obtain ⟨hpd, hs⟩ := Option.ite_none_right_eq_some.1 hs
  obtain ⟨pool, hfree, heq⟩ := Option.map_eq_some_iff.1 hs
  cases heq
  obtain ⟨slot', hslot', heq⟩ := Option.map_eq_some_iff.1 hfree
  cases hslot.symm.trans hslot'
  obtain ⟨slot', hslot', hmark, hc⟩ := h.owned.slot hpd
  cases hslot.symm.trans hslot'
  dsimp only at heq
  rw [if_pos ((hc.release_full hmark).2 hfull)] at heq
  cases heq
  have hlt := (List.getElem?_eq_some_iff.1 hslot).1
  have hnot := ((h.release hpd hslot).ends.putPartial_iff (List.getElem?_set_self hlt)).1 hends
  rwa [Pdpool.next_release hslot] at hnot

theorem inv_reach (h : machine.ReachIf Detached s) : s.pool.Inv s.live := by
  refine h.invariant (fun s hs => ?_) fun s a t => inv_step
  cases hs
  exact ⟨⟨[], .nil⟩, nofun, nofun, List.nodup_nil⟩

end

/-- In every run in which no full slot that is still on the list loses a descriptor, every
`alloc` ends, and so does the list, which has no cycle. -/
theorem alloc_ends {s : State} (h : machine.ReachIf Detached s) :
    (∃ n, (s.pool.alloc n).isSome) ∧ ∃ l, Linked s.pool.next s.pool.partialSlot l ∧ l.Nodup := by
  have hinv := inv_reach h
  obtain ⟨l, hl⟩ := hinv.ends
  exact ⟨hinv.terminates, l, hl, hl.nodup⟩

def atFirst : State := ⟨.new, []⟩

/-- Two descriptors are allocated and the first is freed. -/
theorem alloc_ends_few : ∃ s, machine.ReachIf Detached s ∧ s.live = [⟨0, 1⟩] ∧
    (∃ n, (s.pool.alloc n).isSome) ∧ ∃ l, Linked s.pool.next s.pool.partialSlot l ∧ l.Nodup := by
  have hreach : machine.ReachIf Detached _ := ⟨atFirst, [.alloc 1, .alloc 2, .free ⟨0, 0⟩], rfl,
    .cons trivial rfl (.cons trivial rfl (.cons (fun slot hslot hfull => by
      cases hslot
      exact absurd hfull (by decide)) rfl (.nil _)))⟩
  exact ⟨_, hreach, rfl, alloc_ends hreach⟩

end State

/-- A full slot that is its own successor is taken off the list and found there again. -/
theorem Pdpool.alloc_stuck {p : Pdpool} {a : Nat} {s : Pdslot} (hp : p.partialSlot = some a)
    (hs : p.slots[a]? = some s) (hnext : s.pnext = some a)
    (hfull : slotSize < s.cnt + 1) (n : Nat) : p.alloc n = none := by
  induction n with
  | zero => rfl
  | succ n ih =>
    have hsame : ({ p with partialSlot := s.pnext } : Pdpool) = p := by
      rw [hnext, ← hp]
    rw [Pdpool.alloc, hp]
    dsimp only
    rw [hs, Option.bind_some, if_pos hfull, hsame, ih]

/-- A slot is filled, and then a descriptor is freed and allocated again. -/
def refilled : List Act := List.replicate 128 (.alloc 2) ++ [.free ⟨0, 0⟩, .alloc 2]

set_option maxRecDepth 4000 in
theorem refilled_ring : (machine.exec State.atFirst refilled).map (fun s =>
    (s.pool.partialSlot, s.pool.slots[0]?.map fun slot => (slot.cnt, slot.pnext))) =
      some (some 0, some (128, some 0)) := by
  decide +kernel

theorem alloc_loops : ¬ ∀ s, machine.Reach s →
    (∃ n, (s.pool.alloc n).isSome) ∧ ∃ l, Linked s.pool.next s.pool.partialSlot l ∧ l.Nodup := by
  intro h
  obtain ⟨s, hexec, heq⟩ := Option.map_eq_some_iff.1 refilled_ring
  obtain ⟨hp, hslot⟩ := Prod.mk.inj heq
  obtain ⟨slot, hs, heq⟩ := Option.map_eq_some_iff.1 hslot
  obtain ⟨hcnt, hnext⟩ := Prod.mk.inj heq
  obtain ⟨⟨n, hsome⟩, -⟩ := h s (.of_exec rfl hexec)
  rw [Pdpool.alloc_stuck hp hs hnext (by rw [hcnt]; decide)] at hsome
  cases hsome

end Misc.Sys
