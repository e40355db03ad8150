import Misc.Sys.Concurrent

namespace Misc.Sys.Concurrent
open Misc.Lib
set_option autoImplicit true

namespace Pc

/-- The descriptor that a goroutine has taken and not yet returned, or was given and has not yet
cleared. -/
def hand : Pc → Option Polldesp
  | .loadPartial _ got | .storeNext _ _ got | .readNext _ got | .swapPartial _ _ got => got
  | .clear pd => some pd
  | _ => none

/-- The slot in whose counter the goroutine is counted while no mark is set for it. -/
def claim : Pc → Option Nat
  | .undo a | .scan a _ | .take a _ | .release a => some a
  | _ => none

/-- The slot in which room is kept for the goroutine. -/
def room : Pc → Option Nat
  | .scan a _ | .take a _ | .release a => some a
  | _ => none

/-- The slots that the goroutine points to. -/
def slots : Pc → List Nat
  | .out | .load | .grow => []
  | .reserve a | .undo a | .next a | .scan a _ | .take a _ | .release a => [a]
  | .unlink a v | .storeNext a v _ | .swapPartial a v _ => a :: v.toList
  | .loadPartial a _ | .readNext a _ => [a]
  | .clear pd => [pd.slot]

theorem mem_slots_of_claim {pc : Pc} (h : pc.claim = some a) : a ∈ pc.slots := by
  cases pc <;> cases h <;> exact List.mem_singleton_self _

theorem claim_of_room {pc : Pc} (h : pc.room = some a) : pc.claim = some a := by
  cases pc <;> first | exact h | cases h

theorem countP_claim (a : Nat) (pcs : List Pc) : pcs.countP (·.claim = some a) =
    pcs.countP (·.room = some a) + pcs.countP (· = .undo a) := by
  induction pcs with
  | nil => rfl
  | cons pc pcs ih =>
    simp only [List.countP_cons, ih]
    cases pc <;> simp [claim, room] <;> omega

end Pc

namespace Slot

def used (slot : Slot) : Nat := slot.marks.countP (· ≠ 0)

/-- The counter of the slot `a` counts its marks and the goroutines on their way to one or
back. -/
structure Counted (slot : Slot) (pcs : List Pc) (a : Nat) : Prop where
  size : slot.marks.length = slotSize
  cnt : slot.cnt = slot.used + pcs.countP (·.claim = some a)
  room : slot.used + pcs.countP (·.room = some a) ≤ slotSize

section
variable {slot slot' : Slot} {pcs : List Pc} {pc pc' : Pc} {t a : Nat}

theorem Counted.exchange (h : slot.Counted pcs a) (hpc : pcs[t]? = some pc)
    (hsize : slot'.marks.length = slot.marks.length)
    (hcnt : slot'.cnt + slot.used + (decide (pc.claim = some a)).toNat =
      slot.cnt + slot'.used + (decide (pc'.claim = some a)).toNat)
    (hroom : slot'.used + pcs.countP (·.room = some a) + (decide (pc'.room = some a)).toNat ≤
      slotSize + (decide (pc.room = some a)).toNat) :
    slot'.Counted (pcs.set t pc') a where
  size := hsize.trans h.size
  cnt := by
    have hset := countP_exchange (p := fun pc : Pc => decide (pc.claim = some a)) (b := pc') hpc
    have hold := h.cnt
    omega
  room := by
    have hset := countP_exchange (p := fun pc : Pc => decide (pc.room = some a)) (b := pc') hpc
    omega

theorem Counted.goto (h : slot.Counted pcs a) (hpc : pcs[t]? = some pc)
    (hclaim : pc'.claim = some a ↔ pc.claim = some a)
    (hroom : pc'.room = some a ↔ pc.room = some a) : slot.Counted (pcs.set t pc') a := by
  refine h.exchange hpc rfl ?_ ?_
  · simp only [hclaim]
  · simp only [hroom]
    have hold := h.room
    omega

theorem Counted.cnt_le (h : slot.Counted pcs a) :
    slot.used + pcs.countP (·.room = some a) ≤ slot.cnt := by
  have hle : pcs.countP (·.room = some a) ≤ pcs.countP (·.claim = some a) :=
    List.countP_mono_left fun pc _ hroom => by
      simp only [decide_eq_true_eq] at hroom ⊢
      exact Pc.claim_of_room hroom
  rw [h.cnt]
  omega

theorem used_set_one {i : Nat} (hi : slot.marks[i]? = some 0) :
    ({ slot with marks := slot.marks.set i 1 } : Slot).used = slot.used + 1 := by
  have hset := countP_exchange (p := fun m : UInt8 => decide (m ≠ 0)) (b := 1) hi
  simpa [used] using hset

theorem used_set_zero {i : Nat} {m : UInt8} (hi : slot.marks[i]? = some m) (hm : m ≠ 0) :
    ({ slot with marks := slot.marks.set i 0 } : Slot).used + 1 = slot.used := by
  have hset := countP_exchange (p := fun m : UInt8 => decide (m ≠ 0)) (b := 0) hi
  simpa [used, hm] using hset

theorem counted_fresh (hpcs : ∀ pc ∈ pcs, pc.claim ≠ some a) : fresh.Counted pcs a := by
  have hclaim : pcs.countP (·.claim = some a) = 0 :=
    List.countP_eq_zero.2 fun pc hpc => by simpa using hpcs pc hpc
  have hroom : pcs.countP (·.room = some a) = 0 :=
    List.countP_eq_zero.2 fun pc hpc => by
      simpa using fun h => hpcs pc hpc (Pc.claim_of_room h)
  have hused : fresh.used = 1 := by decide +kernel
  refine ⟨by rw [fresh, List.length_set, List.length_replicate], ?_, ?_⟩
  · rw [hclaim, hused]
    rfl
  · rw [hroom, hused]
    decide

end

end Slot

namespace State

def Counted (s : State) : Prop :=
  ∀ a (slot : Slot), s.slots[a]? = some slot → slot.Counted s.pcs a

def marked (s : State) (pd : Polldesp) : Bool :=
  (s.slots[pd.slot]?.bind fun slot : Slot => slot.marks[pd.idx]?).any (· ≠ 0)

/-- Every mark that is set belongs to one holder or to one goroutine. -/
def Owned (s : State) : Prop :=
  ∀ pd, s.held.count pd + s.pcs.countP (·.hand = some pd) = (s.marked pd).toNat

structure Pointed (s : State) : Prop where
  head : ∀ a ∈ s.partialSlot, a < s.slots.length
  links : ∀ slot ∈ s.slots, ∀ a ∈ slot.pnext, a < s.slots.length
  pcs : ∀ pc ∈ s.pcs, ∀ a ∈ pc.slots, a < s.slots.length

section
variable {s s' : State} {slot slot' : Slot} {pc pc' : Pc} {pd : Polldesp} {t a b : Nat}

theorem Counted.goto (h : s.Counted) (hpc : s.pcs[t]? = some pc) (hclaim : pc'.claim = pc.claim)
    (hroom : pc'.room = pc.room) : (s.goto t pc').Counted := fun a slot hslot =>
  (h a slot hslot).goto hpc (by rw [hclaim]) (by rw [hroom])

theorem Counted.setSlot (h : s.Counted) (hpc : s.pcs[t]? = some pc)
    (hnew : slot'.Counted (s.pcs.set t pc') a)
    (hclaim : ∀ b ≠ a, pc'.claim = some b ↔ pc.claim = some b)
    (hroom : ∀ b ≠ a, pc'.room = some b ↔ pc.room = some b) :
    ((s.setSlot a slot').goto t pc').Counted := by
  intro b slot hslot
  change (s.slots.set a slot')[b]? = some slot at hslot
  by_cases hb : b = a
  · subst hb
    rw [List.getElem?_set_self' ] at hslot
    obtain ⟨_, -, rfl⟩ := Option.map_eq_some_iff.1 hslot
    exact hnew
  · rw [List.getElem?_set_ne (Ne.symm hb)] at hslot
    exact (h b slot hslot).goto hpc (hclaim b hb) (hroom b hb)

theorem Counted.grow (h : s.Counted) (hptr : s.Pointed) (hpc : s.pcs[t]? = some pc)
    (hclaim : pc'.claim = pc.claim) (hroom : pc'.room = pc.room) :
    ({ s with slots := s.slots ++ [Slot.fresh] }.goto t pc').Counted := by
  intro b slot hslot
  change (s.slots ++ [Slot.fresh])[b]? = some slot at hslot
  by_cases hb : b < s.slots.length
  · rw [List.getElem?_append_left hb] at hslot
    exact h.goto hpc hclaim hroom b slot hslot
  · rw [List.getElem?_append_right (Nat.le_of_not_lt hb), List.getElem?_singleton] at hslot
    split_ifs at hslot with hlen
    obtain rfl : b = s.slots.length := by omega
    cases hslot
    apply Slot.counted_fresh
    intro pc₁ hmem hsome
    rcases List.mem_or_eq_of_mem_set hmem with hmem | rfl
    · exact Nat.lt_irrefl _ (hptr.pcs pc₁ hmem _ (Pc.mem_slots_of_claim hsome))
    · exact Nat.lt_irrefl _
        (hptr.pcs pc (List.mem_of_getElem? hpc) _ (Pc.mem_slots_of_claim (hclaim ▸ hsome)))

theorem Owned.marked_of_hand (h : s.Owned) (hpc : s.pcs[t]? = some pc)
    (hhand : pc.hand = some pd) : s.marked pd = true := by
  have hle := toNat_le_countP (p := fun pc : Pc => decide (pc.hand = some pd)) hpc
  have hpd := h pd
  rw [decide_eq_true hhand] at hle
  cases hm : s.marked pd with
  | true => rfl
  | false =>
    rw [hm] at hpd
    simp only [Bool.toNat_true, Bool.toNat_false] at hle hpd
    omega

theorem Counted.run (h : s.Counted) (hown : s.Owned) (hptr : s.Pointed)
    (hpc : s.pcs[t]? = some pc)
    (hrun : s.run t pc = some s') : s'.Counted := by
  cases pc with
  | out => cases hrun
  | load =>
    cases hrun
    refine h.goto hpc ?_ ?_ <;> cases s.partialSlot <;> rfl
  | grow =>
    cases hrun
    exact h.grow hptr hpc rfl rfl
  | reserve a =>
    obtain ⟨slot, hslot, rfl⟩ := Option.map_eq_some_iff.1 hrun
    have hold := h a slot hslot
    have hle := hold.cnt_le
    have hroom := hold.room
    by_cases hfull : (slotSize : Int) < slot.cnt + 1
    · rw [if_pos hfull]
      refine h.setSlot hpc (hold.exchange hpc rfl ?_ ?_) ?_ ?_
      · simp [Pc.claim, Slot.used]; omega
      · simpa [Pc.room, Slot.used] using hroom
      · intro b hb; simp [Pc.claim, hb.symm]
      · intro b hb; simp [Pc.room]
    · rw [if_neg hfull]
      refine h.setSlot hpc (hold.exchange hpc rfl ?_ ?_) ?_ ?_
      · simp [Pc.claim, Slot.used]; omega
      · simp [Pc.room, Slot.used] at hle ⊢; omega
      · intro b hb; simp [Pc.claim, hb.symm]
      · intro b hb; simp [Pc.room, hb.symm]
  | undo a =>
    obtain ⟨slot, hslot, rfl⟩ := Option.map_eq_some_iff.1 hrun
    have hold := h a slot hslot
    have hroom := hold.room
    refine h.setSlot hpc (hold.exchange hpc rfl ?_ ?_) ?_ ?_
    · simp [Pc.claim, Slot.used]; omega
    · simpa [Pc.room, Slot.used] using hroom
    · intro b hb; simp [Pc.claim, hb.symm]
    · intro b hb; simp [Pc.room]
  | next a =>
    obtain ⟨slot, hslot, rfl⟩ := Option.map_eq_some_iff.1 hrun
    exact h.goto hpc rfl rfl
  | unlink a v =>
    cases hrun
    split_ifs <;> exact Counted.goto (s := { s with partialSlot := _ }) h hpc rfl rfl
  | scan a i =>
    obtain ⟨slot, hslot, rfl⟩ := Option.map_eq_some_iff.1 hrun
    cases slot.marks[i]? with
    | none => exact h.goto hpc rfl rfl
    | some m =>
      exact h.goto hpc (by dsimp only; split_ifs <;> rfl) (by dsimp only; split_ifs <;> rfl)
  | take a i =>
    obtain ⟨slot, hslot, rfl⟩ := Option.map_eq_some_iff.1 hrun
    have hold := h a slot hslot
    have hroom := hold.room
    by_cases hi : slot.marks[i]? = some 0
    · rw [if_pos hi]
      have hused := Slot.used_set_one hi
      refine h.setSlot hpc (hold.exchange hpc List.length_set ?_ ?_) ?_ ?_
      · simp [Pc.claim, hused]; omega
      · simp [Pc.room, hused] at hroom ⊢; omega
      · intro b hb; simp [Pc.claim, hb.symm]
      · intro b hb; simp [Pc.room, hb.symm]
    · rw [if_neg hi]
      exact h.goto hpc rfl rfl
  | loadPartial a got =>
    cases hrun
    exact h.goto hpc rfl rfl
  | storeNext a v got =>
    obtain ⟨slot, hslot, rfl⟩ := Option.map_eq_some_iff.1 hrun
    have hold := h a slot hslot
    have hroom := hold.room
    refine h.setSlot hpc (hold.exchange hpc rfl ?_ ?_) ?_ ?_
    · simp [Pc.claim, Slot.used]
    · simpa [Pc.room, Slot.used] using hroom
    · intro b hb; simp [Pc.claim]
    · intro b hb; simp [Pc.room]
  | readNext a got =>
    obtain ⟨slot, hslot, rfl⟩ := Option.map_eq_some_iff.1 hrun
    exact h.goto hpc rfl rfl
  | swapPartial a v got =>
    change (if s.partialSlot = v then _ else _) = some s' at hrun
    split_ifs at hrun with hv
    · cases hrun
      exact Counted.goto (s := { s with partialSlot := some a, held := got.toList ++ s.held })
        h hpc rfl rfl
    · cases hrun
      exact h.goto hpc rfl rfl
  | clear pd =>
    obtain ⟨slot, hslot, rfl⟩ := Option.map_eq_some_iff.1 hrun
    have hold := h pd.slot slot hslot
    have hroom := hold.room
    have hm := hown.marked_of_hand hpc rfl
    rw [marked, hslot, Option.bind_some, Option.any_eq_true] at hm
    obtain ⟨m, hi, hm⟩ := hm
    have hused := Slot.used_set_zero hi (by simpa using hm)
    refine h.setSlot hpc (hold.exchange hpc List.length_set ?_ ?_) ?_ ?_
    · simp [Pc.claim]; omega
    · simp [Pc.room] at hroom ⊢; omega
    · intro b hb; simp [Pc.claim, hb.symm]
    · intro b hb; simp [Pc.room, hb.symm]
  | release a =>
    obtain ⟨slot, hslot, rfl⟩ := Option.map_eq_some_iff.1 hrun
    have hold := h a slot hslot
    have hroom := hold.room
    refine h.setSlot hpc (hold.exchange hpc rfl ?_ ?_) ?_ ?_
    · split_ifs <;> simp [Pc.claim, Slot.used] <;> omega
    · split_ifs <;> simp [Pc.room, Slot.used] at hroom ⊢ <;> omega
    · intro b hb; split_ifs <;> simp [Pc.claim, hb.symm]
    · intro b hb; split_ifs <;> simp [Pc.room, hb.symm]

theorem Pointed.goto (h : s.Pointed) (hpc : ∀ a ∈ pc.slots, a < s.slots.length) :
    (s.goto t pc).Pointed where
  head := h.head
  links := h.links
  pcs := fun pc₁ hmem => (List.mem_or_eq_of_mem_set hmem).elim (h.pcs pc₁) fun heq => heq ▸ hpc

theorem Pointed.setSlot (h : s.Pointed) (hlink : ∀ b ∈ slot.pnext, b < s.slots.length) :
    (s.setSlot a slot).Pointed where
  head := fun b hb => (h.head b hb).trans_eq List.length_set.symm
  links := fun slot₁ hmem b hb => by
    refine Nat.lt_of_lt_of_eq ?_ List.length_set.symm
    rcases List.mem_or_eq_of_mem_set hmem with hmem | rfl
    · exact h.links slot₁ hmem b hb
    · exact hlink b hb
  pcs := fun pc₁ hmem b hb => (h.pcs pc₁ hmem b hb).trans_eq List.length_set.symm

theorem Pointed.setSlot_goto (h : s.Pointed) (hslot : s.slots[a]? = some slot)
    (hnext : slot'.pnext = slot.pnext) (hpc : ∀ b ∈ pc.slots, b < s.slots.length) :
    ((s.setSlot a slot').goto t pc).Pointed :=
  (h.setSlot fun b hb => h.links slot (List.mem_of_getElem? hslot) b (hnext ▸ hb)).goto
    fun b hb => (hpc b hb).trans_eq List.length_set.symm

theorem Pointed.grow (h : s.Pointed) (hpc : ∀ b ∈ pc.slots, b ≤ s.slots.length) :
    ({ s with slots := s.slots ++ [Slot.fresh] }.goto t pc).Pointed := by
  have hlen : (s.slots ++ [Slot.fresh]).length = s.slots.length + 1 := List.length_append
  refine Pointed.goto ⟨fun b hb => ?_, fun slot₁ hmem b hb =>
    ?_, fun pc₁ hmem b hb => ?_⟩ fun b hb => ?_
  · exact hlen ▸ (h.head b hb).trans (Nat.lt_succ_self _)
  · rcases List.mem_append.1 hmem with hmem | hmem
    · exact hlen ▸ (h.links slot₁ hmem b hb).trans (Nat.lt_succ_self _)
    · cases List.mem_singleton.1 hmem
      cases hb
  · exact hlen ▸ (h.pcs pc₁ hmem b hb).trans (Nat.lt_succ_self _)
  · exact hlen ▸ Nat.lt_succ_of_le (hpc b hb)

theorem Pointed.run (h : s.Pointed) (hpc : s.pcs[t]? = some pc) (hrun : s.run t pc = some s') :
    s'.Pointed := by
  have hptr := h.pcs pc (List.mem_of_getElem? hpc)
  cases pc with
  | out => cases hrun
  | load =>
    cases hrun
    apply h.goto
    intro a ha
    cases hp : s.partialSlot with
    | none => simp [hp, Pc.slots] at ha
    | some b =>
      simp only [hp, Pc.slots, List.mem_singleton] at ha
      exact h.head a (ha ▸ hp)
  | grow =>
    cases hrun
    apply h.grow
    intro b hb
    rw [Pc.slots, List.mem_singleton] at hb
    exact hb.le
  | reserve a =>
    obtain ⟨slot, hslot, rfl⟩ := Option.map_eq_some_iff.1 hrun
    exact h.setSlot_goto hslot rfl (by split_ifs <;> exact hptr)
  | undo a =>
    obtain ⟨slot, hslot, rfl⟩ := Option.map_eq_some_iff.1 hrun
    exact h.setSlot_goto hslot rfl hptr
  | next a =>
    obtain ⟨slot, hslot, rfl⟩ := Option.map_eq_some_iff.1 hrun
    apply h.goto
    intro b hb
    rcases List.mem_cons.1 hb with rfl | hb
    · exact hptr b (List.mem_singleton_self b)
    · exact h.links slot (List.mem_of_getElem? hslot) b (Option.mem_toList.1 hb)
  | unlink a v =>
    cases hrun
    have hv : ∀ b ∈ v, b < s.slots.length := fun b hb =>
      hptr b (List.mem_cons_of_mem a (Option.mem_toList.2 hb))
    split_ifs
    · exact Pointed.goto ⟨hv, h.links, h.pcs⟩ (by simp [Pc.slots])
    · exact h.goto (by simp [Pc.slots])
  | scan a i =>
    obtain ⟨slot, hslot, rfl⟩ := Option.map_eq_some_iff.1 hrun
    apply h.goto
    cases slot.marks[i]? with
    | none => exact hptr
    | some m =>
      dsimp only
      split_ifs <;> exact hptr
  | take a i =>
    obtain ⟨slot, hslot, rfl⟩ := Option.map_eq_some_iff.1 hrun
    split_ifs with hi
    · have hset :
          ((s.setSlot a { slot with marks := slot.marks.set i 1 }).goto t .out).Pointed :=
        h.setSlot_goto hslot rfl (by simp [Pc.slots])
      exact ⟨hset.head, hset.links, hset.pcs⟩
    · exact h.goto hptr
  | loadPartial a got =>
    cases hrun
    apply h.goto
    intro b hb
    rcases List.mem_cons.1 hb with rfl | hb
    · exact hptr b (List.mem_singleton_self b)
    · exact h.head b (Option.mem_toList.1 hb)
  | storeNext a v got =>
    obtain ⟨slot, hslot, rfl⟩ := Option.map_eq_some_iff.1 hrun
    refine (h.setSlot fun b hb => ?_).goto fun b hb => ?_
    · exact hptr b (List.mem_cons_of_mem a (Option.mem_toList.2 hb))
    · rw [Pc.slots, List.mem_singleton] at hb
      exact (hptr b (hb ▸ List.mem_cons_self)).trans_eq List.length_set.symm
  | readNext a got =>
    obtain ⟨slot, hslot, rfl⟩ := Option.map_eq_some_iff.1 hrun
    apply h.goto
    intro b hb
    rcases List.mem_cons.1 hb with rfl | hb
    · exact hptr b (List.mem_singleton_self b)
    · exact h.links slot (List.mem_of_getElem? hslot) b (Option.mem_toList.1 hb)
  | swapPartial a v got =>
    have ha : a < s.slots.length := hptr a List.mem_cons_self
    change (if s.partialSlot = v then _ else _) = some s' at hrun
    split_ifs at hrun with hv
    · cases hrun
      refine Pointed.goto ⟨fun b hb => ?_, h.links, h.pcs⟩ (by simp [Pc.slots])
      cases hb
      exact ha
    · cases hrun
      exact h.goto fun b hb => (List.mem_singleton.1 hb) ▸ ha
  | clear pd =>
    obtain ⟨slot, hslot, rfl⟩ := Option.map_eq_some_iff.1 hrun
    exact h.setSlot_goto hslot rfl hptr
  | release a =>
    obtain ⟨slot, hslot, rfl⟩ := Option.map_eq_some_iff.1 hrun
    exact h.setSlot_goto hslot rfl (by
      split_ifs
      · exact hptr
      · simp [Pc.slots])

theorem marked_goto : (s.goto t pc).marked = s.marked := rfl

theorem marked_setSlot (hslot : s.slots[a]? = some slot) (hmarks : slot'.marks = slot.marks) :
    (s.setSlot a slot').marked = s.marked := by
  funext pd
  have hlt := (List.getElem?_eq_some_iff.1 hslot).1
  simp only [marked, setSlot]
  by_cases ha : a = pd.slot
  · rw [ha] at hslot hlt ⊢
    rw [List.getElem?_set_self hlt, hslot, Option.bind_some, Option.bind_some, hmarks]
  · rw [List.getElem?_set_ne ha]

theorem marked_set {i : Nat} {m m' : UInt8} (hslot : s.slots[a]? = some slot)
    (hi : slot.marks[i]? = some m) :
    (s.setSlot a { slot with marks := slot.marks.set i m' }).marked pd =
      if pd = ⟨a, i⟩ then decide (m' ≠ 0) else s.marked pd := by
  have hlt := (List.getElem?_eq_some_iff.1 hslot).1
  have hlt' := (List.getElem?_eq_some_iff.1 hi).1
  simp only [marked, setSlot]
  by_cases ha : a = pd.slot
  · rw [ha] at hslot hlt ⊢
    rw [List.getElem?_set_self hlt, hslot, Option.bind_some, Option.bind_some]
    by_cases hidx : i = pd.idx
    · rw [hidx] at hlt' ⊢
      rw [List.getElem?_set_self hlt', if_pos rfl, Option.any_some]
    · rw [List.getElem?_set_ne hidx, if_neg fun h => hidx (congrArg Polldesp.idx h).symm]
  · rw [List.getElem?_set_ne ha, if_neg fun h => ha (congrArg Polldesp.slot h).symm]

theorem marked_grow :
    ({ s with slots := s.slots ++ [Slot.fresh] } : State).marked pd =
      if pd = ⟨s.slots.length, 0⟩ then true else s.marked pd := by
  simp only [marked]
  by_cases hlt : pd.slot < s.slots.length
  · rw [List.getElem?_append_left hlt,
      if_neg fun h => Nat.ne_of_lt hlt (congrArg Polldesp.slot h)]
  · have hnone : s.slots[pd.slot]? = none := List.getElem?_eq_none (Nat.le_of_not_lt hlt)
    rw [List.getElem?_append_right (Nat.le_of_not_lt hlt), List.getElem?_singleton, hnone]
    obtain ⟨a, i⟩ := pd
    simp only [Polldesp.mk.injEq]
    by_cases ha : a = s.slots.length
    · subst ha
      cases i with
      | zero => simp [Slot.fresh, slotSize]
      | succ i =>
        simp only [Slot.fresh]
        simp [List.getElem?_replicate]
        split_ifs <;> rfl
    · have hsub : a - s.slots.length ≠ 0 := by
        dsimp only at hlt
        omega
      simp [ha, hsub]

theorem Owned.exchange (h : s.Owned) (hpc : s.pcs[t]? = some pc)
    (hpcs : s'.pcs = s.pcs.set t pc')
    (hpd : ∀ pd, s'.held.count pd + (decide (pc'.hand = some pd)).toNat + (s.marked pd).toNat =
      s.held.count pd + (decide (pc.hand = some pd)).toNat + (s'.marked pd).toNat) :
      s'.Owned := by
  intro pd
  have hset := countP_exchange (p := fun pc : Pc => decide (pc.hand = some pd)) (b := pc') hpc
  have hold := h pd
  have hnew := hpd pd
  rw [hpcs]
  omega

theorem Owned.goto (h : s.Owned) (hpc : s.pcs[t]? = some pc) (hhand : pc'.hand = pc.hand) :
    (s.goto t pc').Owned :=
  h.exchange hpc rfl fun pd => by
    rw [marked_goto, hhand]
    rfl

theorem Owned.setSlot (h : s.Owned) (hpc : s.pcs[t]? = some pc) (hslot : s.slots[a]? = some slot)
    (hmarks : slot'.marks = slot.marks) (hhand : pc'.hand = pc.hand) :
    ((s.setSlot a slot').goto t pc').Owned :=
  h.exchange hpc rfl fun pd => by
    rw [marked_goto, marked_setSlot hslot hmarks, hhand]
    rfl

theorem Owned.run (h : s.Owned) (hpc : s.pcs[t]? = some pc)
    (hrun : s.run t pc = some s') : s'.Owned := by
  cases pc with
  | out => cases hrun
  | load =>
    cases hrun
    apply h.goto hpc
    cases s.partialSlot <;> rfl
  | grow =>
    cases hrun
    apply h.exchange hpc rfl
    intro pd
    have hnone : s.marked ⟨s.slots.length, 0⟩ = false := by
      rw [marked, List.getElem?_eq_none (Nat.le_refl _)]
      rfl
    rw [marked_goto, marked_grow]
    by_cases hpd : pd = ⟨s.slots.length, 0⟩
    · subst hpd
      simp [Pc.hand, hnone]
    · simp [Pc.hand, hpd, Ne.symm hpd]
  | reserve a =>
    obtain ⟨slot, hslot, rfl⟩ := Option.map_eq_some_iff.1 hrun
    exact h.setSlot hpc hslot rfl (by split_ifs <;> rfl)
  | undo a =>
    obtain ⟨slot, hslot, rfl⟩ := Option.map_eq_some_iff.1 hrun
    exact h.setSlot hpc hslot rfl rfl
  | next a =>
    obtain ⟨slot, hslot, rfl⟩ := Option.map_eq_some_iff.1 hrun
    exact h.goto hpc rfl
  | unlink a v =>
    cases hrun
    split_ifs <;> exact Owned.goto (s := { s with partialSlot := _ }) h hpc rfl
  | scan a i =>
    obtain ⟨slot, hslot, rfl⟩ := Option.map_eq_some_iff.1 hrun
    apply h.goto hpc
    cases slot.marks[i]? with
    | none => rfl
    | some m =>
      dsimp only
      split_ifs <;> rfl
  | take a i =>
    obtain ⟨slot, hslot, rfl⟩ := Option.map_eq_some_iff.1 hrun
    split_ifs with hi
    · apply h.exchange hpc rfl
      intro pd
      have hmarked : (s.setSlot a { slot with marks := slot.marks.set i 1 }).marked pd = _ :=
        marked_set hslot hi
      have hzero : s.marked ⟨a, i⟩ = false := by
        rw [marked, hslot, Option.bind_some, hi]
        rfl
      change (⟨a, i⟩ :: s.held).count pd + _ + _ = _ + _ + ((s.setSlot a _).marked pd).toNat
      rw [hmarked]
      by_cases hpd : pd = ⟨a, i⟩
      · subst hpd
        simp [Pc.hand, hzero]
      · simp [Pc.hand, hpd, Ne.symm hpd]
    · exact h.goto hpc rfl
  | loadPartial a got =>
    cases hrun
    exact h.goto hpc rfl
  | storeNext a v got =>
    obtain ⟨slot, hslot, rfl⟩ := Option.map_eq_some_iff.1 hrun
    exact h.setSlot hpc hslot rfl rfl
  | readNext a got =>
    obtain ⟨slot, hslot, rfl⟩ := Option.map_eq_some_iff.1 hrun
    exact h.goto hpc rfl
  | swapPartial a v got =>
    change (if s.partialSlot = v then _ else _) = some s' at hrun
    split_ifs at hrun with hv
    · cases hrun
      apply h.exchange hpc rfl
      intro pd
      change (got.toList ++ s.held).count pd + _ + (s.marked pd).toNat =
        _ + _ + (s.marked pd).toNat
      cases got with
      | none => simp [Pc.hand]
      | some pd' =>
        simp only [Pc.hand, Option.toList_some, List.cons_append,
          List.nil_append, List.count_cons, Option.some.injEq]
        by_cases hpd : pd' = pd <;> simp [hpd]
    · cases hrun
      exact h.goto hpc rfl
  | clear pd =>
    obtain ⟨slot, hslot, rfl⟩ := Option.map_eq_some_iff.1 hrun
    have hm := h.marked_of_hand hpc rfl
    have hmarked := hm
    rw [marked, hslot, Option.bind_some, Option.any_eq_true] at hm
    obtain ⟨m, hi, -⟩ := hm
    apply h.exchange hpc rfl
    intro pd'
    rw [marked_goto, marked_set hslot hi]
    by_cases hpd : pd' = pd
    · subst hpd
      simp [Pc.hand, hmarked]
    · simp [Pc.hand, hpd, Ne.symm hpd]
  | release a =>
    obtain ⟨slot, hslot, rfl⟩ := Option.map_eq_some_iff.1 hrun
    exact h.setSlot hpc hslot rfl (by split_ifs <;> rfl)

theorem Owned.lt_length (h : s.Owned) (hpd : pd ∈ s.held) : pd.slot < s.slots.length := by
  have hpos := List.count_pos_iff.2 hpd
  have hcount := h pd
  cases hslot : s.slots[pd.slot]? with
  | none =>
    rw [marked, hslot] at hcount
    simp only [Option.bind_none, Option.any_none, Bool.toNat_false] at hcount
    omega
  | some slot => exact (List.getElem?_eq_some_iff.1 hslot).1

structure Safe (s : State) : Prop where
  counted : s.Counted
  owned : s.Owned
  pointed : s.Pointed

theorem Safe.step {act : Act} (h : s.Safe) (hstep : s.step act = some s') : s'.Safe := by
  cases act with
  | alloc t =>
    obtain ⟨hpc, hstep⟩ := Option.ite_none_right_eq_some.1 hstep
    cases hstep
    exact ⟨h.counted.goto hpc rfl rfl, h.owned.goto hpc rfl, h.pointed.goto (by simp [Pc.slots])⟩
  | free t pd =>
    obtain ⟨⟨hpc, hpd⟩, hstep⟩ := Option.ite_none_right_eq_some.1 hstep
    cases hstep
    refine ⟨h.counted.goto hpc rfl rfl, h.owned.exchange hpc rfl fun pd' => ?_, ?_⟩
    · change (s.held.erase pd).count pd' + _ + (s.marked pd').toNat =
        _ + _ + (s.marked pd').toNat
      have hpos := List.count_pos_iff.2 hpd
      by_cases heq : pd = pd'
      · subst heq
        rw [List.count_erase_self]
        simp [Pc.hand]
        omega
      · rw [List.count_erase_of_ne (Ne.symm heq)]
        simp [Pc.hand, heq]
    · refine Pointed.goto ⟨h.pointed.head, h.pointed.links, h.pointed.pcs⟩ fun a ha => ?_
      rw [Pc.slots, List.mem_singleton] at ha
      exact ha ▸ h.owned.lt_length hpd
  | run t =>
    obtain ⟨pc, hpc, hrun⟩ := Option.bind_eq_some_iff.1 hstep
    exact ⟨h.counted.run h.owned h.pointed hpc hrun, h.owned.run hpc hrun,
      h.pointed.run hpc hrun⟩

theorem safe_of_reach (h : machine.Reach s) : s.Safe := by
  refine h.invariant ?_ fun s act s' hs _ hstep => hs.step hstep
  rintro s ⟨n, rfl⟩
  refine ⟨fun a slot hslot => ?_, fun pd =>
    ?_, ⟨fun a ha => ?_, fun slot hslot => ?_, fun pc hpc a ha => ?_⟩⟩
  · cases hslot
  · simp [marked, Pc.hand]
  · cases ha
  · cases hslot
  · cases List.eq_of_mem_replicate hpc
    cases ha

/-- A goroutine within a call is never stuck. -/
theorem Safe.run_isSome (h : s.Safe) (hpc : s.pcs[t]? = some pc) (hout : pc ≠ .out) :
    (s.run t pc).isSome := by
  have hptr := h.pointed.pcs pc (List.mem_of_getElem? hpc)
  have hslots : ∀ (f : Slot → State) a, a ∈ pc.slots → (s.slots[a]?.map f).isSome :=
      fun f a ha => by
    rw [Option.isSome_map, List.getElem?_eq_getElem (hptr a ha)]
    rfl
  cases pc with
  | out => exact absurd rfl hout
  | load | grow | unlink | loadPartial => rfl
  | reserve | undo | next | scan | take | release | clear | readNext | storeNext =>
    exact hslots _ _ List.mem_cons_self
  | swapPartial a v got =>
    change (if s.partialSlot = v then _ else _ : Option State).isSome
    split_ifs <;> rfl

end

end State

variable {s : State}

/-- In every state reached, under any interleaving of `alloc` and `free`, no descriptor belongs
to two: those that `alloc` has returned and those on their way between a goroutine and the pool
are different from one another, and they are the descriptors whose marks are set. -/
theorem owners_nodup (h : machine.Reach s) :
    (s.held ++ s.pcs.filterMap Pc.hand).Nodup ∧
    ∀ pd, pd ∈ s.held ++ s.pcs.filterMap Pc.hand ↔ s.marked pd = true := by
  have howned := (State.safe_of_reach h).owned
  have hcount : ∀ pd, (s.held ++ s.pcs.filterMap Pc.hand).count pd = (s.marked pd).toNat :=
      fun pd => by
    rw [List.count_append, ← howned pd, List.count_filterMap]
    simp only [beq_eq_decide]
  refine ⟨List.nodup_iff_count_le_one.2 fun pd => hcount pd ▸ Bool.toNat_le _, fun pd => ?_⟩
  rw [← List.count_pos_iff, hcount]
  cases s.marked pd <;> decide

/-- A goroutine gives its descriptor back while another one, which has one already, searches for
a second. -/
def crossing : List Act :=
  .alloc 0 :: (List.replicate 6 (.run 0) ++ .alloc 1 :: (List.replicate 5 (.run 1) ++
    [.free 0 ⟨0, 0⟩, .alloc 1, .run 1, .run 1]))

def crossed : State where
  slots := [⟨Slot.fresh.marks.set 1 1, none, 3⟩]
  partialSlot := some 0
  pcs := [.clear ⟨0, 0⟩, .scan 0 0]
  held := [⟨0, 1⟩]

theorem crossed_reach : machine.Reach crossed :=
  .of_exec ⟨2, rfl⟩ (rfl : machine.exec _ crossing = some crossed)

theorem owners_nodup_crossed : (crossed.held ++ crossed.pcs.filterMap Pc.hand).Nodup ∧
    ∀ pd, pd ∈ crossed.held ++ crossed.pcs.filterMap Pc.hand ↔ crossed.marked pd = true :=
  owners_nodup crossed_reach

/-- In every state reached, the counter of a slot is the number of its marks and of the
goroutines that have added to it and hold no mark of it: a goroutine that searches for a mark
always has one to find, and the counter exceeds the size of the slot by no more than the
goroutines that are about to take back what they added. No goroutine within a call is stuck. -/
theorem counter_exact (h : machine.Reach s) :
    (∀ a (slot : Slot), s.slots[a]? = some slot →
      slot.cnt = slot.used + s.pcs.countP (·.claim = some a) ∧
      slot.used + s.pcs.countP (·.room = some a) ≤ slotSize ∧
      slot.cnt ≤ slotSize + s.pcs.countP (· = .undo a)) ∧
    ∀ t pc, s.pcs[t]? = some pc → pc ≠ .out → (s.step (.run t)).isSome := by
  have hsafe := State.safe_of_reach h
  refine ⟨fun a slot hslot => ?_, fun t pc hpc hout => ?_⟩
  · have hcnt := hsafe.counted a slot hslot
    refine ⟨hcnt.cnt, hcnt.room, ?_⟩
    have hsplit := Pc.countP_claim a s.pcs
    have hold := hcnt.cnt
    have hroom := hcnt.room
    omega
  · rw [State.step, hpc]
    exact hsafe.run_isSome hpc hout

theorem counter_exact_crossed :
    (∀ a (slot : Slot), crossed.slots[a]? = some slot →
      slot.cnt = slot.used + crossed.pcs.countP (·.claim = some a) ∧
      slot.used + crossed.pcs.countP (·.room = some a) ≤ slotSize ∧
      slot.cnt ≤ slotSize + crossed.pcs.countP (· = .undo a)) ∧
    ∀ t pc, crossed.pcs[t]? = some pc → pc ≠ .out → (crossed.step (.run t)).isSome :=
  counter_exact crossed_reach

end Misc.Sys.Concurrent
