import Misc.Sys.Exclusion

namespace Misc.Sys.Concurrent
open Misc.Lib
set_option autoImplicit true

/-- The goroutine `t`, running alone, is out of its call within `n` steps. -/
def Returns (s : State) (t n : Nat) : Prop :=
  ∃ k ≤ n, ∃ s', machine.exec s (List.replicate k (.run t)) = some s' ∧ s'.pcs[t]? = some .out

/-- The goroutine follows the list of the partial slots. -/
def Pc.walks : Pc → Bool
  | .load | .reserve _ | .undo _ | .next _ | .unlink _ _ => true
  | _ => false

/-- The list of the partial slots ends, or reaches a slot whose counter shows that there is
room. -/
inductive Finds (slots : List Slot) : Option Nat → Prop
  | nil : Finds slots none
  | room {slot : Slot} : slots[a]? = some slot → slot.cnt < (slotSize : Int) →
      Finds slots (some a)
  | next {slot : Slot} : slots[a]? = some slot → (slotSize : Int) ≤ slot.cnt →
      Finds slots slot.pnext → Finds slots (some a)

/-- Running alone, the goroutine `t` comes from `s` to `s'` in `k` steps and is not out
before. -/
structure Ahead (s s' : State) (t k : Nat) : Prop where
  safe : s'.Safe
  returns : ∀ n, Returns s t (n + k) ↔ Returns s' t n

section
variable {s s₁ s₂ : State} {slot : Slot} {pc pc' : Pc}
  {got : Option Polldesp} {t a i j n m : Nat}

theorem Returns.mono (h : Returns s t n) (hle : n ≤ m) : Returns s t m := by
  obtain ⟨k, hk, h⟩ := h
  exact ⟨k, hk.trans hle, h⟩

theorem returns_out (hpc : s.pcs[t]? = some .out) : Returns s t n :=
  ⟨0, Nat.zero_le n, s, rfl, hpc⟩

theorem Returns.run (hpc : s.pcs[t]? = some pc) (hrun : s.run t pc = some s₁)
    (h : Returns s₁ t n) : Returns s t (n + 1) := by
  obtain ⟨k, hk, s', hexec, hout⟩ := h
  refine ⟨k + 1, Nat.succ_le_succ hk, s', ?_, hout⟩
  have hstep : machine.step s (.run t) = some s₁ := by
    change s.pcs[t]?.bind (s.run t) = some s₁
    rw [hpc, Option.bind_some, hrun]
  rw [List.replicate_succ, Machine.exec, hstep, Option.bind_some, hexec]

theorem not_returns_zero (hpc : s.pcs[t]? = some pc) (hout : pc ≠ .out) : ¬ Returns s t 0 := by
  rintro ⟨k, hk, s', hexec, hret⟩
  obtain rfl : k = 0 := Nat.le_zero.1 hk
  cases hexec
  rw [hpc] at hret
  exact hout (Option.some.inj hret)

theorem returns_run_iff (hpc : s.pcs[t]? = some pc) (hout : pc ≠ .out)
    (hrun : s.run t pc = some s₁) : Returns s t (n + 1) ↔ Returns s₁ t n := by
  refine ⟨?_, .run hpc hrun⟩
  rintro ⟨k, hk, s', hexec, hret⟩
  cases k with
  | zero => exact absurd ⟨0, Nat.le_refl 0, s', hexec, hret⟩ (not_returns_zero hpc hout)
  | succ k =>
    obtain ⟨s₂, hstep, hexec⟩ := Option.bind_eq_some_iff.1 hexec
    change s.pcs[t]?.bind (s.run t) = some s₂ at hstep
    rw [hpc, Option.bind_some, hrun] at hstep
    cases hstep
    exact ⟨k, Nat.le_of_succ_le_succ hk, s', hexec, hret⟩

theorem goto_pc (hpc : s.pcs[t]? = some pc) : (s.goto t pc').pcs[t]? = some pc' :=
  List.getElem?_set_self (List.getElem?_eq_some_iff.1 hpc).1

theorem setSlot_slot (hslot : s.slots[a]? = some slot) (slot' : Slot) :
    (s.setSlot a slot').slots[a]? = some slot' :=
  List.getElem?_set_self (List.getElem?_eq_some_iff.1 hslot).1

theorem returns_swap (hpc : s.pcs[t]? = some (.swapPartial a s.partialSlot got)) :
    Returns s t 1 :=
  .run hpc (if_pos rfl) (returns_out (goto_pc hpc))

theorem returns_read (hpc : s.pcs[t]? = some (.readNext a got)) (hslot : s.slots[a]? = some slot)
    (hnext : slot.pnext = s.partialSlot) : Returns s t 2 :=
  .run hpc (by rw [State.run, hslot, Option.map_some, hnext]) (returns_swap (goto_pc hpc))

theorem returns_store (hpc : s.pcs[t]? = some (.storeNext a s.partialSlot got))
    (hslot : s.slots[a]? = some slot) : Returns s t 3 := by
  refine .run hpc (by rw [State.run, hslot, Option.map_some]) ?_
  exact returns_read (goto_pc hpc) (setSlot_slot hslot _) rfl

theorem returns_put (hpc : s.pcs[t]? = some (.loadPartial a got))
    (hslot : s.slots[a]? = some slot) : Returns s t 4 :=
  .run hpc rfl (returns_store (goto_pc hpc) hslot)

/-- The exchange may fail once, for what was read before the goroutine ran alone. -/
theorem returns_swap_late (hpc : s.pcs[t]? = some (.swapPartial a v got))
    (hslot : s.slots[a]? = some slot) : Returns s t 5 := by
  by_cases hv : s.partialSlot = v
  · subst hv
    exact (returns_swap hpc).mono (by decide)
  · exact .run hpc (if_neg hv) (returns_put (goto_pc hpc) hslot)

theorem returns_read_late (hpc : s.pcs[t]? = some (.readNext a got))
    (hslot : s.slots[a]? = some slot) : Returns s t 6 :=
  .run hpc (by rw [State.run, hslot, Option.map_some]) (returns_swap_late (goto_pc hpc) hslot)

theorem returns_store_late (hpc : s.pcs[t]? = some (.storeNext a v got))
    (hslot : s.slots[a]? = some slot) : Returns s t 7 := by
  refine .run hpc (by rw [State.run, hslot, Option.map_some]) ?_
  exact returns_read_late (goto_pc hpc) (setSlot_slot hslot _)

theorem returns_release (hpc : s.pcs[t]? = some (.release a)) (hslot : s.slots[a]? = some slot) :
    Returns s t 5 := by
  refine .run hpc (by rw [State.run, hslot, Option.map_some]) ?_
  split_ifs
  · exact returns_put (goto_pc hpc) (setSlot_slot hslot _)
  · exact returns_out (goto_pc hpc)

theorem returns_take (hpc : s.pcs[t]? = some (.take a i)) (hslot : s.slots[a]? = some slot)
    (hi : slot.marks[i]? = some 0) : Returns s t 1 := by
  refine .run hpc (by rw [State.run, hslot, Option.map_some, if_pos hi]) ?_
  exact returns_out (goto_pc hpc)

theorem returns_scan_to (hpc : s.pcs[t]? = some (.scan a i)) (hslot : s.slots[a]? = some slot)
    (hj : slot.marks[j]? = some 0) (hij : i ≤ j) : Returns s t (j - i + 2) := by
  induction hd : j - i generalizing s i with
  | zero =>
    obtain rfl : i = j := by omega
    refine .run hpc (by rw [State.run, hslot, Option.map_some, hj]) ?_
    exact returns_take (goto_pc hpc) hslot hj
  | succ d ih =>
    obtain ⟨hlt, -⟩ := List.getElem?_eq_some_iff.1 hj
    have hi : i < slot.marks.length := by omega
    refine .run hpc (by rw [State.run, hslot, Option.map_some, List.getElem?_eq_getElem hi]) ?_
    dsimp only
    split_ifs with hm
    · refine (returns_take (goto_pc hpc) hslot ?_).mono (by omega)
      rw [List.getElem?_eq_getElem hi, hm]
    · exact ih (goto_pc hpc) hslot (by omega) (by omega)

theorem returns_scan (hpc : s.pcs[t]? = some (.scan a i)) (hslot : s.slots[a]? = some slot)
    (hj : slot.marks[j]? = some 0) : Returns s t (slot.marks.length - i + (j + 3)) := by
  induction hd : slot.marks.length - i generalizing s i with
  | zero =>
    have hrun : s.run t (.scan a i) = some (s.goto t (.scan a 0)) := by
      rw [State.run, hslot, Option.map_some, List.getElem?_eq_none (by omega)]
    have hscan := returns_scan_to (goto_pc hpc) hslot hj (Nat.zero_le j)
    exact (Returns.run hpc hrun hscan).mono (by omega)
  | succ d ih =>
    have hi : i < slot.marks.length := by omega
    refine (Returns.run hpc
      (by rw [State.run, hslot, Option.map_some, List.getElem?_eq_getElem hi])
      (n := d + (j + 3)) ?_).mono (by omega)
    dsimp only
    split_ifs with hm
    · refine (returns_take (goto_pc hpc) hslot ?_).mono (by omega)
      rw [List.getElem?_eq_getElem hi, hm]
    · exact ih (goto_pc hpc) hslot (by omega)

theorem exists_free (h : slot.Counted s.pcs a) (hpc : s.pcs[t]? = some pc)
    (hroom : pc.room = some a) : ∃ j, j < slotSize ∧ slot.marks[j]? = some 0 := by
  have hle := toNat_le_countP (p := fun pc : Pc => decide (pc.room = some a)) hpc
  rw [decide_eq_true hroom, Bool.toNat_true] at hle
  have hlt : slot.marks.countP (· ≠ 0) < slot.marks.length := by
    have h₁ := h.room
    have h₂ := h.size
    rw [Slot.used] at h₁
    omega
  obtain ⟨j, m, hj, hm⟩ := exists_of_countP_lt hlt
  obtain rfl : m = 0 := by simpa using hm
  exact ⟨j, h.size ▸ (List.getElem?_eq_some_iff.1 hj).1, hj⟩

/-- From every state reached, a goroutine in `free`, in `putpartial` or in an `alloc` that has
added to a counter or found no slot returns within a bounded number of steps if it runs
alone. -/
theorem returns_alone (h : machine.Reach s) (hpc : s.pcs[t]? = some pc)
    (hwalks : pc.walks = false) : Returns s t (2 * slotSize + 3) := by
  have hsafe := State.safe_of_reach h
  have hslots : ∀ a ∈ pc.slots, ∃ slot, s.slots[a]? = some slot := fun a ha =>
    ⟨_, List.getElem?_eq_getElem (hsafe.pointed.pcs pc (List.mem_of_getElem? hpc) a ha)⟩
  cases pc with
  | out => exact returns_out hpc
  | load | reserve | undo | next | unlink => cases hwalks
  | grow =>
    refine Returns.mono (n := 5) (.run hpc rfl ?_) (by decide)
    exact returns_put (goto_pc hpc) List.getElem?_concat_length
  | scan a i =>
    obtain ⟨slot, hslot⟩ := hslots a List.mem_cons_self
    have hcounted := hsafe.counted a slot hslot
    obtain ⟨j, hj, hzero⟩ := exists_free hcounted hpc rfl
    apply (returns_scan hpc hslot hzero).mono
    rw [hcounted.size]
    omega
  | take a i =>
    obtain ⟨slot, hslot⟩ := hslots a List.mem_cons_self
    obtain ⟨j, hj, hzero⟩ := exists_free (hsafe.counted a slot hslot) hpc rfl
    by_cases hi : slot.marks[i]? = some 0
    · exact (returns_take hpc hslot hi).mono (by decide)
    · refine (Returns.run hpc (by rw [State.run, hslot, Option.map_some, if_neg hi])
        (returns_scan_to (goto_pc hpc) hslot hzero (Nat.zero_le j))).mono ?_
      omega
  | loadPartial a got =>
    obtain ⟨slot, hslot⟩ := hslots a List.mem_cons_self
    exact (returns_put hpc hslot).mono (by decide)
  | storeNext a v got =>
    obtain ⟨slot, hslot⟩ := hslots a List.mem_cons_self
    exact (returns_store_late hpc hslot).mono (by decide)
  | readNext a got =>
    obtain ⟨slot, hslot⟩ := hslots a List.mem_cons_self
    exact (returns_read_late hpc hslot).mono (by decide)
  | swapPartial a v got =>
    obtain ⟨slot, hslot⟩ := hslots a List.mem_cons_self
    exact (returns_swap_late hpc hslot).mono (by decide)
  | clear pd =>
    obtain ⟨slot, hslot⟩ := hslots pd.slot List.mem_cons_self
    refine Returns.mono (n := 6) (.run hpc (by rw [State.run, hslot, Option.map_some]) ?_)
      (by decide)
    exact returns_release (goto_pc hpc) (setSlot_slot hslot _)
  | release a =>
    obtain ⟨slot, hslot⟩ := hslots a List.mem_cons_self
    exact (returns_release hpc hslot).mono (by decide)

theorem Ahead.trans (h : Ahead s s₁ t n) (h' : Ahead s₁ s₂ t m) : Ahead s s₂ t (m + n) :=
  ⟨h'.safe, fun k => by rw [← Nat.add_assoc, h.returns, h'.returns]⟩

theorem ahead_run (h : s.Safe) (hpc : s.pcs[t]? = some pc) (hout : pc ≠ .out)
    (hrun : s.run t pc = some s₁) : Ahead s s₁ t 1 :=
  ⟨⟨h.counted.run h.owned h.pointed hpc hrun, h.owned.run hpc hrun, h.pointed.run hpc hrun⟩,
    fun _ => returns_run_iff hpc hout hrun⟩

theorem ahead_undo (h : s.Safe) (hpc : s.pcs[t]? = some (.undo a))
    (hhead : s.partialSlot = some a)
    (hslot : s.slots[a]? = some slot) : ∃ s', Ahead s s' t 3 ∧ s'.pcs[t]? = some .load ∧
      s'.slots = s.slots.set a { slot with cnt := slot.cnt - 1 } ∧
        s'.partialSlot = slot.pnext := by
  have h₁ := ahead_run h hpc Pc.noConfusion (by rw [State.run, hslot, Option.map_some])
  have hpc₁ : ((s.setSlot a { slot with cnt := slot.cnt - 1 }).goto t (.next a)).pcs[t]? =
    some (.next a) := goto_pc hpc
  have h₂ := ahead_run h₁.safe hpc₁ Pc.noConfusion
    (by rw [State.run, State.goto, setSlot_slot hslot, Option.map_some])
  have hpc₂ : (((s.setSlot a { slot with cnt := slot.cnt - 1 }).goto t (.next a)).goto t
    (.unlink a slot.pnext)).pcs[t]? = some (.unlink a slot.pnext) := goto_pc hpc₁
  have h₃ := ahead_run h₂.safe hpc₂ Pc.noConfusion
    (congrArg (fun s' : State => some (s'.goto t .load)) (if_pos hhead))
  exact ⟨_, (h₁.trans h₂).trans h₃, goto_pc hpc₂, rfl, rfl⟩

/-- Alone, `alloc` leaves a full slot behind that is the head of the list, and all else as it
was. -/
theorem ahead_full (h : s.Safe) (hpc : s.pcs[t]? = some .load) (hhead : s.partialSlot = some a)
    (hslot : s.slots[a]? = some slot) (hfull : (slotSize : Int) ≤ slot.cnt) :
    ∃ s', Ahead s s' t 5 ∧ s'.pcs[t]? = some .load ∧ s'.slots = s.slots ∧
      s'.partialSlot = slot.pnext := by
  have h₁ := ahead_run h hpc Pc.noConfusion (by rw [State.run, hhead])
  have hpc₁ : (s.goto t (.reserve a)).pcs[t]? = some (.reserve a) := goto_pc hpc
  have hslot₁ : (s.goto t (.reserve a)).slots[a]? = some slot := hslot
  have h₂ := ahead_run h₁.safe hpc₁ Pc.noConfusion
    (by rw [State.run, hslot₁, Option.map_some, if_pos (Int.lt_add_one_of_le hfull)])
  obtain ⟨s', h₃, hpc', hslots, hnext⟩ :=
    ahead_undo h₂.safe (goto_pc hpc₁) hhead (setSlot_slot hslot₁ _)
  refine ⟨s', (h₁.trans h₂).trans h₃, hpc', ?_, hnext⟩
  obtain ⟨hlt, hget⟩ := List.getElem?_eq_some_iff.1 hslot
  rw [hslots]
  change (s.slots.set a _).set a { slot with cnt := slot.cnt + 1 - 1 } = s.slots
  rw [List.set_set, Int.add_sub_cancel]
  change s.slots.set a slot = s.slots
  rw [← hget, List.set_getElem_self]

theorem returns_of_room (h : s.Safe) (hpc : s.pcs[t]? = some .load)
    (hhead : s.partialSlot = some a)
    (hslot : s.slots[a]? = some slot) (hroom : slot.cnt < (slotSize : Int)) :
    ∃ n, Returns s t n := by
  have h₁ := ahead_run h hpc Pc.noConfusion (by rw [State.run, hhead])
  have hpc₁ : (s.goto t (.reserve a)).pcs[t]? = some (.reserve a) := goto_pc hpc
  have hslot₁ : (s.goto t (.reserve a)).slots[a]? = some slot := hslot
  have h₂ := ahead_run h₁.safe hpc₁ Pc.noConfusion
    (by rw [State.run, hslot₁, Option.map_some, if_neg (Int.not_lt.2 hroom)])
  have hslot₂ := setSlot_slot hslot₁ { slot with cnt := slot.cnt + 1 }
  have hpc₂ : (((s.goto t (.reserve a)).setSlot a { slot with cnt := slot.cnt + 1 }).goto t
    (.scan a 0)).pcs[t]? = some (.scan a 0) := goto_pc hpc₁
  obtain ⟨j, -, hzero⟩ := exists_free (h₂.safe.counted a _ hslot₂) hpc₂ rfl
  exact ⟨_, ((h₁.trans h₂).returns _).2 (returns_scan hpc₂ hslot₂ hzero)⟩

theorem finds_of_returns (h : s.Safe) (hpc : s.pcs[t]? = some .load) (hret : Returns s t n) :
    Finds s.slots s.partialSlot := by
  induction n using Nat.strong_induction_on generalizing s with
  | _ n ih =>
    cases hhead : s.partialSlot with
    | none => exact .nil
    | some a =>
      obtain ⟨slot, hslot⟩ : ∃ slot, s.slots[a]? = some slot :=
        ⟨_, List.getElem?_eq_getElem (h.pointed.head a hhead)⟩
      rcases Int.lt_or_le slot.cnt slotSize with hroom | hfull
      · exact .room hslot hroom
      · obtain ⟨s', hahead, hpc', hslots, hnext⟩ := ahead_full h hpc hhead hslot hfull
        refine .next hslot hfull ?_
        rw [← hslots, ← hnext]
        by_cases hn : n < 5
        · have hzero := (hahead.returns 0).1 (hret.mono (Nat.le_of_lt hn))
          exact absurd hzero (not_returns_zero hpc' Pc.noConfusion)
        · have hm := (hahead.returns (n - 5)).1 (hret.mono (by omega))
          exact ih (n - 5) (by omega) hahead.safe hpc' hm

theorem returns_of_finds (h : s.Safe) (hpc : s.pcs[t]? = some .load) (hfind : Finds slots o)
    (hslots : s.slots = slots) (hhead : s.partialSlot = o) : ∃ n, Returns s t n := by
  induction hfind generalizing s with
  | nil =>
    have hgrow := ahead_run h hpc Pc.noConfusion (by rw [State.run, hhead])
    have hret : Returns (s.goto t .grow) t 5 := by
      refine .run (goto_pc hpc) rfl ?_
      exact returns_put (goto_pc (goto_pc hpc)) List.getElem?_concat_length
    exact ⟨_, (hgrow.returns _).2 hret⟩
  | room hslot hroom => exact returns_of_room h hpc hhead (hslots ▸ hslot) hroom
  | next hslot hfull _ ih =>
    obtain ⟨s', hahead, hpc', hslots', hnext⟩ := ahead_full h hpc hhead (hslots ▸ hslot) hfull
    obtain ⟨n, hret⟩ := ih hahead.safe hpc' (hslots'.trans hslots) hnext
    exact ⟨_, (hahead.returns n).2 hret⟩

/-- A second `alloc` has found no slot. -/
theorem returns_alone_grow :
    Returns ⟨[Slot.fresh], some 0, [.out, .grow], [⟨0, 0⟩]⟩ 1 (2 * slotSize + 3) :=
  returns_alone
    (.of_exec ⟨2, rfl⟩ (rfl : machine.exec _ [.alloc 0, .run 0, .alloc 1, .run 1, .run 0,
    .run 0, .run 0, .run 0, .run 0] = _)) rfl rfl

/-- An `alloc` that is about to read the head of the list and runs alone returns if and only if
the list, followed past full slots, ends or reaches a slot with room; on a list of full slots
that comes back to itself it runs for ever. -/
theorem alloc_returns_iff (h : machine.Reach s) (hpc : s.pcs[t]? = some .load) :
    (∃ n, Returns s t n) ↔ Finds s.slots s.partialSlot :=
  ⟨fun ⟨_, hret⟩ => finds_of_returns (State.safe_of_reach h) hpc hret,
    fun hfind => returns_of_finds (State.safe_of_reach h) hpc hfind rfl rfl⟩

/-- All places of a slot are claimed when one more goroutine calls `alloc`. -/
def claiming : List Act :=
  .alloc 0 :: (List.replicate 6 (.run 0) ++
    ((List.range 127).flatMap fun t => [.alloc (t + 1), .run (t + 1), .run (t + 1)]) ++
      [.alloc 128])

theorem alloc_returns_claimed : ∃ s, machine.Reach s ∧ s.slots.map Slot.cnt = [128] ∧
    s.partialSlot = some 0 ∧ ((∃ n, Returns s 128 n) ↔ Finds s.slots s.partialSlot) := by
  have hrun : (machine.exec ⟨[], none, List.replicate 129 .out, []⟩ claiming).map
      (fun s => (s.slots.map Slot.cnt, s.partialSlot, s.pcs[128]?)) =
        some ([128], some 0, some .load) := by
    decide +kernel
  obtain ⟨s, hs, hfinal⟩ := Option.map_eq_some_iff.1 hrun
  obtain ⟨hcnt, hrest⟩ := Prod.mk.inj hfinal
  obtain ⟨hhead, hpc⟩ := Prod.mk.inj hrest
  have hreach : machine.Reach s := .of_exec ⟨129, rfl⟩ hs
  exact ⟨s, hreach, hcnt, hhead, alloc_returns_iff hreach hpc⟩

end

end Misc.Sys.Concurrent
