import Misc.ZaxInspector.Lengths

namespace Misc.ZaxInspector
open Misc.Lib
set_option autoImplicit true

section
variable (m : Memory) (MmIsAddressValid : UInt32 → Bool)

/-- The lengths of instructions one after another, none of which the sweep stops at. -/
inductive Sweep (stop : UInt32 → Bool) : UInt32 → List Nat → UInt32 → Prop
  | nil (a) : Sweep stop a [] a
  | cons : codeAt m MmIsAddressValid a = some (n, o) → stop a = false →
      Sweep stop (a + .ofNat n) l b → Sweep stop a (n :: l) b

/-- A near return without bytes before it. -/
def returns (a : UInt32) : Bool := m a == 0xC3 || m a == 0xC2

/-- `lea ecx, [eax + disp32]`. -/
def loads (a : UInt32) : Bool := m a == 0x8D && m (a + 1) == 0x88

end

section
variable {m : Memory} {MmIsAddressValid : UInt32 → Bool} {stop : UInt32 → Bool} {c : Code}
  {a b Proc start d R Result : UInt32} {l : List Nat} {n k o turns : Nat}

theorem add_ofNat (a : UInt32) (n k : Nat) : a + .ofNat n + .ofNat k = a + .ofNat (n + k) := by
  rw [UInt32.ofNat_add, UInt32.add_assoc]

theorem codeAt_eq (h : codeAt m MmIsAddressValid a = some (n, o)) :
    MmIsAddressValid a = true ∧ SizeOfCode (m.code a) = some (n, o) := by
  rw [codeAt] at h
  split_ifs at h with hvalid
  · exact ⟨hvalid, h⟩

theorem code_zero (m : Memory) (a : UInt32) : m.code a 0 = m a := congrArg m (UInt32.add_zero a)

theorem SizeOfCode_plain (h : isPfx (c 0) = false) :
    SizeOfCode c = some (opcodeEnd c 0 false false, 0) := by
  rw [SizeOfCode, skipPfx, if_neg (Bool.eq_false_iff.1 h)]
  rfl

theorem opcodeEnd_ret (h : c o = 0xC3) (PFX66 PFX67 : Bool) :
    opcodeEnd c o PFX66 PFX67 = o + 1 := by
  have hflags : OpcodeFlags.getD (0xC3 : UInt8).toNat 0 = 0x00 := by decide
  rw [opcodeEnd, h, if_neg (by decide), hflags]
  rfl

theorem opcodeEnd_retn (h : c o = 0xC2) (PFX66 PFX67 : Bool) :
    opcodeEnd c o PFX66 PFX67 = o + 3 := by
  have hflags : OpcodeFlags.getD (0xC2 : UInt8).toNat 0 = 0x04 := by decide
  rw [opcodeEnd, h, if_neg (by decide), hflags]
  rfl

theorem isReturn_eq (h : codeAt m MmIsAddressValid a = some (n, o)) :
    isReturn m a n o = returns m a := by
  obtain ⟨-, hsize⟩ := codeAt_eq h
  obtain ⟨PFX66, PFX67, hskip, hn⟩ := SizeOfCode_eq hsize
  have hlt := (SizeOfCode_bounds hsize).2.1
  rw [Bool.eq_iff_iff, isReturn, returns]
  simp only [Bool.or_eq_true, Bool.and_eq_true, beq_iff_eq]
  constructor
  · rintro (⟨hone, hret⟩ | ⟨hthree, hret⟩)
    · obtain rfl : o = 0 := by omega
      exact .inl (code_zero m a ▸ hret)
    · have hend := opcodeEnd_retn (c := m.code a) hret PFX66 PFX67
      obtain rfl : o = 0 := by omega
      exact .inr (code_zero m a ▸ hret)
  · rintro (hret | hret)
    · have hopcode : m.code a 0 = 0xC3 := (code_zero m a).trans hret
      rw [SizeOfCode_plain (by rw [hopcode]; rfl), opcodeEnd_ret hopcode] at hsize
      cases hsize
      exact .inl ⟨rfl, hopcode⟩
    · have hopcode : m.code a 0 = 0xC2 := (code_zero m a).trans hret
      rw [SizeOfCode_plain (by rw [hopcode]; rfl), opcodeEnd_retn hopcode] at hsize
      cases hsize
      exact .inr ⟨rfl, hopcode⟩

/-- Where `SizeOfProc` stops and what it adds there. -/
def Stops (m : Memory) (MmIsAddressValid : UInt32 → Bool) (b : UInt32) (last : Nat) : Prop :=
  codeAt m MmIsAddressValid b = none ∧ last = 0 ∨
    ∃ o, codeAt m MmIsAddressValid b = some (last, o) ∧ returns m b = true

theorem stops_iff {last : Nat} : Stops m MmIsAddressValid b last ↔
    (codeAt m MmIsAddressValid b = none ∧ last = 0 ∨
      MmIsAddressValid b = true ∧ m b = 0xC3 ∧ last = 1 ∨
      MmIsAddressValid b = true ∧ m b = 0xC2 ∧ last = 3) := by
  refine or_congr_right ⟨?_, ?_⟩
  · rintro ⟨o, hcode, hret⟩
    obtain ⟨hvalid, hsize⟩ := codeAt_eq hcode
    rw [returns, Bool.or_eq_true, beq_iff_eq, beq_iff_eq, ← code_zero m b] at hret
    obtain hret | hret := hret
    · rw [SizeOfCode_plain (by rw [hret]; rfl), opcodeEnd_ret hret] at hsize
      cases hsize
      exact .inl ⟨hvalid, code_zero m b ▸ hret, rfl⟩
    · rw [SizeOfCode_plain (by rw [hret]; rfl), opcodeEnd_retn hret] at hsize
      cases hsize
      exact .inr ⟨hvalid, code_zero m b ▸ hret, rfl⟩
  · rintro (⟨hvalid, hret, rfl⟩ | ⟨hvalid, hret, rfl⟩)
    · have hopcode : m.code b 0 = 0xC3 := (code_zero m b).trans hret
      refine ⟨0, ?_, ?_⟩
      · rw [codeAt, if_pos hvalid, SizeOfCode_plain (by rw [hopcode]; rfl),
          opcodeEnd_ret hopcode]
      · rw [returns, hret]
        rfl
    · have hopcode : m.code b 0 = 0xC2 := (code_zero m b).trans hret
      refine ⟨0, ?_, ?_⟩
      · rw [codeAt, if_pos hvalid, SizeOfCode_plain (by rw [hopcode]; rfl),
          opcodeEnd_retn hopcode]
      · rw [returns, hret]
        rfl

theorem sweep_of_SizeOfProc (h : SizeOfProc m MmIsAddressValid turns Proc Result = some R) :
    ∃ l b last, Sweep m MmIsAddressValid (returns m) Proc l b ∧ Stops m MmIsAddressValid b last ∧
      R = Result + .ofNat (l.sum + last) := by
  induction turns generalizing Proc Result with
  | zero => cases h
  | succ turns ih =>
    rw [SizeOfProc] at h
    cases hcode : codeAt m MmIsAddressValid Proc with
    | none =>
      rw [hcode] at h
      cases h
      exact ⟨[], Proc, 0, .nil Proc, .inl ⟨hcode, rfl⟩, (UInt32.add_zero R).symm⟩
    | some p =>
      obtain ⟨n, o⟩ := p
      rw [hcode] at h
      dsimp only at h
      rw [isReturn_eq hcode] at h
      split_ifs at h with hret
      · cases h
        refine ⟨[], Proc, n, .nil Proc, .inr ⟨o, hcode, hret⟩, ?_⟩
        rw [List.sum_nil, Nat.zero_add]
      · obtain ⟨l, b, last, hsweep, hstops, rfl⟩ := ih h
        refine ⟨n :: l, b, last, .cons hcode (Bool.eq_false_iff.2 hret) hsweep, hstops, ?_⟩
        rw [List.sum_cons, add_ofNat, Nat.add_assoc]

theorem SizeOfProc_of_sweep (h : Sweep m MmIsAddressValid (returns m) Proc l b) {last : Nat}
    (hstops : Stops m MmIsAddressValid b last) (Result : UInt32) :
    SizeOfProc m MmIsAddressValid (l.length + 1) Proc Result =
      some (Result + .ofNat (l.sum + last)) := by
  induction h generalizing Result with
  | nil a =>
    rw [SizeOfProc, List.sum_nil, Nat.zero_add]
    obtain ⟨hnone, rfl⟩ | ⟨o, hcode, hret⟩ := hstops
    · rw [hnone]
      exact congrArg some (UInt32.add_zero Result).symm
    · rw [hcode]
      dsimp only
      rw [isReturn_eq hcode, if_pos hret]
  | cons hcode hret _ ih =>
    rw [List.length_cons, SizeOfProc, hcode]
    dsimp only
    rw [isReturn_eq hcode, if_neg (Bool.eq_false_iff.1 hret), ih hstops, List.sum_cons,
      add_ofNat, Nat.add_assoc]

/-- `SizeOfProc` ends where a sweep over whole instructions meets a return without bytes before
it, or code that is not there or cannot be read, and its result is how far the sweep goes, with
the return. -/
theorem SizeOfProc_iff (m : Memory) (MmIsAddressValid : UInt32 → Bool) (Proc R : UInt32) :
    (∃ turns, SizeOfProc m MmIsAddressValid turns Proc 0 = some R) ↔
      ∃ l b last, Sweep m MmIsAddressValid (returns m) Proc l b ∧ R = .ofNat (l.sum + last) ∧
        (codeAt m MmIsAddressValid b = none ∧ last = 0 ∨
          MmIsAddressValid b = true ∧ m b = 0xC3 ∧ last = 1 ∨
          MmIsAddressValid b = true ∧ m b = 0xC2 ∧ last = 3) := by
  constructor
  · rintro ⟨turns, h⟩
    obtain ⟨l, b, last, hsweep, hstops, rfl⟩ := sweep_of_SizeOfProc h
    exact ⟨l, b, last, hsweep, UInt32.zero_add _, stops_iff.1 hstops⟩
  · rintro ⟨l, b, last, hsweep, rfl, hstops⟩
    refine ⟨l.length + 1, ?_⟩
    rw [SizeOfProc_of_sweep hsweep (stops_iff.2 hstops), UInt32.zero_add]

theorem code_shift (m : Memory) (a : UInt32) (n : Nat) :
    m.code (a + .ofNat n) = shift (m.code a) n :=
  funext fun k => congrArg m (add_ofNat a n k)

theorem codeAt_word {w : List UInt8} (hw : instructions.Word w) (hm : Begins (m.code a) w)
    (hvalid : MmIsAddressValid a = true) :
    ∃ o, codeAt m MmIsAddressValid a = some (w.length, o) := by
  obtain ⟨⟨n, o⟩, hsize, hn⟩ := Option.map_eq_some_iff.1 (Delimited.Word.next hw hm)
  obtain rfl : n = w.length := hn
  exact ⟨o, (if_pos hvalid).trans hsize⟩

theorem sweep_of_words {ws : List (List UInt8)}
    (hw : ∀ w ∈ ws, instructions.Word w ∧ w.head? ≠ some 0xC3 ∧ w.head? ≠ some 0xC2)
    (hm : Begins (m.code a) ws.flatten)
    (hvalid : ∀ k < ws.flatten.length, MmIsAddressValid (a + .ofNat k) = true) :
    Sweep m MmIsAddressValid (returns m) a (ws.map List.length)
      (a + .ofNat ws.flatten.length) := by
  induction ws generalizing a with
  | nil => exact (UInt32.add_zero a).symm ▸ Sweep.nil a
  | cons w ws ih =>
    obtain ⟨⟨hword, h3, h2⟩, hws⟩ := List.forall_mem_cons.1 hw
    obtain ⟨x, w, rfl⟩ := List.exists_cons_of_ne_nil (Delimited.Word.ne_nil hword)
    rw [List.flatten_cons] at hm hvalid ⊢
    obtain ⟨hmw, hmws⟩ := begins_append.1 hm
    rw [List.length_append] at hvalid
    have hzero : MmIsAddressValid a = true := by
      rw [← UInt32.add_zero a]
      exact hvalid 0 (Nat.lt_of_lt_of_le (Nat.zero_lt_succ _) (Nat.le_add_right _ _))
    obtain ⟨o, hcode⟩ := codeAt_word hword hmw hzero
    have hx : m a = x := (code_zero m a).symm.trans (hmw 0 (Nat.zero_lt_succ _))
    have hret : returns m a = false := by
      rw [returns, hx, Bool.or_eq_false_iff, beq_eq_false_iff_ne, beq_eq_false_iff_ne]
      exact ⟨fun h => h3 (congrArg some h), fun h => h2 (congrArg some h)⟩
    rw [List.length_append, ← add_ofNat]
    refine .cons hcode hret (ih hws ?_ fun k hk => ?_)
    · rw [code_shift]
      exact hmws
    · rw [add_ofNat]
      exact hvalid _ (Nat.add_lt_add_left hk _)

/-- Code put together from instructions and a return at its end is measured as it was put
together. -/
theorem SizeOfProc_assembled (ws : List (List UInt8)) (ret : List UInt8)
    (hw : ∀ w ∈ ws, instructions.Word w ∧ w.head? ≠ some 0xC3 ∧ w.head? ≠ some 0xC2)
    (hret : ret = [0xC3] ∨ ∃ x y, ret = [0xC2, x, y])
    (hm : ∀ k (h : k < (ws.flatten ++ ret).length), m (Proc + .ofNat k) = (ws.flatten ++ ret)[k])
    (hvalid : ∀ k < (ws.flatten ++ ret).length, MmIsAddressValid (Proc + .ofNat k) = true) :
    ∃ turns, SizeOfProc m MmIsAddressValid turns Proc 0 =
      some (.ofNat (ws.flatten ++ ret).length) := by
  obtain ⟨hmws, hmret⟩ := (begins_append (c := m.code Proc)).1 hm
  rw [← code_shift] at hmret
  have hpos : 0 < ret.length := by
    obtain rfl | ⟨x, y, rfl⟩ := hret <;> exact Nat.zero_lt_succ _
  have hstop : m (Proc + .ofNat ws.flatten.length) = ret[0] :=
    (code_zero m _).symm.trans (hmret 0 hpos)
  rw [List.length_append] at hvalid ⊢
  have hsweep := sweep_of_words hw hmws fun k hk => hvalid k (Nat.lt_add_right _ hk)
  have hthere := hvalid ws.flatten.length (Nat.lt_add_of_pos_right hpos)
  have hstops : Stops m MmIsAddressValid (Proc + .ofNat ws.flatten.length) ret.length := by
    rw [stops_iff]
    obtain rfl | ⟨x, y, rfl⟩ := hret
    · exact .inr (.inl ⟨hthere, hstop, rfl⟩)
    · exact .inr (.inr ⟨hthere, hstop, rfl⟩)
  refine ⟨_, (SizeOfProc_of_sweep hsweep hstops 0).trans ?_⟩
  rw [UInt32.zero_add, List.length_flatten]

/-- `SizeOfProc_assembled` at `push ebp; mov ebp, esp; xor eax, eax; ret 8`. -/
theorem SizeOfProc_assembled_frame : ∃ turns, SizeOfProc
    (fun a => [0x55, 0x8B, 0xEC, 0x33, 0xC0, 0xC2, 0x08, 0x00].getD (a - 0x401000).toNat 0)
    (fun _ => true) turns 0x401000 0 = some 8 := by
  refine SizeOfProc_assembled [[0x55], [0x8B, 0xEC], [0x33, 0xC0]] [0xC2, 0x08, 0x00]
    ?_ (.inr ⟨_, _, rfl⟩) (by decide) fun _ _ => rfl
  have hall : ∀ w ∈ [[0x55], [0x8B, 0xEC], [0x33, 0xC0]],
      (SizeOfCode fun k => w.getD k 0).map Prod.fst = some w.length ∧ w.head? ≠ some 0xC3 ∧
        w.head? ≠ some 0xC2 := by decide
  intro w hw
  obtain ⟨hsize, hhead⟩ := hall w hw
  exact ⟨⟨fun k => w.getD k 0, fun k hk => List.getD_eq_getElem _ _ hk, hsize⟩, hhead⟩

theorem loads_iff (a : UInt32) : loads m a = true ↔ m.ushort a = 0x888D := by
  rw [loads, Memory.ushort, Bool.and_eq_true, beq_iff_eq, beq_iff_eq,
    ← UInt8.toNat_inj, ← UInt8.toNat_inj, ← UInt16.toNat_inj, UInt16.toNat_ofNat']
  have hlow := (m a).toNat_lt
  have hhigh := (m (a + 1)).toNat_lt
  have hword : ofLittleEndian [m a, m (a + 1)] = (m a).toNat + 256 * (m (a + 1)).toNat := by
    simp [ofLittleEndian]
  rw [hword]
  change (m a).toNat = 0x8D ∧ (m (a + 1)).toNat = 0x88 ↔ _ = 0x888D
  omega

theorem opcodeEnd_lea (h0 : c 0 = 0x8D) (h1 : c 1 = 0x88) : opcodeEnd c 0 false false = 6 := by
  have hflags : OpcodeFlags.getD (0x8D : UInt8).toNat 0 = 0x01 := by decide
  have hend : operandsEnd c 0x8D 0x01 false false 1 =
      1 + 1 + addressForm false (c 1) (c 2) + dataSize (groupFlags 0x8D (c 1) 0x01) false := rfl
  rw [opcodeEnd, h0, if_neg (by decide), hflags]
  apply hend.trans
  rw [h1]
  rfl

theorem codeAt_loads (h : loads m a = true) (hvalid : MmIsAddressValid a = true) :
    codeAt m MmIsAddressValid a = some (6, 0) := by
  rw [loads, Bool.and_eq_true, beq_iff_eq, beq_iff_eq] at h
  have hopcode : m.code a 0 = 0x8D := (code_zero m a).trans h.1
  rw [codeAt, if_pos hvalid, SizeOfCode_plain (by rw [hopcode]; rfl), opcodeEnd_lea hopcode h.2]

theorem sweep_of_searchShadow (h : searchShadow m MmIsAddressValid start n k = some d) :
    ∃ l b, Sweep m MmIsAddressValid (loads m) (start + .ofNat k) l b ∧ k + l.sum < PAGE_SIZE ∧
      MmIsAddressValid b = true ∧ loads m b = true ∧ d = m.ulong (b + 2) := by
  induction n generalizing k with
  | zero => cases h
  | succ n ih =>
    rw [searchShadow] at h
    split_ifs at h with hk
    dsimp only at h
    cases hcode : codeAt m MmIsAddressValid (start + .ofNat k) with
    | none =>
      rw [hcode] at h
      cases h
    | some p =>
      obtain ⟨n', o⟩ := p
      rw [hcode] at h
      dsimp only at h
      have hvalid := (codeAt_eq hcode).1
      split_ifs at h with hload
      · rw [codeAt_loads ((loads_iff _).2 hload) hvalid] at hcode
        cases hcode
        cases h
        exact ⟨[], _, .nil _, hk, hvalid, (loads_iff _).2 hload,
          congrArg (fun a => m.ulong (a + 2)) (UInt32.add_zero _)⟩
      · obtain ⟨l, b, hsweep, hlt, hrest⟩ := ih h
        refine ⟨n' :: l, b, .cons hcode ?_ ?_, ?_, hrest⟩
        · exact Bool.eq_false_iff.2 fun hl => hload ((loads_iff _).1 hl)
        · rw [add_ofNat]
          exact hsweep
        · rw [List.sum_cons]
          omega

theorem searchShadow_of_sweep (h : Sweep m MmIsAddressValid (loads m) a l b)
    (ha : a = start + .ofNat k)
    (hlt : k + l.sum < PAGE_SIZE) (hn : PAGE_SIZE ≤ n + k) (hvalid : MmIsAddressValid b = true)
    (hload : loads m b = true) :
    searchShadow m MmIsAddressValid start n k = some (m.ulong (b + 2)) := by
  induction h generalizing n k with
  | nil a =>
    obtain ⟨n, rfl⟩ := Nat.exists_eq_succ_of_ne_zero (n := n) (by rintro rfl; omega)
    rw [searchShadow, if_pos (Nat.lt_of_le_of_lt (Nat.le_add_right _ _) hlt)]
    dsimp only
    rw [← ha, codeAt_loads hload hvalid]
    dsimp only
    rw [if_pos ((loads_iff _).1 hload)]
    exact congrArg (fun a => some (m.ulong (a + 2))) (UInt32.add_zero _)
  | @cons a n' o _ _ hcode hl hrest ih =>
    obtain ⟨n, rfl⟩ := Nat.exists_eq_succ_of_ne_zero (n := n) (by rintro rfl; omega)
    have hpos := Nat.zero_lt_of_lt (SizeOfCode_bounds (codeAt_eq hcode).2).2.1
    rw [List.sum_cons] at hlt
    rw [searchShadow, if_pos (Nat.lt_of_le_of_lt (Nat.le_add_right _ _) hlt)]
    dsimp only
    rw [← ha, hcode]
    dsimp only
    rw [if_neg fun h => Bool.eq_false_iff.1 hl ((loads_iff _).2 h)]
    refine ih ?_ (by omega) (by omega) hvalid hload
    rw [ha, add_ofNat]

/-- `LocateSSDTShadowBase` takes the displacement of the first `lea ecx, [eax + disp32]` that a
sweep over whole instructions meets in its first page, and nothing else. -/
theorem LocateSSDTShadowBase_iff (m : Memory) (MmIsAddressValid : UInt32 → Bool)
    (start d : UInt32) : LocateSSDTShadowBase m MmIsAddressValid start = some d ↔
      ∃ l b, Sweep m MmIsAddressValid (loads m) start l b ∧ l.sum < PAGE_SIZE ∧
        MmIsAddressValid b = true ∧ loads m b = true ∧ d = m.ulong (b + 2) := by
  constructor
  · intro h
    obtain ⟨l, b, hsweep, hlt, hrest⟩ := sweep_of_searchShadow h
    exact ⟨l, b, UInt32.add_zero start ▸ hsweep, Nat.zero_add l.sum ▸ hlt, hrest⟩
  · rintro ⟨l, b, hsweep, hlt, hvalid, hload, rfl⟩
    exact searchShadow_of_sweep hsweep (UInt32.add_zero start).symm
      ((Nat.zero_add l.sum).symm ▸ hlt) (Nat.le_refl _) hvalid hload

end

end Misc.ZaxInspector
