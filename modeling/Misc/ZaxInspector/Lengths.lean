import Misc.ZaxInspector.Disassembler

namespace Misc.ZaxInspector
open Misc.Lib
set_option autoImplicit true

section
variable {c c' : Code} {n i j : Nat} {p q PFX66 PFX67 : Bool}
  {Opcode Flags modrm sib sib' : UInt8}

theorem skipPfx_bounds (h : skipPfx c n i p q = some (j, PFX66, PFX67)) : i ≤ j ∧ j < i + n := by
  induction n generalizing i p q with
  | zero => cases h
  | succ n ih =>
    rw [skipPfx] at h
    split_ifs at h
    · have hb := ih h
      omega
    · cases h
      omega

theorem skipPfx_opcode (h : skipPfx c n i p q = some (j, PFX66, PFX67)) :
    isPfx (c j) = false := by
  induction n generalizing i p q with
  | zero => cases h
  | succ n ih =>
    rw [skipPfx] at h
    split_ifs at h with hpfx
    · exact ih h
    · cases h
      exact Bool.eq_false_iff.2 hpfx

theorem skipPfx_congr (h : skipPfx c n i p q = some (j, PFX66, PFX67))
    (hc : ∀ k ≤ j, c' k = c k) : skipPfx c' n i p q = some (j, PFX66, PFX67) := by
  induction n generalizing i p q with
  | zero => cases h
  | succ n ih =>
    have hi := hc i (skipPfx_bounds h).1
    rw [skipPfx] at h ⊢
    rw [hi]
    split_ifs at h ⊢ with hpfx
    · exact ih h
    · exact h

theorem skipPfx_pfx (h : skipPfx c n i p q = some (j, PFX66, PFX67)) :
    ∀ k, i ≤ k → k < j → isPfx (c k) = true := by
  induction n generalizing i p q with
  | zero => cases h
  | succ n ih =>
    intro k hik hkj
    rw [skipPfx] at h
    split_ifs at h with hpfx
    · obtain rfl | hlt := Nat.eq_or_lt_of_le hik
      · exact hpfx
      · exact ih h k hlt hkj
    · cases h
      omega

theorem skipPfx_none : skipPfx c n i p q = none ↔ ∀ k < n, isPfx (c (i + k)) = true := by
  induction n generalizing i p q with
  | zero => exact ⟨fun _ k hk => absurd hk (Nat.not_lt_zero k), fun _ => rfl⟩
  | succ n ih =>
    rw [skipPfx]
    split_ifs with hpfx
    · rw [ih]
      constructor
      · intro h k hk
        cases k with
        | zero => exact hpfx
        | succ k =>
          rw [← Nat.add_assoc, Nat.add_right_comm]
          exact h k (by omega)
      · intro h k hk
        rw [Nat.add_assoc, Nat.add_comm 1]
        exact h (k + 1) (by omega)
    · exact ⟨False.elim, fun h => absurd (h 0 (Nat.zero_lt_succ n)) hpfx⟩

theorem addressForm_congr (h : sibPresent PFX67 modrm = true → sib' = sib) :
    addressForm PFX67 modrm sib' = addressForm PFX67 modrm sib := by
  cases hs : sibPresent PFX67 modrm with
  | true => rw [h hs]
  | false => simp [addressForm, offsetSize, hs]

theorem addressForm_le (PFX67 : Bool) (modrm sib : UInt8) : addressForm PFX67 modrm sib ≤ 5 := by
  have hsib := Bool.toNat_le (sibPresent PFX67 modrm)
  have hoff : offsetSize PFX67 modrm sib ≤ 4 := by
    rw [offsetSize]
    split_ifs <;> decide
  rw [addressForm]
  omega

theorem le_operandsEnd (c : Code) (Opcode Flags : UInt8) (PFX66 PFX67 : Bool) (i : Nat) :
    i ≤ operandsEnd c Opcode Flags PFX66 PFX67 i := by
  rw [operandsEnd]
  split_ifs <;> omega

theorem operandsEnd_congr (hc : ∀ k < operandsEnd c Opcode Flags PFX66 PFX67 i, c' k = c k) :
    operandsEnd c' Opcode Flags PFX66 PFX67 i = operandsEnd c Opcode Flags PFX66 PFX67 i := by
  rw [operandsEnd] at hc ⊢
  rw [operandsEnd]
  generalize (if has Flags OP_WORD then i + 1 else i) = j at hc ⊢
  split_ifs at hc ⊢ with hm
  · have hmodrm := hc j (by omega)
    have hsib : sibPresent PFX67 (c j) = true → c' (j + 1) = c (j + 1) := fun hs => by
      apply hc
      rw [addressForm, hs, Bool.toNat_true]
      omega
    rw [hmodrm, addressForm_congr hsib]
  · rfl

theorem lt_opcodeEnd (c : Code) (i : Nat) (PFX66 PFX67 : Bool) :
    i < opcodeEnd c i PFX66 PFX67 := by
  rw [opcodeEnd]
  split_ifs
  · have hle :=
      le_operandsEnd c (c i) (OpcodeFlagsExt.getD (c (i + 1)).toNat 0) PFX66 PFX67 (i + 2)
    omega
  · exact le_operandsEnd ..
  · exact le_operandsEnd ..

theorem opcodeEnd_congr (hc : ∀ k < opcodeEnd c i PFX66 PFX67, c' k = c k) :
    opcodeEnd c' i PFX66 PFX67 = opcodeEnd c i PFX66 PFX67 := by
  have hi := hc i (lt_opcodeEnd c i PFX66 PFX67)
  rw [opcodeEnd] at hc ⊢
  rw [opcodeEnd]
  rw [hi]
  split_ifs at hc ⊢ with hext
  · have hnext : c' (i + 1) = c (i + 1) :=
      hc (i + 1) (Nat.lt_of_lt_of_le (Nat.lt_succ_self _) (le_operandsEnd ..))
    rw [hnext]
    exact operandsEnd_congr hc
  · exact operandsEnd_congr hc
  · exact operandsEnd_congr hc

/-- The most bytes that operands with these flags take. -/
def room (Flags : UInt8) : Nat :=
  (has Flags OP_WORD).toNat + 6 * (has Flags OP_MODRM).toNat + dataSize Flags false

theorem dataSize_le : dataSize Flags PFX66 ≤ dataSize Flags false := by
  cases PFX66 with
  | false => exact Nat.le_refl _
  | true =>
    have hadd : (if has Flags OP_DATA_PRE66_67 then 2 else 0) ≤ if has Flags OP_DATA_PRE66_67
        then 4 else 0 := by
      split_ifs <;> decide
    exact Nat.add_le_add_left hadd _

theorem operandsEnd_le (hdata : ∀ modrm, has Flags OP_MODRM = true →
    dataSize (groupFlags Opcode modrm Flags) PFX66 ≤ dataSize Flags false + n) :
    operandsEnd c Opcode Flags PFX66 PFX67 i ≤ i + room Flags + n := by
  rw [operandsEnd, room]
  have hword : (if has Flags OP_WORD then i + 1 else i) = i + (has Flags OP_WORD).toNat := by
    cases has Flags OP_WORD <;> rfl
  rw [hword]
  split_ifs with hm
  · have haddress := addressForm_le PFX67 (c (i + (has Flags OP_WORD).toNat))
      (c (i + (has Flags OP_WORD).toNat + 1))
    have hgroup := hdata (c (i + (has Flags OP_WORD).toNat)) hm
    rw [hm, Bool.toNat_true]
    omega
  · have hplain : dataSize Flags PFX66 ≤ dataSize Flags false := dataSize_le
    omega

theorem groupFlags_of_ne (h6 : Opcode ≠ 0xF6) (h7 : Opcode ≠ 0xF7) :
    groupFlags Opcode modrm Flags = Flags := by
  simp [groupFlags, h6, h7]

theorem dataSize_group (h : Opcode = 0xF6 ∨ Opcode = 0xF7) (modrm : UInt8) (PFX66 : Bool) :
    dataSize (groupFlags Opcode modrm (OpcodeFlags.getD Opcode.toNat 0)) PFX66 ≤ 4 := by
  obtain rfl | rfl := h
  · have hflags : OpcodeFlags.getD (0xF6 : UInt8).toNat 0 = 0x01 := by decide
    rw [hflags, groupFlags]
    by_cases hreg : iReg modrm = 0 <;> cases PFX66 <;> simp only [hreg] <;> decide
  · have hflags : OpcodeFlags.getD (0xF7 : UInt8).toNat 0 = 0x01 := by decide
    rw [hflags, groupFlags]
    by_cases hreg : iReg modrm = 0 <;> cases PFX66 <;> simp only [hreg] <;> decide

theorem getD_le {l : List UInt8} {b : Nat} (hall : ∀ F ∈ l, room F ≤ b) (k : Nat) :
    room (l.getD k 0) ≤ b := by
  rw [List.getD_eq_getElem?_getD]
  cases hget : l[k]? with
  | none => exact Nat.zero_le _
  | some F => exact hall F (List.mem_of_getElem? hget)

theorem opcodeEnd_le (c : Code) (i : Nat) (PFX66 PFX67 : Bool) :
    opcodeEnd c i PFX66 PFX67 ≤ i + 11 := by
  have hone := getD_le (l := OpcodeFlags) (b := 10) (by decide +kernel) (c i).toNat
  have hext := getD_le (l := OpcodeFlagsExt) (b := 9) (by decide +kernel) (c (i + 1)).toNat
  rw [opcodeEnd]
  by_cases hF : c i = 0x0F
  · rw [if_pos hF]
    refine Nat.le_trans (operandsEnd_le (n := 0) fun modrm _ => ?_) (by omega)
    rw [hF, groupFlags_of_ne (by decide) (by decide)]
    exact dataSize_le
  · rw [if_neg hF]
    by_cases hgroup : c i = 0xF6 ∨ c i = 0xF7
    · have hroom : room (OpcodeFlags.getD (c i).toNat 0) = 6 := by
        obtain h | h := hgroup <;> rw [h] <;> decide
      refine Nat.le_trans (operandsEnd_le (n := 4) fun modrm _ => ?_) (by omega)
      exact Nat.le_trans (dataSize_group hgroup _ _) (Nat.le_add_left _ _)
    · obtain ⟨h6, h7⟩ := not_or.1 hgroup
      refine Nat.le_trans (operandsEnd_le (n := 0) fun modrm _ => ?_) (by omega)
      rw [groupFlags_of_ne h6 h7]
      exact dataSize_le

theorem SizeOfCode_eq {o : Nat} (h : SizeOfCode c = some (n, o)) :
    ∃ PFX66 PFX67, skipPfx c 17 0 false false = some (o, PFX66, PFX67) ∧
      n = opcodeEnd c o PFX66 PFX67 := by
  rw [SizeOfCode] at h
  obtain ⟨⟨cPtr, PFX66, PFX67⟩, hskip, heq⟩ := Option.map_eq_some_iff.1 h
  cases heq
  exact ⟨PFX66, PFX67, hskip, rfl⟩

theorem SizeOfCode_bounds {o : Nat} (h : SizeOfCode c = some (n, o)) :
    o ≤ 16 ∧ o < n ∧ n ≤ o + 11 ∧ isPfx (c o) = false := by
  obtain ⟨PFX66, PFX67, hskip, rfl⟩ := SizeOfCode_eq h
  have hb := skipPfx_bounds hskip
  exact ⟨by omega, lt_opcodeEnd .., opcodeEnd_le .., skipPfx_opcode hskip⟩

theorem SizeOfCode_congr {o : Nat} (h : SizeOfCode c = some (n, o)) (hc : ∀ k < n, c' k = c k) :
    SizeOfCode c' = some (n, o) := by
  obtain ⟨PFX66, PFX67, hskip, rfl⟩ := SizeOfCode_eq h
  have hlt := lt_opcodeEnd c o PFX66 PFX67
  rw [SizeOfCode, skipPfx_congr hskip fun k hk => hc k (by omega), Option.map_some]
  exact congrArg (fun e => some (e, o)) (opcodeEnd_congr hc)

/-- Instructions as words of bytes. -/
def instructions : Delimited UInt8 where
  next c := (SizeOfCode c).map Prod.fst
  pos c n h := by
    obtain ⟨⟨m, o⟩, hsize, rfl⟩ := Option.map_eq_some_iff.1 h
    exact Nat.zero_lt_of_lt (SizeOfCode_bounds hsize).2.1
  congr c c' n h hc := by
    obtain ⟨⟨m, o⟩, hsize, rfl⟩ := Option.map_eq_some_iff.1 h
    rw [SizeOfCode_congr hsize hc]
    rfl

/-- `SizeOfCode` gives up on seventeen bytes that go before an opcode and nothing else. The
instruction that it measures is told by its own bytes, and no bytes are two sequences of
instructions. -/
theorem SizeOfCode_delimits :
    (∀ c, SizeOfCode c = none ↔ ∀ k < 17, isPfx (c k) = true) ∧
      (∀ c n o, SizeOfCode c = some (n, o) →
        (∀ k < o, isPfx (c k) = true) ∧ isPfx (c o) = false ∧ o ≤ 16 ∧ o < n ∧ n ≤ o + 11 ∧
          ∀ c', (∀ k < n, c' k = c k) → SizeOfCode c' = some (n, o)) ∧
      InformationTheory.UniquelyDecodable {w | instructions.Word w} := by
  refine ⟨fun c => ?_, fun c n o h => ?_, instructions.uniquelyDecodable⟩
  · rw [SizeOfCode, Option.map_eq_none_iff, skipPfx_none]
    simp only [Nat.zero_add]
  · obtain ⟨ho, hlt, hle, hopcode⟩ := SizeOfCode_bounds h
    obtain ⟨PFX66, PFX67, hskip, -⟩ := SizeOfCode_eq h
    exact ⟨fun k => skipPfx_pfx hskip k (Nat.zero_le k), hopcode, ho, hlt, hle,
      fun c' => SizeOfCode_congr h⟩

/-! ## Relative commands -/

theorem rel32_flags (b : UInt8) :
    has (OpcodeFlags.getD b.toNat 0) OP_REL32 = true ↔ b = 0xE8 ∨ b = 0xE9 ∨ b = 0xFF := by
  have htable : ∀ k : Fin 256, has (OpcodeFlags.getD k 0) OP_REL32 = true ↔
      k = 0xE8 ∨ k = 0xE9 ∨ k = 0xFF := by decide +kernel
  have hb (k : UInt8) : b.toFin = k.toFin ↔ b = k := UInt8.toFin_inj
  exact (htable b.toFin).trans (or_congr (hb 0xE8) (or_congr (hb 0xE9) (hb 0xFF)))

theorem rel32_flagsExt (b : UInt8) :
    has (OpcodeFlagsExt.getD b.toNat 0) OP_REL32 = true ↔ 0x80 ≤ b ∧ b ≤ 0x8F := by
  have htable : ∀ k : Fin 256, has (OpcodeFlagsExt.getD k 0) OP_REL32 = true ↔
      0x80 ≤ k ∧ k ≤ 0x8F := by decide +kernel
  exact htable b.toFin

/-- The near calls and jumps count as relative, and with them the whole group of `0xFF`, which
is not. -/
theorem IsRelativeCmd_iff : IsRelativeCmd c = true ↔
    (c 0 = 0xE8 ∨ c 0 = 0xE9 ∨ c 0 = 0xFF) ∨ c 0 = 0x0F ∧ 0x80 ≤ c 1 ∧ c 1 ≤ 0x8F := by
  rw [IsRelativeCmd]
  split_ifs with hext
  · rw [rel32_flagsExt, hext]
    simp
  · rw [rel32_flags]
    simp [hext]

theorem operandsEnd_relative : operandsEnd c Opcode 0x50 false PFX67 i = i + 4 := by
  have hword : has 0x50 OP_WORD = false := by decide
  have hmodrm : has 0x50 OP_MODRM = false := by decide
  have hdata : dataSize 0x50 false = 4 := by decide
  simp [operandsEnd, hword, hmodrm, hdata]

/-- A command that counts as relative, but for that group, is its opcode and four bytes. -/
theorem SizeOfCode_relative (h : IsRelativeCmd c = true) (hgroup : c 0 ≠ 0xFF) :
    SizeOfCode c = some (if c 0 = 0x0F then 6 else 5, 0) := by
  have hend (hpfx : isPfx (c 0) = false) :
      SizeOfCode c = some (opcodeEnd c 0 false false, 0) := by
    simp [SizeOfCode, skipPfx, hpfx]
  have hone : ∀ b : UInt8, b = 0xE8 ∨ b = 0xE9 → isPfx b = false ∧ ¬b = 0x0F ∧
      ¬(0xA0 ≤ b ∧ b ≤ 0xA3) ∧ OpcodeFlags.getD b.toNat 0 = 0x50 := by
    rintro b (rfl | rfl) <;> decide
  have hext : ∀ k : Fin 256, 0x80 ≤ k ∧ k ≤ 0x8F → OpcodeFlagsExt.getD k 0 = 0x50 := by
    decide +kernel
  rcases IsRelativeCmd_iff.1 h with h | ⟨h, hnext⟩
  · obtain ⟨hpfx, hF, hA, hflags⟩ := hone (c 0) (by grind)
    rw [hend hpfx, opcodeEnd, if_neg hF, if_neg hA, hflags, operandsEnd_relative, if_neg hF]
  · have hflags : OpcodeFlagsExt.getD (c (0 + 1)).toNat 0 = 0x50 := hext (c 1).toFin hnext
    rw [hend (h ▸ by decide), opcodeEnd, if_pos h, hflags, operandsEnd_relative, if_pos h]

end

end Misc.ZaxInspector
