import Misc.Lib.Digits
import Mathlib.Order.Monotone.Basic
import Mathlib.Order.Nat

namespace Misc.ZaxInspector
open Misc.Lib
set_option autoImplicit true

abbrev Memory := UInt32 → UInt8

namespace Memory

def ushort (m : Memory) (a : UInt32) : UInt16 := .ofNat (ofLittleEndian [m a, m (a + 1)])

def ulong (m : Memory) (a : UInt32) : UInt32 :=
  .ofNat (ofLittleEndian [m a, m (a + 1), m (a + 2), m (a + 3)])

end Memory

def imageDosSignature : UInt16 := 0x5A4D

def sizeofFileHeader : UInt32 := 20

def sizeofSectionHeader : UInt32 := 40

section
variable (m : Memory)

def eLfanew (pDOS : UInt32) : UInt32 := m.ulong (pDOS + 60)

def numberOfSections (pNT : UInt32) : UInt16 := m.ushort (pNT + 6)

def sizeOfOptionalHeader (pNT : UInt32) : UInt16 := m.ushort (pNT + 20)

def virtualAddress (pSection : UInt32) : UInt32 := m.ulong (pSection + 12)

def sizeOfRawData (pSection : UInt32) : UInt32 := m.ulong (pSection + 16)

def pointerToRawData (pSection : UInt32) : UInt32 := m.ulong (pSection + 20)

/-- The test of the loop. -/
def Matches (ulAddress pSection : UInt32) : Prop :=
  virtualAddress m pSection < ulAddress ∧
    ulAddress < virtualAddress m pSection + sizeOfRawData m pSection

instance : Decidable (Matches m ulAddress pSection) := instDecidableAnd

def rawAddress (ulAddress pSection : UInt32) : UInt32 :=
  ulAddress - virtualAddress m pSection + pointerToRawData m pSection

/-- The loop, with the number of turns that are left. It returns the headers that it has read as
well. -/
def searchSections (ulAddress : UInt32) : Nat → Nat → UInt32 → UInt32 × List UInt32
  | 0, _, _ => (0, [])
  | n + 1, i, pSection =>
    let pSection := pSection + sizeofSectionHeader * .ofNat i
    if Matches m ulAddress pSection then (rawAddress m ulAddress pSection, [pSection])
    else
      let r := searchSections ulAddress n (i + 1) pSection
      (r.1, pSection :: r.2)

def ntHeaders (pBase : UInt32) : UInt32 := pBase + eLfanew m pBase

def firstSection (pNT : UInt32) : UInt32 :=
  pNT + 4 + sizeofFileHeader + (sizeOfOptionalHeader m pNT).toUInt32

/-- `RVAToRaw`, with the section headers that it has read. -/
def rvaToRaw (pBase ulAddress : UInt32) : UInt32 × List UInt32 :=
  if m.ushort pBase ≠ imageDosSignature then (0, [])
  else
    let pNT := ntHeaders m pBase
    searchSections m (ulAddress - pBase) (numberOfSections m pNT).toNat 0 (firstSection m pNT)

end

def header (table : UInt32) (k : Nat) : UInt32 := table + sizeofSectionHeader * .ofNat k

/-- The number of the header that a turn of the loop reads. -/
def examined : Nat → Nat
  | 0 => 0
  | i + 1 => examined i + (i + 1)

section
variable {m : Memory} {table a p : UInt32} {i j k n : Nat}

theorem header_add (table : UInt32) (j k : Nat) :
    header table (j + k) = header table j + sizeofSectionHeader * .ofNat k := by
  rw [header, header, UInt32.ofNat_add, UInt32.mul_add, UInt32.add_assoc]

theorem toNat_offset (hk : k < 2 ^ 26) : (sizeofSectionHeader * .ofNat k).toNat = 40 * k := by
  have hlt : 40 * k < 2 ^ 32 := by omega
  rw [UInt32.toNat_mul, UInt32.toNat_ofNat', Nat.mul_mod_mod]
  exact Nat.mod_eq_of_lt hlt

theorem header_inj (hj : j < 2 ^ 26) (hk : k < 2 ^ 26) (h : header table j = header table k) :
    j = k := by
  have hmul := congrArg UInt32.toNat ((UInt32.add_right_inj table).1 h)
  rw [toNat_offset hj, toNat_offset hk] at hmul
  omega

theorem le_examined (i : Nat) : i ≤ examined i := by
  induction i with
  | zero => exact Nat.le_refl 0
  | succ i ih =>
    rw [examined]
    omega

theorem examined_strictMono : StrictMono examined :=
  strictMono_nat_of_lt_succ fun i => by
    rw [examined]
    omega

/-- From three sections on the loop leaves the table unless it returns before. -/
theorem le_examined_pred (hn : 3 ≤ n) : n ≤ examined (n - 1) := by
  induction n, hn using Nat.le_induction with
  | base => decide
  | succ n hn ih =>
    obtain ⟨k, rfl⟩ := Nat.exists_eq_add_of_le' hn
    rw [show k + 3 + 1 - 1 = k + 2 + 1 from rfl, examined]
    rw [show k + 3 - 1 = k + 2 from rfl] at ih
    omega

/-- Where the pointer is in a turn of the loop. -/
def At (table : UInt32) (i : Nat) (pSection : UInt32) : Prop :=
  pSection + sizeofSectionHeader * .ofNat i = header table (examined i)

theorem at_first (table : UInt32) : At table 0 table := rfl

theorem at_next (table : UInt32) (i : Nat) : At table (i + 1) (header table (examined i)) :=
  (header_add table (examined i) (i + 1)).symm

theorem searchSections_hit (hp : At table i p) (hik : i ≤ k) (hk : k < i + n)
    (hmiss : ∀ j, i ≤ j → j < k → ¬ Matches m a (header table (examined j)))
    (hhit : Matches m a (header table (examined k))) :
    (searchSections m a n i p).1 = rawAddress m a (header table (examined k)) ∧
      ∀ q ∈ (searchSections m a n i p).2, ∃ j ≤ k, q = header table (examined j) := by
  induction n generalizing i p with
  | zero => omega
  | succ n ih =>
    rw [searchSections]
    dsimp only
    rw [show p + sizeofSectionHeader * .ofNat i = _ from hp]
    rcases Nat.eq_or_lt_of_le hik with rfl | hlt
    · rw [if_pos hhit]
      refine ⟨rfl, fun q hq => ⟨i, Nat.le_refl i, List.mem_singleton.1 hq⟩⟩
    · rw [if_neg (hmiss i (Nat.le_refl i) hlt)]
      obtain ⟨hraw, hreads⟩ := ih (at_next table i) hlt (by omega) fun j hj => hmiss j (by omega)
      refine ⟨hraw, fun q hq => ?_⟩
      rcases List.mem_cons.1 hq with rfl | hq
      · exact ⟨i, hik, rfl⟩
      · exact hreads q hq

theorem searchSections_miss (hp : At table i p)
    (hmiss : ∀ j, i ≤ j → j < i + n → ¬ Matches m a (header table (examined j))) :
    (searchSections m a n i p).1 = 0 ∧
      ∀ q ∈ (searchSections m a n i p).2, ∃ j < i + n, q = header table (examined j) := by
  induction n generalizing i p with
  | zero => exact ⟨rfl, nofun⟩
  | succ n ih =>
    rw [searchSections]
    dsimp only
    rw [show p + sizeofSectionHeader * .ofNat i = _ from hp,
      if_neg (hmiss i (Nat.le_refl i) (by omega))]
    obtain ⟨hraw, hreads⟩ := ih (at_next table i) fun j hj hlt => hmiss j (by omega) (by omega)
    refine ⟨hraw, fun q hq => ?_⟩
    rcases List.mem_cons.1 hq with rfl | hq
    · exact ⟨i, by omega, rfl⟩
    · obtain ⟨j, hj, rfl⟩ := hreads q hq
      exact ⟨j, by omega, rfl⟩

theorem searchSections_reads (hp : At table i p) (hik : i ≤ k) (hk : k < i + n)
    (hmiss : ∀ j, i ≤ j → j < k → ¬ Matches m a (header table (examined j))) :
    header table (examined k) ∈ (searchSections m a n i p).2 := by
  induction n generalizing i p with
  | zero => omega
  | succ n ih =>
    rw [searchSections]
    dsimp only
    rw [show p + sizeofSectionHeader * .ofNat i = _ from hp]
    rcases Nat.eq_or_lt_of_le hik with rfl | hlt
    · split_ifs <;> exact List.mem_cons_self
    · rw [if_neg (hmiss i (Nat.le_refl i) hlt)]
      exact List.mem_cons_of_mem _
        (ih (at_next table i) hlt (by omega) fun j hj => hmiss j (by omega))

end

/-- The relative address lies in the range of the section. -/
def InRange (m : Memory) (a pSection : UInt32) : Prop :=
  (virtualAddress m pSection).toNat ≤ a.toNat ∧
    a.toNat < (virtualAddress m pSection).toNat + (sizeOfRawData m pSection).toNat

/-- The ranges of a section table are below 2³² and disjoint. -/
structure WellFormed (m : Memory) (table : UInt32) (n : Nat) : Prop where
  below : ∀ k < n, (virtualAddress m (header table k)).toNat +
    (sizeOfRawData m (header table k)).toNat ≤ 2 ^ 32
  disjoint : ∀ j < n, ∀ k < n, ∀ a, InRange m a (header table j) →
    InRange m a (header table k) → j = k

/-- What a lookup has to find and may read. -/
structure Right (m : Memory) (table a : UInt32) (n : Nat) (r : UInt32 × List UInt32) : Prop where
  found : ∀ k < n, InRange m a (header table k) → r.1 = rawAddress m a (header table k)
  missing : (∀ k < n, ¬ InRange m a (header table k)) → r.1 = 0
  inside : ∀ q ∈ r.2, ∃ k < n, q = header table k

section
variable {m : Memory} {table a p : UInt32} {i j k n : Nat}

theorem WellFormed.inRange (hwf : WellFormed m table n) (hk : k < n)
    (h : Matches m a (header table k)) : InRange m a (header table k) := by
  obtain ⟨hlow, hhigh⟩ := h
  have hbelow := hwf.below k hk
  rw [UInt32.lt_iff_toNat_lt] at hlow hhigh
  rw [UInt32.toNat_add] at hhigh
  refine ⟨Nat.le_of_lt hlow, ?_⟩
  rcases Nat.lt_or_eq_of_le hbelow with hlt | heq
  · rwa [Nat.mod_eq_of_lt hlt] at hhigh
  · rw [heq, Nat.mod_self] at hhigh
    exact absurd hhigh (Nat.not_lt_zero _)

theorem right_of_hit (hwf : WellFormed m table n) (hi : examined i < n)
    (hhit : Matches m a (header table (examined i))) :
    Right m table a n (searchSections m a n 0 table) := by
  classical
  have hex : ∃ i, Matches m a (header table (examined i)) := ⟨i, hhit⟩
  have hmin : Nat.find hex ≤ i := Nat.find_min' hex hhit
  have hlt : ∀ j ≤ Nat.find hex, examined j < n := fun j hj =>
    Nat.lt_of_le_of_lt (examined_strictMono.monotone (Nat.le_trans hj hmin)) hi
  have hfirst := hlt _ (Nat.le_refl _)
  have hturn := Nat.lt_of_le_of_lt (le_examined _) hfirst
  obtain ⟨hraw, hreads⟩ := searchSections_hit (n := n) (at_first table) (Nat.zero_le _)
    (by omega) (fun j _ hj => Nat.find_min hex hj) (Nat.find_spec hex)
  have hin := hwf.inRange hfirst (Nat.find_spec hex)
  refine ⟨fun k hk hrange => ?_, fun hnone => absurd hin (hnone _ hfirst), fun q hq => ?_⟩
  · rw [hraw, hwf.disjoint k hk _ hfirst a hrange hin]
  · obtain ⟨j, hj, rfl⟩ := hreads q hq
    exact ⟨_, hlt j hj, rfl⟩

/-- With at most two sections every header is examined. -/
theorem right_iff_few (hn : n ≤ 2)
    (hmiss : ∀ i, examined i < n → ¬ Matches m a (header table (examined i))) :
    Right m table a n (searchSections m a n 0 table) ↔
      ∀ k < n, InRange m a (header table k) → rawAddress m a (header table k) = 0 := by
  have hall : ∀ j < n, examined j = j := by
    intro j hj
    match j with
    | 0 => rfl
    | 1 => rfl
    | j + 2 => omega
  obtain ⟨hraw, hreads⟩ :=
      searchSections_miss (at_first table) (n := n) (m := m) (a := a) fun j _ hj =>
    hmiss j (by rw [hall j (by omega)]; omega)
  constructor
  · intro hright k hk hrange
    rw [← hright.found k hk hrange, hraw]
  · intro hzero
    refine ⟨fun k hk hrange => hraw.trans (hzero k hk hrange).symm, fun _ =>
      hraw, fun q hq => ?_⟩
    obtain ⟨j, hj, rfl⟩ := hreads q hq
    exact ⟨j, by omega, by rw [hall j (by omega)]⟩

/-- With three sections or more the loop reads behind the table unless it has found a section
before. -/
theorem not_right_many (hn : 3 ≤ n) (hsize : n < 2 ^ 16)
    (hmiss : ∀ i, examined i < n → ¬ Matches m a (header table (examined i))) :
    ¬ Right m table a n (searchSections m a n 0 table) := by
  intro hright
  have hex : ∃ i, n ≤ examined i := ⟨n - 1, le_examined_pred hn⟩
  have hmin : Nat.find hex ≤ n - 1 := Nat.find_min' hex (le_examined_pred hn)
  have hout := Nat.find_spec hex
  have hbefore : ∀ j < Nat.find hex, examined j < n := fun j hj =>
    Nat.lt_of_not_le (Nat.find_min hex hj)
  obtain ⟨k, hk, heq⟩ := hright.inside _
    (searchSections_reads (at_first table) (Nat.zero_le _) (by omega) fun j _ hj =>
      hmiss j (hbefore j hj))
  have hbound : examined (Nat.find hex) < 2 ^ 26 := by
    cases hf : Nat.find hex with
    | zero => decide
    | succ i =>
      have hprev := hbefore i (by omega)
      rw [examined]
      omega
  have hsame := header_inj hbound (by omega) heq
  omega

end

/-- With a valid signature and sections whose ranges are disjoint, `RVAToRaw` finds the right
offset and reads only the table if and only if the address lies behind the start of a section
whose number the loop examines, or there are at most two sections and no offset is expected but
0. -/
theorem rvaToRaw_right_iff {m : Memory} {pBase ulAddress table : UInt32} {n : Nat}
    (hdos : m.ushort pBase = imageDosSignature)
    (htable : table = firstSection m (ntHeaders m pBase))
    (hn : n = (numberOfSections m (ntHeaders m pBase)).toNat) (hwf : WellFormed m table n) :
    Right m table (ulAddress - pBase) n (rvaToRaw m pBase ulAddress) ↔
      (∃ i, examined i < n ∧ Matches m (ulAddress - pBase) (header table (examined i))) ∨
      n ≤ 2 ∧ ∀ k < n, InRange m (ulAddress - pBase) (header table k) →
        rawAddress m (ulAddress - pBase) (header table k) = 0 := by
  rw [rvaToRaw, if_neg (not_not_intro hdos)]
  dsimp only
  rw [← htable, ← hn]
  by_cases hhit : ∃ i, examined i < n ∧ Matches m (ulAddress - pBase) (header table (examined i))
  · obtain ⟨i, hi, hmatch⟩ := hhit
    exact iff_of_true (right_of_hit hwf hi hmatch) (Or.inl ⟨i, hi, hmatch⟩)
  · have hmiss : ∀ i, examined i < n →
        ¬ Matches m (ulAddress - pBase) (header table (examined i)) :=
      fun i hi hmatch => hhit ⟨i, hi, hmatch⟩
    rw [or_iff_right hhit]
    rcases Nat.lt_or_ge 2 n with hmany | hfew
    · have hsize : n < 2 ^ 16 := hn ▸ UInt16.toNat_lt _
      exact iff_of_false (not_right_many hmany hsize hmiss) fun hno => absurd hno.1 (by omega)
    · rw [right_iff_few hfew hmiss, and_iff_right hfew]

/-- An image at address 0 with sections of 16 bytes at 16, 32 and 48. -/
def smallImage (sections : UInt8) : Memory := fun a =>
  match a.toNat with
  | 0 => 0x4D
  | 1 => 0x5A
  | 60 => 64
  | 70 => sections
  | 100 => 16
  | 104 => 16
  | 108 => 80
  | 140 => 32
  | 144 => 16
  | 148 => 96
  | 180 => 48
  | 184 => 16
  | 188 => 112
  | _ => 0

theorem smallImage_ranges (sections : UInt8) : ∀ k < 3,
    (virtualAddress (smallImage sections) (header 88 k)).toNat = 16 * (k + 1) ∧
      (sizeOfRawData (smallImage sections) (header 88 k)).toNat = 16 := by
  intro k hk
  match k with
  | 0 => exact ⟨rfl, rfl⟩
  | 1 => exact ⟨rfl, rfl⟩
  | 2 => exact ⟨rfl, rfl⟩
  | k + 3 => omega

theorem smallImage_wellFormed (sections : UInt8) (hn : n ≤ 3) :
    WellFormed (smallImage sections) 88 n where
  below := by
    intro k hk
    obtain ⟨hva, hsize⟩ := smallImage_ranges sections k (by omega)
    omega
  disjoint := by
    rintro j hj k hk a ⟨hlow, hhigh⟩ ⟨hlow', hhigh'⟩
    obtain ⟨hva, hsize⟩ := smallImage_ranges sections j (by omega)
    obtain ⟨hva', hsize'⟩ := smallImage_ranges sections k (by omega)
    omega

/-- An address in the second of three sections. -/
theorem rvaToRaw_right_iff_second :
    Right (smallImage 3) 88 (40 - 0) 3 (rvaToRaw (smallImage 3) 0 40) ↔
      (∃ i, examined i < 3 ∧ Matches (smallImage 3) (40 - 0) (header 88 (examined i))) ∨
      3 ≤ 2 ∧ ∀ k < 3, InRange (smallImage 3) (40 - 0) (header 88 k) →
        rawAddress (smallImage 3) (40 - 0) (header 88 k) = 0 :=
  rvaToRaw_right_iff rfl rfl rfl (smallImage_wellFormed 3 (by decide))

/-- The last of three sections is not found. -/
theorem third_section_lost : ¬ ∀ (m : Memory) (pBase ulAddress table : UInt32) (n : Nat),
    m.ushort pBase = imageDosSignature → table = firstSection m (ntHeaders m pBase) →
    n = (numberOfSections m (ntHeaders m pBase)).toNat → WellFormed m table n →
    Right m table (ulAddress - pBase) n (rvaToRaw m pBase ulAddress) := by
  intro h
  have hright := h (smallImage 3) 0 50 88 3 rfl rfl rfl (smallImage_wellFormed 3 (by decide))
  have hraw := hright.found 2 (by decide) ⟨by decide, by decide⟩
  exact absurd hraw (by decide)

end Misc.ZaxInspector
