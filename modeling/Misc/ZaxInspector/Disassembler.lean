import Misc.Lib.Delimited
import Misc.ZaxInspector.Sections

namespace Misc.ZaxInspector
open Misc.Lib
set_option autoImplicit true

def OP_MODRM : UInt8 := 0x01

def OP_DATA_I8 : UInt8 := 0x02

def OP_DATA_I16 : UInt8 := 0x04

def OP_DATA_I32 : UInt8 := 0x08

def OP_DATA_PRE66_67 : UInt8 := 0x10

def OP_WORD : UInt8 := 0x20

def OP_REL32 : UInt8 := 0x40

/-- The flags of the opcodes of one byte, in rows of sixteen. -/
def OpcodeFlags : List UInt8 := [
  0x01, 0x01, 0x01, 0x01, 0x02, 0x10, 0x00, 0x00, 0x01, 0x01, 0x01, 0x01, 0x02, 0x10, 0x00, 0x00,
  0x01, 0x01, 0x01, 0x01, 0x02, 0x10, 0x00, 0x00, 0x01, 0x01, 0x01, 0x01, 0x02, 0x10, 0x00, 0x00,
  0x01, 0x01, 0x01, 0x01, 0x02, 0x10, 0x00, 0x00, 0x01, 0x01, 0x01, 0x01, 0x02, 0x10, 0x00, 0x00,
  0x01, 0x01, 0x01, 0x01, 0x02, 0x10, 0x00, 0x00, 0x01, 0x01, 0x01, 0x01, 0x02, 0x10, 0x00, 0x00,
  0x00, 0x00, 0x00, 0x00, 0x00, 0x00, 0x00, 0x00, 0x00, 0x00, 0x00, 0x00, 0x00, 0x00, 0x00, 0x00,
  0x00, 0x00, 0x00, 0x00, 0x00, 0x00, 0x00, 0x00, 0x00, 0x00, 0x00, 0x00, 0x00, 0x00, 0x00, 0x00,
  0x00, 0x00, 0x01, 0x01, 0x00, 0x00, 0x00, 0x00, 0x10, 0x11, 0x02, 0x03, 0x00, 0x00, 0x00, 0x00,
  0x02, 0x02, 0x02, 0x02, 0x02, 0x02, 0x02, 0x02, 0x02, 0x02, 0x02, 0x02, 0x02, 0x02, 0x02, 0x02,
  0x03, 0x11, 0x03, 0x03, 0x01, 0x01, 0x01, 0x01, 0x01, 0x01, 0x01, 0x01, 0x01, 0x01, 0x01, 0x01,
  0x00, 0x00, 0x00, 0x00, 0x00, 0x00, 0x00, 0x00, 0x00, 0x00, 0x14, 0x00, 0x00, 0x00, 0x00, 0x00,
  0x10, 0x10, 0x10, 0x10, 0x00, 0x00, 0x00, 0x00, 0x02, 0x10, 0x00, 0x00, 0x00, 0x00, 0x00, 0x00,
  0x02, 0x02, 0x02, 0x02, 0x02, 0x02, 0x02, 0x02, 0x10, 0x10, 0x10, 0x10, 0x10, 0x10, 0x10, 0x10,
  0x03, 0x03, 0x04, 0x00, 0x01, 0x01, 0x03, 0x11, 0x06, 0x00, 0x04, 0x00, 0x00, 0x02, 0x00, 0x00,
  0x01, 0x01, 0x01, 0x01, 0x02, 0x02, 0x00, 0x00, 0x20, 0x20, 0x20, 0x20, 0x20, 0x20, 0x20, 0x20,
  0x02, 0x02, 0x02, 0x02, 0x02, 0x02, 0x02, 0x02, 0x50, 0x50, 0x14, 0x02, 0x00, 0x00, 0x00, 0x00,
  0x00, 0x00, 0x00, 0x00, 0x00, 0x00, 0x01, 0x01, 0x00, 0x00, 0x00, 0x00, 0x00, 0x00, 0x01, 0x41]

/-- The flags of the opcodes that follow `0x0F`. -/
def OpcodeFlagsExt : List UInt8 := [
  0x01, 0x01, 0x01, 0x01, 0x00, 0x00, 0x00, 0x00, 0x00, 0x00, 0x00, 0x00, 0x00, 0x01, 0x00, 0x03,
  0x01, 0x01, 0x01, 0x01, 0x01, 0x01, 0x01, 0x01, 0x01, 0x00, 0x00, 0x00, 0x00, 0x00, 0x00, 0x00,
  0x01, 0x01, 0x01, 0x01, 0x01, 0x00, 0x01, 0x00, 0x01, 0x01, 0x01, 0x01, 0x01, 0x01, 0x01, 0x01,
  0x00, 0x00, 0x00, 0x00, 0x00, 0x00, 0x00, 0x00, 0x00, 0x00, 0x00, 0x00, 0x00, 0x00, 0x00, 0x00,
  0x01, 0x01, 0x01, 0x01, 0x01, 0x01, 0x01, 0x01, 0x01, 0x01, 0x01, 0x01, 0x01, 0x01, 0x01, 0x01,
  0x01, 0x01, 0x01, 0x01, 0x01, 0x01, 0x01, 0x01, 0x01, 0x01, 0x01, 0x01, 0x01, 0x01, 0x01, 0x01,
  0x01, 0x01, 0x01, 0x01, 0x01, 0x01, 0x01, 0x01, 0x01, 0x01, 0x01, 0x01, 0x01, 0x01, 0x01, 0x01,
  0x03, 0x03, 0x03, 0x03, 0x01, 0x01, 0x01, 0x00, 0x00, 0x00, 0x00, 0x00, 0x01, 0x01, 0x01, 0x01,
  0x50, 0x50, 0x50, 0x50, 0x50, 0x50, 0x50, 0x50, 0x50, 0x50, 0x50, 0x50, 0x50, 0x50, 0x50, 0x50,
  0x01, 0x01, 0x01, 0x01, 0x01, 0x01, 0x01, 0x01, 0x01, 0x01, 0x01, 0x01, 0x01, 0x01, 0x01, 0x01,
  0x00, 0x00, 0x00, 0x01, 0x03, 0x01, 0x00, 0x00, 0x00, 0x00, 0x00, 0x01, 0x03, 0x01, 0x01, 0x01,
  0x01, 0x01, 0x01, 0x01, 0x01, 0x01, 0x01, 0x01, 0x00, 0x00, 0x03, 0x01, 0x01, 0x01, 0x01, 0x01,
  0x01, 0x01, 0x03, 0x01, 0x03, 0x03, 0x03, 0x01, 0x00, 0x00, 0x00, 0x00, 0x00, 0x00, 0x00, 0x00,
  0x01, 0x01, 0x01, 0x01, 0x01, 0x01, 0x01, 0x01, 0x01, 0x01, 0x01, 0x01, 0x01, 0x01, 0x01, 0x01,
  0x01, 0x01, 0x01, 0x01, 0x01, 0x01, 0x01, 0x01, 0x01, 0x01, 0x01, 0x01, 0x01, 0x01, 0x01, 0x01,
  0x01, 0x01, 0x01, 0x01, 0x01, 0x01, 0x01, 0x01, 0x01, 0x01, 0x01, 0x01, 0x01, 0x01, 0x01, 0x00]

def has (Flags flag : UInt8) : Bool := Flags &&& flag != 0

abbrev Code := Nat → UInt8

def isPfx (b : UInt8) : Bool :=
  b == 0x2E || b == 0x3E || b == 0x36 || b == 0x26 || b == 0x64 || b == 0x65 ||
    b == 0xF0 || b == 0xF2 || b == 0xF3 || b == 0x66 || b == 0x67

/-- The loop over the bytes before the opcode, with how many more of them it goes past. It gives
the place of the opcode, `PFX66` and `PFX67`. -/
def skipPfx (c : Code) : Nat → Nat → Bool → Bool → Option (Nat × Bool × Bool)
  | 0, _, _, _ => none
  | n + 1, cPtr, PFX66, PFX67 =>
    if isPfx (c cPtr) then
      skipPfx c n (cPtr + 1) (PFX66 || c cPtr == 0x66) (PFX67 || c cPtr == 0x67)
    else some (cPtr, PFX66, PFX67)

def iMod (modrm : UInt8) : UInt8 := modrm >>> 6

def iReg (modrm : UInt8) : UInt8 := (modrm &&& 0x38) >>> 3

def iRM (modrm : UInt8) : UInt8 := modrm &&& 7

def sibPresent (PFX67 : Bool) (modrm : UInt8) : Bool :=
  !PFX67 && iRM modrm == 4 && iMod modrm != 3

/-- `OffsetSize`; the second byte counts only if it is a SIB byte. -/
def offsetSize (PFX67 : Bool) (modrm sib : UInt8) : Nat :=
  if sibPresent PFX67 modrm ∧ sib &&& 7 = 5 ∧ (iMod modrm = 0 ∨ iMod modrm = 2) then 4
  else if iMod modrm = 0 then
    if PFX67 ∧ iRM modrm = 6 then 2 else if ¬ PFX67 ∧ iRM modrm = 5 then 4 else 0
  else if iMod modrm = 1 then 1
  else if iMod modrm = 2 then if PFX67 then 2 else 4
  else 0

/-- The bytes that follow the ModRM byte for the address of its operand. -/
def addressForm (PFX67 : Bool) (modrm sib : UInt8) : Nat :=
  (sibPresent PFX67 modrm).toNat + offsetSize PFX67 modrm sib

/-- The flags of the opcodes `0xF6` and `0xF7` depend on the ModRM byte. -/
def groupFlags (Opcode modrm Flags : UInt8) : UInt8 :=
  let Flags := if Opcode = 0xF6 ∧ iReg modrm = 0 then Flags ||| OP_DATA_I8 else Flags
  if Opcode = 0xF7 ∧ iReg modrm = 0 then Flags ||| OP_DATA_PRE66_67 else Flags

def dataSize (Flags : UInt8) (PFX66 : Bool) : Nat :=
  (if has Flags OP_DATA_I8 then 1 else 0) + (if has Flags OP_DATA_I16 then 2 else 0) +
    (if has Flags OP_DATA_I32 then 4 else 0) +
    if has Flags OP_DATA_PRE66_67 then if PFX66 then 2 else 4 else 0

/-- Where an instruction ends whose opcode, with these flags, ends at `cPtr`. -/
def operandsEnd (c : Code) (Opcode Flags : UInt8) (PFX66 PFX67 : Bool) (cPtr : Nat) : Nat :=
  let cPtr := if has Flags OP_WORD then cPtr + 1 else cPtr
  if has Flags OP_MODRM then
    cPtr + 1 + addressForm PFX67 (c cPtr) (c (cPtr + 1)) +
      dataSize (groupFlags Opcode (c cPtr) Flags) PFX66
  else cPtr + dataSize Flags PFX66

/-- Where an instruction ends whose opcode is at `cPtr`. -/
def opcodeEnd (c : Code) (cPtr : Nat) (PFX66 PFX67 : Bool) : Nat :=
  let Opcode := c cPtr
  if Opcode = 0x0F then
    operandsEnd c Opcode (OpcodeFlagsExt.getD (c (cPtr + 1)).toNat 0) PFX66 PFX67 (cPtr + 2)
  else
    operandsEnd c Opcode (OpcodeFlags.getD Opcode.toNat 0)
      (if 0xA0 ≤ Opcode ∧ Opcode ≤ 0xA3 then PFX67 else PFX66) PFX67 (cPtr + 1)

/-- `SizeOfCode` on code that is there: the length and where `*pOpcode` points, or `none` for
0. -/
def SizeOfCode (c : Code) : Option (Nat × Nat) :=
  (skipPfx c 17 0 false false).map fun (cPtr, PFX66, PFX67) =>
    (opcodeEnd c cPtr PFX66 PFX67, cPtr)

def IsRelativeCmd (c : Code) : Bool :=
  has (if c 0 = 0x0F then OpcodeFlagsExt.getD (c 1).toNat 0
    else OpcodeFlags.getD (c 0).toNat 0) OP_REL32

section
variable (m : Memory) (MmIsAddressValid : UInt32 → Bool)

def Memory.code (a : UInt32) : Code := fun k => m (a + .ofNat k)

/-- `SizeOfCode` with its test of the address. -/
def codeAt (a : UInt32) : Option (Nat × Nat) :=
  if MmIsAddressValid a then SizeOfCode (m.code a) else none

/-- A `ret` as `SizeOfProc` looks for it. -/
def isReturn (a : UInt32) (Length pOpcode : Nat) : Bool :=
  Length == 1 && m (a + .ofNat pOpcode) == 0xC3 || Length == 3 && m (a + .ofNat pOpcode) == 0xC2

/-- `SizeOfProc` with a bound on the turns of its loop. -/
def SizeOfProc : Nat → UInt32 → UInt32 → Option UInt32
  | 0, _, _ => none
  | n + 1, Proc, Result =>
    match codeAt m MmIsAddressValid Proc with
    | none => some Result
    | some (Length, pOpcode) =>
      let Result := Result + .ofNat Length
      if isReturn m Proc Length pOpcode then some Result
        else SizeOfProc n (Proc + .ofNat Length) Result

def PAGE_SIZE : Nat := 4096

/-- The loop of `LocateSSDTShadowBase` from `k` bytes after its start on, with a bound on its
turns. -/
def searchShadow (start : UInt32) : Nat → Nat → Option UInt32
  | 0, _ => none
  | n + 1, k =>
    if k < PAGE_SIZE then
      let cPtr := start + .ofNat k
      match codeAt m MmIsAddressValid cPtr with
      | none => none
      | some (Length, pOpcode) =>
        if m.ushort cPtr = 0x888D then some (m.ulong (cPtr + .ofNat pOpcode + 2))
        else searchShadow start n (k + Length)
    else none

/-- The address that `LocateSSDTShadowBase` stores, if it finds it. No instruction is empty, so
that the loop has at most `PAGE_SIZE` turns. -/
def LocateSSDTShadowBase (KeAddSystemServiceTable : UInt32) : Option UInt32 :=
  searchShadow m MmIsAddressValid KeAddSystemServiceTable PAGE_SIZE 0

end

end Misc.ZaxInspector
