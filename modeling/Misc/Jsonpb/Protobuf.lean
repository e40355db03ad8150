import Misc.Lib.Digits

namespace Misc.Jsonpb
open Misc.Lib
set_option autoImplicit true

inductive Wiretype
  | variant | bit64 | lendelim | bit32
  deriving DecidableEq, Repr

def Wiretype.toNat : Wiretype → Nat
  | .variant => 0
  | .bit64 => 1
  | .lendelim => 2
  | .bit32 => 5

def putUvarint (v : UInt64) : List UInt8 := base128 10 v.toNat

def putUint64 (v : UInt64) : List UInt8 := littleEndian 8 v.toNat

def emitKey (field : Nat) (wt : Wiretype) : List UInt8 :=
  putUvarint (UInt64.ofNat field <<< 3 ||| UInt64.ofNat wt.toNat)

def emitVarint (field : Nat) (v : UInt64) : List UInt8 := emitKey field .variant ++ putUvarint v

def emitFixed64 (field : Nat) (v : UInt64) : List UInt8 := emitKey field .bit64 ++ putUint64 v

/-- With `binary.LittleEndian.PutUint32`. -/
def emitFixed32 (field : Nat) (v : UInt32) : List UInt8 :=
  emitKey field .bit32 ++ littleEndian 4 v.toNat

def emitLenDelim (field : Nat) (v : List UInt8) : List UInt8 :=
  emitKey field .lendelim ++ (putUvarint (UInt64.ofNat v.length) ++ v)

/-- The value of a field, as the wire has it. -/
inductive Wire
  | varint (v : UInt64)
  | fixed64 (v : UInt64)
  | bytes (v : List UInt8)
  | fixed32 (v : UInt32)
  deriving DecidableEq, Repr

structure Field where
  num : Nat
  value : Wire
  deriving DecidableEq, Repr

/-- A varint of at most ten bytes that fits in 64 bits. -/
def readUvarint (b : List UInt8) : Option (UInt64 × List UInt8) :=
  match readBase128 10 b with
  | some (n, b) => if n < UInt64.size then some (UInt64.ofNat n, b) else none
  | none => none

def readFixed (k : Nat) (b : List UInt8) : Option (Nat × List UInt8) :=
  if b.length < k then none else some (ofLittleEndian (b.take k), b.drop k)

/-- Reads a value after its key. -/
def readWire (wt : Nat) (b : List UInt8) : Option (Wire × List UInt8) :=
  match wt with
  | 0 => (readUvarint b).map fun r => (.varint r.1, r.2)
  | 1 => (readFixed 8 b).map fun r => (.fixed64 (UInt64.ofNat r.1), r.2)
  | 2 => (readUvarint b).bind fun r =>
    if r.2.length < r.1.toNat then none
    else some (.bytes (r.2.take r.1.toNat), r.2.drop r.1.toNat)
  | 5 => (readFixed 4 b).map fun r => (.fixed32 (UInt32.ofNat r.1), r.2)
  | _ => none

/-- Reads a field whose number is from 1 to 2^29 - 1. -/
def readField (b : List UInt8) : Option (Field × List UInt8) :=
  (readUvarint b).bind fun r =>
    let num := r.1.toNat / 8
    if num = 0 ∨ 2 ^ 29 ≤ num then none
    else (readWire (r.1.toNat % 8) r.2).map fun v => (⟨num, v.1⟩, v.2)

/-- The parser of the wire format, for at most the given number of fields. -/
def readFields : Nat → List UInt8 → Option (List Field)
  | _, [] => some []
  | 0, _ => none
  | n + 1, b => (readField b).bind fun r => (readFields n r.2).map (r.1 :: ·)

def parse (b : List UInt8) : Option (List Field) := readFields b.length b

def Field.emit (f : Field) : List UInt8 :=
  match f.value with
  | .varint v => emitVarint f.num v
  | .fixed64 v => emitFixed64 f.num v
  | .bytes v => emitLenDelim f.num v
  | .fixed32 v => emitFixed32 f.num v

structure Field.Fits (f : Field) : Prop where
  pos : 0 < f.num
  lt : f.num < 2 ^ 29
  length : ∀ v, f.value = .bytes v → v.length < UInt64.size

theorem readUvarint_putUvarint (v : UInt64) (b : List UInt8) :
    readUvarint (putUvarint v ++ b) = some (v, b) := by
  have hv : v.toNat < UInt64.size := v.toNat_lt
  have hlt : v.toNat < 128 ^ 10 := Nat.lt_of_lt_of_le hv (by decide)
  rw [readUvarint, putUvarint, readBase128_base128 (by decide) hlt]
  dsimp only
  rw [if_pos hv, UInt64.ofNat_toNat]

theorem readFixed_littleEndian {k n : Nat} (h : n < 256 ^ k) (b : List UInt8) :
    readFixed k (littleEndian k n ++ b) = some (n, b) := by
  have hlen := littleEndian_length k n
  rw [readFixed, if_neg, List.take_left' hlen, List.drop_left' hlen,
    ofLittleEndian_littleEndian h]
  rw [List.length_append, hlen]
  omega

theorem key_toNat {field : Nat} (h : field < 2 ^ 29) (wt : Wiretype) :
    (UInt64.ofNat field <<< 3 ||| UInt64.ofNat wt.toNat).toNat = field * 8 + wt.toNat := by
  have hwt : wt.toNat < 8 := by cases wt <;> decide
  have hfield : (UInt64.ofNat field).toNat = field :=
    UInt64.toNat_ofNat_of_lt (Nat.lt_of_lt_of_le h (by decide))
  have hw : (UInt64.ofNat wt.toNat).toNat = wt.toNat :=
    UInt64.toNat_ofNat_of_lt (Nat.lt_of_lt_of_le hwt (by decide))
  have hshift : field <<< 3 = field * 8 := Nat.shiftLeft_eq ..
  have hor := Nat.shiftLeft_add_eq_or_of_lt (i := 3) hwt field
  rw [UInt64.toNat_or, UInt64.toNat_shiftLeft, hfield, hw]
  have hmod : field <<< ((3 : UInt64).toNat % 64) % 2 ^ 64 = field <<< 3 := by
    apply Nat.mod_eq_of_lt
    change field <<< 3 < _
    omega
  rw [hmod, ← hor, hshift]

theorem readField_emitKey {field : Nat} {wt : Wiretype} (h0 : 0 < field) (h : field < 2 ^ 29)
    (b : List UInt8) : readField (emitKey field wt ++ b) =
      (readWire wt.toNat b).map fun v => (⟨field, v.1⟩, v.2) := by
  have hwt : wt.toNat < 8 := by cases wt <;> decide
  have hdiv : (field * 8 + wt.toNat) / 8 = field := by omega
  have hmod : (field * 8 + wt.toNat) % 8 = wt.toNat := by omega
  rw [readField, emitKey, readUvarint_putUvarint, Option.bind_some]
  dsimp only
  rw [key_toNat h, hdiv, hmod, if_neg (by omega)]

theorem readField_emit {f : Field} (h : f.Fits) (b : List UInt8) :
    readField (f.emit ++ b) = some (f, b) := by
  obtain ⟨num, value⟩ := f
  cases value with
  | varint v =>
    dsimp only [Field.emit, emitVarint]
    rw [List.append_assoc, readField_emitKey h.pos h.lt]
    dsimp only [Wiretype.toNat, readWire]
    rw [readUvarint_putUvarint]
    rfl
  | fixed64 v =>
    dsimp only [Field.emit, emitFixed64, putUint64]
    rw [List.append_assoc, readField_emitKey h.pos h.lt]
    dsimp only [Wiretype.toNat, readWire]
    rw [readFixed_littleEndian v.toNat_lt, Option.map_some]
    dsimp only
    rw [UInt64.ofNat_toNat]
    rfl
  | bytes v =>
    have hlen : (UInt64.ofNat v.length).toNat = v.length :=
      UInt64.toNat_ofNat_of_lt (h.length v rfl)
    dsimp only [Field.emit, emitLenDelim]
    rw [List.append_assoc, List.append_assoc, readField_emitKey h.pos h.lt]
    dsimp only [Wiretype.toNat, readWire]
    rw [readUvarint_putUvarint, Option.bind_some]
    dsimp only
    rw [hlen, List.take_left, List.drop_left, if_neg]
    · rfl
    · rw [List.length_append]
      omega
  | fixed32 v =>
    dsimp only [Field.emit, emitFixed32]
    rw [List.append_assoc, readField_emitKey h.pos h.lt]
    dsimp only [Wiretype.toNat, readWire]
    rw [readFixed_littleEndian v.toNat_lt, Option.map_some]
    dsimp only
    rw [UInt32.ofNat_toNat]
    rfl

theorem emitKey_ne_nil (field : Nat) (wt : Wiretype) :
    emitKey field wt ≠ [] := base128_ne_nil 9 _

theorem emit_length (f : Field) : 0 < f.emit.length := by
  apply List.length_pos_of_ne_nil
  obtain ⟨num, value⟩ := f
  cases value <;> exact List.append_ne_nil_of_left_ne_nil (emitKey_ne_nil _ _) _

/-- The parser recovers the fields. -/
theorem parse_emit {fs : List Field} (h : ∀ f ∈ fs, f.Fits) :
    parse (fs.flatMap Field.emit) = some fs := by
  have hfields (n : Nat) (hn : (fs.flatMap Field.emit).length ≤ n) :
      readFields n (fs.flatMap Field.emit) = some fs := by
    induction fs generalizing n with
    | nil => cases n <;> rfl
    | cons f fs ih =>
      obtain ⟨hf, hfs⟩ := List.forall_mem_cons.1 h
      have hpos := emit_length f
      rw [List.flatMap_cons, List.length_append] at hn
      obtain ⟨m, rfl⟩ : ∃ m, n = m + 1 := ⟨n - 1, by omega⟩
      rw [List.flatMap_cons]
      have hread := readField_emit hf (fs.flatMap Field.emit)
      cases hemit : f.emit with
      | nil =>
        rw [hemit] at hpos
        exact absurd hpos (Nat.lt_irrefl 0)
      | cons c b =>
        rw [hemit, List.cons_append] at hread
        rw [List.cons_append, readFields.eq_def]
        dsimp only
        rw [hread, Option.bind_some]
        rw [ih hfs m (by omega)]
        rfl
  exact hfields _ (Nat.le_refl _)

end Misc.Jsonpb
