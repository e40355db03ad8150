import Misc.Jsonpb.Protobuf

namespace Misc.Jsonpb
open Misc.Lib
set_option autoImplicit true

def putVarint (v : Int64) : List UInt8 := putUvarint (zigzag v)

def emitVarintZigzag (field : Nat) (v : Int64) : List UInt8 :=
  emitKey field .variant ++ putVarint v

/-- An emit call; a message is another encoder's calls, whose bytes are the value. -/
inductive Call
  | varint (field : Nat) (v : UInt64)
  | varintZigzag (field : Nat) (v : Int64)
  | fixed64 (field : Nat) (v : UInt64)
  | fixed32 (field : Nat) (v : UInt32)
  | lenDelim (field : Nat) (v : List UInt8)
  | message (field : Nat) (calls : List Call)

structure Pbencoder where
  s : List UInt8 := []
  deriving DecidableEq, Repr

def Pbencoder.write (e : Pbencoder) (b : List UInt8) : Pbencoder := ⟨e.s ++ b⟩

mutual

def Pbencoder.emit (e : Pbencoder) : Call → Pbencoder
  | .varint field v => e.write (emitVarint field v)
  | .varintZigzag field v => e.write (emitVarintZigzag field v)
  | .fixed64 field v => e.write (emitFixed64 field v)
  | .fixed32 field v => e.write (emitFixed32 field v)
  | .lenDelim field v => e.write (emitLenDelim field v)
  | .message field calls => e.write (emitLenDelim field (Pbencoder.emits {} calls).s)

def Pbencoder.emits (e : Pbencoder) : List Call → Pbencoder
  | [] => e
  | c :: calls => (e.emit c).emits calls

end

def encode (calls : List Call) : List UInt8 := (Pbencoder.emits {} calls).s

/-- The field that a call leaves on the wire. -/
def Call.wire : Call → Field
  | .varint field v => ⟨field, .varint v⟩
  | .varintZigzag field v => ⟨field, .varint (zigzag v)⟩
  | .fixed64 field v => ⟨field, .fixed64 v⟩
  | .fixed32 field v => ⟨field, .fixed32 v⟩
  | .lenDelim field v => ⟨field, .bytes v⟩
  | .message field calls => ⟨field, .bytes (encode calls)⟩

/-- What a message's description says of a field. -/
inductive FieldKind
  | varint | varintZigzag | fixed64 | fixed32 | lenDelim
  | message (kinds : List FieldKind)

mutual

def Call.kind : Call → FieldKind
  | .varint _ _ => .varint
  | .varintZigzag _ _ => .varintZigzag
  | .fixed64 _ _ => .fixed64
  | .fixed32 _ _ => .fixed32
  | .lenDelim _ _ => .lenDelim
  | .message _ calls => .message (kinds calls)

def kinds : List Call → List FieldKind
  | [] => []
  | c :: calls => c.kind :: kinds calls

end

mutual

/-- The call that a field of this kind is read back as; an embedded message is parsed in turn. -/
def FieldKind.read : FieldKind → Field → Option Call
  | .varint, ⟨field, .varint v⟩ => some (.varint field v)
  | .varintZigzag, ⟨field, .varint v⟩ => some (.varintZigzag field (unzigzag v))
  | .fixed64, ⟨field, .fixed64 v⟩ => some (.fixed64 field v)
  | .fixed32, ⟨field, .fixed32 v⟩ => some (.fixed32 field v)
  | .lenDelim, ⟨field, .bytes v⟩ => some (.lenDelim field v)
  | .message kinds, ⟨field, .bytes v⟩ =>
    (parse v).bind fun fs => (reads kinds fs).map (.message field)
  | _, _ => none

/-- Every field is read, and every kind is used up. -/
def reads : List FieldKind → List Field → Option (List Call)
  | [], [] => some []
  | k :: kinds, f :: fs => (k.read f).bind fun c => (reads kinds fs).map (c :: ·)
  | _, _ => none

end

/-- The numbers of the fields are in range, and the lengths fit in 64 bits. -/
inductive Call.Fits : Call → Prop
  | varint : 0 < field → field < 2 ^ 29 → Fits (.varint field v)
  | varintZigzag : 0 < field → field < 2 ^ 29 → Fits (.varintZigzag field v)
  | fixed64 : 0 < field → field < 2 ^ 29 → Fits (.fixed64 field v)
  | fixed32 : 0 < field → field < 2 ^ 29 → Fits (.fixed32 field v)
  | lenDelim : 0 < field → field < 2 ^ 29 → v.length < UInt64.size → Fits (.lenDelim field v)
  | message : 0 < field → field < 2 ^ 29 → (encode calls).length < UInt64.size →
      (∀ c ∈ calls, Fits c) → Fits (.message field calls)

theorem Pbencoder.emit_eq (e : Pbencoder) (c : Call) : e.emit c = e.write c.wire.emit := by
  cases c <;> rfl

theorem Pbencoder.emits_eq (e : Pbencoder) (calls : List Call) :
    e.emits calls = e.write ((calls.map Call.wire).flatMap Field.emit) := by
  induction calls generalizing e with
  | nil =>
    rw [Pbencoder.emits, Pbencoder.write]
    exact congrArg Pbencoder.mk (List.append_nil e.s).symm
  | cons c calls ih =>
    rw [Pbencoder.emits, ih, Pbencoder.emit_eq]
    exact congrArg Pbencoder.mk (List.append_assoc ..)

theorem encode_eq (calls : List Call) :
    encode calls = (calls.map Call.wire).flatMap Field.emit := by
  rw [encode, Pbencoder.emits_eq]
  rfl

theorem Call.Fits.wire {c : Call} (h : c.Fits) : c.wire.Fits := by
  cases h with
  | varint h0 h => exact ⟨h0, h, nofun⟩
  | varintZigzag h0 h => exact ⟨h0, h, nofun⟩
  | fixed64 h0 h => exact ⟨h0, h, nofun⟩
  | fixed32 h0 h => exact ⟨h0, h, nofun⟩
  | lenDelim h0 h hlen =>
    refine ⟨h0, h, ?_⟩
    rintro v ⟨⟩
    exact hlen
  | message h0 h hlen _ =>
    refine ⟨h0, h, ?_⟩
    rintro v ⟨⟩
    exact hlen

theorem parse_encode {calls : List Call} (h : ∀ c ∈ calls, c.Fits) :
    parse (encode calls) = some (calls.map Call.wire) := by
  rw [encode_eq]
  apply parse_emit
  intro f hf
  obtain ⟨c, hc, rfl⟩ := List.mem_map.1 hf
  exact (h c hc).wire

mutual

/-- A call is read back from its field, the calls of a message through the parser. -/
theorem read_wire {c : Call} (h : c.Fits) : c.kind.read c.wire = some c := by
  cases c with
  | varint => rw [Call.kind, Call.wire, FieldKind.read]
  | varintZigzag field v => rw [Call.kind, Call.wire, FieldKind.read, unzigzag_zigzag]
  | fixed64 => rw [Call.kind, Call.wire, FieldKind.read]
  | fixed32 => rw [Call.kind, Call.wire, FieldKind.read]
  | lenDelim => rw [Call.kind, Call.wire, FieldKind.read]
  | message field calls =>
    cases h with
    | message _ _ _ hcalls =>
      rw [Call.kind, Call.wire, FieldKind.read, parse_encode hcalls, Option.bind_some,
        reads_wires hcalls, Option.map_some]

theorem reads_wires {calls : List Call} (h : ∀ c ∈ calls, c.Fits) :
    reads (kinds calls) (calls.map Call.wire) = some calls := by
  cases calls with
  | nil => rw [kinds, List.map_nil, reads]
  | cons c calls =>
    obtain ⟨hc, hcalls⟩ := List.forall_mem_cons.1 h
    rw [kinds, List.map_cons, reads, read_wire hc, Option.bind_some, reads_wires hcalls,
      Option.map_some]

end

/-- The parser recovers a field for each call, in order and with nothing left over, and the
fields give the calls back. -/
theorem encode_decodable {calls : List Call} (h : ∀ c ∈ calls, c.Fits) :
    parse (encode calls) = some (calls.map Call.wire) ∧
      (parse (encode calls)).bind (reads (kinds calls)) = some calls := by
  have hparse := parse_encode h
  refine ⟨hparse, ?_⟩
  rw [hparse, Option.bind_some]
  exact reads_wires h

/-- The encoders of the test. -/
theorem encode_decodable_nested :
    let inner := [Call.varint 1 150, .lenDelim 2 [116, 101, 115, 116, 105, 110, 103]]
    parse (encode [.message 3 inner]) = some [⟨3, .bytes (encode inner)⟩] ∧
      (parse (encode [.message 3 inner])).bind (reads [.message [.varint, .lenDelim]]) =
        some [.message 3 inner] := by
  intro inner
  have hinner : ∀ c ∈ inner, c.Fits := List.forall_mem_cons.2
    ⟨.varint (by decide) (by decide), List.forall_mem_singleton.2
      (.lenDelim (by decide) (by decide) (by decide))⟩
  have hlen : (encode inner).length < UInt64.size := by decide
  exact encode_decodable
    (List.forall_mem_singleton.2 (.message (by decide) (by decide) hlen hinner))

end Misc.Jsonpb
