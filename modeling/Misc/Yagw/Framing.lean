import Misc.Lib.Machine
import Misc.Lib.Window
import Misc.Yagw.Proto
import Mathlib.Data.List.Basic

namespace Misc.Yagw
open Misc.Lib
set_option autoImplicit true

/-- A byte slice: the array from its first byte to the end of its capacity, and its length. -/
structure Slice where
  array : List UInt8
  len : Nat
  len_le : len ≤ array.length

theorem length_le_copyAt (a : List UInt8) (off : Nat) (b : List UInt8) :
    a.length ≤ (copyAt a off b).length :=
  length_le_store a off b

theorem length_copyAt {a b : List UInt8} (h : off + b.length ≤ a.length) :
    (copyAt a off b).length = a.length :=
  length_store h

theorem take_copyAt {a : List UInt8} (h : off ≤ a.length) (b : List UInt8) :
    (copyAt a off b).take (off + b.length) = a.take off ++ b :=
  take_store h b

namespace Slice

def cap (s : Slice) : Nat := s.array.length

def bytes (s : Slice) : List UInt8 := s.array.take s.len

def put (s : Slice) (off : Nat) (b : List UInt8) : Slice :=
  ⟨copyAt s.array off b, s.len, Nat.le_trans s.len_le (length_le_copyAt ..)⟩

/-- Makes room for `addition` more bytes, in a new array when the capacity is too small. -/
def extend (buf : Slice) (addition : Nat) : Slice :=
  if h : buf.cap < buf.len + addition then
    ⟨copyAt (List.replicate (buf.cap + addition) 0) 0 buf.bytes, buf.len + addition,
      Nat.le_trans (by simpa [cap] using buf.len_le) (length_le_copyAt ..)⟩
  else ⟨buf.array, buf.len + addition, Nat.le_of_not_lt h⟩

/-- `write_packet`, on the slice it is given. -/
def writePacket (buf : Slice) (cmd seq : UInt32) (body : List UInt8) : Slice :=
  let p := buf.len
  let buf := buf.extend (packetHeaderLen + body.length)
  (((buf.put p (putUint32 body.length)).put (p + 4) (putUint32 cmd.toNat)).put (p + 8)
    (putUint32 seq.toNat)).put (p + packetHeaderLen) body

theorem length_bytes (s : Slice) : s.bytes.length = s.len := List.length_take_of_le s.len_le

theorem take_put {s : Slice} (h : s.array.take k = c) (hc : c.length = k) (b : List UInt8)
    (hm : m = k + b.length) : (s.put k b).array.take m = c ++ b := by
  have hk : k ≤ s.array.length := by
    rw [← h, List.length_take] at hc
    omega
  rw [hm, put, take_copyAt hk, h]

@[simp] theorem len_put (s : Slice) (off : Nat) (b : List UInt8) :
    (s.put off b).len = s.len := rfl

@[simp] theorem len_extend (s : Slice) (k : Nat) : (s.extend k).len = s.len + k := by
  rw [extend]
  split_ifs <;> rfl

theorem take_extend (s : Slice) (k : Nat) : (s.extend k).array.take s.len = s.bytes := by
  rw [extend]
  split_ifs with h
  · have ht := take_copyAt (Nat.zero_le (List.replicate (s.cap + k) (0 : UInt8)).length) s.bytes
    rw [length_bytes, Nat.zero_add] at ht
    exact ht
  · rfl

/-- Both paths of `write_packet` append the same bytes to the same content. -/
theorem bytes_writePacket (buf : Slice) (cmd seq : UInt32) (body : List UInt8) :
    (buf.writePacket cmd seq body).bytes =
      Yagw.writePacket buf.bytes cmd.toNat seq.toNat body := by
  have h₀ := take_extend buf (packetHeaderLen + body.length)
  have h₁ := take_put h₀ buf.length_bytes (putUint32 body.length) rfl
  have h₂ := take_put h₁ (by simp [length_bytes, putUint32]) (putUint32 cmd.toNat) rfl
  have h₃ := take_put h₂ (by simp [length_bytes, putUint32]) (putUint32 seq.toNat) rfl
  have h₄ := take_put h₃ (by simp [length_bytes, putUint32]) body rfl
  rw [bytes, writePacket]
  simp only [len_put, len_extend, ← Nat.add_assoc]
  exact h₄

end Slice

/-- A packet whose body the reader has room for. -/
structure Packet where
  cmd : UInt32
  seq : UInt32
  body : List UInt8
  short : body.length < packetMaxBodyLen

namespace Packet

def bytes (p : Packet) : List UInt8 := writePacket [] p.cmd.toNat p.seq.toNat p.body

def fields (p : Packet) : (Nat × Nat) × Option (List UInt8) :=
  ((p.cmd.toNat, p.seq.toNat), some p.body)

end Packet

def Slice.writePackets (buf : Slice) (ps : List Packet) : Slice :=
  ps.foldl (fun buf p => buf.writePacket p.cmd p.seq p.body) buf

theorem Slice.bytes_writePackets (buf : Slice) (ps : List Packet) :
    (buf.writePackets ps).bytes = buf.bytes ++ ps.flatMap Packet.bytes := by
  induction ps generalizing buf with
  | nil => simp [writePackets]
  | cons p ps ih =>
    have h := ih (buf.writePacket p.cmd p.seq p.body)
    rw [bytes_writePacket] at h
    rw [writePackets, List.foldl_cons, ← writePackets, h, List.flatMap_cons]
    simp [Packet.bytes, Yagw.writePacket]

/-- What `sys_read` gives for a slice of `k` bytes when at most `m + 1` bytes are there to
read. -/
def sysRead (fd : List UInt8) (k m : Nat) : SysRead :=
  if fd = [] then .eagain else .data (fd.take (min (m + 1) k))

/-- What is left to read. -/
def SysRead.rest (fd : List UInt8) : SysRead → List UInt8
  | .data b => fd.drop b.length
  | _ => fd

/-- `readfrom` when its reads meet at most `m + 1` bytes for each `m` of `cuts`, and `EAGAIN`
after these. It returns no value when it fails. -/
def PacketReader.readfrom (fd : List UInt8) (r : PacketReader) :
    List Nat → PacketReader × List UInt8 × Option Bool
  | [] =>
    match r.want with
    | none => (r, fd, some r.readEnd)
    | some _ =>
      match r.readStep .eagain with
      | (r, .ret ready) => (r, fd, some ready)
      | (r, _) => (r, fd, none)
  | m :: cuts =>
    match r.want with
    | none => (r, fd, some r.readEnd)
    | some k =>
      let res := sysRead fd k m
      match r.readStep res with
      | (r, .more) => r.readfrom (res.rest fd) cuts
      | (r, .ret ready) => (r, res.rest fd, some ready)
      | (r, .fail) => (r, res.rest fd, none)

/-- A reader of one stream, the bytes it has not read and what it was given for each packet. -/
structure Receiver where
  r : PacketReader
  fd : List UInt8
  got : List ((Nat × Nat) × Option (List UInt8))

namespace Receiver

/-- Calls `readfrom` once, and `reset` when it reports a packet. -/
def recv (s : Receiver) (cuts : List Nat) : Option Receiver :=
  match s.r.readfrom s.fd cuts with
  | (r, fd, some true) => some ⟨r.reset, fd, s.got ++ [(r.getHeader, r.getBody)]⟩
  | (r, fd, some false) => some ⟨r, fd, s.got⟩
  | (_, _, none) => none

def start (fd : List UInt8) : Receiver := ⟨.new, fd, []⟩

/-- The receiver as a machine that moves by calls of `readfrom`. -/
def machine : Lib.Machine Receiver (List Nat) where
  init s := ∃ fd, s = start fd
  step := recv

end Receiver

theorem uint32_putUint32 (h : n < 2 ^ 32) (l : List UInt8) : uint32 (putUint32 n ++ l) = n := by
  simp only [putUint32, uint32, List.cons_append, List.getD_cons_zero, List.getD_cons_succ,
    UInt8.toNat_ofNat']
  omega

namespace Packet

theorem bytes_eq (p : Packet) : p.bytes = putUint32 p.body.length ++ (putUint32 p.cmd.toNat ++
    (putUint32 p.seq.toNat ++ p.body)) := by
  simp [bytes, writePacket]

@[simp] theorem length_bytes (p : Packet) :
    p.bytes.length = packetHeaderLen + p.body.length := by
  simp only [bytes_eq, putUint32, List.length_append, List.length_cons, List.length_nil,
    packetHeaderLen]
  omega

def header (p : Packet) : List UInt8 :=
  putUint32 p.body.length ++ (putUint32 p.cmd.toNat ++ putUint32 p.seq.toNat)

theorem header_append_body (p : Packet) : p.header ++ p.body = p.bytes := by
  simp [bytes_eq, header]

@[simp] theorem length_header (p : Packet) : p.header.length = packetHeaderLen := rfl

end Packet

/-- The reader has the first `r.n` bytes of the packet. -/
structure PacketReader.Holds (r : PacketReader) (p : Packet) : Prop where
  n_le : r.n ≤ p.bytes.length
  total : packetHeaderLen ≤ r.n → r.total = p.bytes.length
  header : r.header.take r.n = p.header.take r.n
  body : r.body.take (r.n - packetHeaderLen) = p.body.take (r.n - packetHeaderLen)
  length_header : r.header.length = packetHeaderLen
  length_body : r.body.length = packetMaxBodyLen

theorem take_copyAt_of_take {a c b : List UInt8} (h : a.take n = c.take n) (hn : n ≤ a.length)
    (hb : b = (c.drop n).take b.length) :
    (copyAt a n b).take (n + b.length) = c.take (n + b.length) := by
  rw [take_copyAt hn, h, List.take_add, ← hb]

namespace PacketReader

variable {r : PacketReader} {p : Packet}

theorem holds_of_zero (hn : r.n = 0) (hh : r.header.length = packetHeaderLen)
    (hb : r.body.length = packetMaxBodyLen) (p : Packet) : r.Holds p where
  n_le := by simp [hn]
  total h := by simp [hn, packetHeaderLen] at h
  header := by simp [hn]
  body := by simp [hn]
  length_header := hh
  length_body := hb

theorem Holds.want_lt (h : r.Holds p) (hw : r.want = some k) :
    0 < k ∧ r.n + k ≤ p.bytes.length ∧ (r.n < packetHeaderLen → r.n + k = packetHeaderLen) := by
  rw [want] at hw
  have hlen := p.length_bytes
  split_ifs at hw with h₁ h₂
  · simp only [Option.some.injEq] at hw
    omega
  · have ht := h.total (Nat.le_of_not_lt h₁)
    simp only [Option.some.injEq] at hw
    omega

theorem Holds.want_none (h : r.Holds p) : r.want = none ↔ r.n = p.bytes.length := by
  rw [want]
  have hlen := p.length_bytes
  have hn := h.n_le
  split_ifs with h₁ h₂
  · simp only [false_iff]
    omega
  · have ht := h.total (Nat.le_of_not_lt h₁)
    simp only [false_iff]
    omega
  · have ht := h.total (Nat.le_of_not_lt h₁)
    simp only [true_iff]
    omega

theorem Holds.readStep (h : r.Holds p) (hw : r.want = some k)
    (hb : b = (p.bytes.drop r.n).take b.length) (hk : b.length ≤ k) :
    ∃ r', r.readStep (.data b) = (r', .more) ∧ r'.Holds p ∧ r'.n = r.n + b.length := by
  obtain ⟨-, hle, hkn⟩ := h.want_lt hw
  have hlen := p.length_bytes
  by_cases hn : r.n < packetHeaderLen
  · have hsum := hkn hn
    rw [← p.header_append_body, List.drop_append_of_le_length (Nat.le_of_lt hn),
      List.take_append_of_le_length (by simp; omega)] at hb
    have hhead : (copyAt r.header r.n b).take (r.n + b.length) =
        p.header.take (r.n + b.length) :=
      take_copyAt_of_take h.header (by rw [h.length_header]; omega) hb
    have hcopy : (copyAt r.header r.n b).length = packetHeaderLen := by
      rw [length_copyAt (by rw [h.length_header]; omega), h.length_header]
    simp only [PacketReader.readStep, if_pos hn]
    by_cases h12 : r.n + b.length = packetHeaderLen
    · have hfull : copyAt r.header r.n b = p.header := by
        rw [h12, List.take_of_length_le (Nat.le_of_eq hcopy),
          List.take_of_length_le (Nat.le_of_eq p.length_header)] at hhead
        exact hhead
      have hshort := p.short
      have hval : uint32 (copyAt r.header r.n b) = p.body.length := by
        rw [hfull]
        exact uint32_putUint32 (Nat.lt_trans hshort (by decide)) _
      rw [if_pos h12, hval, if_neg (Nat.not_le_of_lt hshort)]
      refine ⟨_, rfl,
        ⟨by simp only; omega, fun _ => hlen.symm, hhead, ?_, hcopy, h.length_body⟩, rfl⟩
      simp [h12]
    · rw [if_neg h12]
      refine ⟨_, rfl, ⟨by simp only; omega, fun h' => absurd h' (by simp only; omega), hhead, ?_,
        hcopy, h.length_body⟩, rfl⟩
      simp only
      rw [Nat.sub_eq_zero_of_le (by omega), List.take_zero, List.take_zero]
  · have hn' := Nat.le_of_not_lt hn
    have hshort := p.short
    have hoff : r.n + b.length - packetHeaderLen = r.n - packetHeaderLen + b.length := by omega
    rw [← p.header_append_body, List.drop_append, List.drop_of_length_le hn', List.nil_append,
      p.length_header] at hb
    have hbody := take_copyAt_of_take h.body (by rw [h.length_body]; omega) hb
    simp only [PacketReader.readStep, if_neg hn]
    refine ⟨_, rfl, ⟨by simp only; omega, fun _ => h.total hn', ?_, ?_, h.length_header, ?_⟩,
      rfl⟩
    · rw [List.take_of_length_le (by rw [h.length_header]; simp only; omega),
        List.take_of_length_le (by rw [p.length_header]; simp only; omega)]
      have hh := h.header
      rw [List.take_of_length_le (by rw [h.length_header]; exact hn'),
        List.take_of_length_le (by rw [p.length_header]; exact hn')] at hh
      exact hh
    · simp only [hoff]
      exact hbody
    · rw [length_copyAt (by rw [h.length_body]; omega), h.length_body]

theorem Holds.readStep_eagain (h : r.Holds p) :
    r.readStep .eagain = (r, .ret (r.n == p.bytes.length)) := by
  have hlen := p.length_bytes
  rw [PacketReader.readStep]
  split_ifs with hn
  · rw [beq_false_of_ne (by omega)]
  · rw [h.total (Nat.le_of_not_lt hn)]

theorem Holds.readEnd (h : r.Holds p) (hw : r.want = none) : r.readEnd = true := by
  have hn := h.want_none.1 hw
  have ht := h.total (by rw [hn, p.length_bytes]; omega)
  rw [PacketReader.readEnd, ht, hn, beq_self_eq_true]

theorem Holds.sysRead (h : r.Holds p) (hw : r.want = some k) (later : List UInt8) (m : Nat) :
    ∃ b, Yagw.sysRead (p.bytes.drop r.n ++ later) k m = .data b ∧
      b = (p.bytes.drop r.n).take b.length ∧ 0 < b.length ∧ b.length ≤ k := by
  obtain ⟨hk, hle, -⟩ := h.want_lt hw
  have hlen : (p.bytes.drop r.n).length = p.bytes.length - r.n := List.length_drop
  have hne : p.bytes.drop r.n ++ later ≠ [] := by
    apply List.append_ne_nil_of_left_ne_nil
    apply List.ne_nil_of_length_pos
    omega
  have htake : ((p.bytes.drop r.n).take (min (m + 1) k)).length = min (m + 1) k := by
    rw [List.length_take_of_le]
    omega
  refine ⟨(p.bytes.drop r.n).take (min (m + 1) k), ?_, ?_, ?_, ?_⟩
  · rw [Yagw.sysRead, if_neg hne, List.take_append_of_le_length (by omega)]
  · rw [htake]
  · omega
  · omega

/-- `readfrom` on a stream that goes on with the rest of a packet stops in it or at its end, and
reports it at its end. -/
theorem Holds.readfrom (h : r.Holds p) (later : List UInt8) (cuts : List Nat) :
    ∃ r' ready, r.readfrom (p.bytes.drop r.n ++ later) cuts =
        (r', p.bytes.drop r'.n ++ later, some ready) ∧ r'.Holds p ∧ r.n ≤ r'.n ∧
      (ready = true ↔ r'.n = p.bytes.length) ∧
      (cuts ≠ [] → r.n < p.bytes.length → r.n < r'.n) := by
  induction cuts generalizing r with
  | nil =>
    cases hw : r.want with
    | none =>
      have hn := h.want_none.1 hw
      refine ⟨r, true, ?_, h, Nat.le_refl _, by simp [hn], fun hc => absurd rfl hc⟩
      rw [PacketReader.readfrom, hw]
      simp only [h.readEnd hw]
    | some k =>
      refine ⟨r, r.n == p.bytes.length, ?_, h, Nat.le_refl _, beq_iff_eq,
        fun hc => absurd rfl hc⟩
      rw [PacketReader.readfrom, hw]
      simp only [h.readStep_eagain]
  | cons m cuts ih =>
    cases hw : r.want with
    | none =>
      have hn := h.want_none.1 hw
      refine ⟨r, true, ?_, h, Nat.le_refl _, by simp [hn], fun _ hlt => by omega⟩
      rw [PacketReader.readfrom, hw]
      simp only [h.readEnd hw]
    | some k =>
      obtain ⟨b, hread, hb, hpos, hk⟩ := h.sysRead hw later m
      obtain ⟨r₁, hstep, h₁, hn₁⟩ := h.readStep hw hb hk
      obtain ⟨-, hle, -⟩ := h.want_lt hw
      have hrest : (p.bytes.drop r.n ++ later).drop b.length = p.bytes.drop r₁.n ++ later := by
        rw [List.drop_append_of_le_length (by rw [List.length_drop]; omega), List.drop_drop, hn₁]
      obtain ⟨r₂, ready, hrec, h₂, hn₂, hready, -⟩ := ih h₁
      refine ⟨r₂, ready, ?_, h₂, by omega, hready, fun _ _ => by omega⟩
      rw [PacketReader.readfrom, hw]
      simp only [hread, hstep, SysRead.rest, hrest]
      exact hrec

theorem readfrom_nil (hn : r.n = 0) (cuts : List Nat) :
    r.readfrom [] cuts = (r, [], some false) := by
  have hw : r.want = some packetHeaderLen := by simp [want, hn, packetHeaderLen]
  have hs : r.readStep .eagain = (r, .ret false) := by
    simp [PacketReader.readStep, hn, packetHeaderLen]
  cases cuts with
  | nil =>
    rw [PacketReader.readfrom, hw]
    simp only [hs]
  | cons m cuts =>
    rw [PacketReader.readfrom, hw]
    simp only [Yagw.sysRead, if_pos, hs, SysRead.rest]

theorem Holds.fields (h : r.Holds p) (hn : r.n = p.bytes.length) :
    (r.getHeader, r.getBody) = p.fields := by
  have hlen := p.length_bytes
  have ht := h.total (by omega)
  have hhead : r.header = p.header := by
    have hh := h.header
    rwa [List.take_of_length_le (by rw [h.length_header]; omega),
      List.take_of_length_le (by rw [p.length_header]; omega)] at hh
  have hbody := h.body
  have hoff : r.total - packetHeaderLen = p.body.length := by omega
  have hoff' : r.n - packetHeaderLen = p.body.length := by omega
  rw [hoff', List.take_length] at hbody
  have hcmd : uint32 (p.header.drop 4) = p.cmd.toNat := uint32_putUint32 p.cmd.toNat_lt _
  have hseq : uint32 (p.header.drop 8) = p.seq.toNat := by
    have := uint32_putUint32 p.seq.toNat_lt []
    rwa [List.append_nil] at this
  rw [getHeader, PacketReader.getBody, if_pos (by omega), hhead, hoff, hbody,
    hcmd, hseq, Packet.fields]

end PacketReader

namespace Receiver

/-- The receiver is inside the first of the packets that the stream still has, if there is
one. -/
def Before (s : Receiver) : List Packet → Prop
  | [] => s.r.n = 0 ∧ s.fd = []
  | p :: later => s.r.Holds p ∧ s.r.n < p.bytes.length ∧
      s.fd = p.bytes.drop s.r.n ++ later.flatMap Packet.bytes

/-- The packets reported are the first ones, and the receiver is inside the one after them. -/
structure Inv (ps : List Packet) (s : Receiver) : Prop where
  got : s.got = (ps.take s.got.length).map Packet.fields
  before : s.Before (ps.drop s.got.length)

variable {ps : List Packet} {s : Receiver}

theorem before_of_zero {r : PacketReader} (hn : r.n = 0) (hh : r.header.length = packetHeaderLen)
    (hb : r.body.length = packetMaxBodyLen) (got : List ((Nat × Nat) × Option (List UInt8)))
    (ps : List Packet) : (Receiver.mk r (ps.flatMap Packet.bytes) got).Before ps := by
  cases ps with
  | nil => exact ⟨hn, rfl⟩
  | cons p later =>
    have hlen := p.length_bytes
    refine ⟨PacketReader.holds_of_zero hn hh hb p, ?_, ?_⟩
    · simp only [hn]
      simp only [packetHeaderLen] at hlen
      omega
    · simp only [hn, List.drop_zero, List.flatMap_cons]

theorem inv_start (ps : List Packet) : (start (ps.flatMap Packet.bytes)).Inv ps :=
  ⟨rfl, before_of_zero rfl List.length_replicate List.length_replicate [] ps⟩

/-- One call of `readfrom` does not fail, reads no byte behind the packet it is in, reports the
packet exactly when it has read its last byte, and reads on when bytes have arrived. -/
theorem Inv.readfrom (h : s.Inv ps) (cuts : List Nat) :
    ∃ r fd ready, s.r.readfrom s.fd cuts = (r, fd, some ready) ∧
      (ps.drop (s.got.length + 1)).flatMap Packet.bytes <:+ fd ∧
      (ready = true ↔
        s.got.length < ps.length ∧ fd = (ps.drop (s.got.length + 1)).flatMap Packet.bytes) ∧
      ∃ t, s.recv cuts = some t ∧ t.Inv ps ∧ t.fd.length ≤ s.fd.length ∧
        (cuts ≠ [] → t.fd.length ≤ s.fd.length - 1) := by
  by_cases hlt : s.got.length < ps.length
  · have hbefore := h.before
    rw [List.drop_eq_getElem_cons hlt] at hbefore
    obtain ⟨hr, hn, hfd⟩ := hbefore
    obtain ⟨r, ready, hrun, hr', hle, hready, hprog⟩ :=
      hr.readfrom ((ps.drop (s.got.length + 1)).flatMap Packet.bytes) cuts
    rw [← hfd] at hrun
    refine ⟨r, _, ready, hrun, List.suffix_append .., ?_, ?_⟩
    · rw [hready, and_iff_right hlt, List.append_left_eq_self, List.drop_eq_nil_iff]
      exact ⟨fun he => Nat.le_of_eq he.symm, Nat.le_antisymm hr'.n_le⟩
    · have hfdlen := congrArg List.length hfd
      rw [List.length_append, List.length_drop] at hfdlen
      cases ready with
      | false =>
        have hne : r.n ≠ ps[s.got.length].bytes.length :=
          fun hc => Bool.noConfusion (hready.2 hc)
        refine ⟨⟨r, _, s.got⟩, by rw [recv, hrun], ⟨h.got, ?_⟩, ?_, ?_⟩
        · rw [List.drop_eq_getElem_cons hlt]
          exact ⟨hr', Nat.lt_of_le_of_ne hr'.n_le hne, rfl⟩
        · simp only [List.length_append, List.length_drop]
          omega
        · intro hc
          have := hprog hc hn
          simp only [List.length_append, List.length_drop]
          omega
      | true =>
        have hend := hready.1 rfl
        rw [hend, List.drop_length, List.nil_append] at hrun
        refine ⟨⟨r.reset, _, s.got ++ [(r.getHeader, r.getBody)]⟩, by
          rw [recv, hrun], ⟨?_, ?_⟩, ?_, ?_⟩
        · rw [List.length_append, List.length_singleton, List.take_add_one,
            List.map_append, ← h.got, List.getElem?_eq_getElem hlt, hr'.fields hend]
          rfl
        · rw [List.length_append, List.length_singleton]
          exact before_of_zero (r := r.reset) rfl hr'.length_header hr'.length_body _ _
        · simp only
          omega
        · simp only
          omega
  · have hbefore := h.before
    rw [List.drop_eq_nil_of_le (Nat.le_of_not_lt hlt)] at hbefore
    obtain ⟨hn, hfd⟩ := hbefore
    have hrun := PacketReader.readfrom_nil hn cuts
    refine ⟨s.r, [], false, by rw [hfd, hrun], ?_, by simp [hlt], s, ?_, h, Nat.le_refl _, ?_⟩
    · rw [List.drop_eq_nil_of_le (by omega)]
      exact List.suffix_refl _
    · rw [recv, hfd, hrun, ← hfd]
    · simp [hfd]

/-- Any number of calls keeps the receiver inside the packets, and each that finds a byte brings
it closer to the end of the stream. -/
theorem Inv.exec (h : s.Inv ps) (calls : List (List Nat)) :
    ∃ t, machine.exec s calls = some t ∧ t.Inv ps ∧
      t.fd.length ≤ s.fd.length - calls.countP (· ≠ []) := by
  induction calls generalizing s with
  | nil => exact ⟨s, rfl, h, Nat.le_refl _⟩
  | cons cuts calls ih =>
    obtain ⟨_, _, _, -, -, -, t, hstep, ht, hle, hprog⟩ := h.readfrom cuts
    obtain ⟨u, hexec, hu, hlen⟩ := ih ht
    refine ⟨u, ?_, hu, ?_⟩
    · exact Option.bind_eq_some_iff.2 ⟨t, hstep, hexec⟩
    · rw [List.countP_cons]
      split_ifs with hc
      · have := hprog (by simpa using hc)
        omega
      · omega

theorem Inv.got_eq (h : s.Inv ps) (hfd : s.fd = []) : s.got = ps.map Packet.fields := by
  by_cases hlt : s.got.length < ps.length
  · have hbefore := h.before
    rw [List.drop_eq_getElem_cons hlt] at hbefore
    obtain ⟨-, hn, hfd'⟩ := hbefore
    have hlen := congrArg List.length (hfd.symm.trans hfd')
    rw [List.length_nil, List.length_append, List.length_drop] at hlen
    omega
  · have hgot := h.got
    rwa [List.take_of_length_le (Nat.le_of_not_lt hlt)] at hgot

end Receiver

/-- Packets written behind a slice's content come out of the stream of the bytes written, however
it is cut into reads; a call that finds a byte is one with at least one cut. -/
theorem framing_round_trip (buf : Slice) (ps : List Packet) (calls : List (List Nat)) :
    (buf.writePackets ps).bytes.take buf.len = buf.bytes ∧
    ∃ s, Receiver.machine.exec (.start ((buf.writePackets ps).bytes.drop buf.len))
      calls = some s ∧ s.got = (ps.take s.got.length).map Packet.fields ∧
      (∀ cuts, ∃ r fd ready, s.r.readfrom s.fd cuts = (r, fd, some ready) ∧
        (ps.drop (s.got.length + 1)).flatMap Packet.bytes <:+ fd ∧
        (ready = true ↔ s.got.length < ps.length ∧
          fd = (ps.drop (s.got.length + 1)).flatMap Packet.bytes)) ∧
      ((ps.flatMap Packet.bytes).length ≤ calls.countP (· ≠ []) →
        s.got = ps.map Packet.fields) := by
  rw [Slice.bytes_writePackets]
  refine ⟨List.take_left' buf.length_bytes, ?_⟩
  rw [List.drop_left' buf.length_bytes]
  obtain ⟨s, hexec, hs, hlen⟩ := (Receiver.inv_start ps).exec calls
  refine ⟨s, hexec, hs.got, fun cuts => ?_, fun hall => ?_⟩
  · obtain ⟨r, fd, ready, hrun, hsuf, hready, -⟩ := hs.readfrom cuts
    exact ⟨r, fd, ready, hrun, hsuf, hready⟩
  · apply hs.got_eq
    apply List.eq_nil_of_length_eq_zero
    simp only [Receiver.start] at hlen
    omega

end Misc.Yagw
