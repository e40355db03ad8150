import Mathlib

namespace Misc.Yagw
set_option autoImplicit true

def cmdPing : Nat := 100
def cmdLogin : Nat := 200

def packetHeaderLen : Nat := 12
def packetMaxBodyLen : Nat := 1024
def wbufSizeLimit : Nat := 4096

def uint32 (b : List UInt8) : Nat :=
  (b.getD 0 0).toNat + (b.getD 1 0).toNat * 2 ^ 8 + (b.getD 2 0).toNat * 2 ^ 16 +
    (b.getD 3 0).toNat * 2 ^ 24

/-- `binary.LittleEndian.PutUint32` of `uint32(n)`. -/
def putUint32 (n : Nat) : List UInt8 :=
  [UInt8.ofNat n, UInt8.ofNat (n / 2 ^ 8), UInt8.ofNat (n / 2 ^ 16), UInt8.ofNat (n / 2 ^ 24)]

/-- Copies `b` over the bytes of `a` that start at `off`. -/
def copyAt (a : List UInt8) (off : Nat) (b : List UInt8) : List UInt8 :=
  a.take off ++ b ++ a.drop (off + b.length)

structure PacketReader where
  n : Nat
  total : Nat
  header : List UInt8
  body : List UInt8
  deriving DecidableEq, Repr

namespace PacketReader

def new : PacketReader :=
  ⟨0, 0, List.replicate packetHeaderLen 0, List.replicate packetMaxBodyLen 0⟩

def reset (r : PacketReader) : PacketReader := { r with n := 0, total := 0 }

def getHeader (r : PacketReader) : Nat × Nat :=
  (uint32 (r.header.drop 4), uint32 (r.header.drop 8))

/-- The slice `r.body[:r.total-PACKET_HEADER_LEN]`; the subtraction is unsigned, so the slice is
out of range and panics when the packet has no header yet. -/
def getBody (r : PacketReader) : Option (List UInt8) :=
  if packetHeaderLen ≤ r.total then some (r.body.take (r.total - packetHeaderLen)) else none

def Complete (r : PacketReader) : Prop := r.n = r.total ∧ packetHeaderLen ≤ r.total

instance (r : PacketReader) : Decidable r.Complete := inferInstanceAs (Decidable (_ ∧ _))

end PacketReader

/-- What `sys_read` returns: some bytes, no byte at the end of the file, `EAGAIN` or another
error. -/
inductive SysRead
  | data (b : List UInt8)
  | eof
  | eagain
  | err
  deriving DecidableEq, Repr

/-- Whether `sys_read` can return this into a slice of `k` bytes. -/
def SysRead.Fits (k : Nat) : SysRead → Prop
  | .data b => 0 < b.length ∧ b.length ≤ k
  | _ => True

instance (k : Nat) : (res : SysRead) → Decidable (res.Fits k)
  | .data _ => inferInstanceAs (Decidable (_ ∧ _))
  | .eof | .eagain | .err => inferInstanceAs (Decidable True)

/-- How `readfrom` goes on after a `sys_read`: with its loops, or by returning. -/
inductive ReadOut
  | more
  | ret (ready : Bool)
  | fail
  deriving DecidableEq, Repr

namespace PacketReader

/-- The length of the slice that the next `sys_read` of `readfrom` fills, `none` when both of its
loops are done. -/
def want (r : PacketReader) : Option Nat :=
  if r.n < packetHeaderLen then some (packetHeaderLen - r.n)
  else if r.n < r.total then some (r.total - r.n)
  else none

/-- What `readfrom` does with the result of one `sys_read`. -/
def readStep (r : PacketReader) (res : SysRead) : PacketReader × ReadOut :=
  if r.n < packetHeaderLen then
    match res with
    | .eagain => (r, .ret false)
    | .eof | .err => (r, .fail)
    | .data b =>
      let r := { r with header := copyAt r.header r.n b, n := r.n + b.length }
      if r.n = packetHeaderLen then
        let bodylen := uint32 r.header
        if packetMaxBodyLen ≤ bodylen then (r, .fail)
        else ({ r with total := packetHeaderLen + bodylen }, .more)
      else (r, .more)
  else
    match res with
    | .eagain => (r, .ret (r.n == r.total))
    | .eof | .err => (r, .fail)
    | .data b =>
      ({ r with body := copyAt r.body (r.n - packetHeaderLen) b, n := r.n + b.length }, .more)

/-- What `readfrom` returns when both of its loops are done. -/
def readEnd (r : PacketReader) : Bool := r.n == r.total

variable {r r' : PacketReader} {res : SysRead}

@[simp] theorem not_complete_reset (r : PacketReader) : ¬ r.reset.Complete := by
  simp [Complete, reset, packetHeaderLen]

theorem Complete.want (h : r.Complete) : r.want = none := by
  obtain ⟨hn, ht⟩ := h
  rw [PacketReader.want, if_neg (by omega), if_neg (by omega)]

theorem Complete.readEnd (h : r.Complete) : r.readEnd = true := by
  simp [PacketReader.readEnd, h.1]

theorem complete_of_readEnd (hw : r.want = none) (h : r.readEnd = true) : r.Complete := by
  simp only [PacketReader.readEnd, beq_iff_eq] at h
  refine ⟨h, ?_⟩
  by_contra hlt
  rw [PacketReader.want, if_pos (by omega)] at hw
  exact absurd hw (by simp)

theorem Complete.getBody (h : r.Complete) : ∃ b, r.getBody = some b :=
  ⟨_, if_pos h.2⟩

/-- There is no total before the whole header has been read. -/
def HeaderFirst (r : PacketReader) : Prop := r.n < packetHeaderLen → r.total = 0

theorem headerFirst_new : new.HeaderFirst := fun _ => rfl

theorem headerFirst_reset (r : PacketReader) : r.reset.HeaderFirst := fun _ => rfl

theorem not_complete_of_want (hw : r.want = some k) : ¬ r.Complete := fun hc => by
  rw [hc.want] at hw
  cases hw

/-- A packet is complete only when `readfrom` goes on with its loops. -/
theorem readStep_spec (hw : r.want = some k) (hf : res.Fits k) (hr : r.HeaderFirst) :
    (r.readStep res).1.HeaderFirst ∧
      ((r.readStep res).1.Complete → (r.readStep res).2 = .more) := by
  have hc := not_complete_of_want hw
  simp only [PacketReader.want] at hw
  by_cases hn : r.n < packetHeaderLen
  · simp only [readStep, if_pos hn]
    have ht := hr hn
    cases res with
    | eof | eagain | err => exact ⟨hr, fun h => absurd h hc⟩
    | data b =>
      simp only [if_pos hn, Option.some.injEq] at hw
      simp only [SysRead.Fits, ← hw] at hf
      dsimp only
      split_ifs with h12 hb
      · exact ⟨fun _ => ht, fun h => absurd h.2 (by simp [ht, packetHeaderLen])⟩
      · exact ⟨fun h => absurd h12 (Nat.ne_of_lt h), fun _ => rfl⟩
      · exact ⟨fun _ => ht, fun _ => rfl⟩
  · simp only [readStep, if_neg hn]
    cases res with
    | eof | eagain | err => exact ⟨hr, fun h => absurd h hc⟩
    | data b =>
      exact ⟨fun h => absurd (Nat.lt_of_le_of_lt (Nat.le_add_right ..) h) hn, fun _ => rfl⟩

theorem readStep_ready (hw : r.want = some k) (h : r.readStep res = (r', .ret true)) :
    False := by
  by_cases hn : r.n < packetHeaderLen
  · simp only [readStep, if_pos hn] at h
    cases res with
    | data b => dsimp only at h; split_ifs at h <;> cases h
    | eof | eagain | err => cases h
  · rw [PacketReader.want, if_neg hn] at hw
    simp only [readStep, if_neg hn] at h
    cases res with
    | data b | eof | err => cases h
    | eagain =>
      simp only [Prod.mk.injEq, ReadOut.ret.injEq, beq_iff_eq] at h
      rw [if_neg (by omega)] at hw
      cases hw

end PacketReader

/-- `write_packet`: a header with the length of the body, the command and the sequence number,
and the body. -/
def writePacket (buf : List UInt8) (cmd seq : Nat) (body : List UInt8) : List UInt8 :=
  buf ++ putUint32 body.length ++ putUint32 cmd ++ putUint32 seq ++ body

end Misc.Yagw
