import Misc.Yagw.Framing
import Misc.Yagw.Goroutine
import Misc.Yagw.ExactlyOnce

namespace Misc.Yagw
open Misc.Lib
set_option autoImplicit true

namespace Slice

def make (n : Nat) : Slice := ⟨List.replicate n 0, 0, Nat.zero_le _⟩

/-- `append(s, b...)`. A slice that is too small moves to an array of the capacity that `grow`
wants, given the old capacity and the length that is needed, as long as that is enough. -/
def append (grow : Nat → Nat → Nat) (s : Slice) (b : List UInt8) : Slice :=
  let len := s.len + b.length
  if h : s.cap < len then
    ⟨copyAt (copyAt (List.replicate (max (grow s.cap len) len) 0) 0 s.bytes) s.len b, len, by
      refine Nat.le_trans ?_ (Nat.le_trans (length_le_copyAt ..) (length_le_copyAt ..))
      rw [List.length_replicate]
      exact Nat.le_max_right ..⟩
  else ⟨copyAt s.array s.len b, len, Nat.le_trans (Nat.le_of_not_lt h) (length_le_copyAt ..)⟩

/-- `m := copy(s, s[n:])` and `s[:m]`. -/
def shift (s : Slice) (n : Nat) : Slice :=
  ⟨copyAt s.array 0 (s.bytes.drop n), s.len - n,
    Nat.le_trans (Nat.sub_le ..) (Nat.le_trans s.len_le (length_le_copyAt ..))⟩

@[simp] theorem bytes_make (n : Nat) : (make n).bytes = [] := rfl

theorem bytes_append (grow : Nat → Nat → Nat) (s : Slice) (b : List UInt8) :
    (s.append grow b).bytes = s.bytes ++ b := by
  rw [append, bytes]
  split_ifs with h
  · have ht := take_copyAt (Nat.zero_le
      (List.replicate (max (grow s.cap (s.len + b.length)) (s.len + b.length))
        (0 : UInt8)).length) s.bytes
    rw [length_bytes, Nat.zero_add, List.take_zero, List.nil_append] at ht
    rw [take_copyAt, ht]
    refine Nat.le_trans ?_ (length_le_copyAt ..)
    rw [List.length_replicate]
    omega
  · exact take_copyAt s.len_le b

theorem bytes_shift (s : Slice) (n : Nat) : (s.shift n).bytes = s.bytes.drop n := by
  have ht := take_copyAt (Nat.zero_le s.array.length) (s.bytes.drop n)
  rwa [List.length_drop, length_bytes, Nat.zero_add, List.take_zero, List.nil_append] at ht

end Slice

/-- A connection with the slice in which `mainproc` keeps what `ctx.wbuf` lists. -/
structure Buffered extends Conn where
  buf : Slice

namespace Buffered

def new : Buffered := ⟨.new, .make 1024⟩

/-- What an operation of `mainproc` does to its write buffer. -/
def store (grow : Nat → Nat → Nat) (s : Buffered) (a : MainAct) : Slice :=
  let (cmd, seq) := s.c.pr.getHeader
  match s.main, a with
  | .handleLogin, .login (some (_, data)) =>
    if cmd = cmdLogin then s.buf.writePacket (.ofNat cmdLogin) (.ofNat seq) data else s.buf
  | .select, .recv .deliver =>
    match s.ctx.deliver with
    | some (msg :: _) =>
      if s.buf.len + msg.length ≤ wbufSizeLimit then s.buf.append grow msg else s.buf
    | _ => s.buf
  | .handle, _ =>
    if cmd = cmdPing then
      match s.c.pr.getBody with
      | some body => s.buf.writePacket (.ofNat cmdPing) (.ofNat seq) body
      | none => s.buf
    else s.buf
  | .flush p, _ => if p < s.buf.len then s.buf else s.buf.shift p
  | .flushChk p, _ => if s.c.pd.w then s.buf else s.buf.shift p
  | _, _ => s.buf

/-- The buffer after a step to `t`. The goroutine starts with the empty one of `new_client`. -/
def nextBuf (grow : Nat → Nat → Nat) (s : Buffered) (t : Conn) : Act → Slice
  | .main a => s.store grow a
  | .worker .. => if s.c.gStart = t.c.gStart then s.buf else .make 1024
  | .loop _ | .post _ => s.buf

def step (n home : Nat) (grow : Nat → Nat → Nat) (s : Buffered) (a : Act) : Option Buffered :=
  (s.toConn.step n home a).map fun t => ⟨t, s.nextBuf grow t a⟩

/-- The connection with its write buffer, whose array grows as `grow` says. -/
def machine (n home : Nat) (grow : Nat → Nat → Nat) : Machine Buffered Act where
  init s := s = .new
  step := step n home grow

/-- The bytes that a call of `sys_write` accepts. -/
def wrote (s : Buffered) : Act → Option (List UInt8)
  | .main (.write (.wrote n)) =>
    match s.main with
    | .flush p => some ((s.buf.bytes.drop p).take n)
    | _ => none
  | _ => none

/-- The packet that a step appends: the reply of `handle_login` or `handle`, or a message
delivered that is not dropped. -/
def packet (s : Buffered) : Act → Option (List UInt8)
  | .main a =>
    let (cmd, seq) := s.c.pr.getHeader
    match s.main, a with
    | .handleLogin, .login (some (_, data)) =>
      if cmd = cmdLogin then some (writePacket [] cmdLogin seq data) else none
    | .handle, _ =>
      if cmd = cmdPing then s.c.pr.getBody.map (writePacket [] cmdPing seq) else none
    | .select, .recv .deliver =>
      match s.ctx.deliver with
      | some (msg :: _) => if s.buf.len + msg.length ≤ wbufSizeLimit then some msg else none
      | _ => none
    | _, _ => none
  | _ => none

end Buffered

/-- How many bytes of its buffer the running call of `flush_wbuf` has written, if there is
one. -/
def MainPc.flushing : MainPc → Option Nat
  | .flush p | .flushPend p | .flushChk p | .flushClr p | .flushClrPend p => some p
  | _ => none

def MainPc.unsent (m : MainPc) (b : List UInt8) : List UInt8 := b.drop (m.flushing.getD 0)

/-- Every write is accepted, be it in part, or refused with `EAGAIN`. -/
def Act.Writes (a : Act) : Prop := a ≠ .main (.write .err)

instance (a : Act) : Decidable a.Writes := inferInstanceAs (Decidable (_ ≠ _))

variable {s s' : Buffered}

theorem uint32_lt (b : List UInt8) : uint32 b < 2 ^ 32 := by
  have h₀ := (b.getD 0 0).toNat_lt
  have h₁ := (b.getD 1 0).toNat_lt
  have h₂ := (b.getD 2 0).toNat_lt
  have h₃ := (b.getD 3 0).toNat_lt
  rw [uint32]
  omega

theorem writePacket_eq (buf : List UInt8) (cmd seq : Nat) (body : List UInt8) :
    writePacket buf cmd seq body = buf ++ writePacket [] cmd seq body := by
  simp only [writePacket, List.nil_append, List.append_assoc]

theorem Slice.bytes_reply (buf : Slice) (r : PacketReader) (h : cmd < 2 ^ 32)
    (body : List UInt8) : (buf.writePacket (.ofNat cmd) (.ofNat r.getHeader.2) body).bytes =
      buf.bytes ++ Yagw.writePacket [] cmd r.getHeader.2 body := by
  have hseq : r.getHeader.2 < 2 ^ 32 := uint32_lt _
  rw [bytes_writePacket, UInt32.toNat_ofNat_of_lt' h, UInt32.toNat_ofNat_of_lt' hseq]
  exact writePacket_eq ..

namespace Buffered

/-- The slice keeps holding the bytes that `ctx.wbuf` lists. Unless a write fails, the bytes
that an operation of `mainproc` writes and those that are then left are the ones that were left
before and those that it appends. -/
structure Flows (grow : Nat → Nat → Nat) (s : Buffered) (a : MainAct) (t : Shared) : Prop where
  bytes : t.ctx.wbuf = (s.store grow a).bytes
  flow : a ≠ .write .err →
    (s.wrote (.main a)).toList.flatten ++ t.main.unsent (s.store grow a).bytes =
      s.main.unsent s.buf.bytes ++ (s.packet (.main a)).toList.flatten

variable {t : Shared}

theorem wrote_eq_none (h : ∀ p, s.main ≠ .flush p) (a : MainAct) : s.wrote (.main a) = none := by
  simp only [wrote]
  split <;> rfl

theorem Flows.quiet (hb : t.ctx.wbuf = s.buf.bytes) (hstore : s.store grow a = s.buf)
    (hpacket : s.packet (.main a) = none) (hwrote : s.wrote (.main a) = none)
    (hm : t.main.flushing.getD 0 = s.main.flushing.getD 0) : s.Flows grow a t where
  bytes := by rw [hstore, hb]
  flow _ := by
    rw [hstore, hpacket, hwrote, MainPc.unsent, MainPc.unsent, hm]
    exact (List.append_nil _).symm

theorem Flows.append (b : List UInt8) (hb : t.ctx.wbuf = s.buf.bytes ++ b)
    (hstore : (s.store grow a).bytes = s.buf.bytes ++ b) (hpacket : s.packet (.main a) = some b)
    (hwrote : s.wrote (.main a) = none) (hm : s.main.flushing.getD 0 = 0)
    (hm' : t.main.flushing.getD 0 = 0) : s.Flows grow a t where
  bytes := by rw [hstore, hb]
  flow _ := by
    rw [hstore, hpacket, hwrote, MainPc.unsent, MainPc.unsent, hm, hm']
    simp

theorem flows_handleLogin (hb : s.ctx.wbuf = s.buf.bytes) (hm : s.main = .handleLogin)
    (hs : s.mainproc a = some t) : s.Flows grow a t := by
  have hw := wrote_eq_none (s := s) (by simp [hm]) a
  simp only [Shared.mainproc, hm] at hs
  split at hs
  · next res =>
    cases hs
    obtain _ | ⟨ok, data⟩ := res
    · have hnone : s.ctx.handleLogin s.c.pr none = none := by
        rw [Client.handleLogin]
        split <;> rfl
      exact .quiet (by rwa [hnone]) (by rw [store, hm]) (by rw [packet, hm]) hw
        (by rw [hnone, hm]; rfl)
    · by_cases hcmd : s.c.pr.getHeader.1 = cmdLogin
      · have hdone : s.ctx.handleLogin s.c.pr (some (ok, data)) =
            some ({ s.ctx with
              wbuf := writePacket s.ctx.wbuf cmdLogin s.c.pr.getHeader.2 data }, ok) :=
          if_pos hcmd
        rw [hdone]
        refine .append (writePacket [] cmdLogin s.c.pr.getHeader.2 data) ?_ ?_ ?_
          hw (by rw [hm]; rfl) rfl
        · rw [← hb]
          exact writePacket_eq ..
        · simp only [store, hm, if_pos hcmd]
          exact Slice.bytes_reply _ _ (by decide) _
        · simp only [packet, hm, if_pos hcmd]
      · have hdone : s.ctx.handleLogin s.c.pr (some (ok, data)) = none := if_neg hcmd
        exact .quiet (by rwa [hdone]) (by simp only [store, hm, if_neg hcmd])
          (by simp only [packet, hm, if_neg hcmd]) hw (by rw [hdone, hm]; rfl)
  · cases hs

theorem flows_handle (hb : s.ctx.wbuf = s.buf.bytes) (hm : s.main = .handle)
    (hs : s.mainproc a = some t) : s.Flows grow a t := by
  have hw := wrote_eq_none (s := s) (by simp [hm]) a
  simp only [Shared.mainproc, hm, Option.some.injEq] at hs
  subst hs
  by_cases hcmd : s.c.pr.getHeader.1 = cmdPing
  · cases hbody : s.c.pr.getBody with
    | none =>
      have hdone : s.ctx.handle s.c.pr = none := by rw [Client.handle, if_pos hcmd, hbody]; rfl
      exact .quiet (by rwa [hdone]) (by simp only [store, hm, hbody, ite_self])
        (by simp only [packet, hm, hbody, Option.map_none, ite_self]) hw (by rw [hdone, hm]; rfl)
    | some body =>
      have hdone : s.ctx.handle s.c.pr =
          some { s.ctx with
            wbuf := writePacket s.ctx.wbuf cmdPing s.c.pr.getHeader.2 body } := by
        rw [Client.handle, if_pos hcmd, hbody]
        rfl
      rw [hdone]
      refine .append (writePacket [] cmdPing s.c.pr.getHeader.2 body) ?_ ?_ ?_
        hw (by rw [hm]; rfl) rfl
      · rw [← hb]
        exact writePacket_eq ..
      · simp only [store, hm, if_pos hcmd, hbody]
        exact Slice.bytes_reply _ _ (by decide) _
      · simp only [packet, hm, if_pos hcmd, hbody, Option.map_some]
  · have hdone : s.ctx.handle s.c.pr = some s.ctx := if_neg hcmd
    exact .quiet (by rwa [hdone]) (by simp only [store, hm, if_neg hcmd])
      (by simp only [packet, hm, if_neg hcmd]) hw (by rw [hdone, hm]; rfl)

theorem flows_select (hb : s.ctx.wbuf = s.buf.bytes) (hm : s.main = .select)
    (hs : s.mainproc a = some t) : s.Flows grow a t := by
  have hw := wrote_eq_none (s := s) (by simp [hm]) a
  have hlen : s.buf.len = s.ctx.wbuf.length := by rw [hb, Slice.length_bytes]
  simp only [Shared.mainproc, hm] at hs
  split at hs
  · next ch =>
    cases ch with
    | deliver =>
      simp only [Shared.select] at hs
      split at hs
      · next msg msgs hd =>
        cases hs
        by_cases hfits : s.ctx.wbuf.length + msg.length ≤ wbufSizeLimit
        · refine .append msg ?_ ?_ ?_ hw (by rw [hm]; rfl) rfl
          · rw [← hb]
            exact if_pos hfits
          · simp only [store, hm, hd, hlen, if_pos hfits]
            exact Slice.bytes_append ..
          · simp only [packet, hm, hd, hlen, if_pos hfits]
        · exact .quiet ((if_neg hfits).trans hb)
            (by simp only [store, hm, hd, hlen, if_neg hfits])
            (by simp only [packet, hm, hd, hlen, if_neg hfits]) hw (by rw [hm]; rfl)
      · cases hs
    | ravail | wavail | down =>
      simp only [Shared.select, Option.ite_none_right_eq_some, Option.some.injEq] at hs
      obtain ⟨-, rfl⟩ := hs
      exact .quiet hb (by simp only [store, hm]) (by simp only [packet, hm]) hw (by rw [hm]; rfl)
  · cases hs

theorem flows_flush (hb : s.ctx.wbuf = s.buf.bytes) (hm : s.main = .flush p)
    (hs : s.mainproc a = some t) : s.Flows grow a t := by
  have hlen : s.buf.len = s.ctx.wbuf.length := by rw [hb, Slice.length_bytes]
  have hpacket : s.packet (.main a) = none := by simp only [packet, hm]
  simp only [Shared.mainproc, hm, Shared.flushWbuf] at hs
  by_cases hp : p < s.ctx.wbuf.length
  · have hstore : s.store grow a = s.buf := by simp only [store, hm, hlen, if_pos hp]
    rw [if_pos hp] at hs
    split at hs <;>
      simp only [Option.ite_none_right_eq_some, Option.some.injEq, reduceCtorEq] at hs
    · next n =>
      obtain ⟨-, rfl⟩ := hs
      refine ⟨hstore ▸ hb, fun _ => ?_⟩
      have hw : s.wrote (.main (.write (.wrote n))) = some ((s.buf.bytes.drop p).take n) := by
        simp only [wrote, hm]
      rw [hw, hpacket, hstore, hm]
      simp only [MainPc.unsent, MainPc.flushing, Option.getD_some, ← List.drop_drop,
        Option.toList_some, Option.toList_none, List.flatten_cons, List.flatten_nil,
        List.append_nil, List.take_append_drop]
    · subst hs
      exact .quiet hb hstore hpacket rfl (by rw [hm]; rfl)
    · exact ⟨hs ▸ hstore ▸ hb, fun h => absurd rfl h⟩
  · -- Everything has been written, so there is nothing left either way.
    have hdrop : s.buf.bytes.drop p = [] := by
      rw [← hb]
      exact List.drop_of_length_le (Nat.le_of_not_lt hp)
    have hstore : (s.store grow a).bytes = [] := by
      simp only [store, hm, hlen, if_neg hp]
      rw [Slice.bytes_shift, hdrop]
    have hw : (s.wrote (.main a)).toList.flatten = [] := by
      simp only [wrote, hm, hdrop]
      split <;> simp
    rw [if_neg hp] at hs
    cases hs
    refine ⟨?_, fun _ => ?_⟩
    · rw [hstore, ← hdrop, ← hb]
      rfl
    · rw [hw, hpacket, hstore, hm, MainPc.unsent, MainPc.unsent, MainPc.flushing,
        Option.getD_some, hdrop]
      rfl

theorem flows_flushChk (hb : s.ctx.wbuf = s.buf.bytes) (hm : s.main = .flushChk p)
    (hs : s.mainproc a = some t) : s.Flows grow a t := by
  have hw := wrote_eq_none (s := s) (by simp [hm]) a
  have hpacket : s.packet (.main a) = none := by simp only [packet, hm]
  simp only [Shared.mainproc, hm] at hs
  split at hs <;> cases hs
  · next hr => exact .quiet hb (by simp only [store, hm, if_pos hr]) hpacket hw (by rw [hm]; rfl)
  · next hr =>
    have hstore : (s.store grow a).bytes = s.buf.bytes.drop p := by
      simp only [store, hm, if_neg hr, Slice.bytes_shift]
    refine ⟨?_, fun _ => ?_⟩
    · rw [hstore, ← hb]
      rfl
    · rw [hw, hpacket, hstore, hm]
      exact (List.append_nil _).symm

/-- Whatever `mainproc` does, no byte is lost, invented or moved unless a write fails. -/
theorem mainproc_flows (hb : s.ctx.wbuf = s.buf.bytes) (hs : s.mainproc a = some t) :
    s.Flows grow a t := by
  cases hm : s.main with
  | out | exited | panicked => simp only [Shared.mainproc, hm, reduceCtorEq] at hs
  | handleLogin => exact flows_handleLogin hb hm hs
  | handle => exact flows_handle hb hm hs
  | select => exact flows_select hb hm hs
  | flush p => exact flows_flush hb hm hs
  | flushChk p => exact flows_flushChk hb hm hs
  | login =>
    have hw := wrote_eq_none (s := s) (by simp [hm]) a
    simp only [Shared.mainproc, hm] at hs
    split at hs <;>
      simp only [Option.ite_none_right_eq_some, Option.some.injEq, reduceCtorEq] at hs
    all_goals
      obtain ⟨-, rfl⟩ := hs
      exact .quiet hb (by simp only [store, hm]) (by simp only [packet, hm]) hw (by rw [hm]; rfl)
  | close pc =>
    have hw := wrote_eq_none (s := s) (by simp [hm]) a
    simp only [Shared.mainproc, hm, Option.some.injEq] at hs
    subst hs
    generalize s.c.close pc = o
    obtain ⟨c, _ | pc'⟩ := o
    all_goals
      exact .quiet hb (by simp only [store, hm]) (by simp only [packet, hm]) hw (by rw [hm]; rfl)
  | resetLogin | chkBusy | chkR =>
    have hw := wrote_eq_none (s := s) (by simp [hm]) a
    simp only [Shared.mainproc, hm, Option.some.injEq] at hs
    subst hs
    refine .quiet hb (by simp only [store, hm]) (by simp only [packet, hm]) hw ?_
    rw [hm]
    dsimp only
    split_ifs <;> rfl
  | _ =>
    have hw := wrote_eq_none (s := s) (by simp [hm]) a
    simp only [Shared.mainproc, hm, Option.some.injEq] at hs
    subst hs
    exact .quiet hb (by simp only [store, hm]) (by simp only [packet, hm]) hw (by rw [hm]; rfl)

/-- The slice holds what `ctx.wbuf` lists, and holds nothing before the goroutine starts. -/
structure Inv (s : Buffered) : Prop where
  bytes : s.ctx.wbuf = s.buf.bytes
  started : s.Started
  fresh : s.main = .out → s.buf.bytes = []

theorem inv_new : new.Inv := ⟨rfl, .new, fun _ => rfl⟩

theorem Inv.step (h : s.Inv) (hok : Act.Writes a) (hs : s.step n home grow a = some s') :
    s'.Inv ∧ (s.wrote a).toList.flatten ++ s'.main.unsent s'.buf.bytes =
      s.main.unsent s.buf.bytes ++ (s.packet a).toList.flatten := by
  obtain ⟨t, ht, rfl⟩ := Option.map_eq_some_iff.1 hs
  have hstarted := h.started.step ht
  cases Conn.step_main ht with
  | main hm =>
    obtain ⟨hbytes, hflow⟩ : s.Flows grow _ t.toShared := mainproc_flows h.bytes hm
    have hout := (Shared.mainproc_started hm).2.1
    exact ⟨⟨hbytes, hstarted, fun ho => absurd ho hout⟩, hflow fun he => hok (he ▸ rfl)⟩
  | start hg hst =>
    obtain ⟨hm, hctx, hg'⟩ := hst
    have hempty := h.fresh (h.started.1 hg)
    have hbuf (i a) : s.nextBuf grow t (.worker i a) = .make 1024 :=
      if_neg (by rw [hg, hg']; simp)
    simp only [hbuf]
    refine ⟨⟨by rw [hctx]; rfl, hstarted, fun ho => absurd ho (by simp [hm])⟩, ?_⟩
    simp [wrote, packet, MainPc.unsent, hempty]
  | aside ha hst =>
    obtain ⟨hm, hwbuf, hg⟩ := hst
    have hnone : s.nextBuf grow t a = s.buf ∧ s.wrote a = none ∧ s.packet a = none := by
      cases a with
      | main m => exact absurd rfl (ha m)
      | worker => exact ⟨if_pos hg.symm, rfl, rfl⟩
      | loop | post => exact ⟨rfl, rfl, rfl⟩
    obtain ⟨hbuf, hw, hp⟩ := hnone
    simp only [hbuf]
    refine ⟨⟨hwbuf.trans h.bytes, hstarted, fun ho => h.fresh (hm ▸ ho)⟩, ?_⟩
    rw [hw, hp, hm]
    exact (List.append_nil _).symm

/-- The bytes written and the buffer are the packets appended, in order; a call of `flush_wbuf`
that has written `p` bytes has them still at the start of the buffer. -/
theorem stream_intact (h : (machine n home grow).RunIf (fun _ a => Act.Writes a) new as s) :
    (s.main.flushing = none →
      ((machine n home grow).observe wrote new as).flatten ++ s.buf.bytes =
        ((machine n home grow).observe packet new as).flatten) ∧
    ∀ p, s.main.flushing = some p →
      ((machine n home grow).observe wrote new as).flatten ++ s.buf.bytes.drop p =
        ((machine n home grow).observe packet new as).flatten := by
  obtain ⟨-, hflow⟩ := h.conserves packet wrote (fun s => s.main.unsent s.buf.bytes) inv_new
    fun _ _ _ hI hok hs => hI.step hok hs
  rw [show new.main.unsent new.buf.bytes = [] from rfl, List.nil_append] at hflow
  simp only [MainPc.unsent] at hflow
  refine ⟨fun hm => ?_, fun p hm => ?_⟩
  · rwa [hm] at hflow
  · rwa [hm] at hflow

/-- The socket takes five bytes of the reply to the login. -/
def shortWrite : List Act :=
  logIn.take 32 ++ [.main (.recv .wavail), .main (.write (.wrote 5)), .main (.write .eagain)] ++
    mainSteps 3

theorem stream_intact_shortWrite :
    ∃ s, (machine 1 0 max).RunIf (fun _ a => Act.Writes a) new shortWrite s ∧
      s.main.flushing = none ∧ s.buf.bytes.length = 7 ∧
      ((machine 1 0 max).observe wrote new shortWrite).flatten ++ s.buf.bytes =
        ((machine 1 0 max).observe packet new shortWrite).flatten := by
  have hrun : ((machine 1 0 max).execIf (fun _ a => Act.Writes a) new shortWrite).map
      (fun s => (s.main.flushing, s.buf.bytes.length)) = some (none, 7) := by decide +kernel
  obtain ⟨s, hs, he⟩ := Option.map_eq_some_iff.1 hrun
  obtain ⟨hm, hb⟩ := Prod.mk.inj he
  exact ⟨s, .of_execIf hs, hm, hb, (stream_intact (.of_execIf hs)).1 hm⟩

end Buffered

end Misc.Yagw
