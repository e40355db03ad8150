import Misc.Yagw.Goroutine
import Misc.Yagw.ExactlyOnce

namespace Misc.Yagw
open Misc.Lib
set_option autoImplicit true

variable {s s' : Shared} {w w' : Worker} {t t' : Conn} {r : PacketReader} {pc : WorkerPc}

/-- What `json.Marshal` gives for a `message_login_resp`. -/
def messageLoginResp (ok : Bool) : List UInt8 :=
  (if ok then "\x7b\"ok\":true\x7d" else "\x7b\"ok\":false\x7d").toList.map
    fun c => UInt8.ofNat c.toNat

/-- A login that is not refused with an error is answered with its reply. -/
def Act.Replies : Act → Prop
  | .main (.login (some (ok, data))) => data = messageLoginResp ok
  | _ => True

instance : (a : Act) → Decidable a.Replies
  | .main (.login (some (ok, data))) => inferInstanceAs (Decidable (data = messageLoginResp ok))
  | .main (.login none) | .main .step | .main (.recv _) | .main (.write _) | .worker .. | .loop _
  | .post _ => inferInstanceAs (Decidable True)

theorem length_messageLoginResp (ok : Bool) :
    (messageLoginResp ok).length < packetMaxBodyLen := by
  cases ok <;> decide

/-- The total of a packet reader does not exceed that of the longest packet. -/
def PacketReader.Short (r : PacketReader) : Prop := r.total < packetHeaderLen + packetMaxBodyLen

theorem PacketReader.Short.readStep (h : r.Short) (res : SysRead) :
    (r.readStep res).1.Short := by
  simp only [PacketReader.readStep]
  split_ifs with hn
  · cases res with
    | eof | eagain | err => exact h
    | data b =>
      dsimp only
      split_ifs with h12 hb
      · exact h
      · exact Nat.add_lt_add_left (Nat.lt_of_not_le hb) _
      · exact h
  · cases res <;> exact h

theorem PacketReader.short_reset (r : PacketReader) : r.reset.Short :=
  show 0 < packetHeaderLen + packetMaxBodyLen by decide

theorem PacketReader.Short.getBody (h : r.Short) (hb : r.getBody = some b) :
    b.length < packetMaxBodyLen := by
  simp only [PacketReader.getBody, Option.ite_none_right_eq_some, Option.some.injEq] at hb
  obtain ⟨hle, rfl⟩ := hb
  rw [Short] at h
  rw [List.length_take]
  omega

theorem length_writePacket (buf : List UInt8) (cmd seq : Nat) (body : List UInt8) :
    (writePacket buf cmd seq body).length = buf.length + (packetHeaderLen + body.length) := by
  simp only [writePacket, putUint32, List.length_append, List.length_cons, List.length_nil,
    packetHeaderLen]
  omega

/-- The most that the write buffer holds: a reply to the longest packet behind a full buffer. -/
def wbufBound : Nat := wbufSizeLimit + packetHeaderLen + packetMaxBodyLen - 1

theorem length_reply (h : buf.length ≤ wbufSizeLimit) (hb : body.length < packetMaxBodyLen) :
    (writePacket buf cmd seq body).length ≤ wbufBound := by
  rw [length_writePacket, wbufBound]
  omega

/-- While the buffer is over its limit no packet waits, and `busy` keeps workers from reading
one. -/
structure Shared.Room (s : Shared) (g : Option PacketReader) : Prop where
  short : s.c.pr.Short
  bound : s.ctx.wbuf.length ≤ wbufBound
  full : wbufSizeLimit < s.ctx.wbuf.length → g = none ∧ s.c.busy = true ∧ s.main ≠ .clrBusy

theorem Shared.Room.le_limit (h : s.Room g) (hg : g ≠ none) :
    s.ctx.wbuf.length ≤ wbufSizeLimit :=
  Nat.le_of_not_lt fun hf => hg (h.full hf).1

theorem Shared.mainproc_room (hh : s.main.handling = false) (hs : s.mainproc a = some s') :
    (s'.c.pr = s.c.pr ∨ s'.c.pr = s.c.pr.reset) ∧
    (s'.ctx.wbuf.length ≤ s.ctx.wbuf.length ∨ s'.ctx.wbuf.length ≤ wbufSizeLimit) ∧
    (s.main ≠ .clrBusy → s'.c.busy = s.c.busy) ∧
    (s.main = .clrBusy → s'.ctx.wbuf.length = s.ctx.wbuf.length) ∧
    (s'.main = .clrBusy → s'.ctx.wbuf.length < wbufSizeLimit) := by
  cases hm : s.main <;> simp only [hm, MainPc.handling, Bool.true_eq_false] at hh <;>
    simp only [mainproc, hm, reduceCtorEq, Option.some.injEq] at hs
  all_goals grind [select.eq_def, flushWbuf.eq_def, flushed,
    Netconn.close_pr, mainClosing.eq_def]

theorem Shared.workerProc_room (hr : s.c.pr.Short) (hs : s.workerProc home w a = some (s', w')) :
    s'.c.pr.Short ∧ (s.c.busy = true → s'.c.busy = true) := by
  cases hpc : w.pc <;> simp only [workerProc, hpc, Option.some.injEq, Prod.mk.injEq] at hs
  case read reading =>
    obtain ⟨⟨s₁, pc⟩, hread, hs⟩ := Option.map_eq_some_iff.1 hs
    cases hs
    cases hw : s.c.pr.want with
    | none =>
      simp only [hw, Shared.readfrom, Option.some.injEq, Prod.mk.injEq] at hread
      obtain ⟨rfl, -⟩ := hread
      exact ⟨hr, id⟩
    | some k =>
      cases a <;> simp only [hw, Shared.readfrom, reduceCtorEq, Option.ite_none_right_eq_some,
        Option.some.injEq] at hread
      case read res =>
        obtain ⟨-, hread⟩ := hread
        have hshort := hr.readStep res
        generalize s.c.pr.readStep res = o at hread hshort
        obtain ⟨pr, _ | _ | _⟩ := o <;> cases hread <;> exact ⟨hshort, id⟩
  all_goals grind [pollQueue, pollLocal, popWq, blockQueues.eq_def, pollClosing.eq_def,
    Netconn.close_pr]

/-- While the buffer is over its limit no worker completes a packet. -/
theorem Shared.Room.assembled (h : s.Room g) (hh : s.Handshake pc g)
    (hev : (s.assembledEvent pc a).toList.foldlM oneAtATime g = some g')
    (hf : wbufSizeLimit < s.ctx.wbuf.length) : g' = none := by
  obtain ⟨rfl, hbusy, -⟩ := h.full hf
  cases he : s.assembledEvent pc a with
  | none =>
    rw [he] at hev
    exact (Option.some.inj hev).symm
  | some e =>
    cases pc with
    | read reading =>
      have hno := (hh.reading rfl).2.2.2.1 hbusy
      cases hno
    | _ => cases he

theorem Shared.Room.worker (h : s.Room g) (hg : wbufSizeLimit < s.ctx.wbuf.length → g' = none)
    (hs : s.workerProc home w a = some (s', w')) : s'.Room g' := by
  obtain ⟨hshort, hbusy⟩ := workerProc_room h.short hs
  rcases workerProc_main hs with ⟨hm, hctx, -⟩ | ⟨-, -, hctx, -⟩
  · refine ⟨hshort, hctx ▸ h.bound, fun hf => ?_⟩
    rw [hctx] at hf
    obtain ⟨-, hb, hclr⟩ := h.full hf
    exact ⟨hg hf, hbusy hb, hm ▸ hclr⟩
  · have hempty : s'.ctx.wbuf.length = 0 := by
      rw [hctx]
      rfl
    refine ⟨hshort, ?_, fun hf => absurd hf ?_⟩
    · rw [hempty]
      exact Nat.zero_le _
    · rw [hempty]
      exact Nat.not_lt_zero _

/-- The packet that is handled has waited, so its reply goes behind a buffer within the limit. -/
theorem Shared.Room.handles (h : s.Room g) (hh : s.Handshake pc g) (hm : s.main.handling = true)
    (hok : Act.Replies (.main a)) (hs : s.mainproc a = some s') : s'.Room none := by
  obtain ⟨hg, hbusy, -⟩ := hh.handling hm
  have hle := h.le_limit hg
  obtain ⟨hc, -, hnext⟩ := mainproc_handles hm (hh.complete hg) hs
  have hclr : s'.main ≠ .clrBusy := by
    rcases hnext with hr | hr
    · intro he
      rw [he] at hr
      cases hr
    · simp [hr]
  have hbound : s'.ctx.wbuf.length ≤ wbufBound := by
    cases hmain : s.main <;> simp only [hmain, MainPc.handling, Bool.false_eq_true] at hm
    · simp only [mainproc, hmain] at hs
      split at hs
      · next res =>
        cases hs
        cases hres : s.ctx.handleLogin s.c.pr res with
        | none => exact h.bound
        | some o =>
          simp only [Client.handleLogin, Option.ite_none_right_eq_some] at hres
          obtain ⟨-, hres⟩ := hres
          obtain ⟨⟨ok, data⟩, rfl, rfl⟩ := Option.map_eq_some_iff.1 hres
          have hdata : data = messageLoginResp ok := hok
          exact length_reply hle (hdata ▸ length_messageLoginResp ok)
      · cases hs
    · simp only [mainproc, hmain, Option.some.injEq] at hs
      subst hs
      cases hres : s.ctx.handle s.c.pr with
      | none => exact h.bound
      | some o =>
        simp only [Client.handle] at hres
        split at hres
        · obtain ⟨body, hbody, rfl⟩ := Option.map_eq_some_iff.1 hres
          exact length_reply hle (h.short.getBody hbody)
        · cases hres
          exact h.bound
  exact ⟨hc ▸ h.short, hbound, fun _ => ⟨rfl, hc ▸ hbusy, hclr⟩⟩

theorem Shared.Room.main (h : s.Room g) (hh : s.main.handling = false)
    (hs : s.mainproc a = some s') : s'.Room g := by
  obtain ⟨hpr, hlen, hbusy, hclr, hclr'⟩ := mainproc_room hh hs
  have hlimit : wbufSizeLimit ≤ wbufBound := by decide
  refine ⟨?_, ?_, fun hf => ?_⟩
  · rcases hpr with hpr | hpr <;> rw [hpr]
    · exact h.short
    · exact PacketReader.short_reset _
  · rcases hlen with hlen | hlen
    · exact Nat.le_trans hlen h.bound
    · exact Nat.le_trans hlen hlimit
  · have hf₀ : wbufSizeLimit < s.ctx.wbuf.length := by
      rcases hlen with hlen | hlen
      · exact Nat.lt_of_lt_of_le hf hlen
      · exact absurd hf (Nat.not_lt_of_le hlen)
    obtain ⟨hg, hb, hno⟩ := h.full hf₀
    exact ⟨hg, (hbusy hno).trans hb, fun he => absurd hf (Nat.lt_asymm (hclr' he))⟩

theorem Shared.Room.congr (h : s.Room g) (hpr : s'.c.pr = s.c.pr) (hbusy : s'.c.busy = s.c.busy)
    (hwbuf : s'.ctx.wbuf = s.ctx.wbuf) (hm : s'.main = s.main) : s'.Room g := by
  refine ⟨hpr ▸ h.short, hwbuf ▸ h.bound, fun hf => ?_⟩
  rw [hbusy, hm]
  exact h.full (hwbuf ▸ hf)

theorem Shared.Room.new : Conn.new.Room none :=
  ⟨PacketReader.short_reset .new, Nat.zero_le _, fun hf => absurd hf (Nat.not_lt_zero _)⟩

theorem Conn.room_step (h : t.Room g) (hx : t.Exclusive) (hh : t.Handshake g)
    (hok : t.KeepsBusy a) (hrep : a.Replies) (hs : t.step n home a = some t') :
    ∃ g', (t.packetEvent a).toList.foldlM oneAtATime g = some g' ∧
      t'.Handshake g' ∧ t'.Room g' := by
  obtain ⟨g', hev, hh'⟩ := hh.step hx hok hs
  refine ⟨g', hev, hh', ?_⟩
  obtain ⟨pc, hh, -, huniq⟩ := hh
  cases Conn.step_moves hs with
  | @worker i _ _ _ _ hw =>
    refine h.worker (fun hf => ?_) hw
    cases ho : (t.workers i).pc.owns with
    | true => exact h.assembled (huniq i ho ▸ hh) hev hf
    | false =>
      rw [packetEvent, Shared.assembledEvent_away ho] at hev
      exact (Option.some.inj hev).symm.trans (h.full hf).1
  | main hm =>
    cases hmain : t.main.handling with
    | true =>
      obtain ⟨rfl, -⟩ := hh.handles hmain hm
      have hg : g' = none := by
        rw [packetEvent, Shared.handledEvent_eq hmain] at hev
        simpa [oneAtATime] using hev.symm
      exact hg ▸ h.handles hh hmain hrep hm
    | false =>
      rw [packetEvent, Shared.handledEvent_eq_none hmain] at hev
      cases hev
      exact h.main hmain hm
  | loop hl =>
    obtain ⟨⟨r, w, hc⟩, hm, hctx⟩ := Shared.serverEventloop_spec hl
    cases hev
    exact h.congr (by rw [hc]) (by rw [hc]) (congrArg Client.wbuf hctx) hm
  | post =>
    cases hev
    exact h.congr rfl rfl rfl rfl

/-- As long as `busy` is kept while a packet waits, no reply goes behind a buffer over its
limit. -/
theorem wbuf_bounded
    (h : (connMachine n home).ReachIf (fun t a => t.KeepsBusy a ∧ Act.Replies a) t) :
    t.ctx.wbuf.length ≤ wbufSizeLimit + packetHeaderLen + packetMaxBodyLen - 1 := by
  obtain ⟨s, as, rfl, hr⟩ := h
  obtain ⟨g, -, -, -, hroom⟩ := hr.accepts
    (I := fun t g => t.Exclusive ∧ t.Handshake g ∧ t.Room g) ⟨.new, .new, Shared.Room.new⟩
    fun s a t g ⟨hx, hh, hroom⟩ hok hs => by
      obtain ⟨g', hev, hh', hroom'⟩ := Conn.room_step hroom hx hh hok.1 hok.2 hs
      exact ⟨g', hev, hx.step hs, hh', hroom'⟩
  exact hroom.bound

/-- The login that is answered with its reply. -/
def logInReply : List Act :=
  logIn.take 28 ++ [.main (.login (some (true, messageLoginResp true)))] ++ mainSteps 3 ++
    [.main (.recv .wavail), .main (.write (.wrote 23))] ++ mainSteps 5

def blocked : List Act := .main (.write .eagain) :: mainSteps 3

instance (t : Conn) (a : Act) : Decidable (t.KeepsBusy a ∧ a.Replies) := instDecidableAnd

theorem wbuf_bounded_blocked :
    ∃ t, (connMachine 1 0).ReachIf (fun t a => t.KeepsBusy a ∧ Act.Replies a) t ∧
      t.ctx.wbuf.length = packetHeaderLen ∧
      t.ctx.wbuf.length ≤ wbufSizeLimit + packetHeaderLen + packetMaxBodyLen - 1 := by
  have hrun : ((connMachine 1 0).execIf (fun t a => t.KeepsBusy a ∧ Act.Replies a) .new
      (logInReply ++ readPing ++ [.main (.recv .ravail)] ++ mainSteps 2 ++ blocked)).map
      (·.ctx.wbuf.length) = some packetHeaderLen := by decide +kernel
  obtain ⟨t, ht, hlen⟩ := Option.map_eq_some_iff.1 hrun
  have hreach : (connMachine 1 0).ReachIf (fun t a => t.KeepsBusy a ∧ Act.Replies a) t :=
    ⟨_, _, rfl, .of_execIf ht⟩
  exact ⟨t, hreach, hlen, wbuf_bounded hreach⟩

def longPing : List UInt8 := writePacket [] cmdPing 0 (List.replicate (packetMaxBodyLen - 1) 0)

/-- A message is delivered while a ping waits, so `busy` is cleared and the worker goes on to
read. The next message fills the buffer. The waiting ping is answered behind it, and so is the
one that the worker reads. -/
def overfull : List Act :=
  logInReply ++ readPing ++ [.post [0], .main (.recv .deliver), .main (.write (.wrote 1))] ++
    mainSteps 5 ++ takeGq ++
    [.post (List.replicate wbufSizeLimit 0), .main (.recv .deliver)] ++ blocked ++
    [.main (.recv .ravail)] ++ mainSteps 2 ++ blocked ++
    [.worker 0 (.read (.data (longPing.take packetHeaderLen))),
      .worker 0 (.read (.data (longPing.drop packetHeaderLen)))] ++
    workerSteps 4 ++ [.main (.recv .ravail), .main .step]

/-- With two replies behind a full buffer the bound is exceeded. -/
theorem wbuf_overfull : ∃ t, (connMachine 1 0).Run .new overfull t ∧
    (∀ a ∈ overfull, a.Replies) ∧
    wbufSizeLimit + packetHeaderLen + packetMaxBodyLen - 1 < t.ctx.wbuf.length := by
  have hrun : ((connMachine 1 0).exec .new overfull).map (·.ctx.wbuf.length) = some 5143 := by
    decide +kernel
  obtain ⟨t, ht, hlen⟩ := Option.map_eq_some_iff.1 hrun
  exact ⟨t, .of_exec ht, by decide +kernel, by rw [hlen]; decide⟩

end Misc.Yagw
