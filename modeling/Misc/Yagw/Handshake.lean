import Misc.Yagw.Ownership

namespace Misc.Yagw
open Misc.Lib
set_option autoImplicit true

variable {s s' : Shared} {w w' : Worker} {t t' : Conn} {pc : WorkerPc}

inductive PacketEvent
  | assembled (pr : PacketReader)
  | handled (pr : PacketReader)
  deriving DecidableEq, Repr

def Shared.handledEvent (s : Shared) : Option PacketEvent :=
  match s.main with
  | .handleLogin | .handle => some (.handled s.c.pr)
  | _ => none

/-- A `sys_read` of `readfrom` that completes the packet. -/
def Shared.assembledEvent (s : Shared) (pc : WorkerPc) (a : WorkerAct) : Option PacketEvent :=
  match pc, a with
  | .read _, .read res =>
    if s.c.pr.want.isSome ∧ (s.c.pr.readStep res).1.Complete then
      some (.assembled (s.c.pr.readStep res).1)
    else none
  | _, _ => none

/-- A packet is assembled by the `sys_read` that completes it, and handled where `mainproc` calls
`handle_login` or `handle`. -/
def Conn.packetEvent (t : Conn) : Act → Option PacketEvent
  | .worker i a => t.assembledEvent (t.workers i).pc a
  | .main _ => t.handledEvent
  | _ => none

/-- Accepts the events in which every packet assembled is handled once before the next one is.
The state is the packet that waits to be handled. -/
def oneAtATime : Option PacketReader → PacketEvent → Option (Option PacketReader)
  | none, .assembled p => some (some p)
  | some p, .handled q => if p = q then some none else none
  | _, _ => none

def MainPc.handling : MainPc → Bool
  | .handleLogin | .handle => true
  | _ => false

def MainPc.resetting : MainPc → Bool
  | .resetLogin _ | .reset => true
  | _ => false

/-- `mainproc` has left its loop because the connection is closed. -/
def MainPc.closing : MainPc → Bool
  | .close _ | .exited => true
  | _ => false

def WorkerPc.reading : WorkerPc → Bool
  | .rdChk _ | .rdClr _ | .read _ | .rdSet | .busySet | .notify => true
  | _ => false

/-- The worker has to read what is there before it knows that a packet is complete. -/
def WorkerPc.checking : WorkerPc → Bool
  | .rdChk _ | .rdClr _ => true
  | _ => false

def WorkerPc.posting : WorkerPc → Bool
  | .rdSet | .busySet | .notify => true
  | _ => false

/-- The worker will start `mainproc` if it has not been started. -/
def WorkerPc.starting : WorkerPc → Bool
  | .wrPend _ | .wrChk _ | .wrClr _ | .wrClrPend _ | .wrNotify _ | .start .. => true
  | _ => false

/-- A complete packet is on its way to `mainproc`: the owner is about to send on `ravail`, or the
channel holds the token and `mainproc` runs or is about to be started. -/
def Shared.Awaited (s : Shared) (pc : WorkerPc) : Prop :=
  (pc.reading = true ∧ pc.checking = false) ∨
    (s.c.ravail = true ∧ (s.main ≠ .out ∨ pc.starting = true))

/-- How `busy`, `ravail`, the packet reader, the owner's position and the packet `g` that waits
to be handled hang together. -/
structure Shared.Handshake (s : Shared) (pc : WorkerPc) (g : Option PacketReader) : Prop where
  header : s.c.pr.HeaderFirst
  pending : ∀ p, g = some p → p = s.c.pr ∧ s.c.pr.Complete
  reading : pc.reading = true → s.c.ravail = false ∧ s.main.handling = false ∧
    s.main.resetting = false ∧ (s.c.busy = true ↔ pc = .notify)
  checking : pc.checking = true → g = none
  posting : pc.posting = true → g ≠ none
  handling : s.main.handling = true → g ≠ none ∧ s.c.busy = true ∧ s.c.ravail = false
  resetting : s.main.resetting = true → g = none ∧ s.c.busy = true ∧ s.c.ravail = false
  token : s.c.ravail = true → g ≠ none ∧ s.c.busy = true
  stale : g = none → s.c.pr.Complete →
    (s.main.resetting = true ∨ s.main.closing = true) ∧ s.c.busy = true
  awaited : g ≠ none → s.main.handling = true ∨ s.main.closing = true ∨ s.Awaited pc
  held : g ≠ none → s.c.busy = true ∨ pc.reading = true ∧ pc.checking = false
  started : s.c.gStart = false ↔ s.main = .out
  clearing : s.main = .clrBusy → s.c.busy = true
  alive : s.main ≠ .panicked

/-- `mainproc` does not clear `busy` while the packet reader holds a complete packet. -/
def Conn.KeepsBusy (t : Conn) : Act → Prop
  | .main _ => t.main = .clrBusy → ¬ t.c.pr.Complete
  | _ => True

def MainPc.plain : MainPc → Bool
  | .out | .handleLogin | .handle | .resetLogin _ | .reset | .clrBusy | .panicked => false
  | _ => true

/-- What the connection goroutine does to the handshake outside `handle_login` and `handle`. -/
inductive Shared.MainMove (s s' : Shared) : Prop
  | quiet (hc : s'.c.pr = s.c.pr ∧ s'.c.busy = s.c.busy ∧ s'.c.ravail = s.c.ravail ∧
        s'.c.gStart = s.c.gStart)
      (hm : s.main ≠ .out ∧ s.main.resetting = false ∧
        (s.main.closing = true → s'.main.closing = true))
      (hm' : s'.main.plain = true ∨ s'.main = .clrBusy ∧ s.c.busy = true)
  | take (hc : s'.c.pr = s.c.pr ∧ s'.c.busy = s.c.busy ∧ s'.c.gStart = s.c.gStart)
      (ht : s.c.ravail = true ∧ s'.c.ravail = false)
      (hm : s.main ≠ .out ∧ s'.main.handling = true)
  | reset (hc : s'.c.pr = s.c.pr.reset ∧ s'.c.busy = s.c.busy ∧ s'.c.ravail = s.c.ravail ∧
        s'.c.gStart = s.c.gStart)
      (hm : s.main.resetting = true ∧ s'.main.plain = true)
  | clear (hc : s'.c.pr = s.c.pr ∧ s'.c.busy = false ∧ s'.c.ravail = s.c.ravail ∧
        s'.c.gStart = s.c.gStart)
      (hm : s.main = .clrBusy ∧ s'.main.plain = true)

theorem Shared.mainClosing_move (hm : s.main = .close pc') :
    s.MainMove (s.mainClosing (s.c.close pc')) := by
  have hpr := s.c.close_pr pc'
  generalize s.c.close pc' = o at hpr
  obtain ⟨c, _ | pc₁⟩ := o
  all_goals
    refine .quiet hpr ?_ (.inl rfl)
    simp [hm, mainClosing, MainPc.resetting, MainPc.closing]

theorem Shared.flushWbuf_move (hm : s.main = .flush p) (hs : s.flushWbuf p a = some s') :
    s.MainMove s' := by
  have hquiet : s.main ≠ .out ∧ s.main.resetting = false ∧
      (s.main.closing = true → s'.main.closing = true) := by
    simp [hm, MainPc.resetting, MainPc.closing]
  simp only [flushWbuf] at hs
  split at hs
  · split at hs <;>
      simp only [Option.ite_none_right_eq_some, Option.some.injEq, reduceCtorEq] at hs
    · obtain ⟨-, rfl⟩ := hs
      exact .quiet (by simp) hquiet (.inl rfl)
    all_goals
      subst hs
      exact .quiet (by simp) hquiet (.inl rfl)
  · cases hs
    exact .quiet (by simp [flushed]) hquiet (.inl rfl)

theorem Shared.select_move (hm : s.main = .select) (hs : s.select ch = some s') :
    s.MainMove s' := by
  have hquiet : s.main ≠ .out ∧ s.main.resetting = false ∧
      (s.main.closing = true → s'.main.closing = true) := by
    simp [hm, MainPc.resetting, MainPc.closing]
  cases ch with
  | deliver =>
    simp only [select] at hs
    split at hs <;> cases hs
    exact .quiet (by simp) hquiet (.inl rfl)
  | ravail =>
    simp only [select, Option.ite_none_right_eq_some, Option.some.injEq] at hs
    obtain ⟨ht, rfl⟩ := hs
    exact .take (by simp) ⟨ht, rfl⟩ ⟨hquiet.1, rfl⟩
  | wavail | down =>
    simp only [select, Option.ite_none_right_eq_some, Option.some.injEq] at hs
    obtain ⟨-, rfl⟩ := hs
    exact .quiet (by simp) hquiet (.inl rfl)

theorem Shared.mainproc_move (hh : s.main.handling = false) (hs : s.mainproc a = some s') :
    s.MainMove s' := by
  have hquiet : s.main ≠ .out → s.main.resetting = false → s.main.closing = false →
      s.main ≠ .out ∧ s.main.resetting = false ∧
      (s.main.closing = true → s'.main.closing = true) :=
    fun ho hr hc => ⟨ho, hr, fun h => absurd h (by simp [hc])⟩
  cases hm : s.main <;>
    simp only [Shared.mainproc, hm, Option.some.injEq, reduceCtorEq, MainPc.handling] at hs hh
  case login =>
    split at hs <;>
      simp only [Option.ite_none_right_eq_some, Option.some.injEq, reduceCtorEq] at hs
    · obtain ⟨ht, rfl⟩ := hs
      exact .take (by simp) ⟨ht, rfl⟩ ⟨by simp [hm], rfl⟩
    · obtain ⟨-, rfl⟩ := hs
      exact .quiet (by simp) (hquiet (by simp [hm]) (by simp [hm, MainPc.resetting])
        (by simp [hm, MainPc.closing])) (.inl rfl)
  case select =>
    split at hs
    · exact select_move hm hs
    · cases hs
  case flush p => exact flushWbuf_move hm hs
  case close pc' => exact hs ▸ mainClosing_move hm
  case resetLogin ok =>
    subst hs
    exact .reset (by simp) ⟨by simp [hm, MainPc.resetting], by cases ok <;> rfl⟩
  case reset =>
    subst hs
    exact .reset (by simp) ⟨by simp [hm, MainPc.resetting], rfl⟩
  case clrBusy =>
    subst hs
    exact .clear (by simp) ⟨hm, rfl⟩
  case chkBusy =>
    refine .quiet (by simp [← hs]) (hquiet (by simp [hm]) (by simp [hm, MainPc.resetting])
      (by simp [hm, MainPc.closing])) ?_
    subst hs
    dsimp only
    split
    · exact .inr ⟨rfl, by simp_all⟩
    · exact .inl rfl
  case flushChk p =>
    split at hs <;> cases hs
    all_goals
      exact .quiet (by simp [flushed]) (hquiet (by simp [hm]) (by simp [hm, MainPc.resetting])
        (by simp [hm, MainPc.closing])) (.inl rfl)
  case chkR =>
    subst hs
    exact .quiet (by simp) (hquiet (by simp [hm]) (by simp [hm, MainPc.resetting])
      (by simp [hm, MainPc.closing])) (.inl (by dsimp only; split <;> rfl))
  all_goals
    subst hs
    exact .quiet (by simp) (hquiet (by simp [hm]) (by simp [hm, MainPc.resetting])
      (by simp [hm, MainPc.closing])) (.inl rfl)

theorem MainPc.plain_spec {m : MainPc} (h : m.plain = true) : m ≠ .out ∧ m.handling = false ∧
    m.resetting = false ∧ m ≠ .clrBusy ∧ m ≠ .panicked := by
  cases m <;> simp_all [plain, handling, resetting]

theorem Shared.Handshake.complete (h : s.Handshake pc g) (hg : g ≠ none) :
    s.c.pr.Complete := by
  obtain ⟨p, rfl⟩ := Option.ne_none_iff_exists'.1 hg
  exact (h.pending p rfl).2

theorem Shared.Handshake.quiet (h : s.Handshake pc g) (hh : s.main.handling = false)
    (hc : s'.c.pr = s.c.pr ∧ s'.c.busy = s.c.busy ∧ s'.c.ravail = s.c.ravail ∧
      s'.c.gStart = s.c.gStart)
    (hm : s.main ≠ .out ∧ s.main.resetting = false ∧
      (s.main.closing = true → s'.main.closing = true))
    (hm' : s'.main.plain = true ∨ s'.main = .clrBusy ∧ s.c.busy = true) :
    s'.Handshake pc g := by
  have hp : s'.main ≠ .out ∧ s'.main.handling = false ∧ s'.main.resetting = false ∧
      (s'.main = .clrBusy → s.c.busy = true) ∧ s'.main ≠ .panicked := by
    rcases hm' with h | ⟨h, hb⟩
    · obtain ⟨h₁, h₂, h₃, h₄, h₅⟩ := MainPc.plain_spec h
      exact ⟨h₁, h₂, h₃, fun he => absurd he h₄, h₅⟩
    · simp [h, hb, MainPc.handling, MainPc.resetting]
  obtain ⟨hpr, hbusy, hrav, hgs⟩ := hc
  obtain ⟨hout, hhand, hreset, hclr, halive⟩ := hp
  refine ⟨hpr ▸ h.header, hpr ▸ h.pending, ?_, h.checking, h.posting, ?_, ?_,
    ?_, ?_, ?_, ?_, ?_, ?_, halive⟩
  · intro hr
    rw [hrav, hhand, hreset, hbusy]
    exact ⟨(h.reading hr).1, rfl, rfl, (h.reading hr).2.2.2⟩
  · intro hm
    rw [hhand] at hm
    cases hm
  · intro hm
    rw [hreset] at hm
    cases hm
  · rw [hrav, hbusy]
    exact h.token
  · intro hg hcomp
    rw [hpr] at hcomp
    obtain ⟨hr | hc, hb⟩ := h.stale hg hcomp
    · rw [hm.2.1] at hr
      cases hr
    · exact ⟨.inr (hm.2.2 hc), hbusy.trans hb⟩
  · intro hg
    rcases h.awaited hg with hr | hc | ha
    · rw [hh] at hr
      cases hr
    · exact .inr (.inl (hm.2.2 hc))
    · refine .inr (.inr ?_)
      rw [Awaited, hrav]
      exact ha.imp_right fun ht => ⟨ht.1, .inl hout⟩
  · rw [hbusy]
    exact h.held
  · rw [hgs]
    exact ⟨fun hs => absurd (h.started.1 hs) hm.1, fun hs => absurd hs hout⟩
  · rw [hbusy]
    exact hclr

theorem Shared.Handshake.take (h : s.Handshake pc g)
    (hc : s'.c.pr = s.c.pr ∧ s'.c.busy = s.c.busy ∧ s'.c.gStart = s.c.gStart)
    (ht : s.c.ravail = true ∧ s'.c.ravail = false)
    (hm : s.main ≠ .out ∧ s'.main.handling = true) : s'.Handshake pc g := by
  have hp : s'.main ≠ .out ∧ s'.main.resetting = false ∧ s'.main ≠ .clrBusy ∧
      s'.main ≠ .panicked := by
    have := hm.2
    cases hm' : s'.main <;> simp_all [MainPc.handling, MainPc.resetting]
  obtain ⟨hpr, hbusy, hgs⟩ := hc
  obtain ⟨hout, hreset, hclr, halive⟩ := hp
  obtain ⟨hg, hb⟩ := h.token ht.1
  have hnread : pc.reading = false := Bool.eq_false_iff.2 fun hr => by
    have hno := (h.reading hr).1
    rw [ht.1] at hno
    cases hno
  refine ⟨hpr ▸ h.header, hpr ▸ h.pending, ?_, h.checking, h.posting,
    fun _ => ⟨hg, hbusy.trans hb, ht.2⟩, ?_, ?_, fun hn =>
      absurd hn hg, fun _ => .inl hm.2, ?_, ?_,
    fun hm => absurd hm hclr, halive⟩
  · intro hr
    rw [hnread] at hr
    cases hr
  · intro hm
    rw [hreset] at hm
    cases hm
  · intro hr
    rw [ht.2] at hr
    cases hr
  · rw [hbusy]
    exact h.held
  · rw [hgs]
    exact ⟨fun hs => absurd (h.started.1 hs) hm.1, fun hs => absurd hs hout⟩

theorem Shared.Handshake.reset (h : s.Handshake pc g)
    (hc : s'.c.pr = s.c.pr.reset ∧ s'.c.busy = s.c.busy ∧ s'.c.ravail = s.c.ravail ∧
      s'.c.gStart = s.c.gStart)
    (hm : s.main.resetting = true ∧ s'.main.plain = true) : s'.Handshake pc g := by
  obtain ⟨hpr, hbusy, hrav, hgs⟩ := hc
  obtain ⟨hout, hhand, hreset, hclr, halive⟩ := MainPc.plain_spec hm.2
  obtain ⟨hg, hb, hr⟩ := h.resetting hm.1
  have ho : s.main ≠ .out := by
    intro ho
    rw [ho] at hm
    cases hm.1
  have hnread : pc.reading = false := Bool.eq_false_iff.2 fun hr => by
    have hno := (h.reading hr).2.2.1
    rw [hm.1] at hno
    cases hno
  refine ⟨hpr ▸ PacketReader.headerFirst_reset _, ?_, ?_, h.checking, h.posting, ?_, ?_, ?_, ?_,
    fun hne => absurd hg hne, fun hne => absurd hg hne, ?_, fun hm => absurd hm hclr, halive⟩
  · intro p hp
    rw [hg] at hp
    cases hp
  · intro hr
    rw [hnread] at hr
    cases hr
  · intro hm
    rw [hhand] at hm
    cases hm
  · intro hm
    rw [hreset] at hm
    cases hm
  · intro ht
    rw [hrav, hr] at ht
    cases ht
  · intro _ hcomp
    rw [hpr] at hcomp
    exact absurd hcomp (PacketReader.not_complete_reset _)
  · rw [hgs]
    exact ⟨fun hs => absurd (h.started.1 hs) ho, fun hs => absurd hs hout⟩

theorem Shared.Handshake.clear (h : s.Handshake pc g) (hok : ¬ s.c.pr.Complete)
    (hc : s'.c.pr = s.c.pr ∧ s'.c.busy = false ∧ s'.c.ravail = s.c.ravail ∧
      s'.c.gStart = s.c.gStart)
    (hm : s.main = .clrBusy ∧ s'.main.plain = true) : s'.Handshake pc g := by
  obtain ⟨hpr, hbusy, hrav, hgs⟩ := hc
  obtain ⟨hout, hhand, hreset, hclr, halive⟩ := MainPc.plain_spec hm.2
  have hg : g = none := by_contra fun hg => hok (h.complete hg)
  have hb := h.clearing hm.1
  have hr : s.c.ravail = false := Bool.eq_false_iff.2 fun ht => (h.token ht).1 hg
  have hnread : pc.reading = false := Bool.eq_false_iff.2 fun hr => by
    obtain rfl := (h.reading hr).2.2.2.1 hb
    exact h.posting rfl hg
  have ho : s.main ≠ .out := by simp [hm.1]
  refine ⟨hpr ▸ h.header, hpr ▸ h.pending, ?_, h.checking, h.posting, ?_, ?_, ?_, ?_,
    fun hne => absurd hg hne, fun hne => absurd hg hne, ?_, fun hm => absurd hm hclr, halive⟩
  · intro hr
    rw [hnread] at hr
    cases hr
  · intro hm
    rw [hhand] at hm
    cases hm
  · intro hm
    rw [hreset] at hm
    cases hm
  · intro ht
    rw [hrav, hr] at ht
    cases ht
  · intro _ hcomp
    exact absurd (hpr ▸ hcomp) hok
  · rw [hgs]
    exact ⟨fun hs => absurd (h.started.1 hs) ho, fun hs => absurd hs hout⟩

theorem Shared.Handshake.main (h : s.Handshake pc g) (hh : s.main.handling = false)
    (hs : s.MainMove s') (hok : s.main = .clrBusy → ¬ s.c.pr.Complete) : s'.Handshake pc g := by
  cases hs with
  | quiet hc hm hm' => exact h.quiet hh hc hm hm'
  | take hc ht hm => exact h.take hc ht hm
  | reset hc hm => exact h.reset hc hm
  | clear hc hm => exact h.clear (hok hm.1) hc hm

/-- With a complete packet `handle` does not panic, and the connection goroutine goes on to
reset the packet reader or to close the connection. -/
theorem Shared.mainproc_handles (hh : s.main.handling = true) (hc : s.c.pr.Complete)
    (hs : s.mainproc a = some s') : s'.c = s.c ∧ s.main ≠ .out ∧
      (s'.main.resetting = true ∨ s'.main = .close .cas) := by
  obtain ⟨body, hbody⟩ := hc.getBody
  cases hm : s.main <;> simp only [hm, MainPc.handling, Bool.false_eq_true] at hh
  · simp only [Shared.mainproc, hm] at hs
    split at hs
    · cases hs
      generalize s.ctx.handleLogin s.c.pr _ = o
      cases o with
      | none => exact ⟨rfl, by simp, .inr rfl⟩
      | some o => exact ⟨rfl, by simp, .inl rfl⟩
    · cases hs
  · simp only [Shared.mainproc, hm, Client.handle, hbody, Option.map_some,
      Option.some.injEq] at hs
    subst hs
    split <;> exact ⟨rfl, by simp, .inl rfl⟩

theorem Shared.Handshake.handles (h : s.Handshake pc g) (hh : s.main.handling = true)
    (hs : s.mainproc a = some s') : g = some s.c.pr ∧ s'.Handshake pc none := by
  obtain ⟨hsome, hbusy, hrav⟩ := h.handling hh
  obtain ⟨p, rfl⟩ := Option.ne_none_iff_exists'.1 hsome
  obtain ⟨rfl, hcomp⟩ := h.pending p rfl
  have hnread : pc.reading = false := Bool.eq_false_iff.2 fun hr => by
    have hno := (h.reading hr).2.1
    rw [hh] at hno
    cases hno
  have hnpost : pc.posting = false := by
    cases pc <;> simp_all [WorkerPc.reading, WorkerPc.posting]
  have hncheck : pc.checking = false := by
    cases pc <;> simp_all [WorkerPc.reading, WorkerPc.checking]
  obtain ⟨hc, hout, hm⟩ := mainproc_handles hh hcomp hs
  have hp : s'.main ≠ .out ∧ s'.main.handling = false ∧ s'.main ≠ .clrBusy ∧
      s'.main ≠ .panicked ∧ (s'.main.resetting = true ∨ s'.main.closing = true) := by
    rcases hm with hm | hm
    · cases hm' : s'.main <;> simp_all [MainPc.handling, MainPc.resetting]
    · simp [hm, MainPc.handling, MainPc.closing]
  have hstart := h.started
  have hhead := h.header
  refine ⟨rfl, ?_⟩
  constructor <;> grind

theorem Shared.Handshake.move (h : s.Handshake pc g)
    (hc : s'.c.pr = s.c.pr ∧ s'.c.busy = s.c.busy ∧ s'.c.ravail = s.c.ravail ∧
      s'.c.gStart = s.c.gStart ∧ s'.main = s.main)
    (hreading : pc'.reading = true → s.c.busy = false ∧ pc' ≠ .notify)
    (hchecking : pc'.checking = true → g = none) (hposting : pc'.posting = true → g ≠ none)
    (hheld : g ≠ none → pc.reading = true → pc.checking = false →
      pc'.reading = true ∧ pc'.checking = false)
    (hstarting : g ≠ none → pc.starting = true → s.main = .out → pc'.starting = true) :
    s'.Handshake pc' g := by
  obtain ⟨hhead, hpend, hread, hchk, hpost, hhand, hreset, htok, hstale, hawait, hheld',
    hstart, hclr, halive⟩ := h
  constructor <;> grind [Awaited]

theorem Shared.readOut_spec {r : Bool} (hw : s.c.pr.want = some k) (hf : res.Fits k)
    (hr : s.c.pr.HeaderFirst) :
    ∃ pc', s.readOut r (s.c.pr.readStep res) =
        ({ s with c.pr := (s.c.pr.readStep res).1 }, pc') ∧
      ((s.c.pr.readStep res).1.Complete → pc' = .read r) ∧
      (pc' = .read r ∨ pc' = .rdChk true ∨ pc' = .close r .cas) := by
  have hmore := (PacketReader.readStep_spec hw hf hr).2
  have hready (r') (h : s.c.pr.readStep res = (r', .ret true)) : False :=
    PacketReader.readStep_ready hw h
  generalize s.c.pr.readStep res = o at hmore hready
  obtain ⟨pr, _ | ready | _⟩ := o
  · exact ⟨_, rfl, fun _ => rfl, .inl rfl⟩
  · cases ready with
    | true => exact (hready pr rfl).elim
    | false =>
      refine ⟨_, rfl, fun hc => ?_, .inr (.inl rfl)⟩
      cases hmore hc
  · refine ⟨_, rfl, fun hc => ?_, .inr (.inr rfl)⟩
    cases hmore hc

theorem Shared.Handshake.readfrom {r : Bool} (h : s.Handshake (.read r) g)
    (hs : s.readfrom r a s.c.pr.want = some (s', pc')) :
    ∃ g', (s.assembledEvent (.read r) a).toList.foldlM oneAtATime g = some g' ∧
      s'.Handshake pc' g' := by
  have hread := h.reading rfl
  have hbusy : s.c.busy = false := by simpa using hread.2.2.2
  cases hw : s.c.pr.want with
  | none =>
    have hev : s.assembledEvent (.read r) a = none := by
      cases a <;> simp [assembledEvent, hw]
    simp only [hw, Shared.readfrom, Option.some.injEq, Prod.mk.injEq] at hs
    obtain ⟨rfl, rfl⟩ := hs
    refine ⟨g, by rw [hev]; rfl, ?_⟩
    have hgc : s.c.pr.readEnd = true ↔ g ≠ none := by
      refine ⟨fun hc hg => ?_, fun hg => (h.complete hg).readEnd⟩
      have hb := (h.stale hg (PacketReader.complete_of_readEnd hw hc)).2
      rw [hbusy] at hb
      cases hb
    refine h.move (by simp) (fun _ => ⟨hbusy, by split <;> simp⟩) (fun hc => ?_) (fun hp => ?_)
      (fun hg _ _ => ?_) (by simp [WorkerPc.starting])
    · split at hc
      · cases hc
      · simp_all
    · split at hp
      · exact hgc.1 ‹_›
      · cases hp
    · rw [if_pos (hgc.2 hg)]
      exact ⟨rfl, rfl⟩
  | some k =>
    have hnc := PacketReader.not_complete_of_want hw
    have hg : g = none := by
      by_contra hg
      exact hnc (h.complete hg)
    subst hg
    cases a <;> simp only [hw, Shared.readfrom, reduceCtorEq, Option.ite_none_right_eq_some,
      Option.some.injEq] at hs
    case read res =>
      obtain ⟨hf, hs⟩ := hs
      have hhead := (PacketReader.readStep_spec hw hf h.header).1
      obtain ⟨pc', hout, hdone, hpc⟩ := readOut_spec (r := r) hw hf h.header
      cases hout.symm.trans hs
      have hev : s.assembledEvent (.read r) (.read res) =
          if (s.c.pr.readStep res).1.Complete then some (.assembled (s.c.pr.readStep res).1)
          else none := by simp [assembledEvent, hw]
      obtain ⟨-, hpend, -, hchk, hpost, hhand, hreset, htok, hstale, hawait, hheld,
        hstart, hclr, halive⟩ := h
      by_cases hc : (s.c.pr.readStep res).1.Complete
      · refine ⟨some (s.c.pr.readStep res).1, by rw [hev, if_pos hc]; rfl, ?_⟩
        obtain rfl := hdone hc
        constructor <;> simp_all [Awaited, WorkerPc.reading, WorkerPc.checking]
      · refine ⟨none, by rw [hev, if_neg hc]; rfl, ?_⟩
        have hpc' : pc'.posting = false ∧ pc' ≠ .notify := by
          rcases hpc with rfl | rfl | rfl <;> simp [WorkerPc.posting]
        constructor <;> simp_all

theorem Shared.Handshake.worker (h : s.Handshake w.pc g) (ho : w.pc.owns = true)
    (hs : s.workerProc home w a = some (s', w')) :
    ∃ g', (s.assembledEvent w.pc a).toList.foldlM oneAtATime g = some g' ∧
      s'.Handshake w'.pc g' := by
  cases hpc : w.pc <;> simp only [workerProc, hpc, Option.some.injEq, Prod.mk.injEq] at hs h
  case read r =>
    obtain ⟨⟨s₁, pc₁⟩, hr, hs⟩ := Option.map_eq_some_iff.1 hs
    cases hs
    exact h.readfrom hr
  case poll | loc | block | own | reR | reW | reOwn => simp [hpc, WorkerPc.owns] at ho
  all_goals refine ⟨g, rfl, ?_⟩
  case start reading writing =>
    split at hs <;> cases hs
    · next hgo =>
      have hout := h.started.1 hgo.1
      obtain ⟨hhead, hpend, hread, hchk, hpost, hhand, hreset, htok, hstale, hawait, hheld,
        hstart, hclr, halive⟩ := h
      simp only [hout, MainPc.handling, MainPc.resetting, MainPc.closing,
        Awaited, WorkerPc.reading,
        Bool.false_eq_true, false_or, false_and, imp_false] at hhand hreset hstale hawait hheld
      constructor <;>
        simp_all [Worker.goto, WorkerPc.reading, WorkerPc.checking, WorkerPc.posting,
        Awaited, MainPc.handling, MainPc.resetting]
    · next hgo =>
      have hgs : g ≠ none → s.main ≠ .out := fun hg ho => hgo ⟨h.started.2 ho, by
        simpa [WorkerPc.reading] using h.held hg⟩
      exact h.move (by simp) (by simp [Worker.goto, WorkerPc.reading])
        (by simp [Worker.goto, WorkerPc.checking]) (by simp [Worker.goto, WorkerPc.posting])
        (by simp [WorkerPc.reading]) (fun hg _ ho => absurd ho (hgs hg))
  case busySet | notify =>
    obtain ⟨rfl, rfl⟩ := hs
    have hg := h.posting rfl
    have hr := h.reading rfl
    obtain ⟨hhead, hpend, hread, hchk, hpost, hhand, hreset, htok, hstale, hawait, hheld,
      hstart, hclr, halive⟩ := h
    constructor <;> simp_all [Worker.goto, WorkerPc.reading, WorkerPc.checking, WorkerPc.posting,
        Awaited, WorkerPc.starting]
  case rdSet =>
    obtain ⟨rfl, rfl⟩ := hs
    have hg := h.posting rfl
    have hr := h.reading rfl
    exact h.move (by simp) (fun _ => ⟨by simpa using hr.2.2.2, by simp [Worker.goto]⟩)
      (by simp [Worker.goto, WorkerPc.checking]) (fun _ => hg)
      (by simp [Worker.goto, WorkerPc.reading, WorkerPc.checking]) (by simp [WorkerPc.starting])
  case onBusy =>
    obtain ⟨rfl, rfl⟩ := hs
    have hheld : g ≠ none → s.c.busy = true := by simpa [WorkerPc.reading] using h.held
    refine h.move (by simp) ?_ ?_ ?_ (by simp [WorkerPc.reading]) (by simp [WorkerPc.starting])
    all_goals grind [Worker.goto, WorkerPc.reading, WorkerPc.checking, WorkerPc.posting]
  case rdChk r | rdClr r =>
    obtain ⟨rfl, rfl⟩ := hs
    have hg := h.checking rfl
    have hr := h.reading rfl
    refine h.move (by simp) (fun _ => ⟨by simpa using hr.2.2.2, ?_⟩) (fun _ => hg) ?_
      (absurd hg) (absurd hg)
    all_goals grind [Worker.goto, WorkerPc.posting]
  case close r pc' =>
    obtain ⟨rfl, rfl⟩ := hs
    have hpr := s.c.close_pr pc'
    generalize s.c.close pc' = o at hpr
    obtain ⟨c, _ | pc₁⟩ := o
    all_goals
      exact h.move (by simpa [pollClosing] using hpr) (by simp [Worker.goto, WorkerPc.reading])
        (by simp [Worker.goto, WorkerPc.checking]) (by simp [Worker.goto, WorkerPc.posting])
        (by simp [WorkerPc.reading]) (by simp [WorkerPc.starting])
  all_goals
    obtain ⟨rfl, rfl⟩ := hs
    refine h.move (by simp) ?_ ?_ ?_ (by simp [WorkerPc.reading]) ?_
    all_goals grind [Worker.goto, WorkerPc.reading, WorkerPc.checking, WorkerPc.posting,
      WorkerPc.starting]

theorem Shared.Handshake.congr (h : s.Handshake pc g)
    (hc : s'.c.pr = s.c.pr ∧ s'.c.busy = s.c.busy ∧ s'.c.ravail = s.c.ravail ∧
      s'.c.gStart = s.c.gStart ∧ s'.main = s.main) : s'.Handshake pc g := by
  obtain ⟨hhead, hpend, hread, hchk, hpost, hhand, hreset, htok, hstale, hawait, hheld,
    hstart, hclr, halive⟩ := h
  constructor <;> grind [Awaited]

theorem Shared.workerProc_away (ho : w.pc.owns = false)
    (hs : s.workerProc home w a = some (s', w')) :
    (s'.c.pr = s.c.pr ∧ s'.c.busy = s.c.busy ∧ s'.c.ravail = s.c.ravail ∧
      s'.c.gStart = s.c.gStart ∧ s'.main = s.main) ∧
    (w'.pc.owns = false ∨ w'.pc = .chkBad ∧ (s.c.pd.own = false ∨ w.localq = true)) := by
  cases hpc : w.pc <;> simp only [workerProc, hpc, Option.some.injEq, Prod.mk.injEq] at hs
  case poll | loc | block | own | reR | reW | reOwn =>
    clear ho
    grind [Worker.goto, pollQueue, pollLocal, popWq, blockQueues.eq_def, WorkerPc.owns]
  all_goals simp [hpc, WorkerPc.owns] at ho

theorem WorkerPc.owns_of_reading (h : pc.reading = true) : pc.owns = true := by
  cases pc <;> simp_all [reading, owns]

theorem WorkerPc.owns_of_starting (h : pc.starting = true) : pc.owns = true := by
  cases pc <;> simp_all [starting, owns]

theorem Shared.assembledEvent_away (ho : pc.owns = false) : s.assembledEvent pc a = none := by
  cases pc <;> simp_all [assembledEvent, WorkerPc.owns]

/-- The handshake with the position of the owner, if the descriptor has one. -/
def Conn.Handshake (t : Conn) (g : Option PacketReader) : Prop :=
  ∃ pc : WorkerPc, t.toShared.Handshake pc g ∧ (pc.owns = true → ∃ i, (t.workers i).pc = pc) ∧
    ∀ i, (t.workers i).pc.owns = true → (t.workers i).pc = pc

theorem Conn.Handshake.worker (h : t.Handshake g) (hx : t.Exclusive)
    (hs : t.workerProc home (t.workers i) a = some (s', w')) :
    ∃ g', (t.assembledEvent (t.workers i).pc a).toList.foldlM oneAtATime g = some g' ∧
      Handshake ⟨s', Function.update t.workers i w'⟩ g' := by
  obtain ⟨pc, h, hex, huniq⟩ := h
  have hother {j} (hj : j ≠ i) :
      (Conn.mk s' (Function.update t.workers i w')).workers j = t.workers j :=
    Function.update_of_ne hj ..
  have hself : (Conn.mk s' (Function.update t.workers i w')).workers i = w' :=
    Function.update_self ..
  cases ho : (t.workers i).pc.owns with
  | true =>
    obtain ⟨g', hev, h⟩ := Shared.Handshake.worker (huniq i ho ▸ h) ho hs
    refine ⟨g', hev, w'.pc, h, fun _ => ⟨i, by rw [hself]⟩, fun j hj => ?_⟩
    by_cases he : j = i
    · rw [he, hself]
    · rw [hother he] at hj
      exact absurd (hx.unique j i (.inl hj) (.inl ho)) he
  | false =>
    obtain ⟨hc, hw⟩ := Shared.workerProc_away ho hs
    refine ⟨g, by rw [Shared.assembledEvent_away ho]; rfl, ?_⟩
    rcases hw with hw | ⟨hw, hacq⟩
    · refine ⟨pc, h.congr hc, fun hp => ?_, fun j hj => ?_⟩
      · obtain ⟨j, rfl⟩ := hex hp
        exact ⟨j, by rw [hother fun he => by rw [he, ho] at hp; cases hp]⟩
      · by_cases he : j = i
        · rw [he, hself, hw] at hj
          cases hj
        · rw [hother he] at hj ⊢
          exact huniq j hj
    · -- Nobody owned the descriptor before.
      have hnone (j) : (t.workers j).pc.owns = false := Bool.eq_false_iff.2 fun hj => by
        rcases hacq with hfree | hlq
        · rw [hx.owned j (.inl hj)] at hfree
          cases hfree
        · rw [hx.unique j i (.inl hj) (.inr hlq), ho] at hj
          cases hj
      have hpc : pc.owns = false := Bool.eq_false_iff.2 fun hp => by
        obtain ⟨j, rfl⟩ := hex hp
        rw [hnone j] at hp
        cases hp
      refine ⟨.chkBad, h.move hc ?_ ?_ ?_ ?_ ?_, fun _ => ⟨i, by rw [hself, hw]⟩, fun j hj => ?_⟩
      · simp [WorkerPc.reading]
      · simp [WorkerPc.checking]
      · simp [WorkerPc.posting]
      · intro _ hr
        rw [WorkerPc.owns_of_reading hr] at hpc
        cases hpc
      · intro _ hr
        rw [WorkerPc.owns_of_starting hr] at hpc
        cases hpc
      · by_cases he : j = i
        · rw [he, hself, hw]
        · rw [hother he, hnone j] at hj
          cases hj

theorem Conn.Handshake.new : Conn.new.Handshake none := by
  refine ⟨.poll, ?_, by simp [WorkerPc.owns], by simp [Conn.new, WorkerPc.owns]⟩
  have hn : ¬ PacketReader.new.Complete := by decide
  constructor <;> simp [Conn.new, newNetconn, WorkerPc.reading, WorkerPc.checking,
    WorkerPc.posting, MainPc.handling, MainPc.resetting, PacketReader.headerFirst_new, hn]

theorem Shared.handledEvent_eq (hm : s.main.handling = true) :
    s.handledEvent = some (.handled s.c.pr) := by
  cases hmain : s.main <;> simp_all [MainPc.handling, handledEvent]

theorem Shared.handledEvent_eq_none (hm : s.main.handling = false) : s.handledEvent = none := by
  cases hmain : s.main <;> simp_all [MainPc.handling, handledEvent]

/-- Every step keeps the handshake and shows only events that one packet at a time allows. -/
theorem Conn.Handshake.step (h : t.Handshake g) (hx : t.Exclusive) (hok : t.KeepsBusy a)
    (hs : t.step n home a = some t') :
    ∃ g', (t.packetEvent a).toList.foldlM oneAtATime g = some g' ∧ t'.Handshake g' := by
  cases Conn.step_moves hs with
  | worker _ hw => exact h.worker hx hw
  | main hm =>
    obtain ⟨pc, h, hrest⟩ := h
    cases hh : t.main.handling with
    | true =>
      obtain ⟨rfl, h'⟩ := h.handles hh hm
      refine ⟨none, ?_, pc, h', hrest⟩
      simp [packetEvent, Shared.handledEvent_eq hh, oneAtATime]
    | false =>
      refine ⟨g, ?_, pc, h.main hh (Shared.mainproc_move hh hm) hok, hrest⟩
      rw [packetEvent, Shared.handledEvent_eq_none hh]
      rfl
  | loop hl =>
    obtain ⟨pc, h, hrest⟩ := h
    obtain ⟨⟨r, w, hc⟩, hm, -⟩ := Shared.serverEventloop_spec hl
    exact ⟨g, rfl, pc, h.congr ⟨by rw [hc], by rw [hc], by rw [hc], by rw [hc], hm⟩, hrest⟩
  | post =>
    obtain ⟨pc, h, hrest⟩ := h
    exact ⟨g, rfl, pc, h.congr (by simp), hrest⟩

end Misc.Yagw
