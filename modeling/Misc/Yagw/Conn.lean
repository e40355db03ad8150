import Misc.Lib.Machine
import Misc.Yagw.Proto
import Mathlib.Logic.Function.Basic

namespace Misc.Yagw
open Misc.Lib
set_option autoImplicit true

structure Polldesp where
  bad : Bool
  own : Bool
  r : Bool
  w : Bool
  deriving DecidableEq, Repr

/-- A `netconn`. The channels `ravail` and `wavail` have one slot, `down` is only ever closed. -/
structure Netconn where
  pd : Polldesp
  bad : Bool
  auth : Bool
  busy : Bool
  wpending : Bool
  pr : PacketReader
  ravail : Bool
  wavail : Bool
  down : Bool
  gStart : Bool
  deriving DecidableEq, Repr

def newNetconn : Netconn where
  pd := ⟨false, false, false, false⟩
  bad := false
  auth := false
  busy := false
  wpending := true
  pr := .new
  ravail := false
  wavail := false
  down := false
  gStart := false

/-- Where a thread stands in `netconn.Close`: at the exchange of `c.bad`, at the exchange of
`pd.bad` in `free_pd`, or at the closing of `down`. -/
inductive ClosePc
  | cas | free | down
  deriving DecidableEq, Repr

/-- One operation of `Close`, with `none` when it returns. -/
def Netconn.close (c : Netconn) : ClosePc → Netconn × Option ClosePc
  | .cas => if c.bad then (c, none) else ({ c with bad := true }, some .free)
  | .free => ({ c with pd.bad := true }, some .down)
  | .down => ({ c with down := true }, none)

/-- Where a worker stands in `worker_proc`. Up to `block` it serves other descriptors; from `own`
on it has taken this one from a queue, and from `chkBad` to `disown` it owns it. -/
inductive WorkerPc
  | poll
  | loc
  | block
  | own
  | chkBad
  | onBad
  | onBusy
  | rdChk (reading : Bool)
  | rdClr (reading : Bool)
  | read (reading : Bool)
  | rdSet
  | busySet
  | notify
  | wrPend (reading : Bool)
  | wrChk (reading : Bool)
  | wrClr (reading : Bool)
  | wrClrPend (reading : Bool)
  | wrNotify (reading : Bool)
  | start (reading writing : Bool)
  | close (reading : Bool) (pc : ClosePc)
  | disown (reading writing : Bool)
  | reR (reading writing : Bool)
  | reW (reading writing : Bool)
  | reOwn
  deriving DecidableEq, Repr

/-- A worker, with whether its local queue holds the descriptor. -/
structure Worker where
  pc : WorkerPc
  localq : Bool
  deriving DecidableEq, Repr

/-- The state of `mainproc` that other goroutines do not touch, with the messages that wait in
`deliver` once `auth_init` has made that channel. -/
structure Client where
  deliver : Option (List (List UInt8))
  wbuf : List UInt8
  deriving DecidableEq, Repr

def newClient : Client := ⟨none, []⟩

def deliverChanDeep : Nat := 64

/-- `handle_login`, with what decoding the request and asking the authentication service give:
`none` for an error, else whether the user may log in and the encoded reply. -/
def Client.handleLogin (ctx : Client) (pr : PacketReader) (res : Option (Bool × List UInt8)) :
    Option (Client × Bool) :=
  if pr.getHeader.1 = cmdLogin then
    res.map fun (ok, data) =>
      ({ ctx with wbuf := writePacket ctx.wbuf cmdLogin pr.getHeader.2 data }, ok)
  else none

/-- `handle`, which panics in `get_body` when there is no packet. -/
def Client.handle (ctx : Client) (pr : PacketReader) : Option Client :=
  if pr.getHeader.1 = cmdPing then
    pr.getBody.map fun body =>
      { ctx with wbuf := writePacket ctx.wbuf cmdPing pr.getHeader.2 body }
  else some ctx

/-- Where the connection goroutine stands in `mainproc`; `p` counts the bytes that `flush_wbuf`
has written. -/
inductive MainPc
  | out
  | login
  | handleLogin
  | resetLogin (ok : Bool)
  | authStore
  | authInit
  | select
  | handle
  | reset
  | flush (p : Nat)
  | flushPend (p : Nat)
  | flushChk (p : Nat)
  | flushClr (p : Nat)
  | flushClrPend (p : Nat)
  | chkBusy
  | clrBusy
  | chkR
  | sendGq
  | close (pc : ClosePc)
  | exited
  | panicked
  deriving DecidableEq, Repr

inductive Chan
  | deliver | ravail | wavail | down
  deriving DecidableEq, Repr

inductive SysWrite
  | wrote (n : Nat)
  | eagain
  | err
  deriving DecidableEq, Repr

/-- The choices that are not `mainproc`'s own: which channel is ready, what the services called
by `handle_login` answer and what `sys_write` returns. Operations without a choice ignore
them. -/
inductive MainAct
  | step
  | recv (ch : Chan)
  | login (res : Option (Bool × List UInt8))
  | write (res : SysWrite)
  deriving DecidableEq, Repr

structure Events where
  inp : Bool
  out : Bool
  err : Bool
  hup : Bool
  rdhup : Bool
  deriving DecidableEq, Repr

def Events.readable (e : Events) : Bool := e.inp || e.err || e.hup

def Events.writable (e : Events) : Bool := e.out || e.err || e.rdhup || e.hup

/-- Where the event loop stands with an event of this descriptor. -/
inductive LoopPc
  | wait
  | chkBad (e : Events)
  | setR (e : Events)
  | setW (e : Events)
  | chkOwn
  | enq
  deriving DecidableEq, Repr

/-- An event, or whether the queue of the descriptor's worker has room. -/
inductive LoopAct
  | step
  | epoll (e : Events)
  | room (free : Bool)
  deriving DecidableEq, Repr

/-- The queue that gives the next descriptor, with `other` for another descriptor than this one,
or what `sys_read` returns. -/
inductive WorkerAct
  | step
  | popWq
  | popGq
  | other
  | read (res : SysRead)
  deriving DecidableEq, Repr

/-- Everything but the workers. `wq` and `gq` count the entries of this descriptor in the queue
of its worker and in the global queue. -/
structure Shared where
  c : Netconn
  wq : Nat
  gq : Nat
  loop : LoopPc
  main : MainPc
  ctx : Client
  deriving DecidableEq, Repr

/-- One operation of `server_eventloop` on an event of this descriptor. -/
def Shared.serverEventloop (s : Shared) (a : LoopAct) : Option Shared :=
  match s.loop with
  | .wait =>
    match a with
    | .epoll e => some { s with loop := .chkBad e }
    | _ => none
  | .chkBad e => some { s with loop := if s.c.pd.bad then .wait else .setR e }
  | .setR e => some { s with loop := .setW e, c.pd.r := if e.readable then true else s.c.pd.r }
  | .setW e => some { s with loop := .chkOwn, c.pd.w := if e.writable then true else s.c.pd.w }
  | .chkOwn => some { s with loop := if s.c.pd.own then .wait else .enq }
  | .enq =>
    match a with
    | .room true => some { s with loop := .wait, wq := s.wq + 1 }
    | .room false => some { s with loop := .wait, gq := s.gq + 1 }
    | _ => none

/-- `mainproc` after `flush_wbuf` has written `p` bytes. -/
def Shared.flushed (s : Shared) (p : Nat) : Shared :=
  { s with main := .chkBusy, ctx.wbuf := s.ctx.wbuf.drop p }

def Shared.flushWbuf (s : Shared) (p : Nat) (a : MainAct) : Option Shared :=
  if p < s.ctx.wbuf.length then
    match a with
    | .write (.wrote n) =>
      if p + n ≤ s.ctx.wbuf.length then some { s with main := .flush (p + n) } else none
    | .write .eagain => some { s with main := .flushPend p }
    | .write .err => some { s with main := .close .cas }
    | _ => none
  else some (s.flushed p)

def Shared.select (s : Shared) : Chan → Option Shared
  | .deliver =>
    match s.ctx.deliver with
    | some (msg :: msgs) =>
      let wbuf := s.ctx.wbuf
      some { s with
        main := .flush 0
        ctx.deliver := some msgs
        ctx.wbuf := if wbuf.length + msg.length ≤ wbufSizeLimit then wbuf ++ msg else wbuf }
    | _ => none
  | .ravail => if s.c.ravail then some { s with main := .handle, c.ravail := false } else none
  | .wavail => if s.c.wavail then some { s with main := .flush 0, c.wavail := false } else none
  | .down => if s.c.down then some { s with main := .exited } else none

/-- `mainproc` after `handle_login` has returned. -/
def Shared.loginDone (s : Shared) : Option (Client × Bool) → Shared
  | some (ctx, ok) => { s with main := .resetLogin ok, ctx }
  | none => { s with main := .close .cas }

/-- `mainproc` after `handle` has returned or panicked. -/
def Shared.handleDone (s : Shared) : Option Client → Shared
  | some ctx => { s with main := .reset, ctx }
  | none => { s with main := .panicked }

/-- `mainproc` after an operation of `Close`. -/
def Shared.mainClosing (s : Shared) : Netconn × Option ClosePc → Shared
  | (c, some pc) => { s with c, main := .close pc }
  | (c, none) => { s with c, main := .exited }

def Shared.mainproc (s : Shared) (a : MainAct) : Option Shared :=
  match s.main with
  | .out => none
  | .login =>
    match a with
    | .recv .ravail =>
      if s.c.ravail then some { s with main := .handleLogin, c.ravail := false } else none
    | .recv .down => if s.c.down then some { s with main := .exited } else none
    | _ => none
  | .handleLogin =>
    match a with
    | .login res => some (s.loginDone (s.ctx.handleLogin s.c.pr res))
    | _ => none
  | .resetLogin ok =>
    some { s with main := if ok then .authStore else .select, c.pr := s.c.pr.reset }
  | .authStore => some { s with main := .authInit, c.auth := true }
  | .authInit => some { s with main := .select, ctx.deliver := some [] }
  | .select =>
    match a with
    | .recv ch => s.select ch
    | _ => none
  | .handle => some (s.handleDone (s.ctx.handle s.c.pr))
  | .reset => some { s with main := .flush 0, c.pr := s.c.pr.reset }
  | .flush p => s.flushWbuf p a
  | .flushPend p => some { s with main := .flushChk p, c.wpending := true }
  | .flushChk p => if s.c.pd.w then some { s with main := .flushClr p } else some (s.flushed p)
  | .flushClr p => some { s with main := .flushClrPend p, c.pd.w := false }
  | .flushClrPend p => some { s with main := .flush p, c.wpending := false }
  | .chkBusy =>
    some { s with
      main := if s.c.busy ∧ s.ctx.wbuf.length < wbufSizeLimit then .clrBusy else .select }
  | .clrBusy => some { s with main := .chkR, c.busy := false }
  | .chkR => some { s with main := if s.c.pd.r then .sendGq else .select }
  | .sendGq => some { s with main := .select, gq := s.gq + 1 }
  | .close pc => some (s.mainClosing (s.c.close pc))
  | .exited => none
  | .panicked => none

/-- `on_poll` after the result of a `sys_read` has been looked at. -/
def Shared.readOut (s : Shared) (reading : Bool) : PacketReader × ReadOut → Shared × WorkerPc
  | (pr, .more) => ({ s with c.pr := pr }, .read reading)
  | (pr, .ret ready) => ({ s with c.pr := pr }, if ready then .rdSet else .rdChk true)
  | (pr, .fail) => ({ s with c.pr := pr }, .close reading .cas)

/-- The call of `readfrom` in `on_poll`, one `sys_read` at a time, into a slice of `k` bytes
unless both of its loops are done. -/
def Shared.readfrom (s : Shared) (reading : Bool) (a : WorkerAct) :
    Option Nat → Option (Shared × WorkerPc)
  | some k =>
    match a with
    | .read res => if res.Fits k then some (s.readOut reading (s.c.pr.readStep res)) else none
    | _ => none
  | none => some (s, if s.c.pr.readEnd then .rdSet else .rdChk true)

/-- `on_poll` after an operation of `Close`. -/
def Shared.pollClosing (s : Shared) (reading : Bool) :
    Netconn × Option ClosePc → Shared × WorkerPc
  | (c, some pc) => ({ s with c }, .close reading pc)
  | (c, none) => ({ s with c }, .disown reading false)

def Worker.goto (w : Worker) (pc : WorkerPc) : Worker := { w with pc }

/-- Takes the descriptor from the queue of its worker. -/
def Shared.popWq (s : Shared) (home : Bool) (w : Worker) : Option (Shared × Worker) :=
  if home = true ∧ 0 < s.wq then some ({ s with wq := s.wq - 1 }, w.goto .own) else none

/-- The `select` with a default branch, which is taken when the worker's queue is empty. -/
def Shared.pollQueue (s : Shared) (home : Bool) (w : Worker) (a : WorkerAct) :
    Option (Shared × Worker) :=
  if a = .popWq then s.popWq home w
  else if home = true ∧ 0 < s.wq then none
  else some (s, w.goto .loc)

/-- The local queue, which may have another descriptor in front of this one. -/
def Shared.pollLocal (s : Shared) (w : Worker) (a : WorkerAct) : Shared × Worker :=
  if a = .other then (s, w.goto .poll)
  else if w.localq then (s, ⟨.chkBad, false⟩)
  else (s, w.goto .block)

/-- The `select` that waits for both shared queues. -/
def Shared.blockQueues (s : Shared) (home : Bool) (w : Worker) :
    WorkerAct → Option (Shared × Worker)
  | .popWq => s.popWq home w
  | .popGq => if 0 < s.gq then some ({ s with gq := s.gq - 1 }, w.goto .own) else none
  | .other => some (s, w.goto .poll)
  | .step | .read _ => none

/-- One operation of `worker_proc`, with `on_poll` from `onBad` to `disown`; `home` says that the
queue of the descriptor is this worker's. -/
def Shared.workerProc (s : Shared) (home : Bool) (w : Worker) (a : WorkerAct) :
    Option (Shared × Worker) :=
  match w.pc with
  | .poll => s.pollQueue home w a
  | .loc => some (s.pollLocal w a)
  | .block => s.blockQueues home w a
  | .own =>
    if s.c.pd.own then some (s, w.goto .poll)
    else some ({ s with c.pd.own := true }, w.goto .chkBad)
  | .chkBad => some (s, w.goto (if s.c.pd.bad then .poll else .onBad))
  | .onBad => some (s, w.goto (if s.c.bad then .disown false false else .onBusy))
  | .onBusy => some (s, w.goto (if s.c.busy then .wrPend false else .rdChk false))
  | .rdChk reading => some (s, w.goto (if s.c.pd.r then .rdClr reading else .wrPend reading))
  | .rdClr reading => some ({ s with c.pd.r := false }, w.goto (.read reading))
  | .read reading => (s.readfrom reading a s.c.pr.want).map fun (s, pc) => (s, w.goto pc)
  | .rdSet => some ({ s with c.pd.r := true }, w.goto .busySet)
  | .busySet => some ({ s with c.busy := true }, w.goto .notify)
  | .notify => some ({ s with c.ravail := true }, w.goto (.wrPend false))
  | .wrPend reading =>
    some (s, w.goto (if s.c.wpending then .wrChk reading else .start reading false))
  | .wrChk reading => some (s, w.goto (if s.c.pd.w then .wrClr reading else .start reading true))
  | .wrClr reading => some ({ s with c.pd.w := false }, w.goto (.wrClrPend reading))
  | .wrClrPend reading => some ({ s with c.wpending := false }, w.goto (.wrNotify reading))
  | .wrNotify reading => some ({ s with c.wavail := true }, w.goto (.start reading false))
  | .start reading writing =>
    if s.c.gStart = false ∧ s.c.busy = true then
      some ({ s with main := .login, ctx := newClient, c.gStart := true },
        w.goto (.disown reading writing))
    else some (s, w.goto (.disown reading writing))
  | .close reading pc =>
    some ((s.pollClosing reading (s.c.close pc)).map id w.goto)
  | .disown reading writing => some ({ s with c.pd.own := false }, w.goto (.reR reading writing))
  | .reR reading writing =>
    some (s, w.goto (if s.c.pd.r && reading then .reOwn else .reW reading writing))
  | .reW _ writing => some (s, w.goto (if s.c.pd.w && writing then .reOwn else .poll))
  | .reOwn =>
    if s.c.pd.own then some (s, w.goto .poll)
    else some ({ s with c.pd.own := true }, ⟨.poll, true⟩)

structure Conn extends Shared where
  workers : Nat → Worker

inductive Act
  | worker (i : Nat) (a : WorkerAct)
  | main (a : MainAct)
  | loop (a : LoopAct)
  | post (msg : List UInt8)
  deriving DecidableEq, Repr

def Conn.step (nworkers home : Nat) (s : Conn) : Act → Option Conn
  | .worker i a =>
    if i < nworkers then
      (s.workerProc (i == home) (s.workers i) a).map fun (sh, w) =>
        ⟨sh, Function.update s.workers i w⟩
    else none
  | .main a => (s.mainproc a).map fun sh => { s with toShared := sh }
  | .loop a => (s.serverEventloop a).map fun sh => { s with toShared := sh }
  | .post msg =>
    match s.ctx.deliver with
    | some msgs =>
      if msgs.length < deliverChanDeep then some { s with ctx.deliver := some (msgs ++ [msg]) }
      else none
    | none => none

def Conn.new : Conn where
  c := newNetconn
  wq := 0
  gq := 0
  loop := .wait
  main := .out
  ctx := newClient
  workers := fun _ => ⟨.poll, false⟩

/-- `nworkers` workers of which `home` is the one with the number `pd.fd % nworkers`. -/
def connMachine (nworkers home : Nat) : Machine Conn Act where
  init s := s = .new
  step := Conn.step nworkers home

end Misc.Yagw
