import Misc.Lib.Machine

namespace Misc.Tcpproxy
open Misc.Lib
set_option autoImplicit true

abbrev SysResult := Except Nat

def EAGAIN : Nat := 11

/-- The buffer of one direction. `buffered` is the variable of the code and `pipe` what the pipe
holds; `got` and `put` are all the bytes that have ever been spliced in and out. -/
structure PipeBuf where
  buffered : Nat
  pipe : List UInt8
  got : List UInt8
  put : List UInt8
  deriving DecidableEq, Repr

namespace PipeBuf

def new : PipeBuf := ⟨0, [], [], []⟩

def isEmpty (buf : PipeBuf) : Bool := buf.buffered = 0

/-- The kernel has moved these bytes into the pipe. -/
def fill (buf : PipeBuf) (data : List UInt8) : PipeBuf :=
  ⟨buf.buffered + data.length, buf.pipe ++ data, buf.got ++ data, buf.put⟩

/-- The kernel has moved `n` bytes out of the pipe. -/
def drain (buf : PipeBuf) (n : Nat) : PipeBuf :=
  ⟨buf.buffered - n, buf.pipe.drop n, buf.got, buf.put ++ buf.pipe.take n⟩

/-- `splice_in` with the results of its calls of `splice`, of which it leaves some over; no
bytes are the end of file. It is `none` if a result is missing or says more than was asked
for. -/
def spliceIn (maxSize : Nat) : List (SysResult (List UInt8)) → PipeBuf →
    Option (SysResult Bool × PipeBuf × List (SysResult (List UInt8)))
  | [], buf => if buf.buffered < maxSize then none else some (.ok false, buf, [])
  | r :: results, buf =>
    if buf.buffered < maxSize then
      match r with
      | .error e => some (if e = EAGAIN then .ok false else .error e, buf, results)
      | .ok data =>
        if maxSize - buf.buffered < data.length then none
        else if data = [] then some (.ok buf.isEmpty, buf, results)
        else spliceIn maxSize results (buf.fill data)
    else some (.ok false, buf, r :: results)

def spliceOut : List (SysResult Nat) → PipeBuf →
      Option (SysResult Unit × PipeBuf × List (SysResult Nat))
  | [], buf => if 0 < buf.buffered then none else some (.ok (), buf, [])
  | r :: results, buf =>
    if 0 < buf.buffered then
      match r with
      | .error e => some (if e = EAGAIN then .ok () else .error e, buf, results)
      | .ok n => if buf.buffered < n then none else spliceOut results (buf.drain n)
    else some (.ok (), buf, r :: results)

end PipeBuf

/-- The results of the calls of `splice` in one `copy`. -/
structure Splices where
  ins : List (SysResult (List UInt8))
  outs : List (SysResult Nat)

structure Context where
  bad : Bool
  inBuf : PipeBuf
  outBuf : PipeBuf
  deriving DecidableEq, Repr

namespace Context

def new : Context := ⟨false, .new, .new⟩

/-- A call that has taken all the results it is given. -/
def taken (r : Option (α × PipeBuf × List β)) : Option (α × PipeBuf) :=
  r.bind fun (a, buf, rest) => if rest.isEmpty then some (a, buf) else none

/-- `copy` with exactly the results that it takes. -/
def copy (maxSize : Nat) (buf : PipeBuf) (io : Splices) : Option (SysResult Unit × PipeBuf) :=
  (taken (buf.spliceIn maxSize io.ins)).bind fun (r, buf) =>
    match r with
    | .error e => taken (some (.error e, buf, io.outs))
    | .ok eof =>
      (taken (if buf.isEmpty then some (.ok (), buf, io.outs) else buf.spliceOut io.outs)).map
        fun (r, buf) => match r with
          | .error e => (.error e, buf)
          | .ok () => (if eof && buf.isEmpty then .error 0 else .ok (), buf)

def copyFrom (maxSize : Nat) (ctx : Context) (io : Splices) :
    Option (SysResult Unit × Context) :=
  if ctx.bad then some (.error 0, ctx)
  else (copy maxSize ctx.inBuf io).map fun (r, buf) => (r, { ctx with inBuf := buf })

def copyTo (maxSize : Nat) (ctx : Context) (io : Splices) : Option (SysResult Unit × Context) :=
  if ctx.bad then some (.error 0, ctx)
  else (copy maxSize ctx.outBuf io).map fun (r, buf) => (r, { ctx with outBuf := buf })

def shutdown (ctx : Context) : Context := { ctx with bad := true }

end Context

inductive Owner
  | client
  | backend
  deriving DecidableEq, Repr

/-- The flags of an event that the loop looks at. -/
structure Events where
  IN : Bool
  OUT : Bool
  ERR : Bool
  HUP : Bool
  RDHUP : Bool
  deriving DecidableEq, Repr

/-- A context in the loop of `main`, and whether it is in `unused`. -/
structure Proxy where
  ctx : Context
  unused : Bool
  deriving DecidableEq, Repr

/-- An event on one of the two sockets, with the results for the copies that it may lead to, or
the end of the events that one `epoll_wait` has returned. -/
inductive Act
  | event (who : Owner) (events : Events) (input output : Splices)
  | endBatch

namespace Proxy

def input (events : Events) : Bool := events.IN || events.ERR || events.RDHUP

def output (events : Events) : Bool := events.OUT || events.ERR || events.HUP

def onInput (maxSize : Nat) (ctx : Context) (who : Owner) (events : Events) (io : Splices) :
    Option (SysResult Unit × Context) :=
  if input events then
    if who = .client then ctx.copyFrom maxSize io else ctx.copyTo maxSize io
  else some (.ok (), ctx)

def onOutput (maxSize : Nat) (ctx : Context) (who : Owner) (events : Events) (io : Splices) :
    Option (SysResult Unit × Context) :=
  if output events then
    if who = .backend then ctx.copyFrom maxSize io else ctx.copyTo maxSize io
  else some (.ok (), ctx)

/-- The loop of `main` for one event. -/
def handle (maxSize : Nat) (p : Proxy) (who : Owner) (events : Events) (io io' : Splices) :
    Option Proxy :=
  (onInput maxSize p.ctx who events io).bind fun (res, ctx) =>
    (onOutput maxSize ctx who events io').map fun (res', ctx) =>
      { ctx, unused := p.unused || !res.isOk || !res'.isOk }

/-- Nothing is reported for sockets that have been removed. -/
def step (maxSize : Nat) (p : Proxy) : Act → Option Proxy
  | .event who events io io' => if p.ctx.bad then none else p.handle maxSize who events io io'
  | .endBatch => some { ctx := if p.unused then p.ctx.shutdown else p.ctx, unused := false }

def new : Proxy := ⟨.new, false⟩

end Proxy

def machine (maxSize : Nat) : Machine Proxy Act where
  init p := p = .new
  step := Proxy.step maxSize

end Misc.Tcpproxy
