import Misc.Lib.Machine
import Misc.Lib.Window

namespace Misc.TcpEcho
open Misc.Lib
set_option autoImplicit true

def clientBufSize : Nat := 4096

def EAGAIN : Nat := 11

/-- The memory comes from `malloc`, so a new client may find anything in its buffer. -/
structure Client where
  buf : List UInt8
  sz : Nat
  wr : Nat
  length_buf : buf.length = clientBufSize
  wr_le : wr ≤ sz
  sz_le : sz ≤ clientBufSize
  deriving DecidableEq, Repr

namespace Client

def pending (c : Client) : List UInt8 := window c.buf c.wr c.sz

/-- The kernel has stored these bytes at `buf + sz`. -/
def fill (c : Client) (data : List UInt8) (h : c.sz + data.length ≤ clientBufSize) : Client where
  buf := store c.buf c.sz data
  sz := c.sz + data.length
  wr := c.wr
  length_buf := (length_store (by rwa [c.length_buf])).trans c.length_buf
  wr_le := Nat.le_add_right_of_le c.wr_le
  sz_le := h

def advance (c : Client) (n : Nat) (h : c.wr + n ≤ c.sz) : Client :=
  { c with wr := c.wr + n, wr_le := h }

def reset (c : Client) : Client :=
  { c with wr := 0, sz := 0, wr_le := Nat.le_refl 0, sz_le := Nat.zero_le _ }

theorem pending_fill (c : Client) (data : List UInt8) (h : c.sz + data.length ≤ clientBufSize) :
    (c.fill data h).pending = c.pending ++ data :=
  window_store c.wr_le (by rw [c.length_buf]; exact c.sz_le) data

theorem pending_advance (c : Client) (n : Nat) (h : c.wr + n ≤ c.sz) :
    window c.buf c.wr (c.wr + n) ++ (c.advance n h).pending = c.pending :=
  window_split h

theorem pending_eq_nil (c : Client) : c.pending = [] ↔ c.wr = c.sz := by
  rw [pending, window_eq_nil (by rw [c.length_buf]; exact c.sz_le)]
  exact ⟨Nat.le_antisymm c.wr_le, Nat.le_of_eq ∘ Eq.symm⟩

theorem pending_reset (c : Client) : c.reset.pending = [] := window_self c.buf 0

end Client

inductive Closing
  | eof
  | error
  deriving DecidableEq, Repr

/-- A connection: its context with the client, and all the bytes that have been read and
written. -/
structure IoContext where
  data : Client
  prd : Bool
  pwr : Bool
  got : List UInt8
  put : List UInt8
  closed : Option Closing
  deriving DecidableEq, Repr

namespace IoContext

def closeClient (ctx : IoContext) (why : Closing) : IoContext := { ctx with closed := some why }

def fill (ctx : IoContext) (data : List UInt8) (h : ctx.data.sz + data.length ≤ clientBufSize) :
    IoContext :=
  { ctx with data := ctx.data.fill data h, got := ctx.got ++ data }

def advance (ctx : IoContext) (n : Nat) (h : ctx.data.wr + n ≤ ctx.data.sz) : IoContext :=
  { ctx with
    data := ctx.data.advance n h
    put := ctx.put ++ window ctx.data.buf ctx.data.wr (ctx.data.wr + n) }

/-- The results of system calls that are not made. -/
def unasked (results : List α) (ctx : IoContext) : Option IoContext :=
  if results.isEmpty then some ctx else none

/-- The loop that reads, with exactly the results of its calls of `read`. No bytes are the end of
file. -/
def readLoop : List (Except Nat (List UInt8)) → IoContext → Option IoContext
  | [], ctx => if ctx.data.sz < clientBufSize then none else some ctx
  | r :: rs, ctx =>
    if ctx.data.sz < clientBufSize then
      match r with
      | .error e =>
        unasked rs (if e = EAGAIN then { ctx with prd := false } else ctx.closeClient .error)
      | .ok data =>
        if h : ctx.data.sz + data.length ≤ clientBufSize then
          if data = [] then unasked rs (ctx.closeClient .eof) else readLoop rs (ctx.fill data h)
        else none
    else none

/-- The loop that writes, with exactly the results of its calls of `write`. -/
def writeLoop : List (Except Nat Nat) → IoContext → Option IoContext
  | [], ctx => if ctx.data.wr < ctx.data.sz then none else some ctx
  | r :: rs, ctx =>
    if ctx.data.wr < ctx.data.sz then
      match r with
      | .error e =>
        unasked rs (if e = EAGAIN then { ctx with pwr := false } else ctx.closeClient .error)
      | .ok n =>
        if h : ctx.data.wr + n ≤ ctx.data.sz then writeLoop rs (ctx.advance n h) else none
    else none

def restart (ctx : IoContext) : IoContext :=
  if ctx.closed = none ∧ ctx.data.wr = ctx.data.sz then
    { ctx with data := ctx.data.reset } else ctx

def handleClientIo (ctx : IoContext) (reads : List (Except Nat (List UInt8)))
    (writes : List (Except Nat Nat)) : Option IoContext :=
  (if ctx.prd then readLoop reads ctx else unasked reads ctx).bind fun ctx =>
    if ctx.closed = none ∧ ctx.pwr then (writeLoop writes ctx).map restart
      else unasked writes ctx

end IoContext

/-- An event of the client, as `main` reads its flags, with the results of the system calls that
the handler then makes. -/
structure Event where
  readable : Bool
  writable : Bool
  reads : List (Except Nat (List UInt8))
  writes : List (Except Nat Nat)

namespace IoContext

/-- The flags that `main` sets before it calls the handler. -/
def notify (ctx : IoContext) (ev : Event) : IoContext :=
  { ctx with prd := ctx.prd || ev.readable, pwr := ctx.pwr || ev.writable }

def processIo (ctx : IoContext) (ev : Event) : Option IoContext :=
  if ctx.closed = none then (ctx.notify ev).handleClientIo ev.reads ev.writes else none

structure Fresh (ctx : IoContext) : Prop where
  sz : ctx.data.sz = 0
  wr : ctx.data.wr = 0
  prd : ctx.prd = false
  pwr : ctx.pwr = false
  got : ctx.got = []
  put : ctx.put = []
  closed : ctx.closed = none

end IoContext

def machine : Machine IoContext Event where
  init := IoContext.Fresh
  step := IoContext.processIo

end Misc.TcpEcho
