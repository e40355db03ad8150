import Misc.Tcpproxy.Context
import Mathlib

namespace Misc.Tcpproxy
open Misc.Lib
set_option autoImplicit true

/-- What the data of an event points to. -/
structure PollDesp where
  who : Owner
  ctx : Nat
  deriving DecidableEq, Repr

/-- A `Context` in memory with its descriptors and the count of its `Rc`. What has been done
with it is in `acts`. -/
structure Conn where
  ctx : Context
  client_fd : Nat
  backend_fd : Nat
  in_buf : Nat × Nat
  out_buf : Nat × Nat
  in_pd : Nat
  out_pd : Nat
  strong : Nat
  acts : List Act

namespace Conn

def fd (conn : Conn) : Owner → Nat
  | .client => conn.client_fd
  | .backend => conn.backend_fd

def pd (conn : Conn) : Owner → Nat
  | .client => conn.in_pd
  | .backend => conn.out_pd

/-- The descriptors in the order in which `drop` closes them. -/
def fds (conn : Conn) : List Nat :=
  [conn.client_fd, conn.backend_fd, conn.in_buf.1, conn.in_buf.2, conn.out_buf.1, conn.out_buf.2]

end Conn

/-- Where `main` is: before `epoll_wait`, or with events left and contexts in `unused`. -/
inductive Loop
  | wait
  | events (batch unused : List Nat)

namespace Loop

def batch : Loop → List Nat
  | wait => []
  | events batch _ => batch

def unused : Loop → List Nat
  | wait => []
  | events _ unused => unused

end Loop

/-- A use of memory that is not there any more, a box that is freed twice, and the panic of
`epoll_del(..).unwrap()`. -/
inductive Failure
  | dangling
  | freed
  | notFound

/-- The whole program: the open descriptors, the interest list of `epfd`, the boxes and the
contexts in memory. The contexts that have been dropped are in `closed`. -/
structure Server where
  epfd : Nat
  listen_fd : Nat
  fds : List Nat
  epoll : Nat → Option Nat
  pds : Nat → Option PollDesp
  ctxs : Nat → Option Conn
  loop : Loop
  closed : List Conn

structure Made where
  backend_fd : Nat
  in_buf : Nat × Nat
  out_buf : Nat × Nat
  ctx : Nat
  in_pd : Nat
  out_pd : Nat

/-- What comes next, with the results of the system calls: `epoll_wait`, `accept4` with what
`handle_client` makes (nothing when it cannot connect), `accept4` with `EAGAIN`, an event, and
an element of `unused`. -/
inductive Next
  | wait (fds : List Nat)
  | accept (client_fd : Nat) (made : Option Made)
  | again
  | event (events : Events) (input output : Splices)
  | free

namespace Server

def start (epfd listen_fd : Nat) : Server :=
  ⟨epfd, listen_fd, [epfd, listen_fd], fun fd => if fd = listen_fd then some 0
    else none, fun _ => none, fun _ => none, .wait, []⟩

def epollDel (s : Server) (fd : Nat) : Except Failure Server :=
  if (s.epoll fd).isSome then .ok { s with epoll := Function.update s.epoll fd none }
    else .error .notFound

/-- `close`, which also takes the descriptor from the interest list. -/
def close (s : Server) (fd : Nat) : Server :=
  { s with fds := s.fds.filter (· ≠ fd), epoll := Function.update s.epoll fd none }

def setConn (s : Server) (c : Nat) (conn : Conn) : Server :=
  { s with ctxs := Function.update s.ctxs c (some conn) }

def dropContext (s : Server) (c : Nat) (conn : Conn) : Server :=
  { conn.fds.foldl close s with
    ctxs := Function.update s.ctxs c none, closed := s.closed ++ [conn] }

def dropRc (s : Server) (c : Nat) : Except Failure Server :=
  match s.ctxs c with
  | none => .error .dangling
  | some conn =>
    .ok (if conn.strong = 1 then s.dropContext c conn
      else s.setConn c { conn with strong := conn.strong - 1 })

def dropBox (s : Server) (p : Nat) : Except Failure Server :=
  match s.pds p with
  | none => .error .freed
  | some pd => { s with pds := Function.update s.pds p none }.dropRc pd.ctx

def setBad (s : Server) (c : Nat) : Except Failure Server :=
  match s.ctxs c with
  | none => .error .dangling
  | some conn =>
    .ok (s.setConn c { conn with ctx := conn.ctx.shutdown, acts := conn.acts ++ [.endBatch] })

def shutdown (s : Server) (c : Nat) : Except Failure Server :=
  match s.ctxs c with
  | none => .error .dangling
  | some conn =>
    if conn.ctx.bad then .ok s
    else do
      let s ← s.epollDel conn.client_fd
      let s ← s.epollDel conn.backend_fd
      let s ← s.dropBox conn.in_pd
      let s ← s.dropBox conn.out_pd
      s.setBad c

/-- `handle_client` once it is connected. -/
def handleClient (s : Server) (client_fd : Nat) (m : Made) : Server :=
  let conn : Conn :=
    ⟨.new, client_fd, m.backend_fd, m.in_buf, m.out_buf, m.in_pd, m.out_pd, 2, []⟩
  { s with
    fds := conn.fds ++ s.fds
    epoll :=
      Function.update (Function.update s.epoll client_fd (some m.in_pd))
      m.backend_fd (some m.out_pd)
    pds :=
      Function.update (Function.update s.pds m.in_pd (some ⟨.client, m.ctx⟩)) m.out_pd
      (some ⟨.backend, m.ctx⟩)
    ctxs := Function.update s.ctxs m.ctx (some conn) }

/-- The kernel and the allocator give what is not in use. -/
def Fresh (s : Server) (client_fd : Nat) (m : Made) : Prop :=
  ([client_fd, m.backend_fd, m.in_buf.1, m.in_buf.2, m.out_buf.1, m.out_buf.2] ++ s.fds).Nodup ∧
    [0, m.in_pd, m.out_pd].Nodup ∧ (s.pds m.in_pd).isNone ∧ (s.pds m.out_pd).isNone ∧
      (s.ctxs m.ctx).isNone

instance (s : Server) (client_fd : Nat) (m : Made) : Decidable (s.Fresh client_fd m) :=
  inferInstanceAs (Decidable (_ ∧ _))

def handle (maxSize : Nat) (s : Server) (p : Nat) (batch unused : List Nat) (events : Events)
    (input output : Splices) : Option (Except Failure Server) :=
  match s.pds p with
  | none => some (.error .dangling)
  | some pd =>
    match s.ctxs pd.ctx with
    | none => some (.error .dangling)
    | some conn =>
      (Proxy.handle maxSize ⟨conn.ctx, false⟩ pd.who events input output).map fun q =>
        .ok { s.setConn pd.ctx { conn with
            ctx := q.ctx
            strong := conn.strong + q.unused.toNat
            acts := conn.acts ++ [.event pd.who events input output] } with
          loop := .events batch (unused ++ if q.unused then [pd.ctx] else []) }

def step (maxSize : Nat) (s : Server) (a : Next) : Option (Except Failure Server) :=
  match a, s.loop with
  | .wait fds, .wait =>
    if fds.Nodup ∧ fds.length ≤ 64 ∧ ∀ fd ∈ fds, (s.epoll fd).isSome then
      some (.ok { s with loop := .events (fds.filterMap s.epoll) [] })
    else none
  | .accept client_fd none, .events (0 :: _) _ =>
    if client_fd ∈ s.fds then none else some (.ok s)
  | .accept client_fd (some m), .events (0 :: _) _ =>
    if s.Fresh client_fd m then some (.ok (s.handleClient client_fd m)) else none
  | .again, .events (0 :: batch) unused => some (.ok { s with loop := .events batch unused })
  | .event events input output, .events ((p + 1) :: batch) unused =>
    s.handle maxSize (p + 1) batch unused events input output
  | .free, .events [] [] => some (.ok { s with loop := .wait })
  | .free, .events [] (c :: unused) =>
    some (({ s with loop := .events [] unused }.shutdown c).bind fun s => s.dropRc c)
  | _, _ => none

inductive Stepped (maxSize : Nat) (s : Server) : Next → Except Failure Server → Prop
  | wait {l : List Nat} (hl : s.loop = .wait) :
    Stepped maxSize s (.wait l) (.ok { s with loop := .events (l.filterMap s.epoll) [] })
  | refuse (hl : s.loop = .events (0 :: batch) unused) :
      Stepped maxSize s (.accept client_fd none) (.ok s)
  | accept (hl : s.loop = .events (0 :: batch) unused) (hf : s.Fresh client_fd m) :
    Stepped maxSize s (.accept client_fd (some m)) (.ok (s.handleClient client_fd m))
  | again (hl : s.loop = .events (0 :: batch) unused) :
    Stepped maxSize s .again (.ok { s with loop := .events batch unused })
  | event (hl : s.loop = .events (p :: batch) unused) (hp : p ≠ 0)
    (hs : s.handle maxSize p batch unused events input output = some r) :
      Stepped maxSize s (.event events input output) r
  | rest (hl : s.loop = .events [] []) : Stepped maxSize s .free (.ok { s with loop := .wait })
  | free (hl : s.loop = .events [] (c :: unused)) : Stepped maxSize s .free
    (({ s with loop := .events [] unused }.shutdown c).bind fun s => s.dropRc c)

theorem stepped_of_step {s : Server} (hs : s.step maxSize a = some r) :
    Stepped maxSize s a r := by
  unfold step at hs
  split at hs
  next hl =>
    cases (Option.ite_none_right_eq_some.1 hs).2
    exact .wait hl
  next hl =>
    cases (Option.ite_none_left_eq_some.1 hs).2
    exact .refuse hl
  next hl =>
    obtain ⟨hf, hs⟩ := Option.ite_none_right_eq_some.1 hs
    cases hs
    exact .accept hl hf
  next hl =>
    cases hs
    exact .again hl
  next hl => exact .event hl (Nat.succ_ne_zero _) hs
  next hl =>
    cases hs
    exact .rest hl
  next hl =>
    cases hs
    exact .free hl
  next => cases hs

/-- The program ends with the first failure. -/
def machine (maxSize : Nat) : Machine (Except Failure Server) Next where
  init r := ∃ epfd listen_fd, epfd ≠ listen_fd ∧ r = .ok (start epfd listen_fd)
  step r a :=
    match r with
    | .error _ => none
    | .ok s => s.step maxSize a

end Server

end Misc.Tcpproxy
